import Ownership.Proofs.Geometry
import Ownership.Proofs.Words

/-!
# Sound memory

A heap that was reached from the initial one by its own operations, and
whose allocations have not yet grown into an arena with stack slots, is
*sound*: every block lies in its arena and the blocks are apart
(`Reachable.sound`). In a sound heap an access inside a block is judged
by that block (`Sound.judges`), so reads and writes are those of its
buffer. At the first address of a block this is so in every heap that
was reached (`Bounded.judges`).
-/

namespace Ownership

namespace Heap

/-- The heap with another block at an address. -/
def putBlock (h : Heap) (a : Address) (b : Block) : Heap :=
  { h with blocks := h.blocks.insert a b }

theorem get?_putBlock (h : Heap) (a a' : Address) (b : Block) :
    (h.putBlock a b).blocks.get? a' = if a' = a then some b else h.blocks.get? a' :=
  NatMap.get?_insert h.blocks a a' b

/-- The heap with `size` bytes counted as allocated. -/
def reserve (h : Heap) (size : Nat) : Heap :=
  { h with
    nextHeap := h.nextHeap + stride size
    mallocs := h.mallocs + 1
    bytesAllocated := h.bytesAllocated + size }

/-- The heap `h'` is `h` with another block at an address. -/
structure Puts (h : Heap) (a : Address) (b : Block) (h' : Heap) : Prop where
  block : h'.blocks.get? a = some b
  elsewhere : ∀ x, x ≠ a → h'.blocks.get? x = h.blocks.get? x
  nextHeap : h'.nextHeap = h.nextHeap
  nextStack : h'.nextStack = h.nextStack
  mallocs : h'.mallocs = h.mallocs
  bytesAllocated : h'.bytesAllocated = h.bytesAllocated
  frees : h'.frees = h.frees
  freed : h'.freed = h.freed

theorem puts_self {h : Heap} {a : Address} {b : Block} (hb : h.blocks.get? a = some b) :
    h.Puts a b h := ⟨hb, fun _ _ => rfl, rfl, rfl, rfl, rfl, rfl, rfl⟩

theorem puts_putBlock (h : Heap) (a : Address) (b : Block) : h.Puts a b (h.putBlock a b) where
  block := by rw [get?_putBlock, if_pos rfl]
  elsewhere := fun x hx => by rw [get?_putBlock, if_neg hx]
  nextHeap := rfl
  nextStack := rfl
  mallocs := rfl
  bytesAllocated := rfl
  frees := rfl
  freed := rfl

theorem Puts.trans {h h₁ h₂ : Heap} {a : Address} {b₁ b₂ : Block} (hp₁ : h.Puts a b₁ h₁)
    (hp₂ : h₁.Puts a b₂ h₂) : h.Puts a b₂ h₂ where
  block := hp₂.block
  elsewhere := fun x hx => (hp₂.elsewhere x hx).trans (hp₁.elsewhere x hx)
  nextHeap := hp₂.nextHeap.trans hp₁.nextHeap
  nextStack := hp₂.nextStack.trans hp₁.nextStack
  mallocs := hp₂.mallocs.trans hp₁.mallocs
  bytesAllocated := hp₂.bytesAllocated.trans hp₁.bytesAllocated
  frees := hp₂.frees.trans hp₁.frees
  freed := hp₂.freed.trans hp₁.freed

theorem add_guard_le_stride (size : Nat) : size + guardSize ≤ stride size := by
  have := le_alignUp (show 0 < granule by decide) (max size 1)
  unfold stride
  omega

/-! ## Operations as changes of one block -/

theorem bump_ok {next size n : Nat} (h : bump next size = .ok n) :
    n = next + stride size ∧ next + stride size < sizeLimit := by
  unfold bump addSize at h
  split at h
  · next hlt => exact ⟨(Except.ok.inj h).symm, hlt⟩
  · cases h

theorem place_ok {h h' : Heap} {a : Address} {arena : Arena} {size : Nat}
    (hp : h.place a arena size = .ok h') :
    h' = h.putBlock a ⟨arena, true, .zeros size⟩ ∧ size < capacityLimit := by
  unfold place at hp
  split at hp
  · next hlt => exact ⟨(Except.ok.inj hp).symm, hlt⟩
  · cases hp

theorem malloc_ok {h h' : Heap} {size : Nat} {a : Address} (hm : h.malloc size = .ok (a, h')) :
    a = h.nextHeap ∧ h.nextHeap + stride size < sizeLimit
      ∧ h.bytesAllocated + size < sizeLimit ∧ size < capacityLimit
      ∧ h' = (h.reserve size).putBlock h.nextHeap ⟨.heap, true, .zeros size⟩ := by
  unfold malloc at hm
  cases hb : bump h.nextHeap size with
  | error e => simp [hb, bind, Except.bind] at hm
  | ok next =>
      obtain ⟨rfl, hnext⟩ := bump_ok hb
      cases ha : addSize h.bytesAllocated size with
      | error e => simp [hb, ha, bind, Except.bind] at hm
      | ok total =>
          obtain ⟨rfl, htotal⟩ := addSize_ok ha
          cases hp : h.place h.nextHeap .heap size with
          | error e => simp [hb, ha, hp, bind, Except.bind] at hm
          | ok after =>
              obtain ⟨rfl, hcapacity⟩ := place_ok hp
              simp only [hb, ha, hp, bind, Except.bind, pure, Except.pure, Except.ok.injEq,
                Prod.mk.injEq] at hm
              exact ⟨hm.1.symm, hnext, htotal, hcapacity, hm.2.symm⟩

/-- An allocation that has room. -/
theorem malloc_eq {h : Heap} {size : Nat} (hnext : h.nextHeap + stride size < sizeLimit)
    (htotal : h.bytesAllocated + size < sizeLimit) (hcapacity : size < capacityLimit) :
    h.malloc size = .ok (h.nextHeap,
      (h.reserve size).putBlock h.nextHeap ⟨.heap, true, .zeros size⟩) := by
  simp only [malloc, bump, addSize, place, if_pos hnext, if_pos htotal, if_pos hcapacity]
  rfl

theorem pushSlot_ok {h h' : Heap} {size : Nat} {a : Address}
    (hm : h.pushSlot size = .ok (a, h')) :
    a = h.nextStack ∧ h.nextStack + stride size < sizeLimit
      ∧ h' = { h.putBlock h.nextStack ⟨.stack, true, .zeros size⟩ with
          nextStack := h.nextStack + stride size } := by
  unfold pushSlot at hm
  cases hb : bump h.nextStack size with
  | error e => simp [hb, bind, Except.bind] at hm
  | ok next =>
      obtain ⟨rfl, hlt⟩ := bump_ok hb
      cases hp : h.place h.nextStack .stack size with
      | error e => simp [hb, hp, bind, Except.bind] at hm
      | ok after =>
          obtain ⟨rfl, -⟩ := place_ok hp
          simp only [hb, hp, bind, Except.bind, pure, Except.pure, Except.ok.injEq,
            Prod.mk.injEq] at hm
          exact ⟨hm.1.symm, hlt, hm.2.symm⟩

theorem kill_eq {h : Heap} {a : Address} {b : Block} (hb : h.blocks.get? a = some b) :
    h.kill a = h.putBlock a { b with live := false } := by
  simp only [kill, hb]
  rfl

theorem kill_none {h : Heap} {a : Address} (hb : h.blocks.get? a = none) : h.kill a = h := by
  simp only [kill, hb]

/-- What a free that does something does. -/
theorem free_eq {h : Heap} {a : Address} {b : Block} (ha : a ≠ 0)
    (hb : h.blocks.get? a = some b) (harena : b.arena = .heap) (hlive : b.live = true) :
    h.free a = .ok { h.putBlock a { b with live := false } with
      frees := h.frees + 1, freed := a :: h.freed } := by
  simp only [free, if_neg ha, hb, harena, hlive, kill_eq hb]
  rfl

theorem free_ok {h h' : Heap} {a : Address} (hf : h.free a = .ok h') :
    h' = h ∨ ∃ b, h.blocks.get? a = some b
      ∧ h' = { h.putBlock a { b with live := false } with
          frees := h.frees + 1, freed := a :: h.freed } := by
  unfold free at hf
  split at hf
  · exact Or.inl (Except.ok.inj hf).symm
  · split at hf
    · cases hf
    · next b hb =>
        split at hf
        · cases hf
        · split at hf
          · rw [kill_eq hb] at hf
            exact Or.inr ⟨b, hb, (Except.ok.inj hf).symm⟩
          · cases hf

/-- The block at `base` holds the `len` bytes at `addr`. -/
structure Covers (h : Heap) (addr : Address) (len : Nat) (base : Address) (b : Block) : Prop where
  block : h.blocks.get? base = some b
  start : base ≤ addr
  stop : addr + len ≤ base + b.bytes.size

theorem Covers.fits {h : Heap} {addr base : Address} {len : Nat} {b : Block}
    (hc : h.Covers addr len base b) : addr - base + len ≤ b.bytes.size := by
  have h1 := hc.start
  have h2 := hc.stop
  lia

/-- The block at `base` is the one that an access of `len` bytes at `addr` is judged by, and the
access is inside it. -/
structure Judges (h : Heap) (addr : Address) (len : Nat) (base : Address) (b : Block) : Prop where
  floor : h.blocks.floor? addr = some (base, b)
  ne_zero : addr ≠ 0
  limit : addr + len < sizeLimit
  stop : addr + len ≤ base + b.bytes.size

theorem Judges.covers {h : Heap} {addr base : Address} {len : Nat} {b : Block}
    (hj : h.Judges addr len base b) : h.Covers addr len base b := by
  obtain ⟨hmem, hle, -⟩ := NatMap.floor?_eq_some_iff.mp hj.floor
  exact ⟨NatMap.get?_eq_some_iff.mpr hmem, hle, hj.stop⟩

theorem locate_ok {h : Heap} {addr base : Address} {len : Nat} {b : Block}
    (hl : h.locate addr len = .ok (base, b)) : h.Judges addr len base b ∧ b.live = true := by
  unfold locate at hl
  split at hl
  · cases hl
  · next hzero =>
      split at hl
      · cases hl
      · next base' b' hfloor =>
          split at hl
          · cases hl
          · next hlimit =>
              split at hl
              · cases hl
              · next hend =>
                  split at hl
                  · next hlive =>
                      obtain ⟨rfl, rfl⟩ := Prod.mk.inj (Except.ok.inj hl)
                      exact ⟨⟨hfloor, hzero, Nat.not_le.mp hlimit, Nat.not_lt.mp hend⟩, hlive⟩
                  · cases hl

theorem read_ok {h : Heap} {addr : Address} {len : Nat} {data : List UInt8}
    (hr : h.read addr len = .ok data) :
    ∃ base b, h.Judges addr len base b ∧ b.live = true
      ∧ data = b.bytes.slice (addr - base) len := by
  unfold read at hr
  cases hl : h.locate addr len with
  | error e => simp [hl, bind, Except.bind] at hr
  | ok p =>
      obtain ⟨base, b⟩ := p
      obtain ⟨hj, hlive⟩ := locate_ok hl
      simp only [hl, bind, Except.bind, Bytes.slice?_eq hj.covers.fits] at hr
      exact ⟨base, b, hj, hlive, (Except.ok.inj hr).symm⟩

/-- What a write does to the block it lies in. -/
theorem write_ok {h h' : Heap} {a : Address} {data : List UInt8} (hw : h.write a data = .ok h') :
    ∃ base b, h.Covers a data.length base b ∧ b.live = true
      ∧ h' = h.putBlock base { b with bytes := b.bytes.put (a - base) data } := by
  unfold write at hw
  cases hl : h.locate a data.length with
  | error e => simp [hl, bind, Except.bind] at hw
  | ok p =>
      obtain ⟨base, b⟩ := p
      obtain ⟨hj, hlive⟩ := locate_ok hl
      simp only [hl, bind, Except.bind, Bytes.write?_eq hj.covers.fits] at hw
      exact ⟨base, b, hj.covers, hlive, (Except.ok.inj hw).symm⟩

/-! ## Soundness -/

/-- Blocks lie in their arenas, and apart from one another. -/
structure Sound (h : Heap) : Prop where
  heapStart : heapBase ≤ h.nextHeap
  heapEnd : h.nextHeap < sizeLimit
  room : h.nextHeap ≤ stackBase ∨ h.nextStack = stackBase
  stackStart : stackBase ≤ h.nextStack
  stackEnd : h.nextStack < sizeLimit
  inHeap : ∀ {a b}, h.blocks.get? a = some b → b.arena = .heap →
    heapBase ≤ a ∧ a + stride b.bytes.size ≤ h.nextHeap
  inStack : ∀ {a b}, h.blocks.get? a = some b → b.arena = .stack →
    stackBase ≤ a ∧ a + stride b.bytes.size ≤ h.nextStack
  apart : ∀ {a a' b b'}, h.blocks.get? a = some b → h.blocks.get? a' = some b' → a < a' →
    a + b.bytes.size + guardSize ≤ a'

theorem sound_initial : Sound initial where
  heapStart := Nat.le_refl _
  heapEnd := by decide
  room := Or.inr rfl
  stackStart := Nat.le_refl _
  stackEnd := by decide
  inHeap := nofun
  inStack := nofun
  apart := nofun

theorem Sound.bounds {h : Heap} (hs : h.Sound) {a : Address} {b : Block}
    (hb : h.blocks.get? a = some b) :
    heapBase ≤ a ∧ a + b.bytes.size + guardSize < sizeLimit := by
  have hstride := add_guard_le_stride b.bytes.size
  cases harena : b.arena with
  | heap =>
      obtain ⟨h1, h2⟩ := hs.inHeap hb harena
      have h3 := hs.heapEnd
      exact ⟨h1, by lia⟩
  | stack =>
      obtain ⟨h1, h2⟩ := hs.inStack hb harena
      have h3 := hs.stackEnd
      have h4 : heapBase ≤ stackBase := by decide
      exact ⟨by lia, by lia⟩

/-- Blocks have room behind them, and none is at null. They may lie in each other's way. -/
structure Bounded (h : Heap) : Prop where
  heapStart : heapBase ≤ h.nextHeap
  stackStart : stackBase ≤ h.nextStack
  bounds : ∀ {a b}, h.blocks.get? a = some b →
    heapBase ≤ a ∧ a + b.bytes.size + guardSize < sizeLimit

theorem bounded_initial : Bounded initial := ⟨Nat.le_refl _, Nat.le_refl _, nofun⟩

theorem Sound.bounded {h : Heap} (hs : h.Sound) : h.Bounded :=
  ⟨hs.heapStart, hs.stackStart, hs.bounds⟩

theorem Bounded.ne_zero {h : Heap} (hd : h.Bounded) {a : Address} {b : Block}
    (hb : h.blocks.get? a = some b) : a ≠ 0 := by
  have h1 := (hd.bounds hb).1
  have h2 : 0 < heapBase := by decide
  lia

theorem Bounded.puts {h h' : Heap} (hd : h.Bounded) {a : Address} {b : Block} (hp : h.Puts a b h')
    (ha : heapBase ≤ a) (hend : a + b.bytes.size + guardSize < sizeLimit) : h'.Bounded := by
  refine ⟨hp.nextHeap ▸ hd.heapStart, hp.nextStack ▸ hd.stackStart, fun {x c} hc => ?_⟩
  by_cases hx : x = a
  · subst hx
    obtain rfl := Option.some.inj (hp.block.symm.trans hc)
    exact ⟨ha, hend⟩
  · exact hd.bounds (hp.elsewhere x hx ▸ hc)

theorem Bounded.rewrite {h h' : Heap} (hd : h.Bounded) {a : Address} {b b' : Block}
    (hb : h.blocks.get? a = some b) (hp : h.Puts a b' h')
    (hsize : b'.bytes.size = b.bytes.size) : h'.Bounded :=
  hd.puts hp (hd.bounds hb).1 (hsize ▸ (hd.bounds hb).2)

theorem Bounded.malloc {h h' : Heap} (hd : h.Bounded) {size : Nat} {a : Address}
    (hm : h.malloc size = .ok (a, h')) : h'.Bounded := by
  obtain ⟨-, hnext, -, -, rfl⟩ := malloc_ok hm
  have hstride := add_guard_le_stride size
  have hreserve : (h.reserve size).Bounded :=
    ⟨hd.heapStart.trans (Nat.le_add_right _ _), hd.stackStart, hd.bounds⟩
  exact hreserve.puts (puts_putBlock ..) hd.heapStart
    (show h.nextHeap + size + guardSize < sizeLimit by lia)

/-- Soundness depends on the extent of blocks only. -/
theorem Sound.of_extents {h h' : Heap} (hs : h.Sound)
    (hget : ∀ {a b'}, h'.blocks.get? a = some b' →
      ∃ b, h.blocks.get? a = some b ∧ b'.arena = b.arena ∧ b'.bytes.size = b.bytes.size)
    (hh : h'.nextHeap = h.nextHeap) (hst : h'.nextStack = h.nextStack) : h'.Sound := by
  refine ⟨hh ▸ hs.heapStart, hh ▸ hs.heapEnd, hh ▸ hst ▸ hs.room, hst ▸ hs.stackStart,
    hst ▸ hs.stackEnd, ?_, ?_, ?_⟩
  · intro x c hc har
    obtain ⟨c', hc', h1, h2⟩ := hget hc
    rw [h2, hh]
    exact hs.inHeap hc' (h1 ▸ har)
  · intro x c hc har
    obtain ⟨c', hc', h1, h2⟩ := hget hc
    rw [h2, hst]
    exact hs.inStack hc' (h1 ▸ har)
  · intro x y c d hc hd hlt
    obtain ⟨c', hc', -, h2⟩ := hget hc
    obtain ⟨d', hd', -, -⟩ := hget hd
    rw [h2]
    exact hs.apart hc' hd' hlt

theorem Sound.puts {h h' : Heap} (hs : h.Sound) {a : Address} {b b' : Block}
    (hb : h.blocks.get? a = some b) (hp : h.Puts a b' h') (harena : b'.arena = b.arena)
    (hsize : b'.bytes.size = b.bytes.size) : h'.Sound := by
  refine hs.of_extents (fun {x c} hc => ?_) hp.nextHeap hp.nextStack
  by_cases hx : x = a
  · subst hx
    obtain rfl := Option.some.inj (hp.block.symm.trans hc)
    exact ⟨b, hb, harena, hsize⟩
  · exact ⟨c, (hp.elsewhere x hx) ▸ hc, rfl, rfl⟩

theorem Sound.putBlock {h : Heap} (hs : h.Sound) {a : Address} {b b' : Block}
    (hb : h.blocks.get? a = some b) (harena : b'.arena = b.arena)
    (hsize : b'.bytes.size = b.bytes.size) : (h.putBlock a b').Sound :=
  hs.puts hb (h.puts_putBlock a b') harena hsize

theorem Sound.of_blocks {h h' : Heap} (hs : h.Sound) (hb : h'.blocks = h.blocks)
    (hh : h'.nextHeap = h.nextHeap) (hst : h'.nextStack = h.nextStack) : h'.Sound :=
  hs.of_extents (fun {_ b'} hb' => ⟨b', hb ▸ hb', rfl, rfl⟩) hh hst

theorem Sound.free {h h' : Heap} (hs : h.Sound) {a : Address} (hf : h.free a = .ok h') :
    h'.Sound := by
  rcases free_ok hf with rfl | ⟨b, hb, rfl⟩
  · exact hs
  · have hput : (h.putBlock a { b with live := false }).Sound := hs.putBlock hb rfl rfl
    exact hput.of_blocks rfl rfl rfl

theorem Sound.kill {h : Heap} (hs : h.Sound) (a : Address) : (h.kill a).Sound := by
  cases hb : h.blocks.get? a with
  | none => rw [kill_none hb]; exact hs
  | some b => rw [kill_eq hb]; exact hs.putBlock hb rfl rfl

theorem Sound.write {h h' : Heap} (hs : h.Sound) {a : Address} {data : List UInt8}
    (hw : h.write a data = .ok h') : h'.Sound := by
  obtain ⟨base, b, hc, -, rfl⟩ := write_ok hw
  exact hs.putBlock hc.block rfl rfl

theorem Sound.malloc {h h' : Heap} (hs : h.Sound) {size : Nat} {a : Address}
    (hm : h.malloc size = .ok (a, h'))
    (hroom : h'.nextHeap ≤ stackBase ∨ h'.nextStack = stackBase) : h'.Sound := by
  obtain ⟨rfl, hend, -, -, rfl⟩ := malloc_ok hm
  change h.nextHeap + stride size ≤ stackBase ∨ h.nextStack = stackBase at hroom
  have hget : ∀ {x c}, (h.putBlock h.nextHeap ⟨.heap, true, .zeros size⟩).blocks.get? x = some c →
      (x = h.nextHeap ∧ c = ⟨.heap, true, .zeros size⟩) ∨ h.blocks.get? x = some c := by
    intro x c hc
    rw [get?_putBlock] at hc
    split at hc
    · next hx => exact Or.inl ⟨hx, (Option.some.inj hc).symm⟩
    · exact Or.inr hc
  -- a block that was there ends before the new one, or starts in the other arena behind it
  have hold : ∀ {x c}, h.blocks.get? x = some c →
      x + stride c.bytes.size ≤ h.nextHeap ∨ h.nextHeap + stride size ≤ x := by
    intro x c hc
    cases har : c.arena with
    | heap => exact Or.inl (hs.inHeap hc har).2
    | stack =>
        obtain ⟨h1, h2⟩ := hs.inStack hc har
        have h3 := add_guard_le_stride c.bytes.size
        have h4 : 0 < guardSize := by decide
        rcases hroom with hroom | hroom
        · exact Or.inr (by lia)
        · lia
  have hstride := add_guard_le_stride size
  refine ⟨Nat.le_trans hs.heapStart (Nat.le_add_right _ _), hend, hroom, hs.stackStart,
    hs.stackEnd, ?_, ?_, ?_⟩
  · intro x c hc har
    rcases hget hc with ⟨rfl, rfl⟩ | hc
    · exact ⟨hs.heapStart, Nat.le_refl _⟩
    · obtain ⟨h1, h2⟩ := hs.inHeap hc har
      exact ⟨h1, Nat.le_trans h2 (Nat.le_add_right _ _)⟩
  · intro x c hc har
    rcases hget hc with ⟨rfl, rfl⟩ | hc
    · cases har
    · exact hs.inStack hc har
  · intro x y c d hc hd hlt
    rcases hget hc with ⟨rfl, rfl⟩ | hc <;> rcases hget hd with ⟨rfl, rfl⟩ | hd
    · lia
    · have h1 := hold hd
      change h.nextHeap + size + guardSize ≤ y
      lia
    · have h1 := hold hc
      have h2 := add_guard_le_stride c.bytes.size
      lia
    · exact hs.apart hc hd hlt

theorem Sound.pushSlot {h h' : Heap} (hs : h.Sound) {size : Nat} {a : Address}
    (hm : h.pushSlot size = .ok (a, h')) (hend : h'.nextHeap ≤ stackBase) : h'.Sound := by
  obtain ⟨rfl, hlt, rfl⟩ := pushSlot_ok hm
  change h.nextHeap ≤ stackBase at hend
  have hget : ∀ {x c},
      (h.putBlock h.nextStack ⟨.stack, true, .zeros size⟩).blocks.get? x = some c →
      (x = h.nextStack ∧ c = ⟨.stack, true, .zeros size⟩) ∨ h.blocks.get? x = some c := by
    intro x c hc
    rw [get?_putBlock] at hc
    split at hc
    · next hx => exact Or.inl ⟨hx, (Option.some.inj hc).symm⟩
    · exact Or.inr hc
  have hold : ∀ {x c}, h.blocks.get? x = some c → x + stride c.bytes.size ≤ h.nextStack := by
    intro x c hc
    have h2 := hs.stackStart
    cases har : c.arena with
    | heap => have h3 := (hs.inHeap hc har).2; lia
    | stack => exact (hs.inStack hc har).2
  refine ⟨hs.heapStart, hs.heapEnd, Or.inl hend,
    Nat.le_trans hs.stackStart (Nat.le_add_right _ _), hlt,
    ?_, ?_, ?_⟩
  · intro x c hc har
    rcases hget hc with ⟨rfl, rfl⟩ | hc
    · cases har
    · exact hs.inHeap hc har
  · intro x c hc har
    rcases hget hc with ⟨rfl, rfl⟩ | hc
    · exact ⟨hs.stackStart, Nat.le_refl _⟩
    · obtain ⟨h1, h2⟩ := hs.inStack hc har
      exact ⟨h1, Nat.le_trans h2 (Nat.le_add_right _ _)⟩
  · intro x y c d hc hd hlt'
    rcases hget hc with ⟨rfl, rfl⟩ | hc <;> rcases hget hd with ⟨rfl, rfl⟩ | hd
    · lia
    · have h1 := hold hd
      lia
    · have h1 := hold hc
      have h2 := add_guard_le_stride c.bytes.size
      lia
    · exact hs.apart hc hd hlt'

/-- The heaps that operations lead to from the initial one. -/
inductive Reachable : Heap → Prop where
  | initial : Reachable initial
  | malloc {h h' : Heap} {size : Nat} {a : Address} :
      Reachable h → h.malloc size = .ok (a, h') → Reachable h'
  | free {h h' : Heap} {a : Address} : Reachable h → h.free a = .ok h' → Reachable h'
  | pushSlot {h h' : Heap} {size : Nat} {a : Address} :
      Reachable h → h.pushSlot size = .ok (a, h') → Reachable h'
  /-- The end of a stack slot. -/
  | dropSlot {h : Heap} {a : Address} {b : Block} :
      Reachable h → h.blocks.get? a = some b → b.arena = .stack → Reachable (h.kill a)
  | write {h h' : Heap} {a : Address} {data : List UInt8} :
      Reachable h → h.write a data = .ok h' → Reachable h'

theorem Reachable.bounded {h : Heap} (hr : Reachable h) : h.Bounded := by
  induction hr with
  | initial => exact bounded_initial
  | malloc _ hm ih => exact ih.malloc hm
  | free _ hf ih =>
      rcases free_ok hf with rfl | ⟨b, hb, rfl⟩
      · exact ih
      · have hput := ih.rewrite hb (puts_putBlock _ _ { b with live := false }) rfl
        exact ⟨hput.heapStart, hput.stackStart, hput.bounds⟩
  | @pushSlot h h' size a _ hm ih =>
      obtain ⟨-, hnext, rfl⟩ := pushSlot_ok hm
      have hstride := add_guard_le_stride size
      have hbase : heapBase ≤ h.nextStack := Nat.le_trans (by decide) ih.stackStart
      have hput := ih.puts (h.puts_putBlock h.nextStack ⟨.stack, true, .zeros size⟩) hbase
        (show h.nextStack + size + guardSize < sizeLimit by lia)
      exact ⟨hput.heapStart, hput.stackStart.trans (Nat.le_add_right _ _), hput.bounds⟩
  | dropSlot _ hb _ ih =>
      rw [kill_eq hb]
      exact ih.rewrite hb (puts_putBlock ..) rfl
  | write _ hw ih =>
      obtain ⟨base, b, hc, -, rfl⟩ := write_ok hw
      exact ih.rewrite hc.block (puts_putBlock ..) rfl

theorem Reachable.sound {h : Heap} (hr : Reachable h) :
    h.nextHeap ≤ stackBase ∨ h.nextStack = stackBase → h.Sound := by
  induction hr with
  | initial => exact fun _ => sound_initial
  | @malloc h h' size a _ hm ih =>
      intro hroom
      have hgrow : h.nextHeap ≤ h'.nextHeap ∧ h'.nextStack = h.nextStack := by
        obtain ⟨-, -, -, -, rfl⟩ := malloc_ok hm
        exact ⟨Nat.le_add_right _ _, rfl⟩
      refine (ih (hroom.imp (Nat.le_trans hgrow.1) fun h => ?_)).malloc hm hroom
      rw [← hgrow.2, h]
  | @free h h' a _ hf ih =>
      intro hroom
      have hsame : h'.nextHeap = h.nextHeap ∧ h'.nextStack = h.nextStack := by
        rcases free_ok hf with rfl | ⟨b, -, rfl⟩ <;> exact ⟨rfl, rfl⟩
      rw [hsame.1, hsame.2] at hroom
      exact (ih hroom).free hf
  | @pushSlot h h' size a hr hm ih =>
      intro hroom
      -- behind a stack slot there is no room for more than the arena has
      have hend : h'.nextHeap ≤ stackBase ∧ h'.nextHeap = h.nextHeap := by
        have hstart := hr.bounded.stackStart
        obtain ⟨-, -, rfl⟩ := pushSlot_ok hm
        have hstride := add_guard_le_stride size
        have hguard : 0 < guardSize := by decide
        change h.nextHeap ≤ stackBase ∨ h.nextStack + stride size = stackBase at hroom
        exact ⟨hroom.resolve_right (by lia), rfl⟩
      exact (ih (Or.inl (hend.2 ▸ hend.1))).pushSlot hm hend.1
  | dropSlot _ hb _ ih =>
      intro hroom
      rw [kill_eq hb] at hroom ⊢
      exact (ih hroom).putBlock hb rfl rfl
  | @write h h' a data _ hw ih =>
      intro hroom
      have hsame : h'.nextHeap = h.nextHeap ∧ h'.nextStack = h.nextStack := by
        obtain ⟨base, b, -, -, rfl⟩ := write_ok hw
        exact ⟨rfl, rfl⟩
      rw [hsame.1, hsame.2] at hroom
      exact (ih hroom).write hw

/-! ## Accesses inside a block -/

namespace Judges

variable {h : Heap} {addr base : Address} {len : Nat} {b : Block}

theorem locate_live (hj : h.Judges addr len base b) (hlive : b.live = true) :
    h.locate addr len = .ok (base, b) := by
  simp only [locate, if_neg hj.ne_zero, hj.floor, if_neg (Nat.not_le.mpr hj.limit),
    if_neg (Nat.not_lt.mpr hj.stop), hlive, if_true]

theorem locate_dead (hj : h.Judges addr len base b) (hdead : b.live = false) :
    h.locate addr len = .error (.error (.useAfterFree addr)) := by
  simp only [locate, if_neg hj.ne_zero, hj.floor, if_neg (Nat.not_le.mpr hj.limit),
    if_neg (Nat.not_lt.mpr hj.stop), hdead, Bool.false_eq_true, if_false]

theorem read_eq (hj : h.Judges addr len base b) (hlive : b.live = true) :
    h.read addr len = .ok (b.bytes.slice (addr - base) len) := by
  simp only [read, hj.locate_live hlive, bind, Except.bind, Bytes.slice?_eq hj.covers.fits]

theorem write_eq {data : List UInt8} (hj : h.Judges addr data.length base b)
    (hlive : b.live = true) : h.write addr data =
      .ok (h.putBlock base { b with bytes := b.bytes.put (addr - base) data }) := by
  simp only [Heap.write, hj.locate_live hlive, bind, Except.bind, Bytes.write?_eq hj.covers.fits]
  rfl

/-- A block of the same size in the same place is the one that judges. -/
theorem putBlock (hj : h.Judges addr len base b) {b' : Block}
    (hsize : b'.bytes.size = b.bytes.size) : (h.putBlock base b').Judges addr len base b' := by
  obtain ⟨hmem, hle, hmax⟩ := NatMap.floor?_eq_some_iff.mp hj.floor
  refine ⟨NatMap.floor?_eq_some_iff.mpr ⟨NatMap.get?_eq_some_iff.mp ?_, hle, ?_⟩, hj.ne_zero,
    hj.limit, hsize ▸ hj.stop⟩
  · exact (h.get?_putBlock base base b').trans (if_pos rfl)
  · rintro ⟨x, c⟩ hc hx
    have hget := NatMap.get?_eq_some_iff.mpr hc
    by_cases hbase : x = base
    · exact Nat.le_of_eq hbase
    · have hold := (h.get?_putBlock base x b').symm.trans hget
      rw [if_neg hbase] at hold
      exact hmax (x, c) (NatMap.get?_eq_some_iff.mp hold) hx

end Judges

/-- An access at the start of a block is judged by it, wherever the other blocks are. -/
theorem Bounded.judges {h : Heap} (hd : h.Bounded) {base : Address} {len : Nat} {b : Block}
    (hb : h.blocks.get? base = some b) (hlen : len ≤ b.bytes.size) : h.Judges base len base b where
  floor := NatMap.floor?_eq_some_iff.mpr
    ⟨NatMap.get?_eq_some_iff.mp hb, Nat.le_refl _, fun _ _ hle => hle⟩
  ne_zero := hd.ne_zero hb
  limit := by
    have hbound := (hd.bounds hb).2
    lia
  stop := Nat.add_le_add_left hlen base

/-- No other block starts inside the block at `base` or right behind it. -/
structure Clear (h : Heap) (base : Address) (b : Block) : Prop where
  block : h.blocks.get? base = some b
  ne_zero : base ≠ 0
  limit : base + b.bytes.size < sizeLimit
  alone : ∀ {a b'}, h.blocks.get? a = some b' → a ≤ base ∨ base + b.bytes.size < a

/-- An access anywhere in a clear block is judged by it. -/
theorem Clear.judges {h : Heap} {base addr len : Nat} {b : Block} (hc : h.Clear base b)
    (h1 : base ≤ addr) (h2 : addr + len ≤ base + b.bytes.size) : h.Judges addr len base b := by
  have hne := hc.ne_zero
  have hlimit := hc.limit
  refine ⟨NatMap.floor?_eq_some_iff.mpr ⟨NatMap.get?_eq_some_iff.mp hc.block, h1, ?_⟩, by lia,
    by lia, h2⟩
  rintro ⟨base', b'⟩ hmem hle
  have halone := hc.alone (NatMap.get?_eq_some_iff.mpr hmem)
  simp only at hle
  lia

theorem Clear.puts {h h' : Heap} {a : Address} {b b' : Block} (hc : h.Clear a b)
    (hp : h.Puts a b' h') (hsize : b'.bytes.size = b.bytes.size) : h'.Clear a b' where
  block := hp.block
  ne_zero := hc.ne_zero
  limit := hsize ▸ hc.limit
  alone := fun {x c} hx => by
    by_cases hxa : x = a
    · exact .inl hxa.le
    · rw [hp.elsewhere x hxa] at hx
      exact hsize ▸ hc.alone hx

theorem Sound.clear {h : Heap} (hs : h.Sound) {base : Address} {b : Block}
    (hb : h.blocks.get? base = some b) : h.Clear base b where
  block := hb
  ne_zero := hs.bounded.ne_zero hb
  limit := by
    have hbound := (hs.bounds hb).2
    lia
  alone := fun {a b'} ha => by
    rcases Nat.lt_or_ge base a with hlt | hle
    · have hapart := hs.apart hb ha hlt
      have hg : 0 < guardSize := by decide
      exact .inr (by lia)
    · exact .inl hle

theorem Sound.judges {h : Heap} (hs : h.Sound) {base addr len : Nat} {b : Block}
    (hb : h.blocks.get? base = some b) (h1 : base ≤ addr)
    (h2 : addr + len ≤ base + b.bytes.size) : h.Judges addr len base b :=
  (hs.clear hb).judges h1 h2

theorem Sound.judges_add {h : Heap} (hs : h.Sound) {base off len : Nat} {b : Block}
    (hb : h.blocks.get? base = some b) (hin : off + len ≤ b.bytes.size) :
    h.Judges (base + off) len base b :=
  hs.judges hb (Nat.le_add_right base off) (by omega)

theorem Sound.read_eq {h : Heap} (hs : h.Sound) {base addr len : Nat} {b : Block}
    (hb : h.blocks.get? base = some b) (hlive : b.live = true) (h1 : base ≤ addr)
    (h2 : addr + len ≤ base + b.bytes.size) :
    h.read addr len = .ok (b.bytes.slice (addr - base) len) :=
  (hs.judges hb h1 h2).read_eq hlive

/-! ## Room for a block -/

/-- No block is where the next allocation of `size` bytes goes, or right behind it. -/
def Vacant (h : Heap) (size : Nat) : Prop :=
  ∀ a b, h.blocks.get? a = some b → a < h.nextHeap ∨ h.nextHeap + size < a

theorem Vacant.get?_nextHeap {h : Heap} {size : Nat} (hv : h.Vacant size) :
    h.blocks.get? h.nextHeap = none := by
  cases hb : h.blocks.get? h.nextHeap with
  | none => rfl
  | some b =>
      rcases hv _ b hb with hlt | hlt
      · exact absurd hlt (Nat.lt_irrefl _)
      · exact absurd hlt (Nat.not_lt.mpr (Nat.le_add_right _ _))

theorem Sound.vacant {h : Heap} (hs : h.Sound) {size : Nat}
    (hroom : h.nextHeap + size < stackBase ∨ h.nextStack = stackBase) : h.Vacant size := by
  intro a b hb
  have hstride := add_guard_le_stride b.bytes.size
  have hguard : 0 < guardSize := by decide
  cases harena : b.arena with
  | heap =>
      have hend := (hs.inHeap hb harena).2
      exact .inl (by lia)
  | stack =>
      obtain ⟨hstart, hend⟩ := hs.inStack hb harena
      exact .inr (by lia)

theorem Sound.vacant_of_stride {h : Heap} (hs : h.Sound) {size : Nat}
    (hroom : h.nextHeap + stride size ≤ stackBase ∨ h.nextStack = stackBase) : h.Vacant size := by
  have hstride := add_guard_le_stride size
  have hguard : 0 < guardSize := by decide
  exact hs.vacant (hroom.imp_left fun hroom => by lia)

/-- A new block is clear where there was room for it. -/
theorem Vacant.clear {h h' : Heap} {size : Nat} {b : Block} (hv : h.Vacant size) (hd : h.Bounded)
    (hp : (h.reserve size).Puts h.nextHeap b h') (hsize : b.bytes.size = size)
    (hend : h.nextHeap + size < sizeLimit) : h'.Clear h.nextHeap b where
  block := hp.block
  ne_zero := by
    have hstart := hd.heapStart
    have hbase : 0 < heapBase := by decide
    lia
  limit := hsize ▸ hend
  alone := fun {x c} hx => by
    by_cases hxa : x = h.nextHeap
    · exact .inl hxa.le
    · rw [hp.elsewhere x hxa] at hx
      rw [hsize]
      exact (hv x c hx).imp_left Nat.le_of_lt

/-- A heap with one more allocation is sound while the allocations stay in their arena. -/
theorem Sound.reserved {h h₁ h' : Heap} (hs : h.Sound) {size : Nat} {a : Address} {b : Block}
    (hm : h.malloc size = .ok (a, h₁))
    (hroom : h.nextHeap + stride size ≤ stackBase ∨ h.nextStack = stackBase)
    (hp : (h.reserve size).Puts h.nextHeap b h') (harena : b.arena = .heap)
    (hsize : b.bytes.size = size) : h'.Sound := by
  obtain ⟨-, -, -, -, rfl⟩ := malloc_ok hm
  have hs₁ := hs.malloc hm hroom
  refine hs₁.of_extents (fun {x c} hc => ?_) hp.nextHeap hp.nextStack
  rw [get?_putBlock]
  by_cases hx : x = h.nextHeap
  · subst hx
    obtain rfl := Option.some.inj (hp.block.symm.trans hc)
    exact ⟨_, if_pos rfl, harena, hsize⟩
  · rw [if_neg hx]
    exact ⟨c, (hp.elsewhere x hx) ▸ hc, rfl, rfl⟩

theorem length_of_read {h : Heap} {addr len : Nat} {data : List UInt8}
    (hr : h.read addr len = .ok data) : data.length = len := by
  obtain ⟨base, b, -, -, rfl⟩ := read_ok hr
  exact b.bytes.length_slice _ _

end Heap

/-! ## Loads and stores of words -/

namespace Layouts

/-- The word at an address. -/
def loadWord (L : Layouts) (h : Heap) (addr : UInt64) : Outcome UInt64 := do
  let data ← Outcome.ofMemory (h.read addr.toNat L.word)
  return UInt64.ofNat (ofLeBytes data)

/-- The heap with a word at an address. -/
def storeWord (L : Layouts) (h : Heap) (addr w : UInt64) : Outcome Heap :=
  Outcome.ofMemory (h.write addr.toNat (L.wordBytes w))

/-- What is loaded, from the bytes that are read. -/
theorem load_of_read {L : Layouts} {h : Heap} {ty : TypeId} {a : UInt64} {w : ValueLayout}
    {data : List UInt8} (hv : L.value ty = .ok w) (hread : h.read a.toNat w.size = .ok data) :
    L.load h ty a = L.decode ty data := by
  rw [load, hv]
  change (Outcome.ofMemory (h.read a.toNat w.size) >>= _) = _
  rw [hread]
  rfl

theorem load_word {L : Layouts} {ty : TypeId} {value : UInt64 → Value}
    (hsize : L.value ty = .ok L.wordLayout)
    (hdecode : ∀ data : List UInt8, data.length ≤ 8 →
      L.decode ty data = .ok (value (UInt64.ofNat (ofLeBytes data))))
    (h : Heap) (addr : UInt64) : L.load h ty addr = (L.loadWord h addr).map value := by
  simp only [load, loadWord, hsize]
  change (Outcome.ofMemory (h.read addr.toNat L.word) >>= L.decode ty) = _
  cases hread : h.read addr.toNat L.word with
  | error e => rfl
  | ok data =>
      have hlen : data.length ≤ 8 := by
        rw [Heap.length_of_read hread]
        exact L.word_le
      change L.decode ty data = _
      rw [hdecode data hlen]
      rfl

theorem value_usize (L : Layouts) : L.value .usize = .ok L.wordLayout := by
  have htag : L.pool.tag .usize = .primitive .usize := rfl
  exact value_eq_ok_iff.mpr (sizeOf_primitive htag)

theorem load_usize (L : Layouts) (h : Heap) (addr : UInt64) :
    L.load h .usize addr = (L.loadWord h addr).map .usize := by
  refine load_word L.value_usize (fun data hlen => ?_) h addr
  have htag : L.pool.tag .usize = .primitive .usize := rfl
  rw [decode, depth, decodeWithin]
  simp only [htag, decodePrimitive, List.take_of_length_le hlen]

theorem load_reference {L : Layouts} {ty : TypeId} (htag : L.pool.tag ty = .reference) (h : Heap)
    (addr : UInt64) : L.load h ty addr = (L.loadWord h addr).map .ptr := by
  refine load_word (value_eq_ok_iff.mpr (sizeOf_reference htag)) (fun data hlen => ?_) h addr
  rw [decode, depth, decodeWithin]
  simp only [htag, decodePrimitive, List.take_of_length_le hlen]

theorem store_usize (L : Layouts) (h : Heap) (addr w : UInt64) :
    L.store h .usize addr (.usize w) = L.storeWord h addr w := by
  have hcap : L.word < capacityLimit := by
    rcases natural_word L with hw | hw | hw <;> rw [hw] <;> decide
  have hlen : (L.wordBytes w).length = L.word := length_leBytes _ _
  have hencode : L.encode .usize (.usize w) = .ok (L.wordBytes w) := by
    rw [encode]
    · rfl
    · nofun
  simp only [store, storeWord, value_usize]
  change (if L.word < capacityLimit then _ else _) = _
  rw [if_pos hcap, hencode]
  change (if (L.wordBytes w).length = L.word then _ else _) = _
  rw [if_pos hlen]

end Layouts

end Ownership
