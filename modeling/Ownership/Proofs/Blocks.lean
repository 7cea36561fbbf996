import Ownership.Proofs.Leaves
import Ownership.Proofs.Ledger
import Ownership.Proofs.Memory

/-!
# The blocks behind references

A reference in memory leads to a block: in front of its address lies the
header, behind it the pointee, whose leaves are references again. A
`Scene` is a heap with some references that all lead to live blocks of
their own, closed under leaves; it is what a `Ledger` is about. A later
heap *shows* a ledger if it differs from the heap of the scene in just
what the ledger says: the counts, and the blocks that were freed
(`Layouts.Shows`). The operations of a release are those of the ledger:
storing a count changes the number of holders (`Shows.store_count`),
freeing the block frees the reference (`Shows.free`), and the leaves of a
block that was not freed still are what they were (`Shows.loadWord_leaf`).
-/

namespace Ownership

/-! ## Addresses -/

theorem toNat_add_ofNat {a : UInt64} {n : Nat} (h : a.toNat + n < sizeLimit) :
    (a + UInt64.ofNat n).toNat = a.toNat + n := by
  have hn : n < UInt64.size := by
    simp only [sizeLimit] at h
    simp only [UInt64.size]
    omega
  rw [UInt64.toNat_add, UInt64.toNat_ofNat_of_lt' hn]
  exact Nat.mod_eq_of_lt h

theorem toNat_add_neg {a : UInt64} {n : Nat} (h : n ≤ a.toNat) :
    (a + (Int64.ofInt (-(n : Int))).toUInt64).toNat = a.toNat - n := by
  have hn : n < UInt64.size := Nat.lt_of_le_of_lt h a.toNat_lt
  have hneg : a + (Int64.ofInt (-(n : Int))).toUInt64 = a - UInt64.ofNat n := by
    rw [Int64.ofInt_neg, Int64.toUInt64_neg, UInt64.sub_eq_add_neg]
    rfl
  have hle : UInt64.ofNat n ≤ a := by
    rw [UInt64.le_iff_toNat_le, UInt64.toNat_ofNat_of_lt' hn]
    exact h
  rw [hneg, UInt64.toNat_sub_of_le _ _ hle, UInt64.toNat_ofNat_of_lt' hn]

namespace Layouts

/-! ## References in memory -/

/-- The word at an address, 0 where none can be read. -/
def wordAt (L : Layouts) (h : Heap) (addr : UInt64) : UInt64 :=
  match L.loadWord h addr with
  | .ok w => w
  | .error _ => 0

/-- The reference that is a leaf of the value at an address. -/
def refAt (L : Layouts) (h : Heap) (addr : UInt64) (l : Leaf) : Ref :=
  ⟨l.type, L.wordAt h (addr + UInt64.ofNat l.offset)⟩

/-- The references inside the value of type `ty` at an address. -/
def refsAt (L : Layouts) (h : Heap) (ty : TypeId) (addr : UInt64) : List Ref :=
  (L.leaves ty).map (L.refAt h addr)

/-- The references inside the pointee of a reference. -/
def leafRefs (L : Layouts) (h : Heap) (x : Ref) : List Ref :=
  match L.ref x.type with
  | .ok layout => L.refsAt h layout.pointee x.addr
  | .error _ => []

/-- Where the block of a reference starts. -/
def base (L : Layouts) (x : Ref) : Address :=
  match L.ref x.type with
  | .ok layout => x.addr.toNat - layout.header
  | .error _ => x.addr.toNat

/-- The number of holders as the block has it: its count if it has one. An owning reference has
one holder. -/
def tally (L : Layouts) (h : Heap) (x : Ref) : Nat :=
  match L.pool.reference? x.type with
  | some (.counted, _) =>
    match L.refCount h x.type x.addr with
    | .ok n => n.toNat
    | .error _ => 0
  | _ => 1

/-- An owning or counted reference leads to a live block of its layout. -/
structure Placed (L : Layouts) (h : Heap) (x : Ref) (layout : RefLayout) (b : Block) : Prop where
  ref : L.ref x.type = .ok layout
  region : layout.region ≠ .borrowed
  block : h.blocks.get? (x.addr.toNat - layout.header) = some b
  arena : b.arena = .heap
  live : b.live = true
  size : layout.allocSize = .ok b.bytes.size

variable {L : Layouts} {h : Heap} {x : Ref} {layout : RefLayout} {b : Block}

theorem refAt_shift (h : Heap) (addr : UInt64) (n : Nat) (l : Leaf) :
    L.refAt h addr (l.shift n) = L.refAt h (addr + UInt64.ofNat n) l := by
  simp only [refAt, Leaf.shift, UInt64.ofNat_add, UInt64.add_assoc]

theorem refsAt_plan {ty : TypeId} {plan : ReleasePlan} (hplan : L.IsPlan ty plan) (h : Heap)
    (addr : UInt64) :
    L.refsAt h ty addr = plan.flatMap fun r => (L.releaseLeaves r).map (L.refAt h addr) := by
  rw [refsAt, leaves_eq_plan hplan, List.map_flatMap]

theorem leafRefs_eq (hl : L.ref x.type = .ok layout) (h : Heap) :
    L.leafRefs h x = L.refsAt h layout.pointee x.addr := by
  simp only [leafRefs, hl]

theorem base_eq (hl : L.ref x.type = .ok layout) : L.base x = x.addr.toNat - layout.header := by
  simp only [base, hl]

/-- Where the parts of a block lie. -/
theorem Placed.addr_eq (hp : L.Placed h x layout b) (hd : h.Bounded) :
    x.addr.toNat = L.base x + layout.header ∧ b.bytes.size = layout.header + layout.value.size
      ∧ x.addr.toNat + layout.value.size < sizeLimit := by
  have hbound := hd.bounds hp.block
  have hpos : 0 < Heap.heapBase := by decide
  obtain ⟨hsize, -⟩ := addSize_ok hp.size
  rw [base_eq hp.ref]
  refine ⟨?_, hsize, ?_⟩ <;> lia

theorem Placed.counter_addr (hp : L.Placed h x layout b) (hd : h.Bounded) :
    (x.addr + (Int64.ofInt layout.countOffset).toUInt64).toNat = L.base x := by
  have haddr := (hp.addr_eq hd).1
  rw [RefLayout.countOffset, toNat_add_neg (by omega), base_eq hp.ref]

/-! ## Words of a block -/

theorem loadWord_eq {start off : Nat} {a : UInt64} (hj : h.Judges (start + off) L.word start b)
    (hlive : b.live = true) (ha : a.toNat = start + off) :
    L.loadWord h a = .ok (UInt64.ofNat (ofLeBytes (b.bytes.slice off L.word))) := by
  rw [loadWord, ha, hj.read_eq hlive, Nat.add_sub_cancel_left]
  rfl

theorem refCount_eq {ty : TypeId} {layout : RefLayout} (hl : L.ref ty = .ok layout) (h : Heap)
    (a : UInt64) :
    L.refCount h ty a = L.loadWord h (a + (Int64.ofInt layout.countOffset).toUInt64) := by
  simp only [refCount, blockOf, hl]
  change (L.load h .usize _ >>= _) = _
  rw [load_usize]
  cases L.loadWord h (a + (Int64.ofInt layout.countOffset).toUInt64) <;> rfl

theorem storeWord_eq {start off : Nat} {a w : UInt64} (hj : h.Judges (start + off) L.word start b)
    (hlive : b.live = true) (ha : a.toNat = start + off) :
    L.storeWord h a w =
      .ok (h.putBlock start { b with bytes := b.bytes.put off (L.wordBytes w) }) := by
  have hlen : (L.wordBytes w).length = L.word := length_leBytes _ _
  rw [storeWord, ha, (hlen ▸ hj : h.Judges _ (L.wordBytes w).length start b).write_eq hlive,
    Nat.add_sub_cancel_left]
  rfl

theorem ofLeBytes_slice_lt (L : Layouts) (bytes : Bytes) (off : Nat) :
    ofLeBytes (bytes.slice off L.word) < 2 ^ L.width.bits := by
  have hlt := ofLeBytes_lt (bytes.slice off L.word)
  rw [Bytes.length_slice] at hlt
  rw [PointerWidth.bits, Nat.pow_mul]
  exact hlt

theorem ofLeBytes_put (L : Layouts) (bytes : Bytes) (off : Nat) {w : UInt64}
    (hw : w.toNat < 2 ^ L.width.bits) :
    ofLeBytes ((bytes.put off (L.wordBytes w)).slice off L.word) = w.toNat := by
  have hlen : (L.wordBytes w).length = L.word := length_leBytes _ _
  have hslice := Bytes.slice_put bytes off (L.wordBytes w)
  rw [hlen] at hslice
  rw [PointerWidth.bits, Nat.pow_mul] at hw
  rw [hslice, wordBytes, ofLeBytes_leBytes]
  exact Nat.mod_eq_of_lt hw

theorem toNat_ofLeBytes_slice (L : Layouts) (bytes : Bytes) (off : Nat) :
    (UInt64.ofNat (ofLeBytes (bytes.slice off L.word))).toNat
      = ofLeBytes (bytes.slice off L.word) := by
  have hbits : 2 ^ L.width.bits ≤ UInt64.size := by cases L.width <;> decide
  exact UInt64.toNat_ofNat_of_lt' (Nat.lt_of_lt_of_le (L.ofLeBytes_slice_lt bytes off) hbits)

theorem Placed.word_le_header (hp : L.Placed h x layout b) (hreg : layout.region = .counted) :
    L.word ≤ layout.header := by
  obtain ⟨-, hv, hh⟩ := ref_eq_ok_iff.mp hp.ref
  rw [hreg] at hh
  exact (header_counted hv hh).1

theorem Placed.reference? (hp : L.Placed h x layout b) :
    L.pool.reference? x.type = some (layout.region, layout.pointee) := (ref_eq_ok_iff.mp hp.ref).1

theorem Placed.tally_owning (hp : L.Placed h x layout b) (hreg : layout.region ≠ .counted) :
    L.tally h x = 1 := by
  unfold tally
  rw [hp.reference?]
  split
  · next heq => exact absurd (Prod.mk.inj (Option.some.inj heq)).1 hreg
  · rfl

/-- The counter is at the start of its block. -/
theorem Placed.judges_counter (hp : L.Placed h x layout b) (hd : h.Bounded)
    (hreg : layout.region = .counted) {h' : Heap} (hd' : h'.Bounded) {b' : Block}
    (hb' : h'.blocks.get? (L.base x) = some b') (hsize : b'.bytes.size = b.bytes.size) :
    h'.Judges (L.base x + 0) L.word (L.base x) b' := by
  have h1 := hp.word_le_header hreg
  have h2 := (hp.addr_eq hd).2.1
  exact hd'.judges hb' (by omega)

theorem Placed.tally_counted (hp : L.Placed h x layout b) (hd : h.Bounded)
    (hreg : layout.region = .counted) :
    L.tally h x = ofLeBytes (b.bytes.slice 0 L.word) := by
  have hj := hp.judges_counter hd hreg hd (base_eq hp.ref ▸ hp.block) rfl
  have hload := loadWord_eq hj hp.live (hp.counter_addr hd)
  simp only [tally, hp.reference?, hreg, refCount_eq hp.ref, hload]
  exact toNat_ofLeBytes_slice L b.bytes 0

/-! ## Scenes -/

/-- The references of a graph lead to live blocks of their own. -/
structure Housed (L : Layouts) (h₀ : Heap) (g : Graph) : Prop where
  bounded : h₀.Bounded
  placed : ∀ x ∈ g.nodes, ∃ layout b, L.Placed h₀ x layout b
  injective : ∀ x ∈ g.nodes, ∀ y ∈ g.nodes, L.base x = L.base y → x = y

/-- The children of a reference are the references in its block. -/
structure Scene (L : Layouts) (h₀ : Heap) (g : Graph) : Prop extends L.Housed h₀ g where
  sound : h₀.Sound
  children : g.children = L.leafRefs h₀

/-- The block `b` is the block `b₀` of `x` after what the ledger says. -/
structure ShowsBlock (L : Layouts) (s : Ledger) (x : Ref) (layout : RefLayout) (b₀ b : Block) :
    Prop where
  arena : b.arena = b₀.arena
  size : b.bytes.size = b₀.bytes.size
  live : b.live = true ↔ x ∉ s.freed
  count : layout.region = .counted → ofLeBytes (b.bytes.slice 0 L.word) = s.count x
  rest : ∀ i, (layout.region = .counted → L.word ≤ i) → b.bytes.get i = b₀.bytes.get i

/-- The heap `h` is `h₀` after what the ledger says about the references `nodes`. -/
structure Shows (L : Layouts) (nodes : List Ref) (h₀ : Heap) (s : Ledger) (h : Heap) : Prop where
  node : ∀ x ∈ nodes, ∀ {layout b₀}, L.Placed h₀ x layout b₀ →
    ∃ b, h.blocks.get? (L.base x) = some b ∧ L.ShowsBlock s x layout b₀ b
  elsewhere : ∀ a, (∀ x ∈ nodes, L.base x ≠ a) → h.blocks.get? a = h₀.blocks.get? a
  nextHeap : h.nextHeap = h₀.nextHeap
  nextStack : h.nextStack = h₀.nextStack
  mallocs : h.mallocs = h₀.mallocs
  bytesAllocated : h.bytesAllocated = h₀.bytesAllocated
  frees : h.frees = h₀.frees + s.freed.length
  freeLog : h.freeLog = h₀.freeLog ++ s.freed.map L.base

/-- What a ledger says about a reference depends on its count and whether it was freed. -/
theorem ShowsBlock.congr {s s' : Ledger} {b₀ : Block} (hsb : L.ShowsBlock s x layout b₀ b)
    (hcount : s'.count x = s.count x) (hfreed : x ∈ s'.freed ↔ x ∈ s.freed) :
    L.ShowsBlock s' x layout b₀ b where
  arena := hsb.arena
  size := hsb.size
  live := by rw [hfreed]; exact hsb.live
  count := by rw [hcount]; exact hsb.count
  rest := hsb.rest

/-- At first nothing has happened. -/
theorem Housed.shows {h₀ : Heap} {g : Graph} (hg : L.Housed h₀ g) :
    L.Shows g.nodes h₀ ⟨L.tally h₀, []⟩ h₀ where
  node := fun x hx layout b₀ hp => by
    refine ⟨b₀, base_eq hp.ref ▸ hp.block, rfl, rfl, ?_, ?_, fun _ _ => rfl⟩
    · simp [hp.live]
    · exact fun hreg => (hp.tally_counted hg.bounded hreg).symm
  elsewhere := fun _ _ => rfl
  nextHeap := rfl
  nextStack := rfl
  mallocs := rfl
  bytesAllocated := rfl
  frees := rfl
  freeLog := (List.append_nil _).symm

namespace Shows

variable {h₀ : Heap} {g : Graph} {s : Ledger}

theorem extents (hg : L.Housed h₀ g) (hshows : L.Shows g.nodes h₀ s h) {a : Address} {b' : Block}
    (hb' : h.blocks.get? a = some b') :
    ∃ b, h₀.blocks.get? a = some b ∧ b'.arena = b.arena ∧ b'.bytes.size = b.bytes.size := by
  by_cases ha : ∃ x ∈ g.nodes, L.base x = a
  · obtain ⟨x, hx, rfl⟩ := ha
    obtain ⟨layout, b₀, hp⟩ := hg.placed x hx
    obtain ⟨b, hb, hsb⟩ := hshows.node x hx hp
    obtain rfl := Option.some.inj (hb.symm.trans hb')
    exact ⟨b₀, base_eq hp.ref ▸ hp.block, hsb.arena, hsb.size⟩
  · have hne : ∀ x ∈ g.nodes, L.base x ≠ a := fun x hx heq => ha ⟨x, hx, heq⟩
    rw [hshows.elsewhere a hne] at hb'
    exact ⟨b', hb', rfl, rfl⟩

theorem sound (hg : L.Scene h₀ g) (hshows : L.Shows g.nodes h₀ s h) : h.Sound :=
  hg.sound.of_extents (hshows.extents hg.toHoused) hshows.nextHeap hshows.nextStack

theorem bounded (hg : L.Housed h₀ g) (hshows : L.Shows g.nodes h₀ s h) : h.Bounded := by
  refine ⟨hshows.nextHeap ▸ hg.bounded.heapStart, hshows.nextStack ▸ hg.bounded.stackStart,
    fun hb' => ?_⟩
  obtain ⟨b, hb, -, hsize⟩ := hshows.extents hg hb'
  rw [hsize]
  exact hg.bounded.bounds hb

/-- What a heap shows depends on the counts of the references it is about. -/
theorem congr {s' : Ledger} {nodes : List Ref} (hshows : L.Shows nodes h₀ s h)
    (hcount : ∀ x ∈ nodes, s'.count x = s.count x) (hfreed : s'.freed = s.freed) :
    L.Shows nodes h₀ s' h where
  node := fun x hx layout b₀ hp => by
    obtain ⟨b, hb, hsb⟩ := hshows.node x hx hp
    exact ⟨b, hb, hsb.congr (hcount x hx) (by rw [hfreed])⟩
  elsewhere := hshows.elsewhere
  nextHeap := hshows.nextHeap
  nextStack := hshows.nextStack
  mallocs := hshows.mallocs
  bytesAllocated := hshows.bytesAllocated
  frees := by rw [hfreed]; exact hshows.frees
  freeLog := by rw [hfreed]; exact hshows.freeLog

/-- The block of one reference changes. -/
theorem node_putBlock {s' : Ledger} {b₀ b' : Block} (hg : L.Housed h₀ g)
    (hshows : L.Shows g.nodes h₀ s h) (hx : x ∈ g.nodes) (hp : L.Placed h₀ x layout b₀)
    (hb' : L.ShowsBlock s' x layout b₀ b') (hcount : ∀ y, y ≠ x → s'.count y = s.count y)
    (hfreed : ∀ y, y ≠ x → (y ∈ s'.freed ↔ y ∈ s.freed)) {y : Ref} (hy : y ∈ g.nodes)
    {layout' : RefLayout} {b₁ : Block} (hp' : L.Placed h₀ y layout' b₁) :
    ∃ b, (h.putBlock (L.base x) b').blocks.get? (L.base y) = some b
      ∧ L.ShowsBlock s' y layout' b₁ b := by
  rw [Heap.get?_putBlock]
  by_cases hyx : y = x
  · subst hyx
    obtain rfl := Except.ok.inj (hp.ref.symm.trans hp'.ref)
    obtain rfl := Option.some.inj (hp.block.symm.trans hp'.block)
    exact ⟨b', if_pos rfl, hb'⟩
  · rw [if_neg fun heq => hyx (hg.injective y hy x hx heq)]
    obtain ⟨b, hb, hsb⟩ := hshows.node y hy hp'
    exact ⟨b, hb, hsb.congr (hcount y hyx) (hfreed y hyx)⟩

theorem elsewhere_putBlock {b' : Block} (hshows : L.Shows g.nodes h₀ s h) (hx : x ∈ g.nodes)
    {a : Address} (ha : ∀ y ∈ g.nodes, L.base y ≠ a) :
    (h.putBlock (L.base x) b').blocks.get? a = h₀.blocks.get? a := by
  rw [Heap.get?_putBlock, if_neg (Ne.symm (ha x hx))]
  exact hshows.elsewhere a ha

theorem loadWord_count (hg : L.Housed h₀ g) (hshows : L.Shows g.nodes h₀ s h) (hx : x ∈ g.nodes)
    (hl : L.ref x.type = .ok layout) (hreg : layout.region = .counted) (hfreed : x ∉ s.freed) :
    ∃ w, L.loadWord h (x.addr + (Int64.ofInt layout.countOffset).toUInt64) = .ok w
      ∧ w.toNat = s.count x ∧ s.count x < 2 ^ L.width.bits := by
  obtain ⟨layout', b₀, hp⟩ := hg.placed x hx
  obtain rfl := Except.ok.inj (hl.symm.trans hp.ref)
  obtain ⟨b, hb, hsb⟩ := hshows.node x hx hp
  have hj := hp.judges_counter hg.bounded hreg (hshows.bounded hg) hb hsb.size
  refine ⟨_, loadWord_eq hj (hsb.live.mpr hfreed) (hp.counter_addr hg.bounded), ?_, ?_⟩
  · rw [toNat_ofLeBytes_slice, hsb.count hreg]
  · rw [← hsb.count hreg]
    exact L.ofLeBytes_slice_lt b.bytes 0

/-- The counter of a block that was freed is out of reach. -/
theorem loadWord_dead (hg : L.Housed h₀ g) (hshows : L.Shows g.nodes h₀ s h) (hx : x ∈ g.nodes)
    (hl : L.ref x.type = .ok layout) (hreg : layout.region = .counted) (hfreed : x ∈ s.freed) :
    L.loadWord h (x.addr + (Int64.ofInt layout.countOffset).toUInt64)
      = .error (.error (.memory (.useAfterFree (L.base x)))) := by
  obtain ⟨layout', b₀, hp⟩ := hg.placed x hx
  obtain rfl := Except.ok.inj (hl.symm.trans hp.ref)
  obtain ⟨b, hb, hsb⟩ := hshows.node x hx hp
  have hdead : b.live = false := by
    rw [Bool.eq_false_iff]
    exact fun hlive => hsb.live.mp hlive hfreed
  have hj := hp.judges_counter hg.bounded hreg (hshows.bounded hg) hb hsb.size
  have hlocate : h.locate (L.base x) L.word = _ := hj.locate_dead hdead
  rw [loadWord, hp.counter_addr hg.bounded, Heap.read, hlocate]
  rfl

/-- Storing a count changes the number of holders. -/
theorem store_count (hg : L.Housed h₀ g) (hshows : L.Shows g.nodes h₀ s h) (hx : x ∈ g.nodes)
    (hl : L.ref x.type = .ok layout) (hreg : layout.region = .counted) (hfreed : x ∉ s.freed)
    {w : UInt64} (hw : w.toNat < 2 ^ L.width.bits) :
    ∃ h', L.storeWord h (x.addr + (Int64.ofInt layout.countOffset).toUInt64) w = .ok h'
      ∧ L.Shows g.nodes h₀ (s.tallied x w.toNat) h' := by
  obtain ⟨layout', b₀, hp⟩ := hg.placed x hx
  obtain rfl := Except.ok.inj (hl.symm.trans hp.ref)
  obtain ⟨b, hb, hsb⟩ := hshows.node x hx hp
  have hj := hp.judges_counter hg.bounded hreg (hshows.bounded hg) hb hsb.size
  have hlen : (L.wordBytes w).length = L.word := length_leBytes _ _
  have hshown : L.ShowsBlock (s.tallied x w.toNat) x layout b₀
      { b with bytes := b.bytes.put 0 (L.wordBytes w) } := by
    refine ⟨hsb.arena, hsb.size, hsb.live, fun _ => ?_, fun i hi => ?_⟩
    · rw [s.count_tallied_self]
      exact L.ofLeBytes_put b.bytes 0 hw
    · have hi' := hi hreg
      rw [← hsb.rest i hi]
      exact Bytes.get_put_of_not_mem (by omega)
  refine ⟨_, storeWord_eq hj (hsb.live.mpr hfreed) (hp.counter_addr hg.bounded), ?_, ?_,
    hshows.nextHeap, hshows.nextStack, hshows.mallocs, hshows.bytesAllocated, hshows.frees,
    hshows.freeLog⟩
  · intro y hy layout' b₁ hp'
    exact hshows.node_putBlock hg hx hp hshown (fun _ hne => s.count_tallied_of_ne hne _)
      (fun _ _ => Iff.rfl) hy hp'
  · exact fun a ha => hshows.elsewhere_putBlock hx ha

/-- The holder of an owning reference leaves no trace in memory. -/
theorem drop_owning (hshows : L.Shows g.nodes h₀ s h) (hl : L.ref x.type = .ok layout)
    (hreg : layout.region ≠ .counted) : L.Shows g.nodes h₀ (s.drop x) h := by
  refine { hshows with node := fun y hy layout' b₁ hp' => ?_ }
  obtain ⟨b, hb, hsb⟩ := hshows.node y hy hp'
  by_cases hyx : y = x
  · subst hyx
    obtain rfl := Except.ok.inj (hl.symm.trans hp'.ref)
    exact ⟨b, hb, hsb.arena, hsb.size, hsb.live, fun h => absurd h hreg, hsb.rest⟩
  · exact ⟨b, hb, hsb.congr (s.count_drop_of_ne hyx) Iff.rfl⟩

theorem free (hg : L.Housed h₀ g) (hshows : L.Shows g.nodes h₀ s h) (hx : x ∈ g.nodes)
    (hfreed : x ∉ s.freed) :
    ∃ h', h.free (L.base x) = .ok h' ∧ L.Shows g.nodes h₀ (s.free x) h' := by
  obtain ⟨layout, b₀, hp⟩ := hg.placed x hx
  obtain ⟨b, hb, hsb⟩ := hshows.node x hx hp
  have hshown : L.ShowsBlock (s.free x) x layout b₀ { b with live := false } := by
    refine ⟨hsb.arena, hsb.size, ?_, hsb.count, hsb.rest⟩
    simp [Ledger.free]
  have hmem : ∀ y, y ≠ x → (y ∈ (s.free x).freed ↔ y ∈ s.freed) := fun y hne => by
    simp [Ledger.free, hne]
  refine ⟨_, Heap.free_eq ((hshows.bounded hg).ne_zero hb) hb (hsb.arena.trans hp.arena)
    (hsb.live.mpr hfreed), ?_, ?_, hshows.nextHeap, hshows.nextStack, hshows.mallocs,
    hshows.bytesAllocated, ?_, ?_⟩
  · intro y hy layout' b₁ hp'
    exact hshows.node_putBlock hg hx hp hshown (fun _ _ => rfl) hmem hy hp'
  · exact fun a ha => hshows.elsewhere_putBlock hx ha
  · simp only [hshows.frees, Ledger.free, List.length_append, List.length_singleton]
    omega
  · have hlog := hshows.freeLog
    simp only [Heap.freeLog, Ledger.free, List.reverse_cons, List.map_append, List.map_cons,
      List.map_nil] at hlog ⊢
    rw [hlog, List.append_assoc]

/-- The leaves of a block that was not freed are what they were. -/
theorem loadWord_leaf (hg : L.Scene h₀ g) (hshows : L.Shows g.nodes h₀ s h) (hx : x ∈ g.nodes)
    (hl : L.ref x.type = .ok layout) (hfreed : x ∉ s.freed) {l : Leaf}
    (hleaf : l ∈ L.leaves layout.pointee) :
    L.loadWord h (x.addr + UInt64.ofNat l.offset)
      = .ok (L.wordAt h₀ (x.addr + UInt64.ofNat l.offset)) := by
  obtain ⟨layout', b₀, hp⟩ := hg.placed x hx
  obtain rfl := Except.ok.inj (hl.symm.trans hp.ref)
  obtain ⟨b, hb, hsb⟩ := hshows.node x hx hp
  obtain ⟨haddr, hsize, hlimit⟩ := hp.addr_eq hg.bounded
  have hin := (leaf_bounds (ref_eq_ok_iff.mp hl).2.1 l hleaf).1
  have ha : (x.addr + UInt64.ofNat l.offset).toNat = L.base x + (layout.header + l.offset) := by
    rw [toNat_add_ofNat (by omega), haddr, Nat.add_assoc]
  have hnow := loadWord_eq (L := L)
    ((hshows.sound hg).judges_add hb (by rw [hsb.size]; omega)) (hsb.live.mpr hfreed) ha
  have hthen := loadWord_eq (L := L)
    (hg.sound.judges_add (base_eq hp.ref ▸ hp.block) (by omega)) hp.live ha
  have hsame : b.bytes.slice (layout.header + l.offset) L.word
      = b₀.bytes.slice (layout.header + l.offset) L.word := by
    refine Bytes.slice_congr fun i hi _ => hsb.rest i fun hreg => ?_
    have := hp.word_le_header hreg
    omega
  rw [hnow, wordAt, hthen, hsame]

end Shows

end Layouts

end Ownership
