import Ownership.Proofs.Memory

/-!
# Uses of memory

Memory is used by allocating, freeing, making and dropping stack slots,
reading and writing. Beside the heap, a `Memory` keeps a list of the
blocks that were created. As long as allocations stay in their arena, the
heap has exactly these blocks, each as it was created, and they are apart
(`Memory.tracked_run`); so the block that starts nearest below an address
is the only one that an access can lie in, and every access is judged
rightly (`Heap.Sound.read_cases`). `memory_sound` sums this up.
-/

namespace Ownership

/-- The range of a block. -/
structure Extent where
  arena : Arena
  base : Address
  size : Nat
  deriving DecidableEq

/-- The two ranges have a gap between them. -/
def Extent.Apart (x y : Extent) : Prop :=
  x.base + x.size + Heap.guardSize ≤ y.base ∨ y.base + y.size + Heap.guardSize ≤ x.base

/-- A heap in use, and the blocks that were created so far, the newest first. -/
structure Memory where
  heap : Heap
  created : List Extent

/-- A use of memory. -/
inductive MemoryUse where
  | malloc (size : Nat)
  | free (addr : Address)
  | pushSlot (size : Nat)
  | dropSlots (slots : List Address)
  | read (addr : Address) (len : Nat)
  | write (addr : Address) (data : List UInt8)

namespace Memory

/-- Nothing was created yet. -/
def initial : Memory := ⟨.initial, []⟩

/-- Uses memory once. -/
def use : MemoryUse → Step HeapFault Memory Unit
  | .malloc size => do
    let m ← get
    let (base, heap) ← Step.ofAbort (m.heap.malloc size)
    set (Memory.mk heap (⟨.heap, base, size⟩ :: m.created))
  | .free addr => do
    let m ← get
    let heap ← Step.lift id ((m.heap.free addr).mapError .error)
    set { m with heap }
  | .pushSlot size => do
    let m ← get
    let (base, heap) ← Step.ofAbort (m.heap.pushSlot size)
    set (Memory.mk heap (⟨.stack, base, size⟩ :: m.created))
  | .dropSlots slots => modify fun m => { m with heap := m.heap.dropSlots slots }
  | .read addr len => do
    let m ← get
    let _ ← Step.lift id (m.heap.read addr len)
  | .write addr data => do
    let m ← get
    let heap ← Step.lift id (m.heap.write addr data)
    set { m with heap }

/-- The memory after a list of uses. A use that fails is followed by the
next one; after an abort there is none. -/
def run : List MemoryUse → Memory → Except Abort Memory
  | [], m => .ok m
  | u :: us, m =>
    match (use u).run m with
    | .ok _ after => run us after
    | .error (.error _) after => run us after
    | .error (.abort a) _ => .error a

end Memory

/-! ## The blocks of a heap -/

namespace Heap

variable {h : Heap} {a : Address} {b b' : Block}

/-- There is a block with this range. -/
def HasExtent (h : Heap) (x : Extent) : Prop :=
  ∃ b, h.blocks.get? x.base = some b ∧ b.arena = x.arena ∧ b.bytes.size = x.size

theorem hasExtent_putBlock (hb : h.blocks.get? a = some b) (harena : b'.arena = b.arena)
    (hsize : b'.bytes.size = b.bytes.size) (x : Extent) :
    (h.putBlock a b').HasExtent x ↔ h.HasExtent x := by
  simp only [HasExtent, get?_putBlock]
  by_cases hx : x.base = a
  · rw [if_pos hx, hx, hb]
    simp [harena, hsize]
  · rw [if_neg hx]

theorem hasExtent_putBlock_new (hb : h.blocks.get? a = none) (x : Extent) :
    (h.putBlock a b').HasExtent x ↔ x = ⟨b'.arena, a, b'.bytes.size⟩ ∨ h.HasExtent x := by
  simp only [HasExtent, get?_putBlock]
  by_cases hx : x.base = a
  · obtain ⟨arena, base, size⟩ := x
    subst hx
    simp [hb, eq_comm]
  · rw [if_neg hx]
    constructor
    · exact Or.inr
    · rintro (rfl | hx')
      · exact absurd rfl hx
      · exact hx'

theorem hasExtent_kill (h : Heap) (a : Address) (x : Extent) :
    (h.kill a).HasExtent x ↔ h.HasExtent x := by
  cases hb : h.blocks.get? a with
  | none => rw [kill_none hb]
  | some b =>
      rw [kill_eq hb]
      refine hasExtent_putBlock hb ?_ ?_ x
      · rfl
      · rfl

/-- Ending slots changes blocks, and nothing else. -/
theorem exists_dropSlots_eq (h : Heap) (slots : List Address) :
    ∃ blocks, h.dropSlots slots = { h with blocks } := by
  induction slots generalizing h with
  | nil => exact ⟨h.blocks, rfl⟩
  | cons a slots ih =>
      obtain ⟨blocks, hrest⟩ := ih (h.kill a)
      refine ⟨blocks, hrest.trans ?_⟩
      cases hb : h.blocks.get? a with
      | none => rw [kill_none hb]
      | some b =>
          rw [kill_eq hb]
          exact Eq.refl _

theorem nextHeap_dropSlots (h : Heap) (slots : List Address) :
    (h.dropSlots slots).nextHeap = h.nextHeap := by
  obtain ⟨blocks, heq⟩ := h.exists_dropSlots_eq slots
  rw [heq]

theorem nextStack_dropSlots (h : Heap) (slots : List Address) :
    (h.dropSlots slots).nextStack = h.nextStack := by
  obtain ⟨blocks, heq⟩ := h.exists_dropSlots_eq slots
  rw [heq]

theorem hasExtent_dropSlots (h : Heap) (slots : List Address) (x : Extent) :
    (h.dropSlots slots).HasExtent x ↔ h.HasExtent x := by
  induction slots generalizing h with
  | nil => exact Iff.rfl
  | cons a slots ih => exact (ih (h.kill a)).trans (h.hasExtent_kill a x)

theorem Sound.of_hasExtent {h' : Heap} (hs : h.Sound) (hheap : h'.nextHeap = h.nextHeap)
    (hstack : h'.nextStack = h.nextStack) (hext : ∀ x, h'.HasExtent x ↔ h.HasExtent x) :
    h'.Sound := by
  refine hs.of_extents (fun {a b'} hb' => ?_) hheap hstack
  obtain ⟨b, hb, harena, hsize⟩ := (hext ⟨b'.arena, a, b'.bytes.size⟩).mp ⟨b', hb', rfl, rfl⟩
  exact ⟨b, hb, harena.symm, hsize.symm⟩

theorem Sound.dropSlots (hs : h.Sound) (slots : List Address) : (h.dropSlots slots).Sound := by
  induction slots generalizing h with
  | nil => exact hs
  | cons a slots ih => exact ih (hs.kill a)

/-- Behind the last allocation there is no block. -/
theorem Sound.get?_nextHeap (hs : h.Sound) (hcursor : h.nextHeap < stackBase) :
    h.blocks.get? h.nextHeap = none :=
  (hs.vacant (.inl (show h.nextHeap + 0 < stackBase from hcursor))).get?_nextHeap

theorem Sound.get?_nextStack (hs : h.Sound) (hcursor : h.nextHeap ≤ stackBase) :
    h.blocks.get? h.nextStack = none := by
  cases hb : h.blocks.get? h.nextStack with
  | none => rfl
  | some b =>
      have hstride := add_guard_le_stride b.bytes.size
      have hguard : 0 < guardSize := by decide
      cases harena : b.arena with
      | heap => have h1 := (hs.inHeap hb harena).2; have h2 := hs.stackStart; lia
      | stack => have h1 := (hs.inStack hb harena).2; lia

end Heap

/-! ## What a use does -/

namespace Memory

open Heap

variable {m m' : Memory} {x : Extent}

/-- The heap is sound and has the blocks that were created, one at each address. -/
structure Tracked (m : Memory) : Prop where
  sound : m.heap.Sound
  exact : ∀ x, x ∈ m.created ↔ m.heap.HasExtent x
  distinct : m.created.Pairwise fun x y => x.base ≠ y.base

theorem tracked_initial : initial.Tracked where
  sound := sound_initial
  exact := fun _ => by simp [initial, Heap.initial, HasExtent]
  distinct := .nil

theorem Tracked.of_extents (ht : m.Tracked) (hs : m'.heap.Sound)
    (hext : ∀ x, m'.heap.HasExtent x ↔ m.heap.HasExtent x) (hc : m'.created = m.created) :
    m'.Tracked :=
  ⟨hs, fun x => by rw [hc, ht.exact, hext], hc ▸ ht.distinct⟩

theorem Tracked.cons (ht : m.Tracked) {heap : Heap} (hs : heap.Sound)
    (hnew : m.heap.blocks.get? x.base = none)
    (hext : ∀ y, heap.HasExtent y ↔ y = x ∨ m.heap.HasExtent y) :
    Tracked ⟨heap, x :: m.created⟩ where
  sound := hs
  exact := fun y => by rw [List.mem_cons, ht.exact, hext]
  distinct := by
    refine List.pairwise_cons.mpr ⟨fun y hy hxy => ?_, ht.distinct⟩
    obtain ⟨b, hb, -⟩ := (ht.exact y).mp hy
    rw [← hxy, hnew] at hb
    cases hb

/-- From `m`, memory came to be `m'`: nothing that was created is forgotten,
and the heap has what was created as long as allocations stay in their arena. -/
structure Leads (m m' : Memory) : Prop where
  grows : m.heap.nextHeap ≤ m'.heap.nextHeap
  keeps : m.created <:+ m'.created
  tracked : m.Tracked → m'.heap.nextHeap ≤ stackBase → m'.Tracked

theorem Leads.refl (m : Memory) : m.Leads m := ⟨Nat.le_refl _, List.suffix_refl _, fun ht _ => ht⟩

theorem Leads.trans {m₁ m₂ m₃ : Memory} (h₁ : m₁.Leads m₂) (h₂ : m₂.Leads m₃) : m₁.Leads m₃ where
  grows := Nat.le_trans h₁.grows h₂.grows
  keeps := h₁.keeps.trans h₂.keeps
  tracked := fun ht hcursor =>
    h₂.tracked (h₁.tracked ht (Nat.le_trans h₂.grows hcursor)) hcursor

/-- A new block, where there was none. -/
theorem leads_malloc {size : Nat} {base : Address} {heap : Heap}
    (hm : m.heap.malloc size = .ok (base, heap)) :
    m.Leads ⟨heap, ⟨.heap, base, size⟩ :: m.created⟩ := by
  refine ⟨?_, List.suffix_cons _ _, fun ht hcursor => ?_⟩
  · obtain ⟨-, -, -, -, rfl⟩ := malloc_ok hm
    exact Nat.le_add_right _ _
  · have hs := ht.sound.malloc hm (Or.inl hcursor)
    obtain ⟨rfl, -, -, -, rfl⟩ := malloc_ok hm
    change m.heap.nextHeap + stride size ≤ stackBase at hcursor
    have hstride := add_guard_le_stride size
    have hguard : 0 < guardSize := by decide
    have hnew := ht.sound.get?_nextHeap (by lia)
    exact ht.cons hs hnew fun y => hasExtent_putBlock_new hnew y

theorem leads_pushSlot {size : Nat} {base : Address} {heap : Heap}
    (hm : m.heap.pushSlot size = .ok (base, heap)) :
    m.Leads ⟨heap, ⟨.stack, base, size⟩ :: m.created⟩ := by
  refine ⟨?_, List.suffix_cons _ _, fun ht hcursor => ?_⟩
  · obtain ⟨-, -, rfl⟩ := pushSlot_ok hm
    exact Nat.le_refl _
  · have hs := ht.sound.pushSlot hm hcursor
    obtain ⟨rfl, -, rfl⟩ := pushSlot_ok hm
    have hnew := ht.sound.get?_nextStack hcursor
    exact ht.cons hs hnew fun y => hasExtent_putBlock_new hnew y

/-- What a use that succeeds may have done: a new block at one of the cursors, or nothing that
changes the range of a block. -/
inductive Used (m : Memory) : Memory → Prop where
  | malloc {size : Nat} {base : Address} {heap : Heap} : m.heap.malloc size = .ok (base, heap) →
      Used m ⟨heap, ⟨.heap, base, size⟩ :: m.created⟩
  | pushSlot {size : Nat} {base : Address} {heap : Heap} :
      m.heap.pushSlot size = .ok (base, heap) → Used m ⟨heap, ⟨.stack, base, size⟩ :: m.created⟩
  | kept {heap : Heap} : heap.nextHeap = m.heap.nextHeap → heap.nextStack = m.heap.nextStack →
      (∀ x, heap.HasExtent x ↔ m.heap.HasExtent x) → Used m ⟨heap, m.created⟩

theorem Used.leads (h : m.Used m') : m.Leads m' := by
  cases h with
  | malloc hm => exact leads_malloc hm
  | pushSlot hm => exact leads_pushSlot hm
  | kept hheap hstack hext =>
      exact ⟨Nat.le_of_eq hheap.symm, List.suffix_refl _,
        fun ht _ => ht.of_extents (ht.sound.of_hasExtent hheap hstack hext) hext rfl⟩

theorem used_free {addr : Address} {heap : Heap} (hf : m.heap.free addr = .ok heap) :
    m.Used ⟨heap, m.created⟩ := by
  rcases free_ok hf with rfl | ⟨b, hb, rfl⟩
  · exact .kept rfl rfl fun _ => Iff.rfl
  · refine .kept rfl rfl fun x => hasExtent_putBlock hb ?_ ?_ x
    · rfl
    · rfl

theorem used_write {addr : Address} {data : List UInt8} {heap : Heap}
    (hw : m.heap.write addr data = .ok heap) : m.Used ⟨heap, m.created⟩ := by
  obtain ⟨base, b, hc, -, rfl⟩ := write_ok hw
  refine .kept rfl rfl fun x => hasExtent_putBlock hc.block ?_ ?_ x
  · rfl
  · rfl

/-- A use does one of these things, or fails and changes nothing. -/
theorem use_spec (u : MemoryUse) (m : Memory) :
    (∃ m', (use u).run m = .ok () m' ∧ m.Used m') ∨ ∃ r, (use u).run m = .error r m := by
  cases u with
  | malloc size =>
      simp only [use, EStateM.run_bind, EStateM.run_get]
      cases hm : m.heap.malloc size with
      | error a => exact Or.inr ⟨_, rfl⟩
      | ok p => exact Or.inl ⟨_, rfl, .malloc hm⟩
  | free addr =>
      simp only [use, EStateM.run_bind, EStateM.run_get]
      cases hf : m.heap.free addr with
      | error e => exact Or.inr ⟨_, rfl⟩
      | ok heap => exact Or.inl ⟨_, rfl, used_free hf⟩
  | pushSlot size =>
      simp only [use, EStateM.run_bind, EStateM.run_get]
      cases hm : m.heap.pushSlot size with
      | error a => exact Or.inr ⟨_, rfl⟩
      | ok p => exact Or.inl ⟨_, rfl, .pushSlot hm⟩
  | dropSlots slots =>
      exact Or.inl ⟨_, rfl, .kept (nextHeap_dropSlots _ slots) (nextStack_dropSlots _ slots)
        (hasExtent_dropSlots _ slots)⟩
  | read addr len =>
      simp only [use, EStateM.run_bind, EStateM.run_get]
      cases hr : m.heap.read addr len with
      | error r => exact Or.inr ⟨_, rfl⟩
      | ok data => exact Or.inl ⟨_, rfl, .kept rfl rfl fun _ => Iff.rfl⟩
  | write addr data =>
      simp only [use, EStateM.run_bind, EStateM.run_get]
      cases hw : m.heap.write addr data with
      | error r => exact Or.inr ⟨_, rfl⟩
      | ok heap => exact Or.inl ⟨_, rfl, used_write hw⟩

theorem used_of_ok {u : MemoryUse} (h : (use u).run m = .ok () m') : m.Used m' := by
  obtain ⟨m₁, hok, hused⟩ | ⟨r, herror⟩ := use_spec u m
  · rw [h] at hok
    cases hok
    exact hused
  · rw [h] at herror
    cases herror

theorem use_error {u : MemoryUse} {r : Stop HeapFault} (h : (use u).run m = .error r m') :
    m' = m := by
  obtain ⟨m₁, hok, -⟩ | ⟨r₁, herror⟩ := use_spec u m
  · rw [h] at hok
    cases hok
  · rw [h] at herror
    cases herror
    rfl

theorem leads_run : ∀ {uses : List MemoryUse} {m m' : Memory}, run uses m = .ok m' → m.Leads m'
  | [], m, m', h => by
      cases h
      exact .refl m
  | u :: uses, m, m', h => by
      unfold run at h
      obtain ⟨m₁, hok, hused⟩ | ⟨r, herror⟩ := use_spec u m
      · rw [hok] at h
        exact hused.leads.trans (leads_run h)
      · rw [herror] at h
        cases r with
        | error e => exact leads_run h
        | abort a => cases h

theorem run_append {before after : List MemoryUse} {m m' : Memory}
    (h : run (before ++ after) m = .ok m') :
    ∃ m₀, run before m = .ok m₀ ∧ run after m₀ = .ok m' := by
  induction before generalizing m with
  | nil => exact ⟨m, rfl, h⟩
  | cons u before ih =>
      rw [List.cons_append, run] at h
      rw [run]
      cases hu : (use u).run m with
      | ok a m₁ =>
          rw [hu] at h
          exact ih h
      | error r m₁ =>
          rw [hu] at h
          cases r with
          | error e => exact ih h
          | abort a => cases h

theorem tracked_run {uses : List MemoryUse} {m : Memory} (h : run uses initial = .ok m)
    (hcursor : m.heap.nextHeap ≤ stackBase) : m.Tracked :=
  (leads_run h).tracked tracked_initial hcursor

theorem Tracked.apart (ht : m.Tracked) : m.created.Pairwise Extent.Apart := by
  refine ht.distinct.imp_of_mem fun {x y} hx hy hne => ?_
  obtain ⟨b, hb, -, hsize⟩ := (ht.exact x).mp hx
  obtain ⟨b', hb', -, hsize'⟩ := (ht.exact y).mp hy
  rcases Nat.lt_or_gt_of_ne hne with hlt | hlt
  · exact Or.inl (hsize ▸ ht.sound.apart hb hb' hlt)
  · exact Or.inr (hsize' ▸ ht.sound.apart hb' hb hlt)

end Memory

/-! ## How accesses are judged -/

namespace Heap

variable {h h' : Heap} {addr : Address} {len : Nat} {data : List UInt8}

/-- A block, live or dead as said, holds the `len` bytes at `addr`. -/
def Covered (h : Heap) (live : Bool) (addr : Address) (len : Nat) : Prop :=
  ∃ base b, h.Covers addr len base b ∧ b.live = live

theorem locate_none (ha : addr ≠ 0) (hfit : addr + len < sizeLimit)
    (hnone : ∀ base b, ¬ h.Covers addr len base b) :
    h.locate addr len = .error (.error (.outOfBounds addr len)) := by
  unfold locate
  rw [if_neg ha]
  cases hfloor : h.blocks.floor? addr with
  | none => rfl
  | some p =>
      obtain ⟨base, b⟩ := p
      obtain ⟨hmem, hle, -⟩ := NatMap.floor?_eq_some_iff.mp hfloor
      have hend : base + b.bytes.size < addr + len :=
        Nat.lt_of_not_le fun hstop => hnone base b ⟨NatMap.get?_eq_some_iff.mpr hmem, hle, hstop⟩
      simp only [if_neg (Nat.not_le_of_lt hfit), if_pos hend]

theorem read_of_locate {e : Stop HeapFault} (hl : h.locate addr len = .error e) :
    h.read addr len = .error e := by
  simp only [read, hl, bind, Except.bind]

theorem Sound.read_ok_iff (hs : h.Sound) : h.read addr len = .ok data ↔
    ∃ base b, h.Covers addr len base b ∧ b.live = true
      ∧ data = b.bytes.slice (addr - base) len := by
  refine ⟨fun hr => ?_, ?_⟩
  · obtain ⟨base, b, hj, hlive, hdata⟩ := read_ok hr
    exact ⟨base, b, hj.covers, hlive, hdata⟩
  · rintro ⟨base, b, hc, hlive, rfl⟩
    exact hs.read_eq hc.block hlive hc.start hc.stop

/-- The gap behind a block belongs to no block. -/
theorem Sound.not_covered_gap (hs : h.Sound) {x : Extent} (hx : h.HasExtent x) {i : Nat}
    (hi : i < guardSize) (live : Bool) : ¬ h.Covered live (x.base + x.size + i) 1 := by
  rintro ⟨base, b', hc, -⟩
  obtain ⟨b, hb, -, hsize⟩ := hx
  have hstart := hc.start
  have hstop := hc.stop
  rcases Nat.lt_trichotomy base x.base with hlt | rfl | hlt
  · have := hs.apart hc.block hb hlt
    lia
  · obtain rfl := Option.some.inj (hb.symm.trans hc.block)
    lia
  · have := hs.apart hb hc.block hlt
    lia

theorem Sound.read_dead (hs : h.Sound) (hdead : h.Covered false addr len) :
    h.read addr len = .error (.error (.useAfterFree addr)) := by
  obtain ⟨base, b, hc, hlive⟩ := hdead
  exact read_of_locate ((hs.judges hc.block hc.start hc.stop).locate_dead hlive)

theorem Sound.read_live (hs : h.Sound) (hlive : h.Covered true addr len) :
    ∃ data, h.read addr len = .ok data := by
  obtain ⟨base, b, hc, hlive⟩ := hlive
  exact ⟨_, hs.read_ok_iff.mpr ⟨base, b, hc, hlive, rfl⟩⟩

theorem read_none (ha : addr ≠ 0) (hfit : addr + len < sizeLimit)
    (hnone : ∀ live, ¬ h.Covered live addr len) :
    h.read addr len = .error (.error (.outOfBounds addr len)) :=
  read_of_locate (locate_none ha hfit fun base b hc => hnone b.live ⟨base, b, hc, rfl⟩)

/-- An access that fits the address space is judged by the block it lies in. -/
theorem Sound.read_cases (hs : h.Sound) (ha : addr ≠ 0) (hfit : addr + len < sizeLimit) :
    (h.Covered true addr len ∧ ∃ data, h.read addr len = .ok data)
    ∨ (h.Covered false addr len ∧ h.read addr len = .error (.error (.useAfterFree addr)))
    ∨ ((∀ live, ¬ h.Covered live addr len)
      ∧ h.read addr len = .error (.error (.outOfBounds addr len))) := by
  by_cases hlive : h.Covered true addr len
  · exact Or.inl ⟨hlive, hs.read_live hlive⟩
  · by_cases hdead : h.Covered false addr len
    · exact Or.inr (Or.inl ⟨hdead, hs.read_dead hdead⟩)
    · have hnone : ∀ live, ¬ h.Covered live addr len := by
        rintro (_ | _)
        · exact hdead
        · exact hlive
      exact Or.inr (Or.inr ⟨hnone, read_none ha hfit hnone⟩)

theorem Sound.read_useAfterFree_iff (hs : h.Sound) (ha : addr ≠ 0)
    (hfit : addr + len < sizeLimit) :
    h.read addr len = .error (.error (.useAfterFree addr)) ↔ h.Covered false addr len := by
  refine ⟨fun hr => ?_, hs.read_dead⟩
  obtain ⟨-, data, hok⟩ | ⟨hdead, -⟩ | ⟨-, hout⟩ := hs.read_cases ha hfit
  · rw [hok] at hr
    cases hr
  · exact hdead
  · rw [hout] at hr
    cases hr

theorem Sound.read_outOfBounds_iff (hs : h.Sound) (ha : addr ≠ 0)
    (hfit : addr + len < sizeLimit) :
    h.read addr len = .error (.error (.outOfBounds addr len))
      ↔ ∀ live, ¬ h.Covered live addr len := by
  refine ⟨fun hr => ?_, read_none ha hfit⟩
  obtain ⟨-, data, hok⟩ | ⟨-, hdead⟩ | ⟨hnone, -⟩ := hs.read_cases ha hfit
  · rw [hok] at hr
    cases hr
  · rw [hdead] at hr
    cases hr
  · exact hnone

end Heap

/-! ## What a write changes -/

/-- At `base` there is the same block as before, with other bytes only
among the `len` bytes at `addr`. -/
structure Block.SameOutside (addr : Address) (len : Nat) (base : Address) (b b' : Block) :
    Prop where
  arena : b'.arena = b.arena
  live : b'.live = b.live
  size : b'.bytes.size = b.bytes.size
  byte : ∀ i, base + i < addr ∨ addr + len ≤ base + i → b'.bytes.get i = b.bytes.get i

theorem Block.SameOutside.refl (addr : Address) (len : Nat) (base : Address) (b : Block) :
    b.SameOutside addr len base b := ⟨rfl, rfl, rfl, fun _ _ => rfl⟩

namespace Heap

variable {h h' : Heap} {addr : Address} {data : List UInt8}

/-- The heaps differ at most in the `len` bytes at `addr`. -/
structure SameOutside (addr : Address) (len : Nat) (h h' : Heap) : Prop where
  blocks : ∀ base,
    Option.Rel (Block.SameOutside addr len base) (h.blocks.get? base) (h'.blocks.get? base)
  rest : h' = { h with blocks := h'.blocks }

theorem sameOutside_write (hw : h.write addr data = .ok h') :
    h.SameOutside addr data.length h' := by
  obtain ⟨base, b, hc, -, rfl⟩ := write_ok hw
  refine ⟨fun base' => ?_, rfl⟩
  rw [get?_putBlock]
  by_cases hbase : base' = base
  · subst hbase
    rw [if_pos rfl, hc.block]
    refine .some ⟨rfl, rfl, rfl, fun i hi => ?_⟩
    have hstart := hc.start
    exact Bytes.get_put_of_not_mem (by lia)
  · rw [if_neg hbase]
    cases h.blocks.get? base' with
    | none => exact .none
    | some b' => exact .some (.refl addr data.length base' b')

theorem Sound.read_write (hs : h.Sound) (hw : h.write addr data = .ok h') :
    h'.read addr data.length = .ok data := by
  have hs' := hs.write hw
  obtain ⟨base, b, hc, hlive, rfl⟩ := write_ok hw
  have hput := (h.puts_putBlock base { b with bytes := b.bytes.put (addr - base) data }).block
  rw [hs'.read_eq hput hlive hc.start hc.stop, Bytes.slice_put]

/-- A write fails as a read of the bytes it would change does. -/
theorem write_error_iff {e : Stop HeapFault} :
    h.write addr data = .error e ↔ h.read addr data.length = .error e := by
  unfold write read
  cases hl : h.locate addr data.length with
  | error e' => simp [bind, Except.bind]
  | ok p =>
      obtain ⟨hj, -⟩ := locate_ok hl
      have hc := hj.covers
      simp [bind, Except.bind, Bytes.write?_eq hc.fits, Bytes.slice?_eq hc.fits]

end Heap

/-! ## All of it -/

/-- Memory after any uses whose allocations stayed in their arena. Every
block that was ever created is there, apart from the others and with a gap
behind it that belongs to none. A read is judged by the block it lies in;
a write fails as a read does, and otherwise changes the bytes it was given
and no others; and a use that fails changes nothing. -/
theorem memory_sound {uses : List MemoryUse} {m : Memory}
    (hrun : Memory.run uses .initial = .ok m)
    (hcursor : m.heap.nextHeap ≤ Heap.stackBase) :
    (m.created.Pairwise Extent.Apart ∧ (∀ x, x ∈ m.created ↔ m.heap.HasExtent x)
      ∧ ∀ x ∈ m.created, ∀ i < Heap.guardSize, ∀ live,
        ¬ m.heap.Covered live (x.base + x.size + i) 1)
    ∧ (∀ before after, uses = before ++ after →
        ∃ m₀, Memory.run before .initial = .ok m₀ ∧ ∀ x, m₀.heap.HasExtent x → m.heap.HasExtent x)
    ∧ (∀ addr len, addr ≠ 0 → addr + len < sizeLimit →
        (∀ data, m.heap.read addr len = .ok data ↔
          ∃ base b, m.heap.Covers addr len base b ∧ b.live = true
            ∧ data = b.bytes.slice (addr - base) len)
        ∧ (m.heap.read addr len = .error (.error (.useAfterFree addr)) ↔
          m.heap.Covered false addr len)
        ∧ (m.heap.read addr len = .error (.error (.outOfBounds addr len)) ↔
          ∀ live, ¬ m.heap.Covered live addr len))
    ∧ (∀ addr data,
        (∀ e, m.heap.write addr data = .error e ↔ m.heap.read addr data.length = .error e)
        ∧ ∀ heap, m.heap.write addr data = .ok heap →
          heap.read addr data.length = .ok data ∧ m.heap.SameOutside addr data.length heap)
    ∧ ∀ u r m', (Memory.use u).run m = .error r m' → m' = m := by
  have ht := Memory.tracked_run hrun hcursor
  refine ⟨⟨ht.apart, ht.exact, fun x hx i hi live => ?_⟩, fun before after huses => ?_,
    fun addr len ha hfit => ?_, fun addr data => ?_, fun u r m' => Memory.use_error⟩
  · exact ht.sound.not_covered_gap ((ht.exact x).mp hx) hi live
  · subst huses
    obtain ⟨m₀, h₀, h₁⟩ := Memory.run_append hrun
    have hleads := Memory.leads_run h₁
    have ht₀ := Memory.tracked_run h₀ (Nat.le_trans hleads.grows hcursor)
    exact ⟨m₀, h₀, fun x hx => (ht.exact x).mp (hleads.keeps.subset ((ht₀.exact x).mpr hx))⟩
  · exact ⟨fun data => ht.sound.read_ok_iff, ht.sound.read_useAfterFree_iff ha hfit,
      ht.sound.read_outOfBounds_iff ha hfit⟩
  · exact ⟨fun e => Heap.write_error_iff,
      fun heap hw => ⟨ht.sound.read_write hw, Heap.sameOutside_write hw⟩⟩

namespace Trial

/-- Two allocations and two stack slots, one of them empty. Of the writes
the second ends one byte behind its block and the last comes after the
free; the second free fails too. -/
def uses : List MemoryUse :=
  [.malloc 10, .pushSlot 0, .malloc 3, .pushSlot 4,
    .write (Heap.heapBase + 2) [7, 8], .write (Heap.heapBase + 8) [1, 2, 3],
    .write Heap.stackBase [], .read (Heap.heapBase + 32) 3, .free Heap.heapBase,
    .free Heap.heapBase, .dropSlots [Heap.stackBase], .write (Heap.heapBase + 2) [9]]

/-- Memory after them. -/
def memory : Memory := ((Memory.run uses .initial).toOption).getD .initial

theorem run_uses : Memory.run uses .initial = .ok memory := rfl

end Trial

/-- After these uses, freed bytes and the bytes of a dropped slot are found
to be dead, and the gap behind the block that is left belongs to no block. -/
theorem memory_sound_trial : Trial.memory.created.Pairwise Extent.Apart
    ∧ Trial.memory.created.length = 4
    ∧ Trial.memory.heap.Covered false (Heap.heapBase + 2) 2
    ∧ Trial.memory.heap.Covered false Heap.stackBase 0
    ∧ ∀ live, ¬ Trial.memory.heap.Covered live (Heap.heapBase + 35) 1 := by
  obtain ⟨⟨hapart, -, -⟩, -, hread, -, -⟩ := memory_sound Trial.run_uses (by decide +kernel)
  refine ⟨hapart, by decide +kernel, ?_, ?_, ?_⟩
  · exact (hread (Heap.heapBase + 2) 2 (by decide) (by decide)).2.1.mp (by decide +kernel)
  · exact (hread Heap.stackBase 0 (by decide) (by decide)).2.1.mp (by decide +kernel)
  · exact (hread (Heap.heapBase + 35) 1 (by decide) (by decide)).2.2.mp (by decide +kernel)

end Ownership
