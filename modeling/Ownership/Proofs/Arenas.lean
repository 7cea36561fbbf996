import Ownership.Proofs.Accesses

/-!
# Addresses of the two arenas

Allocations and stack slots are placed by two cursors that only grow, so
no address of an arena is handed out twice. Nothing keeps the cursor of
the allocations out of the other arena: when it gets there, blocks come to
lie where stack slots are. As long as every allocation ends at or below
`Heap.stackBase`, a new block lies outside all blocks that were created
before and takes no place that is taken. For no other position that the
cursor gets to is that certain (`fresh_addresses`).
-/

namespace Ownership

/-- The address lies in the range. -/
def Extent.Holds (x : Extent) (a : Address) : Prop := x.base ≤ a ∧ a < x.base + x.size

instance (x : Extent) (a : Address) : Decidable (x.Holds a) :=
  inferInstanceAs (Decidable (x.base ≤ a ∧ a < x.base + x.size))

namespace Memory

open Heap

variable {m m' : Memory} {u : MemoryUse} {uses : List MemoryUse} {x : Extent}

/-- No block that was ever created holds the address, and no block is recorded there. -/
structure Fresh (m : Memory) (a : Address) : Prop where
  outside : ∀ x ∈ m.created, ¬ x.Holds a
  vacant : m.heap.blocks.get? a = none

/-- Each block that is created is created at a fresh address. -/
def NeverReuses (uses : List MemoryUse) : Prop :=
  ∀ before u after m m' x, uses = before ++ u :: after → run before initial = .ok m →
    (use u).run m = .ok () m' → m'.created = x :: m.created → m.Fresh x.base

/-! ## Where blocks are created -/

/-- Every block lies behind the start of its arena and before the cursor, which is an address, and a
block that is recorded was created. -/
structure Laid (m : Memory) : Prop where
  aligned : granule ∣ m.heap.nextHeap
  inLimit : m.heap.nextHeap < sizeLimit
  stackStart : stackBase ≤ m.heap.nextStack
  inHeap : ∀ x ∈ m.created, x.arena = .heap → x.base + stride x.size ≤ m.heap.nextHeap
  inStack : ∀ x ∈ m.created, x.arena = .stack →
    stackBase ≤ x.base ∧ x.base + stride x.size ≤ m.heap.nextStack
  recorded : ∀ x, m.heap.HasExtent x → x ∈ m.created

theorem laid_initial : initial.Laid where
  aligned := by decide
  inLimit := by decide
  stackStart := Nat.le_refl _
  inHeap := nofun
  inStack := nofun
  recorded := by
    rintro x ⟨b, hb, -⟩
    cases hb

theorem dvd_stride (size : Nat) : granule ∣ stride size :=
  Nat.dvd_add (dvd_alignUp _ _) (Nat.dvd_refl _)

theorem hasExtent_of_putBlock {h : Heap} {a : Address} {b : Block}
    (hx : (h.putBlock a b).HasExtent x) : x = ⟨b.arena, a, b.bytes.size⟩ ∨ h.HasExtent x := by
  obtain ⟨c, hc, harena, hsize⟩ := hx
  rw [get?_putBlock] at hc
  split at hc
  · next hbase =>
      obtain rfl := Option.some.inj hc
      obtain ⟨arena, base, size⟩ := x
      exact Or.inl (by simp_all)
  · exact Or.inr ⟨c, hc, harena, hsize⟩

/-- One use keeps the blocks in their arenas. -/
theorem Laid.used (hl : m.Laid) (hu : m.Used m') : m'.Laid := by
  cases hu with
  | @malloc size base heap hm =>
      obtain ⟨rfl, hlimit, -, -, rfl⟩ := malloc_ok hm
      refine ⟨Nat.dvd_add hl.aligned (dvd_stride size), hlimit, hl.stackStart,
        fun x hx harena => ?_, fun x hx harena => ?_, fun x hx => ?_⟩
      · rcases List.mem_cons.mp hx with rfl | hx
        · exact Nat.le_refl _
        · exact Nat.le_trans (hl.inHeap x hx harena) (Nat.le_add_right _ _)
      · rcases List.mem_cons.mp hx with rfl | hx
        · cases harena
        · exact hl.inStack x hx harena
      · rcases hasExtent_of_putBlock hx with rfl | hx
        · exact List.mem_cons_self
        · exact List.mem_cons_of_mem _ (hl.recorded x hx)
  | @pushSlot size base heap hm =>
      obtain ⟨rfl, -, rfl⟩ := pushSlot_ok hm
      refine ⟨hl.aligned, hl.inLimit, Nat.le_trans hl.stackStart (Nat.le_add_right _ _),
        fun x hx harena => ?_, fun x hx harena => ?_, fun x hx => ?_⟩
      · rcases List.mem_cons.mp hx with rfl | hx
        · cases harena
        · exact hl.inHeap x hx harena
      · rcases List.mem_cons.mp hx with rfl | hx
        · exact ⟨hl.stackStart, Nat.le_refl _⟩
        · obtain ⟨hlow, hhigh⟩ := hl.inStack x hx harena
          exact ⟨hlow, Nat.le_trans hhigh (Nat.le_add_right _ _)⟩
      · rcases hasExtent_of_putBlock hx with rfl | hx
        · exact List.mem_cons_self
        · exact List.mem_cons_of_mem _ (hl.recorded x hx)
  | @kept heap hnext hslot hext =>
      refine ⟨?_, ?_, ?_, fun x hx harena => ?_, fun x hx harena => ?_, fun x hx => ?_⟩
      · rw [hnext]
        exact hl.aligned
      · rw [hnext]
        exact hl.inLimit
      · rw [hslot]
        exact hl.stackStart
      · rw [hnext]
        exact hl.inHeap x hx harena
      · rw [hslot]
        exact hl.inStack x hx harena
      · exact hl.recorded x ((hext x).mp hx)

theorem Laid.run : ∀ {uses : List MemoryUse} {m m' : Memory}, m.Laid → run uses m = .ok m' → m'.Laid
  | [], m, m', hl, h => by
      cases h
      exact hl
  | u :: uses, m, m', hl, h => by
      unfold Memory.run at h
      cases hu : (use u).run m with
      | ok a m₁ =>
          rw [hu] at h
          exact (hl.used (used_of_ok hu)).run h
      | error r m₁ =>
          rw [hu] at h
          obtain rfl := use_error hu
          cases r with
          | error e => exact hl.run h
          | abort a => cases h

/-! ## Fresh addresses -/

theorem granule_add_guard_le_stride (size : Nat) : granule + guardSize ≤ stride size := by
  have hpos : 0 < alignUp (max size 1) granule :=
    Nat.lt_of_lt_of_le (by omega) (le_alignUp (by decide) (max size 1))
  exact Nat.add_le_add_right (Nat.le_of_dvd hpos (dvd_alignUp _ _)) _

/-- An address from which every block that was created keeps away. -/
theorem Laid.fresh_of_away {a : Address} (hl : m.Laid)
    (haway : ∀ x ∈ m.created, x.base + x.size ≤ a ∧ x.base ≠ a ∨ a < x.base) : m.Fresh a := by
  refine ⟨fun x hx hholds => ?_, ?_⟩
  · obtain ⟨hlow, hhigh⟩ := hholds
    rcases haway x hx with h | h <;> lia
  · cases hb : m.heap.blocks.get? a with
    | none => rfl
    | some b =>
        have hx := hl.recorded ⟨b.arena, a, b.bytes.size⟩ ⟨b, hb, rfl, rfl⟩
        rcases haway _ hx with h | h
        · exact absurd rfl h.2
        · exact absurd h (Nat.lt_irrefl a)

/-- While the allocations end below the stack slots, a new block is a fresh one. -/
theorem Laid.fresh (hl : m.Laid) (hu : m.Used m') (hx : m'.created = x :: m.created)
    (hcursor : m'.heap.nextHeap ≤ stackBase + guardSize) : m.Fresh x.base := by
  have hgranule : 0 < granule := by decide
  have hguard : 0 < guardSize := by decide
  cases hu with
  | @malloc size base heap hm =>
      obtain ⟨rfl, -, -, -, rfl⟩ := malloc_ok hm
      obtain rfl := (List.cons.inj hx).1
      change m.heap.nextHeap + stride size ≤ _ at hcursor
      have hnew := granule_add_guard_le_stride size
      refine hl.fresh_of_away fun y hy => ?_
      cases harena : y.arena with
      | heap =>
          have hy' := hl.inHeap y hy harena
          have hstride := add_guard_le_stride y.size
          exact Or.inl ⟨by lia, by lia⟩
      | stack => exact Or.inr (by have hy' := (hl.inStack y hy harena).1; lia)
  | @pushSlot size base heap hm =>
      obtain ⟨rfl, -, rfl⟩ := pushSlot_ok hm
      obtain rfl := (List.cons.inj hx).1
      change m.heap.nextHeap ≤ _ at hcursor
      have hstart := hl.stackStart
      refine hl.fresh_of_away fun y hy => Or.inl ?_
      have hstride := add_guard_le_stride y.size
      have hold := granule_add_guard_le_stride y.size
      cases harena : y.arena with
      | heap =>
          have hy' := hl.inHeap y hy harena
          exact ⟨by lia, by lia⟩
      | stack =>
          have hy' := (hl.inStack y hy harena).2
          exact ⟨by lia, by lia⟩
  | kept => simp at hx

theorem neverReuses_of_cursor (hrun : run uses initial = .ok m)
    (hcursor : m.heap.nextHeap ≤ stackBase + guardSize) : NeverReuses uses := by
  rintro before u after m₀ m₁ x rfl hbefore huse hx
  obtain ⟨m₀', hbefore', hrest⟩ := run_append hrun
  obtain rfl := Except.ok.inj (hbefore.symm.trans hbefore')
  unfold Memory.run at hrest
  rw [huse] at hrest
  have hgrows := (leads_run hrest).grows
  exact (laid_initial.run hbefore).fresh (used_of_ok huse) hx (Nat.le_trans hgrows hcursor)

/-! ## Allocations that reach the other arena -/

/-- An allocation that moves the cursor to a place, and a stack slot. -/
def reaching (cursor : Address) : List MemoryUse :=
  [.malloc (cursor - guardSize - heapBase), .pushSlot 1]

theorem stride_of_dvd {size : Nat} (hpos : 0 < size) (hdvd : granule ∣ size) :
    stride size = size + guardSize := by
  have hmax : max size 1 = size := Nat.max_eq_left hpos
  rw [stride, hmax]
  exact congrArg (· + guardSize)
    (Nat.le_antisymm (alignUp_le (Nat.le_refl _) hdvd) (le_alignUp (by decide) size))

/-- A stack slot that has room. -/
theorem pushSlot_eq {h : Heap} {size : Nat} (hnext : h.nextStack + stride size < sizeLimit)
    (hcapacity : size < capacityLimit) :
    h.pushSlot size = .ok (h.nextStack, { h.putBlock h.nextStack ⟨.stack, true, .zeros size⟩ with
      nextStack := h.nextStack + stride size }) := by
  simp only [Heap.pushSlot, bump, addSize, place, if_pos hnext, if_pos hcapacity]
  rfl

theorem run_cons_ok {u : MemoryUse} (hu : (use u).run m = .ok () m') :
    run (u :: uses) m = run uses m' := by
  rw [Memory.run, hu]

theorem use_malloc {size : Nat} {base : Address} {heap : Heap}
    (hm : m.heap.malloc size = .ok (base, heap)) :
    (use (.malloc size)).run m = .ok () ⟨heap, ⟨.heap, base, size⟩ :: m.created⟩ := by
  simp only [use, EStateM.run_bind, EStateM.run_get, hm]
  rfl

theorem use_pushSlot {size : Nat} {base : Address} {heap : Heap}
    (hm : m.heap.pushSlot size = .ok (base, heap)) :
    (use (.pushSlot size)).run m = .ok () ⟨heap, ⟨.stack, base, size⟩ :: m.created⟩ := by
  simp only [use, EStateM.run_bind, EStateM.run_get, hm]
  rfl

/-- Memory with one more allocation. -/
def grown (m : Memory) (size : Nat) : Memory :=
  ⟨(m.heap.reserve size).putBlock m.heap.nextHeap ⟨.heap, true, .zeros size⟩,
    ⟨.heap, m.heap.nextHeap, size⟩ :: m.created⟩

/-- An allocation that fills the place up to a given position of the cursor. -/
theorem use_malloc_to {cursor : Address} {size : Nat} (hpos : 0 < size) (hdvd : granule ∣ size)
    (hsize : m.heap.nextHeap + (size + guardSize) = cursor) (hlimit : cursor < sizeLimit)
    (htotal : m.heap.bytesAllocated + size < sizeLimit) (hcapacity : size < capacityLimit) :
    (use (.malloc size)).run m = .ok () (m.grown size)
      ∧ (m.grown size).heap.nextHeap = cursor := by
  have hnext : m.heap.nextHeap + stride size = cursor := by rw [stride_of_dvd hpos hdvd, hsize]
  exact ⟨use_malloc (malloc_eq (hnext ▸ hlimit) htotal hcapacity), hnext⟩

/-- Behind the last position that is safe, the slot is put into the allocation. -/
theorem reaching_reuses (cursor : Address) (hdvd : granule ∣ cursor)
    (hbeyond : stackBase + guardSize < cursor) (hcapacity : cursor ≤ capacityLimit) :
    ∃ m, m.heap.nextHeap = cursor ∧ m.heap.bytesAllocated ≤ cursor
      ∧ ∀ rest, run (reaching cursor ++ rest) initial = run rest m
        ∧ ¬ NeverReuses (reaching cursor ++ rest) := by
  have hbases : heapBase < stackBase := by decide
  have hlimits : capacityLimit < sizeLimit := by decide
  have hpos : 0 < guardSize := by decide
  let size := cursor - guardSize - heapBase
  have hsize : heapBase + (size + guardSize) = cursor := by lia
  have hgranules : granule ∣ size := Nat.dvd_sub (Nat.dvd_sub hdvd (by decide)) (by decide)
  have htotal : 0 + size < sizeLimit := by lia
  obtain ⟨hfirst, hnext⟩ := use_malloc_to (m := initial) (by lia) hgranules hsize (by lia) htotal
    (by lia)
  have hroom : stackBase + stride 1 < sizeLimit := by decide
  have hsecond := use_pushSlot (m := initial.grown size) (pushSlot_eq hroom (by decide))
  refine ⟨_, ?_, ?_, fun rest =>
    ⟨(run_cons_ok hfirst).trans (run_cons_ok hsecond), fun hnever => ?_⟩⟩
  · exact hnext
  · change 0 + size ≤ cursor
    lia
  · have hfresh := hnever [.malloc size] (.pushSlot 1) rest _ _ ⟨.stack, stackBase, 1⟩ rfl
      (run_cons_ok hfirst) hsecond rfl
    refine hfresh.outside _ List.mem_cons_self ⟨hbases.le, ?_⟩
    change stackBase < heapBase + size
    lia

/-- No position behind the last one that is safe is. -/
theorem exists_reusing {cursor : Address} (hdvd : granule ∣ cursor)
    (hbeyond : stackBase + guardSize < cursor) (hlimit : cursor < sizeLimit) :
    ∃ uses m, run uses initial = .ok m ∧ m.heap.nextHeap = cursor ∧ ¬ NeverReuses uses := by
  by_cases hcapacity : cursor ≤ capacityLimit
  · obtain ⟨m, hnext, -, hrest⟩ := reaching_reuses cursor hdvd hbeyond hcapacity
    obtain ⟨hrun, hnot⟩ := hrest []
    exact ⟨_, m, hrun, hnext, hnot⟩
  · -- one allocation cannot be that large, so a second one follows
    let first := capacityLimit - granule
    have hfirst : first + granule = capacityLimit := by decide
    have hhalf : capacityLimit + capacityLimit = sizeLimit := by decide
    have hguard : guardSize = granule := by decide
    have hpos : 0 < granule := by decide
    obtain ⟨m, hnext, hbytes, hrest⟩ :=
      reaching_reuses first (by decide) (by decide) (by decide)
    let size := cursor - first - guardSize
    have hgranules : granule ∣ size :=
      Nat.dvd_sub (Nat.dvd_sub hdvd (by decide)) (by decide)
    have hsize : m.heap.nextHeap + (size + guardSize) = cursor := by lia
    obtain ⟨huse, hnext'⟩ :=
      use_malloc_to (by lia) hgranules hsize hlimit (by lia) (by lia)
    obtain ⟨hrun, hnot⟩ := hrest [.malloc size]
    exact ⟨_, _, hrun.trans (run_cons_ok huse), hnext', hnot⟩

end Memory

/-- Where the allocations end at or below the arena of the stack slots, every block is created at an
address that lies in no block created before it, live or dead, and at which none is recorded. No
other position that the cursor of the allocations can have in the end is safe: there are uses that
lead it there and create a block in the place of another. -/
theorem fresh_addresses (uses : List MemoryUse) {m : Memory}
    (hrun : Memory.run uses .initial = .ok m) :
    (m.heap.nextHeap ≤ Heap.stackBase + Heap.guardSize → Memory.NeverReuses uses)
    ∧ (Heap.stackBase + Heap.guardSize < m.heap.nextHeap →
      ∃ uses' m', Memory.run uses' .initial = .ok m' ∧ m'.heap.nextHeap = m.heap.nextHeap
        ∧ ¬ Memory.NeverReuses uses') := by
  have hlaid := Memory.laid_initial.run hrun
  refine ⟨fun hcursor => Memory.neverReuses_of_cursor hrun hcursor, fun hbeyond => ?_⟩
  exact Memory.exists_reusing hlaid.aligned hbeyond hlaid.inLimit

namespace Collision

/-- Blocks of both arenas end, and others are created after them. -/
def apart : List MemoryUse :=
  [.malloc 10, .pushSlot 4, .free Heap.heapBase, .malloc 10, .dropSlots [Heap.stackBase],
    .pushSlot 4, .free Heap.heapBase]

/-- A stack slot, and an allocation that fills its own arena. -/
def filling : List MemoryUse := [.pushSlot 8, .malloc 1610612720]

/-- Memory after some uses. -/
def after (uses : List MemoryUse) : Memory := ((Memory.run uses .initial).toOption).getD .initial

theorem run_eq_after {uses : List MemoryUse}
    (h : (Memory.run uses .initial).toOption.isSome) :
    Memory.run uses .initial = .ok (after uses) := by
  unfold after
  cases hrun : Memory.run uses .initial with
  | ok m => rfl
  | error a =>
      rw [hrun] at h
      cases h

end Collision

theorem fresh_addresses_apart : Memory.NeverReuses Collision.apart
    ∧ ∃ uses m, Memory.run uses .initial = .ok m
      ∧ m.heap.nextHeap = (Collision.after (Collision.filling ++ [.malloc 8])).heap.nextHeap
      ∧ ¬ Memory.NeverReuses uses := by
  have hrun : Memory.run Collision.apart .initial = .ok (Collision.after Collision.apart) :=
    Collision.run_eq_after (by decide +kernel)
  have hover : Memory.run (Collision.filling ++ [.malloc 8]) .initial
      = .ok (Collision.after (Collision.filling ++ [.malloc 8])) :=
    Collision.run_eq_after (by decide +kernel)
  exact ⟨(fresh_addresses _ hrun).1 (by decide +kernel),
    (fresh_addresses _ hover).2 (by decide +kernel)⟩

/-- The allocation after one that filled the arena is put where the stack slot is, which is not
recorded any more. -/
theorem allocation_replaces_slot :
    ⟨.stack, Heap.stackBase, 8⟩ ∈ (Collision.after Collision.filling).created
    ∧ (Collision.after Collision.filling).heap.HasExtent ⟨.stack, Heap.stackBase, 8⟩
    ∧ (Collision.after (Collision.filling ++ [.malloc 8])).created
      = ⟨.heap, Heap.stackBase, 8⟩ :: (Collision.after Collision.filling).created
    ∧ ¬ (Collision.after (Collision.filling ++ [.malloc 8])).heap.HasExtent
      ⟨.stack, Heap.stackBase, 8⟩
    ∧ ¬ Memory.NeverReuses (Collision.filling ++ [.malloc 8]) := by
  have hslot : (⟨.stack, Heap.stackBase, 8⟩ : Extent) ∈
      (Collision.after Collision.filling).created := by decide +kernel
  refine ⟨hslot, ⟨_, rfl, rfl, rfl⟩, by decide +kernel, ?_, fun hnever => ?_⟩
  · rintro ⟨b, hb, harena, -⟩
    cases hb
    cases harena
  · have hfresh := hnever Collision.filling (.malloc 8) [] _ _ ⟨.heap, Heap.stackBase, 8⟩ rfl
      (Collision.run_eq_after (by decide +kernel)) rfl rfl
    exact hfresh.outside _ hslot (by decide)

end Ownership
