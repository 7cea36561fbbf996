import Mathlib
import Ownership.Proofs.Accesses

/-!
# The accounts of a heap

A heap counts its allocations, its frees and the bytes that were asked
for, and it logs what was freed. Where it is used without stack slots,
these numbers are exact at any time: every address that was ever handed
out is live or logged, and none is logged twice (`Memory.Booked`). So a
free is judged by the history of the address alone, whatever else was
done. The sum of the bytes stays below the cursor of the allocations, and
therefore fits where the cursor does.
-/

namespace Ownership

namespace Heap

variable {h : Heap} {a : Address}

/-! ## Live blocks -/

theorem isLive_iff : h.isLive a = true ↔
    ∃ b, h.blocks.get? a = some b ∧ b.arena = .heap ∧ b.live = true := by
  unfold isLive
  cases h.blocks.get? a with
  | none => simp
  | some b => simp [Block.isHeapLive]

theorem liveBlocks_eq_length {l : List Address} (hnodup : l.Nodup)
    (hlive : ∀ a, h.isLive a = true ↔ a ∈ l) : h.liveBlocks = l.length := by
  -- the addresses of the live entries are the same ones, and each of them occurs once
  have hkeys : ((h.blocks.toList.filter fun entry => entry.2.isHeapLive).map Prod.fst).Nodup :=
    (List.pairwise_map.mpr (h.blocks.ordered.imp Nat.ne_of_lt)).sublist
      (List.filter_sublist.map _)
  have hmem : ∀ a, a ∈ (h.blocks.toList.filter fun entry => entry.2.isHeapLive).map Prod.fst
      ↔ a ∈ l := by
    intro a
    rw [← hlive, isLive_iff, List.mem_map]
    constructor
    · rintro ⟨⟨a, b⟩, hentry, rfl⟩
      obtain ⟨hentry, hb⟩ := List.mem_filter.mp hentry
      exact ⟨b, NatMap.get?_eq_some_iff.mpr hentry, by simpa [Block.isHeapLive] using hb⟩
    · rintro ⟨b, hget, hb⟩
      exact ⟨(a, b), List.mem_filter.mpr ⟨NatMap.get?_eq_some_iff.mp hget,
        by simpa [Block.isHeapLive] using hb⟩, rfl⟩
  rw [liveBlocks, List.countP_eq_length_filter, ← List.length_map Prod.fst]
  exact ((List.perm_ext_iff_of_nodup hkeys hnodup).mpr hmem).length_eq

theorem liveBlocks_eq_zero (hdead : ∀ a, h.isLive a = false) : h.liveBlocks = 0 :=
  liveBlocks_eq_length List.nodup_nil fun a => by simp [hdead a]

end Heap

/-- The use has nothing to do with stack slots. -/
def MemoryUse.onHeap : MemoryUse → Bool
  | .malloc _ | .free _ | .read _ _ | .write _ _ => true
  | .pushSlot _ | .dropSlots _ => false

namespace Memory

open Heap

variable {m m' : Memory} {a : Address} {uses : List MemoryUse} {u : MemoryUse}

/-- The addresses that were handed out. -/
def returned (m : Memory) : List Address := m.created.map Extent.base

/-- The numbers that the heap keeps agree with its blocks and with what was handed out. -/
structure Booked (m : Memory) : Prop where
  /-- What was handed out is a block, which is dead if it was freed. -/
  block : ∀ a ∈ m.returned, ∃ b, m.heap.blocks.get? a = some b ∧ b.arena = .heap
    ∧ (b.live = true ↔ a ∉ m.heap.freed)
  /-- Nothing else is a block. -/
  vacant : ∀ a ∉ m.returned, m.heap.blocks.get? a = none
  behind : ∀ a ∈ m.returned, heapBase ≤ a ∧ a < m.heap.nextHeap
  start : heapBase ≤ m.heap.nextHeap
  distinct : m.returned.Nodup
  once : m.heap.freed.Nodup
  freed : ∀ a ∈ m.heap.freed, a ∈ m.returned
  mallocs : m.heap.mallocs = m.created.length
  frees : m.heap.frees = m.heap.freed.length
  bytes : m.heap.bytesAllocated = (m.created.map Extent.size).sum
  fits : m.heap.bytesAllocated ≤ m.heap.nextHeap

theorem booked_initial : initial.Booked where
  block := nofun
  vacant := fun _ _ => rfl
  behind := nofun
  start := Nat.le_refl _
  distinct := List.nodup_nil
  once := List.nodup_nil
  freed := nofun
  mallocs := rfl
  frees := rfl
  bytes := rfl
  fits := Nat.zero_le _

/-! ## What is live -/

theorem Booked.isLive_iff (hm : m.Booked) :
    m.heap.isLive a = true ↔ a ∈ m.returned ∧ a ∉ m.heap.freed := by
  rw [Heap.isLive_iff]
  constructor
  · rintro ⟨b, hb, -, hlive⟩
    have ha : a ∈ m.returned := by
      by_contra ha
      cases (hm.vacant a ha).symm.trans hb
    obtain ⟨b', hb', -, hfreed⟩ := hm.block a ha
    obtain rfl := Option.some.inj (hb.symm.trans hb')
    exact ⟨ha, hfreed.mp hlive⟩
  · rintro ⟨ha, hfreed⟩
    obtain ⟨b, hb, harena, hlive⟩ := hm.block a ha
    exact ⟨b, hb, harena, hlive.mpr hfreed⟩

theorem Booked.mem_freed_iff_dead (hm : m.Booked) :
    a ∈ m.heap.freed ↔ a ∈ m.returned ∧ m.heap.isLive a = false := by
  have hlive := hm.isLive_iff (a := a)
  have hfreed := hm.freed a
  rw [← Bool.not_eq_true, hlive]
  tauto

/-- What was handed out is freed or live. -/
theorem Booked.mallocs_eq (hm : m.Booked) : m.heap.mallocs = m.heap.frees + m.heap.liveBlocks := by
  have hlive : m.heap.liveBlocks = (m.returned.filter (· ∉ m.heap.freed)).length := by
    refine liveBlocks_eq_length (hm.distinct.filter _) fun a => ?_
    rw [hm.isLive_iff, List.mem_filter, decide_eq_true_eq]
  have hdead : (m.returned.filter (· ∈ m.heap.freed)).length = m.heap.freed.length := by
    refine ((List.perm_ext_iff_of_nodup (hm.distinct.filter _) hm.once).mpr fun a => ?_).length_eq
    rw [List.mem_filter, decide_eq_true_eq]
    exact and_iff_right_of_imp (hm.freed a)
  calc m.heap.mallocs = m.returned.length := hm.mallocs.trans (List.length_map _).symm
    _ = _ := List.length_eq_length_filter_add (· ∈ m.heap.freed)
    _ = m.heap.frees + m.heap.liveBlocks := by rw [hdead, hm.frees, hlive]; simp

/-! ## How a free is judged -/

theorem Booked.ne_zero (hm : m.Booked) (ha : a ∈ m.returned) : a ≠ 0 := by
  have hlow := (hm.behind a ha).1
  have hbase : 0 < heapBase := by decide
  lia

/-- A free of what was handed out and not freed. -/
theorem Booked.free_live (hm : m.Booked) (ha : a ∈ m.returned) (hfreed : a ∉ m.heap.freed) :
    ∃ b, m.heap.blocks.get? a = some b ∧ b.arena = .heap
      ∧ m.heap.free a = .ok { m.heap.putBlock a { b with live := false } with
        frees := m.heap.frees + 1, freed := a :: m.heap.freed } := by
  obtain ⟨b, hb, harena, hlive⟩ := hm.block a ha
  exact ⟨b, hb, harena, free_eq (hm.ne_zero ha) hb harena (hlive.mpr hfreed)⟩

theorem Booked.free_freed (hm : m.Booked) (hfreed : a ∈ m.heap.freed) :
    m.heap.free a = .error (.doubleFree a) := by
  have ha := hm.freed a hfreed
  obtain ⟨b, hb, harena, hlive⟩ := hm.block a ha
  have hdead : b.live = false := by
    rw [← Bool.not_eq_true, hlive]
    exact not_not_intro hfreed
  simp [free, hm.ne_zero ha, hb, harena, hdead]

theorem Booked.free_foreign (hm : m.Booked) (hzero : a ≠ 0) (ha : a ∉ m.returned) :
    m.heap.free a = .error (.invalidFree a) := by
  simp [free, hzero, hm.vacant a ha]

/-- A free that succeeds does nothing to null, and otherwise ends a block. -/
theorem Booked.free_ok (hm : m.Booked) {heap : Heap} (h : m.heap.free a = .ok heap) :
    (a = 0 ∧ heap = m.heap) ∨ (a ∈ m.returned ∧ a ∉ m.heap.freed
      ∧ ∃ b, m.heap.blocks.get? a = some b ∧ b.arena = .heap
        ∧ heap = { m.heap.putBlock a { b with live := false } with
          frees := m.heap.frees + 1, freed := a :: m.heap.freed }) := by
  by_cases hzero : a = 0
  · subst hzero
    exact Or.inl ⟨rfl, (Except.ok.inj h).symm⟩
  by_cases ha : a ∈ m.returned
  · by_cases hfreed : a ∈ m.heap.freed
    · rw [hm.free_freed hfreed] at h
      cases h
    · obtain ⟨b, hb, harena, hfree⟩ := hm.free_live ha hfreed
      exact Or.inr ⟨ha, hfreed, b, hb, harena, Except.ok.inj (h.symm.trans hfree)⟩
  · rw [hm.free_foreign hzero ha] at h
    cases h

/-! ## What a use keeps -/

theorem Booked.malloc (hm : m.Booked) {size : Nat} {base : Address} {heap : Heap}
    (h : m.heap.malloc size = .ok (base, heap)) :
    Booked ⟨heap, ⟨.heap, base, size⟩ :: m.created⟩ := by
  obtain ⟨rfl, -, -, -, rfl⟩ := malloc_ok h
  have hstride := add_guard_le_stride size
  have hguard : 0 < guardSize := by decide
  have hnew : m.heap.nextHeap ∉ m.returned := fun ha => Nat.lt_irrefl _ (hm.behind _ ha).2
  have hunfreed : m.heap.nextHeap ∉ m.heap.freed := fun ha => hnew (hm.freed _ ha)
  refine ⟨fun a ha => ?_, fun a ha => ?_, fun a ha => ?_,
    Nat.le_trans hm.start (Nat.le_add_right _ _), List.nodup_cons.mpr ⟨hnew, hm.distinct⟩, hm.once,
    fun a ha => List.mem_cons_of_mem _ (hm.freed a ha), congrArg (· + 1) hm.mallocs, hm.frees,
    ?_, ?_⟩
  · change ∃ b, ((m.heap.reserve size).putBlock _ _).blocks.get? a = some b ∧ _
    rw [get?_putBlock]
    rcases List.mem_cons.mp ha with rfl | ha
    · exact ⟨_, if_pos rfl, rfl, iff_of_true rfl hunfreed⟩
    · have hne : a ≠ m.heap.nextHeap := Nat.ne_of_lt (hm.behind a ha).2
      rw [if_neg hne]
      exact hm.block a ha
  · obtain ⟨hne, ha⟩ := not_or.mp (mt List.mem_cons.mpr ha)
    change ((m.heap.reserve size).putBlock _ _).blocks.get? a = none
    rw [get?_putBlock, if_neg hne]
    exact hm.vacant a ha
  · change heapBase ≤ a ∧ a < m.heap.nextHeap + stride size
    rcases List.mem_cons.mp ha with rfl | ha
    · exact ⟨hm.start, by lia⟩
    · have hbehind := hm.behind a ha
      exact ⟨hbehind.1, by lia⟩
  · change m.heap.bytesAllocated + size = _
    rw [List.map_cons, List.sum_cons, hm.bytes, Nat.add_comm]
  · change m.heap.bytesAllocated + size ≤ m.heap.nextHeap + stride size
    have hfits := hm.fits
    lia

theorem Booked.free (hm : m.Booked) {heap : Heap} (h : m.heap.free a = .ok heap) :
    Booked ⟨heap, m.created⟩ := by
  obtain ⟨-, rfl⟩ | ⟨ha, hfreed, b, hb, harena, rfl⟩ := hm.free_ok h
  · exact hm
  refine ⟨fun x hx => ?_, fun x hx => ?_, hm.behind, hm.start, hm.distinct,
    List.nodup_cons.mpr ⟨hfreed, hm.once⟩, fun x hx => ?_, hm.mallocs, congrArg (· + 1) hm.frees,
    hm.bytes, hm.fits⟩
  · change ∃ c, (m.heap.putBlock _ _).blocks.get? x = some c ∧ _
    rw [get?_putBlock]
    by_cases hxa : x = a
    · exact ⟨_, if_pos hxa, harena, by simp [hxa]⟩
    · rw [if_neg hxa]
      obtain ⟨c, hc, hcarena, hlive⟩ := hm.block x hx
      exact ⟨c, hc, hcarena, by simp [hlive, hxa]⟩
  · change (m.heap.putBlock _ _).blocks.get? x = none
    have hne : x ≠ a := by
      rintro rfl
      exact hx ha
    rw [get?_putBlock, if_neg hne]
    exact hm.vacant x hx
  · rcases List.mem_cons.mp hx with rfl | hx
    · exact ha
    · exact hm.freed x hx

theorem Booked.write (hm : m.Booked) {data : List UInt8} {heap : Heap}
    (h : m.heap.write a data = .ok heap) : Booked ⟨heap, m.created⟩ := by
  obtain ⟨base, b, hc, -, rfl⟩ := write_ok h
  refine ⟨fun x hx => ?_, fun x hx => ?_, hm.behind, hm.start, hm.distinct, hm.once, hm.freed,
    hm.mallocs, hm.frees, hm.bytes, hm.fits⟩
  · obtain ⟨c, hget, harena, hlive⟩ := hm.block x hx
    by_cases hxb : x = base
    · subst hxb
      obtain rfl := Option.some.inj (hget.symm.trans hc.block)
      exact ⟨_, (get?_putBlock ..).trans (if_pos rfl), harena, hlive⟩
    · exact ⟨c, (get?_putBlock ..).trans ((if_neg hxb).trans hget), harena, hlive⟩
  · have hnone := hm.vacant x hx
    have hne : x ≠ base := by
      rintro rfl
      cases hnone.symm.trans hc.block
    exact (get?_putBlock ..).trans ((if_neg hne).trans hnone)

theorem use_malloc_ok {size : Nat} (h : (use (.malloc size)).run m = .ok () m') :
    ∃ base heap, m.heap.malloc size = .ok (base, heap)
      ∧ m' = ⟨heap, ⟨.heap, base, size⟩ :: m.created⟩ := by
  simp only [use, EStateM.run_bind, EStateM.run_get] at h
  cases hm : m.heap.malloc size with
  | error e =>
      rw [hm] at h
      cases h
  | ok p =>
      rw [hm] at h
      cases h
      exact ⟨p.1, p.2, rfl, rfl⟩

theorem use_free_ok (h : (use (.free a)).run m = .ok () m') :
    ∃ heap, m.heap.free a = .ok heap ∧ m' = ⟨heap, m.created⟩ := by
  simp only [use, EStateM.run_bind, EStateM.run_get] at h
  cases hf : m.heap.free a with
  | error e =>
      rw [hf] at h
      cases h
  | ok heap =>
      rw [hf] at h
      cases h
      exact ⟨heap, rfl, rfl⟩

theorem use_read_ok {len : Nat} (h : (use (.read a len)).run m = .ok () m') : m' = m := by
  simp only [use, EStateM.run_bind, EStateM.run_get] at h
  cases hr : m.heap.read a len with
  | error e =>
      rw [hr] at h
      cases h
  | ok data =>
      rw [hr] at h
      cases h
      rfl

theorem use_write_ok {data : List UInt8} (h : (use (.write a data)).run m = .ok () m') :
    ∃ heap, m.heap.write a data = .ok heap ∧ m' = ⟨heap, m.created⟩ := by
  simp only [use, EStateM.run_bind, EStateM.run_get] at h
  cases hw : m.heap.write a data with
  | error e =>
      rw [hw] at h
      cases h
  | ok heap =>
      rw [hw] at h
      cases h
      exact ⟨heap, rfl, rfl⟩

/-- A use of the heap alone keeps the accounts. -/
theorem Booked.use (hm : m.Booked) (hu : u.onHeap = true) (h : (use u).run m = .ok () m') :
    m'.Booked := by
  cases u with
  | malloc size =>
      obtain ⟨base, heap, hmalloc, rfl⟩ := use_malloc_ok h
      exact hm.malloc hmalloc
  | free addr =>
      obtain ⟨heap, hfree, rfl⟩ := use_free_ok h
      exact hm.free hfree
  | pushSlot size => cases hu
  | dropSlots slots => cases hu
  | read addr len =>
      obtain rfl := use_read_ok h
      exact hm
  | write addr data =>
      obtain ⟨heap, hwrite, rfl⟩ := use_write_ok h
      exact hm.write hwrite

/-- From the end of a run to its last use. -/
theorem run_snoc (h : run (uses ++ [u]) m = .ok m') : ∃ m₁, run uses m = .ok m₁
    ∧ ((use u).run m₁ = .ok () m' ∨ m' = m₁ ∧ ∃ e, (use u).run m₁ = .error (.error e) m₁) := by
  obtain ⟨m₁, hbefore, hlast⟩ := run_append h
  refine ⟨m₁, hbefore, ?_⟩
  unfold run at hlast
  obtain ⟨m₂, hok, -⟩ | ⟨r, herror⟩ := use_spec u m₁
  · rw [hok] at hlast
    cases hlast
    exact Or.inl hok
  · rw [herror] at hlast
    cases r with
    | error e =>
        cases hlast
        exact Or.inr ⟨rfl, e, herror⟩
    | abort a => cases hlast

theorem booked_run (honly : ∀ u ∈ uses, u.onHeap = true) (h : run uses initial = .ok m) :
    m.Booked := by
  induction uses using List.reverseRecOn generalizing m with
  | nil =>
      cases h
      exact booked_initial
  | append_singleton uses u ih =>
      obtain ⟨m₁, hbefore, hlast⟩ := run_snoc h
      have hm₁ := ih (fun u' hu' => honly u' (List.mem_append_left _ hu')) hbefore
      rcases hlast with hok | ⟨rfl, -⟩
      · exact hm₁.use (honly u (List.mem_append_right _ List.mem_cons_self)) hok
      · exact hm₁

/-! ## What was freed -/

/-- One of the uses has freed the address. -/
def Frees (uses : List MemoryUse) (a : Address) : Prop :=
  ∃ before after m₀ m₁, uses = before ++ .free a :: after ∧ run before initial = .ok m₀
    ∧ (use (.free a)).run m₀ = .ok () m₁ ∧ a ≠ 0

theorem frees_snoc (h : run uses initial = .ok m) : Frees (uses ++ [u]) a ↔
    Frees uses a ∨ (u = .free a ∧ a ≠ 0 ∧ ∃ m₁, (use u).run m = .ok () m₁) := by
  constructor
  · rintro ⟨before, after, m₀, m₁, huses, hbefore, huse, hzero⟩
    rcases List.eq_nil_or_concat after with rfl | ⟨after, u', rfl⟩
    · obtain ⟨rfl, hu⟩ := List.append_inj' huses rfl
      obtain rfl := (List.cons.inj hu).1
      obtain rfl := Except.ok.inj (h.symm.trans hbefore)
      exact Or.inr ⟨rfl, hzero, m₁, huse⟩
    · have hsplit : uses ++ [u] = (before ++ .free a :: after) ++ [u'] := by simpa using huses
      obtain ⟨rfl, -⟩ := List.append_inj' hsplit rfl
      exact Or.inl ⟨before, after, m₀, m₁, rfl, hbefore, huse, hzero⟩
  · rintro (⟨before, after, m₀, m₁, rfl, hrest⟩ | ⟨rfl, hzero, m₁, huse⟩)
    · exact ⟨before, after ++ [u], m₀, m₁, by simp, hrest⟩
    · exact ⟨uses, [], m, m₁, rfl, h, huse, hzero⟩

/-- A use adds to the log what it frees. -/
theorem Booked.mem_freed (hm : m.Booked) (hu : u.onHeap = true)
    (h : (Memory.use u).run m = .ok () m') :
    a ∈ m'.heap.freed ↔ a ∈ m.heap.freed ∨ (u = .free a ∧ a ≠ 0) := by
  cases u with
  | malloc size =>
      obtain ⟨base, heap, hmalloc, rfl⟩ := use_malloc_ok h
      obtain ⟨-, -, -, -, rfl⟩ := malloc_ok hmalloc
      exact ⟨Or.inl, fun ha => ha.resolve_right (by rintro ⟨⟨⟩, -⟩)⟩
  | free addr =>
      obtain ⟨heap, hfree, rfl⟩ := use_free_ok h
      obtain ⟨rfl, rfl⟩ | ⟨haddr, -, b, -, -, rfl⟩ := hm.free_ok hfree
      · simp [eq_comm]
      · have hzero := hm.ne_zero haddr
        simp only [List.mem_cons, MemoryUse.free.injEq]
        constructor
        · rintro (rfl | ha)
          · exact Or.inr ⟨rfl, hzero⟩
          · exact Or.inl ha
        · rintro (ha | ⟨rfl, -⟩)
          · exact Or.inr ha
          · exact Or.inl rfl
  | pushSlot size => cases hu
  | dropSlots slots => cases hu
  | read addr len =>
      obtain rfl := use_read_ok h
      exact ⟨Or.inl, fun ha => ha.resolve_right (by rintro ⟨⟨⟩, -⟩)⟩
  | write addr data =>
      obtain ⟨heap, hwrite, rfl⟩ := use_write_ok h
      obtain ⟨base, b, -, -, rfl⟩ := write_ok hwrite
      exact ⟨Or.inl, fun ha => ha.resolve_right (by rintro ⟨⟨⟩, -⟩)⟩

/-- The log is the history of the frees that succeeded. -/
theorem mem_freed_iff (honly : ∀ u ∈ uses, u.onHeap = true) (h : run uses initial = .ok m) :
    a ∈ m.heap.freed ↔ Frees uses a := by
  induction uses using List.reverseRecOn generalizing m with
  | nil =>
      cases h
      refine ⟨nofun, ?_⟩
      rintro ⟨before, after, m₀, m₁, huses, -⟩
      simp at huses
  | append_singleton uses u ih =>
      obtain ⟨m₁, hbefore, hlast⟩ := run_snoc h
      have honly₁ : ∀ u' ∈ uses, u'.onHeap = true := fun u' hu' =>
        honly u' (List.mem_append_left _ hu')
      rw [frees_snoc hbefore, ← ih honly₁ hbefore]
      rcases hlast with hok | ⟨rfl, e, herror⟩
      · rw [(booked_run honly₁ hbefore).mem_freed (honly u (by simp)) hok]
        simp [hok]
      · simp [herror]

end Memory

/-- A heap that is used without stack slots keeps exact accounts. Every address that it has handed
out is live or in the log of what was freed, and the log has each of them once. The bytes that were
asked for are added up, and the sum fits wherever the cursor does. A free is judged by what happened
to the address before. -/
theorem heap_accounts {uses : List MemoryUse} (honly : ∀ u ∈ uses, u.onHeap = true) {m : Memory}
    (hrun : Memory.run uses .initial = .ok m) :
    (m.heap.mallocs = m.created.length ∧ m.heap.mallocs = m.heap.frees + m.heap.liveBlocks)
    ∧ (m.heap.freeLog.length = m.heap.frees ∧ m.heap.freeLog.Nodup
      ∧ ∀ a, a ∈ m.heap.freeLog ↔ a ∈ m.returned ∧ m.heap.isLive a = false)
    ∧ (m.heap.bytesAllocated = (m.created.map Extent.size).sum
      ∧ ∀ size next, Heap.bump m.heap.nextHeap size = .ok next →
        addSize m.heap.bytesAllocated size = .ok (m.heap.bytesAllocated + size)
        ∧ (size < capacityLimit → ∃ heap, m.heap.malloc size = .ok (m.heap.nextHeap, heap)))
    ∧ m.heap.free 0 = .ok m.heap
    ∧ ∀ a, ((∃ heap, m.heap.free a = .ok heap) ↔
        a = 0 ∨ (a ∈ m.returned ∧ ¬ Memory.Frees uses a))
      ∧ (m.heap.free a = .error (.doubleFree a) ↔ Memory.Frees uses a)
      ∧ (m.heap.free a = .error (.invalidFree a) ↔ a ≠ 0 ∧ a ∉ m.returned) := by
  have hm := Memory.booked_run honly hrun
  have hlog : ∀ a, a ∈ m.heap.freeLog ↔ a ∈ m.heap.freed := fun a => List.mem_reverse
  refine ⟨⟨hm.mallocs, hm.mallocs_eq⟩, ⟨?_, List.nodup_reverse.mpr hm.once, fun a => ?_⟩,
    ⟨hm.bytes, fun size next hnext => ?_⟩, rfl, fun a => ?_⟩
  · rw [hm.frees, Heap.freeLog, List.length_reverse]
  · rw [hlog, hm.mem_freed_iff_dead]
  · obtain ⟨-, hroom⟩ := Heap.bump_ok hnext
    have hfits := hm.fits
    have hstride := Heap.add_guard_le_stride size
    have htotal : m.heap.bytesAllocated + size < sizeLimit := by lia
    exact ⟨if_pos htotal, fun hcapacity => ⟨_, Heap.malloc_eq hroom htotal hcapacity⟩⟩
  · rw [← Memory.mem_freed_iff honly hrun]
    by_cases hzero : a = 0
    · subst hzero
      have hunreturned : 0 ∉ m.returned := fun ha => hm.ne_zero ha rfl
      have hunfreed : 0 ∉ m.heap.freed := fun ha => hunreturned (hm.freed 0 ha)
      simp [Heap.free, hunfreed]
    by_cases ha : a ∈ m.returned
    · by_cases hfreed : a ∈ m.heap.freed
      · simp [hm.free_freed hfreed, hzero, ha, hfreed]
      · obtain ⟨b, -, -, hfree⟩ := hm.free_live ha hfreed
        simp [hfree, hzero, ha, hfreed]
    · have hunfreed : a ∉ m.heap.freed := fun hfreed => ha (hm.freed a hfreed)
      simp [hm.free_foreign hzero ha, hzero, ha, hunfreed]

namespace Ledgered

/-- Three allocations, one of them empty, two frees that succeed, one of null, and three that
fail: of what is free already, of an address inside a block and of one that lies nowhere. -/
def uses : List MemoryUse :=
  [.malloc 10, .malloc 0, .free Heap.heapBase, .malloc 100, .free 0, .free Heap.heapBase,
    .write (Heap.heapBase + 64) [1, 2], .free (Heap.heapBase + 4), .free 1,
    .read (Heap.heapBase + 3) 2, .free (Heap.heapBase + 64)]

/-- Memory after them. -/
def memory : Memory := ((Memory.run uses .initial).toOption).getD .initial

theorem run_uses : Memory.run uses .initial = .ok memory := rfl

end Ledgered

theorem heap_accounts_ledgered : (∀ u ∈ Ledgered.uses, u.onHeap = true)
    ∧ Ledgered.memory.heap.mallocs = Ledgered.memory.heap.frees + Ledgered.memory.heap.liveBlocks
    ∧ Ledgered.memory.heap.bytesAllocated = 110
    ∧ Memory.Frees Ledgered.uses Heap.heapBase
    ∧ ¬ Memory.Frees Ledgered.uses (Heap.heapBase + 32)
    ∧ ∃ heap, Ledgered.memory.heap.free (Heap.heapBase + 32) = .ok heap := by
  have honly : ∀ u ∈ Ledgered.uses, u.onHeap = true := by decide
  obtain ⟨⟨-, hmallocs⟩, -, ⟨hbytes, -⟩, -, hfree⟩ := heap_accounts honly Ledgered.run_uses
  have hlive : ¬ Memory.Frees Ledgered.uses (Heap.heapBase + 32) := fun hfrees => by
    have hdouble := (hfree (Heap.heapBase + 32)).2.1.mpr hfrees
    cases hdouble
  refine ⟨honly, hmallocs, hbytes, (hfree Heap.heapBase).2.1.mp rfl, hlive, ?_⟩
  exact (hfree (Heap.heapBase + 32)).1.mpr (Or.inr ⟨by decide +kernel, hlive⟩)

end Ownership
