import Ownership.Proofs.Owned

/-!
# The order of releases

Of a heap that is well-owned for some references, what is left after all
of them were released does not depend on the order (`release_order`): the
same blocks are freed, though maybe in another order, and the bytes of all
blocks are the same, the counts among them. The balance of holders is why:
when nothing is left to let go of, the counts are determined by the slack
that was there before.
-/

namespace Ownership

/-! ## Heaps that differ in their history only -/

structure Block.Alike (b b' : Block) : Prop where
  arena : b.arena = b'.arena
  live : b.live = b'.live
  size : b.bytes.size = b'.bytes.size
  byte : ∀ i, b.bytes.get i = b'.bytes.get i

/-- The same blocks with the same bytes, and as many operations. -/
structure Heap.Alike (h h' : Heap) : Prop where
  block : ∀ a, Option.Rel Block.Alike (h.blocks.get? a) (h'.blocks.get? a)
  nextHeap : h.nextHeap = h'.nextHeap
  nextStack : h.nextStack = h'.nextStack
  mallocs : h.mallocs = h'.mallocs
  bytesAllocated : h.bytesAllocated = h'.bytesAllocated
  frees : h.frees = h'.frees

theorem Block.Alike.refl (b : Block) : b.Alike b := ⟨rfl, rfl, rfl, fun _ => rfl⟩

theorem Block.Alike.symm {b b' : Block} (h : b.Alike b') : b'.Alike b :=
  ⟨h.arena.symm, h.live.symm, h.size.symm, fun i => (h.byte i).symm⟩

namespace Heap

variable {h h' : Heap} {a : Address}

theorem Alike.symm (hh : h.Alike h') : h'.Alike h where
  block := fun a => by
    have hrel := hh.block a
    generalize h.blocks.get? a = o, h'.blocks.get? a = o' at hrel
    cases hrel with
    | none => exact .none
    | some hb => exact .some hb.symm
  nextHeap := hh.nextHeap.symm
  nextStack := hh.nextStack.symm
  mallocs := hh.mallocs.symm
  bytesAllocated := hh.bytesAllocated.symm
  frees := hh.frees.symm

theorem Alike.get? (hh : h.Alike h') {b : Block} (hb : h.blocks.get? a = some b) :
    ∃ b', h'.blocks.get? a = some b' ∧ b.Alike b' := by
  have hrel := hh.block a
  rw [hb] at hrel
  generalize h'.blocks.get? a = o' at hrel
  cases hrel with
  | some halike => exact ⟨_, rfl, halike⟩

theorem Alike.floor? (hh : h.Alike h') {base : Address} {b : Block}
    (hb : h.blocks.floor? a = some (base, b)) :
    ∃ b', h'.blocks.floor? a = some (base, b') ∧ b.Alike b' := by
  obtain ⟨hmem, hle, hmax⟩ := NatMap.floor?_eq_some_iff.mp hb
  obtain ⟨b', hb', halike⟩ := hh.get? (NatMap.get?_eq_some_iff.mpr hmem)
  refine ⟨b', NatMap.floor?_eq_some_iff.mpr ⟨NatMap.get?_eq_some_iff.mp hb', hle, ?_⟩, halike⟩
  rintro ⟨base', c'⟩ hmem' hle'
  obtain ⟨c, hc, -⟩ := hh.symm.get? (NatMap.get?_eq_some_iff.mpr hmem')
  exact hmax (base', c) (NatMap.get?_eq_some_iff.mp hc) hle'

/-- What can be read is the same. -/
theorem Alike.read (hh : h.Alike h') (a : Address) (len : Nat) : h.read a len = h'.read a len := by
  cases hfloor : h.blocks.floor? a with
  | none =>
      have hfloor' : h'.blocks.floor? a = none := by
        cases hf : h'.blocks.floor? a with
        | none => rfl
        | some p =>
            obtain ⟨b, hb, -⟩ := hh.symm.floor? hf
            rw [hfloor] at hb
            cases hb
      simp only [Heap.read, locate, hfloor, hfloor']
  | some p =>
      obtain ⟨base, b⟩ := p
      obtain ⟨b', hfloor', halike⟩ := hh.floor? hfloor
      have hslice : b.bytes.slice? (a - base) len = b'.bytes.slice? (a - base) len := by
        have hget : b.bytes.get = b'.bytes.get := funext halike.byte
        rw [Bytes.slice?, Bytes.slice?, halike.size, hget]
      simp only [Heap.read, locate, hfloor, hfloor', halike.size, halike.live]
      split
      · rfl
      · split
        · rfl
        · split
          · rfl
          · split
            · simp only [bind, Except.bind, hslice]
            · rfl

end Heap

theorem Layouts.refCount_alike {L : Layouts} {h h' : Heap} (hh : h.Alike h') (x : Ref) :
    L.refCount h x.type x.addr = L.refCount h' x.type x.addr := by
  simp only [Layouts.refCount, Layouts.load_usize, Layouts.loadWord, hh.read]

theorem Bytes.get_of_slice_eq {b b' : Bytes} {start len : Nat}
    (h : b.slice start len = b'.slice start len) {i : Nat} (h₁ : start ≤ i)
    (h₂ : i < start + len) : b.get i = b'.get i := by
  have hi : i ∈ List.range' start len := List.mem_range'_1.mpr ⟨h₁, h₂⟩
  exact List.map_inj_left.mp h i hi

namespace Layouts

variable {L : Layouts} {h₀ h₁ h₂ : Heap} {s₁ s₂ : Ledger} {x : Ref} {layout : RefLayout}
  {b₀ b₁ b₂ : Block}

theorem ShowsBlock.alike (hb₁ : L.ShowsBlock s₁ x layout b₀ b₁)
    (hb₂ : L.ShowsBlock s₂ x layout b₀ b₂) (hcount : s₁.count x = s₂.count x)
    (hfreed : x ∈ s₁.freed ↔ x ∈ s₂.freed) : b₁.Alike b₂ where
  arena := hb₁.arena.trans hb₂.arena.symm
  live := by
    rw [Bool.eq_iff_iff, hb₁.live, hb₂.live, hfreed]
  size := hb₁.size.trans hb₂.size.symm
  byte := fun i => by
    by_cases hi : layout.region = .counted → L.word ≤ i
    · rw [hb₁.rest i hi, hb₂.rest i hi]
    · obtain ⟨hreg, hlt⟩ := Classical.not_imp.mp hi
      have hword : ofLeBytes (b₁.bytes.slice 0 L.word) = ofLeBytes (b₂.bytes.slice 0 L.word) := by
        rw [hb₁.count hreg, hb₂.count hreg, hcount]
      have h1 := leBytes_ofLeBytes (b₁.bytes.slice 0 L.word)
      have h2 := leBytes_ofLeBytes (b₂.bytes.slice 0 L.word)
      rw [Bytes.length_slice] at h1 h2
      rw [hword, h2] at h1
      exact (Bytes.get_of_slice_eq h1 (Nat.zero_le i) (by omega)).symm

/-- What two ledgers that agree say about a heap is the same. -/
theorem Shows.alike {g : Graph} (hg : L.Scene h₀ g) (hs₁ : L.Shows g.nodes h₀ s₁ h₁)
    (hs₂ : L.Shows g.nodes h₀ s₂ h₂) (hcount : ∀ x ∈ g.nodes, s₁.count x = s₂.count x)
    (hfreed : s₁.freed.Perm s₂.freed) : h₁.Alike h₂ where
  block := fun a => by
    by_cases ha : ∃ x ∈ g.nodes, L.base x = a
    · obtain ⟨x, hx, rfl⟩ := ha
      obtain ⟨layout, b₀, hp⟩ := hg.placed x hx
      obtain ⟨b₁, hb₁, hsb₁⟩ := hs₁.node x hx hp
      obtain ⟨b₂, hb₂, hsb₂⟩ := hs₂.node x hx hp
      rw [hb₁, hb₂]
      exact .some (hsb₁.alike hsb₂ (hcount x hx) hfreed.mem_iff)
    · have hne : ∀ x ∈ g.nodes, L.base x ≠ a := fun x hx heq => ha ⟨x, hx, heq⟩
      rw [hs₁.elsewhere a hne, hs₂.elsewhere a hne]
      cases h₀.blocks.get? a with
      | none => exact .none
      | some b => exact .some (.refl b)
  nextHeap := hs₁.nextHeap.trans hs₂.nextHeap.symm
  nextStack := hs₁.nextStack.trans hs₂.nextStack.symm
  mallocs := hs₁.mallocs.trans hs₂.mallocs.symm
  bytesAllocated := hs₁.bytesAllocated.trans hs₂.bytesAllocated.symm
  frees := by rw [hs₁.frees, hs₂.frees, hfreed.length_eq]

theorem Ready.perm {g : Graph} {slack : Ref → Nat} {pin todo todo' : List Ref} {s : Ledger}
    {h : Heap} (hr : L.Ready h₀ g slack pin todo s h) (hperm : todo'.Perm todo) :
    L.Ready h₀ g slack pin todo' s h where
  shows := hr.shows
  settled := hr.settled
  balanced := fun x hx => by
    rw [hperm.count_eq]
    exact hr.balanced x hx
  known := fun x hx => hr.known x (hperm.mem_iff.mp hx)
  owning := hr.owning
  pinned := hr.pinned

end Layouts

/-! ## Letting go in any order -/

/-- From one ledger, all ways to let go of the same references agree. -/
theorem Graph.Releases.perm {g : Graph} (hacyclic : g.Acyclic) {slack : Ref → Nat}
    {l₁ l₂ : List Ref} {s s₁ s₂ : Ledger} (h₁ : g.Releases l₁ s s₁) (h₂ : g.Releases l₂ s s₂)
    (hperm : l₁.Perm l₂) (hl : ∀ x ∈ l₁, x ∈ g.nodes) (hbal : g.Balanced slack s.count l₁) :
    (∀ x ∈ g.nodes, s₁.count x = s₂.count x) ∧ s₁.freed.Perm s₂.freed := by
  have hbal₂ : g.Balanced slack s.count l₂ := fun x hx => by
    rw [← hperm.count_eq]
    exact hbal x hx
  obtain ⟨hend₁, new₁, hnew₁, hnodes₁⟩ := h₁.spec hl ((List.append_nil l₁).symm ▸ hbal)
  obtain ⟨hend₂, new₂, hnew₂, hnodes₂⟩ :=
    h₂.spec (fun x hx => hl x (hperm.mem_iff.mpr hx)) ((List.append_nil l₂).symm ▸ hbal₂)
  have hcount := hend₁.unique hacyclic hend₂
  refine ⟨hcount, ?_⟩
  rw [hnew₁.freed, hnew₂.freed]
  refine List.Perm.append_left _ ((List.perm_ext_iff_of_nodup hnew₁.nodup hnew₂.nodup).mpr ?_)
  intro x
  constructor
  · intro hx
    rw [hnew₂.mem_iff, ← hcount x (hnodes₁ x hx)]
    exact (hnew₁.mem_iff x).mp hx
  · intro hx
    rw [hnew₁.mem_iff, hcount x (hnodes₂ x hx)]
    exact (hnew₂.mem_iff x).mp hx

namespace Emitter.Module

variable {e : Emitter}

/-- Runs the release of each reference, by the function `fn` gives for its type. -/
def releaseAll (M : e.Module) (fn : TypeId → String) (order : List Ref) : Exec Unit :=
  order.forM fun x => do let _ ← M.program.run (fn x.type) [.ptr x.addr]

theorem yields_releaseAll {M : e.Module} (hsymbols : e.SymbolsApart)
    (hwidth : e.layouts.width = e.config.target.width) {h₀ : Heap} {g : Graph}
    (hg : e.layouts.Scene h₀ g) {slack : Ref → Nat} {fn : TypeId → String} {order : List Ref}
    {s : Ledger} {m : Machine}
    (hfn : ∀ x ∈ order, M.Holds (fn x.type) [x.type] .unit (e.releaseCode x.type))
    (hr : e.layouts.Ready h₀ g slack [] order s m.heap) :
    (M.releaseAll fn order).Yields m fun _ m' =>
      ∃ s', g.Releases order s s' ∧ e.layouts.Shows g.nodes h₀ s' m'.heap := by
  have hlets : Exec.Lets e.layouts h₀ g slack m.budget [] (M.releaseAll fn order)
      (order.flatMap fun x => [x]) := by
    refine Exec.lets_forM fun x hx m s todo _ hr => ?_
    refine (yields_release hsymbols hwidth hg (hfn x hx) hr).bind ?_
    rintro _ m' ⟨hm', -, hrel⟩
    exact Exec.yields_pure ⟨hm', hrel⟩
  have horder : (order.flatMap fun x => [x]) = order := List.flatMap_singleton' order
  rw [horder] at hlets
  refine (hlets m s [] (Nat.le_refl _) ?_).mono fun _ m' hm' => hm'.2
  rw [List.append_nil]
  exact hr

end Emitter.Module

/-- Whatever the order of the releases, the same is left. -/
theorem release_order {e : Emitter} (hwidth : e.layouts.width = e.config.target.width)
    (hsymbols : e.SymbolsApart) (M : e.Module) {fn : TypeId → String} {h : Heap}
    (hreach : h.Reachable) (hcursor : h.nextHeap ≤ Heap.stackBase) {roots nodes : List Ref}
    (ho : e.layouts.WellOwned h roots nodes)
    (hfn : ∀ x ∈ roots, M.Holds (fn x.type) [x.type] .unit (e.releaseCode x.type))
    {order₁ order₂ : List Ref} (hperm₁ : order₁.Perm roots) (hperm₂ : order₂.Perm roots)
    {m₁ m₂ : Machine} (hm₁ : m₁.heap = h) (hm₂ : m₂.heap = h) :
    (∃ m', (M.releaseAll fn order₁).run m₁ = .error (.error .stepLimit) m')
      ∨ (∃ m', (M.releaseAll fn order₂).run m₂ = .error (.error .stepLimit) m')
      ∨ ∃ m₁' m₂', (M.releaseAll fn order₁).run m₁ = .ok () m₁'
        ∧ (M.releaseAll fn order₂).run m₂ = .ok () m₂' ∧ m₁'.heap.Alike m₂'.heap
        ∧ (∀ x : Ref, e.layouts.refCount m₁'.heap x.type x.addr
          = e.layouts.refCount m₂'.heap x.type x.addr)
        ∧ ∃ log₁ log₂, m₁'.heap.freeLog = h.freeLog ++ log₁
          ∧ m₂'.heap.freeLog = h.freeLog ++ log₂ ∧ log₁.Perm log₂ := by
  have hs := hreach.sound (Or.inl hcursor)
  have hg := ho.scene hs
  have hready₁ := (ho.ready hs).perm hperm₁
  have hready₂ := (ho.ready hs).perm hperm₂
  have hrun₁ := Emitter.Module.yields_releaseAll hsymbols hwidth hg
    (fun x hx => hfn x (hperm₁.mem_iff.mp hx)) (m := m₁) (by rw [hm₁]; exact hready₁)
  have hrun₂ := Emitter.Module.yields_releaseAll hsymbols hwidth hg
    (fun x hx => hfn x (hperm₂.mem_iff.mp hx)) (m := m₂) (by rw [hm₂]; exact hready₂)
  rcases hrun₁.cases with hlimit | ⟨⟨⟩, m₁', hok₁, s₁, hrel₁, hshows₁⟩
  · exact Or.inl hlimit
  rcases hrun₂.cases with hlimit | ⟨⟨⟩, m₂', hok₂, s₂, hrel₂, hshows₂⟩
  · exact Or.inr (Or.inl hlimit)
  obtain ⟨hcount, hfreed⟩ := hrel₁.perm ho.graph_acyclic hrel₂ (hperm₁.trans hperm₂.symm)
    hready₁.known hready₁.balanced
  have halike := hshows₁.alike hg hshows₂ hcount hfreed
  refine Or.inr (Or.inr ⟨m₁', m₂', hok₁, hok₂, halike, Layouts.refCount_alike halike, ?_⟩)
  exact ⟨_, _, hshows₁.freeLog, hshows₂.freeLog, hfreed.map _⟩

/-- The function for a type of the shared cell. -/
def Shared.function (ty : TypeId) : String := if ty = Shared.pair.type then "pair" else "cell"

theorem Shared.holds_function : ∀ x ∈ [Shared.pair, Shared.cell],
    Shared.linked.Holds (Shared.function x.type) [x.type] .unit
      (Shared.emitter.releaseCode x.type) := by
  intro x hx
  rcases List.mem_cons.mp hx with rfl | hx
  · exact Shared.holds_pair
  · rw [List.mem_singleton.mp hx]
    exact Shared.holds_cell

namespace Shared

/-- The machine after the pair was let go of, and then the cell. -/
def pairFirst : Machine := Step.after (linked.releaseAll function [pair, cell]) machine

/-- The machine after the cell was let go of, and then the pair. -/
def cellFirst : Machine := Step.after (linked.releaseAll function [cell, pair]) machine

theorem run_pairFirst : (linked.releaseAll function [pair, cell]).run machine = .ok () pairFirst :=
  Step.run_of_result? (by decide +kernel)

theorem run_cellFirst : (linked.releaseAll function [cell, pair]).run machine = .ok () cellFirst :=
  Step.run_of_result? (by decide +kernel)

end Shared

/-- The pair goes before its cell in one order, and after it in the other. -/
theorem release_order_shared :
    (Shared.linked.releaseAll Shared.function [Shared.pair, Shared.cell]).run Shared.machine
        = .ok () Shared.pairFirst
      ∧ (Shared.linked.releaseAll Shared.function [Shared.cell, Shared.pair]).run Shared.machine
        = .ok () Shared.cellFirst
      ∧ Shared.pairFirst.heap.Alike Shared.cellFirst.heap
      ∧ (∀ x : Ref, Shared.emitter.layouts.refCount Shared.pairFirst.heap x.type x.addr
        = Shared.emitter.layouts.refCount Shared.cellFirst.heap x.type x.addr)
      ∧ ∃ log₁ log₂, Shared.pairFirst.heap.freeLog = Shared.heap.freeLog ++ log₁
        ∧ Shared.cellFirst.heap.freeLog = Shared.heap.freeLog ++ log₂ ∧ log₁.Perm log₂ := by
  have hheap : Shared.machine.heap = Shared.heap := rfl
  rcases release_order rfl Shared.symbolsApart Shared.linked Shared.reachable_heap
    (by decide +kernel) (Shared.wellOwned (Or.inr rfl)) Shared.holds_function (.refl _)
    (List.Perm.swap Shared.pair Shared.cell []) hheap hheap
    with ⟨m, hlimit⟩ | ⟨m, hlimit⟩ | ⟨m₁, m₂, hok₁, hok₂, hsame⟩
  · cases Shared.run_pairFirst.symm.trans hlimit
  · cases Shared.run_cellFirst.symm.trans hlimit
  · obtain ⟨-, rfl⟩ := EStateM.Result.ok.inj (Shared.run_pairFirst.symm.trans hok₁)
    obtain ⟨-, rfl⟩ := EStateM.Result.ok.inj (Shared.run_cellFirst.symm.trans hok₂)
    exact ⟨hok₁, hok₂, hsame⟩

end Ownership
