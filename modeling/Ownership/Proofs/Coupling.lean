import Ownership.Proofs.Ends

/-!
# Machines that do the same

Two runs of the same actions on machines that are related: in what they
may still spend, or in the stack slots of the running call. An action that
only spends steps and uses memory does the same on both, and they are
related afterwards (`Coupling.Follows`). The relation is left open; what
is asked of it is that the two machines have the same memory, and that
one can spend a step where the other can (`Coupling`).

In `Coupling.sameSteps` the machines differ in their stack slots only. So
an action that does not use stack slots does the same in a call of its own
(`Coupling.Follows.run_inCall`).
-/

namespace Ownership

/-- A relation of machines that is kept when both do the same. -/
structure Coupling where
  rel : Machine → Machine → Prop
  heap : ∀ {m n : Machine}, rel m n → n.heap = m.heap
  put : ∀ {m n : Machine}, rel m n → ∀ h, rel { m with heap := h } { n with heap := h }
  spend : ∀ {m n : Machine} {k : Nat}, rel m n → m.budget = k + 1 →
    ∃ l, n.budget = l + 1 ∧ rel { m with budget := k } { n with budget := l }
  /-- Whether the second machine fails where the first one does. -/
  fails : Prop
  spent : fails → ∀ {m n : Machine}, rel m n → m.budget = 0 → n.budget = 0

namespace Coupling

open Exec

/-- What `x` does on a machine `y` does on a related one. -/
structure Follows {α : Type} (C : Coupling) (x y : Exec α) : Prop where
  ok : ∀ {m n m' : Machine} {a : α}, C.rel m n → x.run m = .ok a m' →
    ∃ n', y.run n = .ok a n' ∧ C.rel m' n'
  error : C.fails → ∀ {m n m' : Machine} {s : Stop Fault}, C.rel m n → x.run m = .error s m' →
    ∃ n', y.run n = .error s n' ∧ C.rel m' n'

variable {C : Coupling} {α β γ : Type} {x y : Exec α} {f g : α → Exec β}

theorem follows_pure (a : α) : C.Follows (pure a) (pure a) where
  ok h hrun := by
    obtain ⟨rfl, rfl⟩ := EStateM.Result.ok.inj hrun
    exact ⟨_, rfl, h⟩
  error _ _ _ _ _ _ hrun := by cases hrun

theorem follows_throw (s : Stop Fault) : C.Follows (throw s : Exec α) (throw s) where
  ok _ hrun := by cases hrun
  error _ _ _ _ _ h hrun := by
    obtain ⟨rfl, rfl⟩ := EStateM.Result.error.inj hrun
    exact ⟨_, rfl, h⟩

theorem Follows.bind (hx : C.Follows x y) (hf : ∀ a, C.Follows (f a) (g a)) :
    C.Follows (x >>= f) (y >>= g) where
  ok h hrun := by
    obtain ⟨a, m₁, hx₁, hf₁⟩ := Step.bind_ok hrun
    obtain ⟨n₁, hy₁, h₁⟩ := hx.ok h hx₁
    obtain ⟨n₂, hg₁, h₂⟩ := (hf a).ok h₁ hf₁
    refine ⟨n₂, ?_, h₂⟩
    rw [EStateM.run_bind, hy₁]
    exact hg₁
  error hfails m n m' s h hrun := by
    rw [EStateM.run_bind] at hrun
    cases hx₁ : x.run m with
    | ok a m₁ =>
        obtain ⟨n₁, hy₁, h₁⟩ := hx.ok h hx₁
        rw [hx₁] at hrun
        obtain ⟨n₂, hg₁, h₂⟩ := (hf a).error hfails h₁ hrun
        refine ⟨n₂, ?_, h₂⟩
        rw [EStateM.run_bind, hy₁]
        exact hg₁
    | error s₁ m₁ =>
        obtain ⟨n₁, hy₁, h₁⟩ := hx.error hfails h hx₁
        rw [hx₁] at hrun
        obtain ⟨rfl, rfl⟩ := EStateM.Result.error.inj hrun
        refine ⟨n₁, ?_, h₁⟩
        rw [EStateM.run_bind, hy₁]

theorem follows_forM {f g : γ → Exec Unit} {l : List γ} (h : ∀ c ∈ l, C.Follows (f c) (g c)) :
    C.Follows (l.forM f) (l.forM g) := by
  induction l with
  | nil => exact follows_pure ()
  | cons c l ih =>
      exact (h c List.mem_cons_self).bind fun _ => ih fun b hb => h b (List.mem_cons_of_mem c hb)

/-! ## Steps and memory -/

theorem tick_ok {m m' : Machine} (h : tick.run m = .ok () m') :
    ∃ budget, m.budget = budget + 1 ∧ m' = { m with budget } := by
  cases hb : m.budget with
  | zero =>
      rw [run_tick_zero hb] at h
      cases h
  | succ budget =>
      rw [run_tick hb] at h
      exact ⟨budget, rfl, (EStateM.Result.ok.inj h).2.symm⟩

theorem follows_tick : C.Follows tick tick where
  ok h hrun := by
    obtain ⟨k, hm, rfl⟩ := tick_ok hrun
    obtain ⟨l, hn, h'⟩ := C.spend h hm
    exact ⟨_, run_tick hn, h'⟩
  error hfails m n m' s h hrun := by
    cases hm : m.budget with
    | zero =>
        rw [run_tick_zero hm] at hrun
        obtain ⟨rfl, rfl⟩ := EStateM.Result.error.inj hrun
        exact ⟨n, run_tick_zero (C.spent hfails h hm), h⟩
    | succ k =>
        rw [run_tick hm] at hrun
        cases hrun

theorem follows_outcome (r : Outcome α) : C.Follows (outcome r) (outcome r) := by
  cases r with
  | ok a => exact follows_pure a
  | error s =>
      cases s with
      | error f => exact follows_throw _
      | abort a => exact follows_throw _

/-- What is read from memory. -/
theorem follows_read {f g : Heap → Exec β} (hf : ∀ h, C.Follows (f h) (g h)) :
    C.Follows (get >>= fun m => f m.heap) (get >>= fun m => g m.heap) where
  ok {m n _ _} h hrun := by
    obtain ⟨n', hg, h'⟩ := (hf m.heap).ok h hrun
    rw [← C.heap h] at hg
    exact ⟨n', hg, h'⟩
  error hfails m n _ _ h hrun := by
    obtain ⟨n', hg, h'⟩ := (hf m.heap).error hfails h hrun
    rw [← C.heap h] at hg
    exact ⟨n', hg, h'⟩

/-- What depends on memory, and changes nothing else. -/
theorem follows_of_heap {x : Exec α}
    (hx : ∀ h, (∃ a h', ∀ m : Machine, m.heap = h → x.run m = .ok a { m with heap := h' })
      ∨ ∃ s, ∀ m : Machine, m.heap = h → x.run m = .error s m) : C.Follows x x where
  ok {m n _ _} h hrun := by
    rcases hx m.heap with ⟨a, h', hok⟩ | ⟨s, herror⟩
    · rw [hok m rfl] at hrun
      obtain ⟨rfl, rfl⟩ := EStateM.Result.ok.inj hrun
      exact ⟨_, hok n (C.heap h), C.put h h'⟩
    · rw [herror m rfl] at hrun
      cases hrun
  error _ m n _ _ h hrun := by
    rcases hx m.heap with ⟨a, h', hok⟩ | ⟨s, herror⟩
    · rw [hok m rfl] at hrun
      cases hrun
    · rw [herror m rfl] at hrun
      obtain ⟨rfl, rfl⟩ := EStateM.Result.error.inj hrun
      exact ⟨n, herror n (C.heap h), h⟩

theorem follows_withHeap (f : Heap → Outcome Heap) : C.Follows (withHeap f) (withHeap f) := by
  refine follows_of_heap fun h => ?_
  cases hf : f h with
  | ok h' => exact Or.inl ⟨(), h', fun m hm => run_withHeap (hm ▸ hf)⟩
  | error s => exact Or.inr ⟨s, fun m hm => run_withHeap_error (hm ▸ hf)⟩

theorem follows_malloc (size : UInt64) : C.Follows (malloc size) (malloc size) := by
  refine follows_of_heap fun h => ?_
  cases hf : h.malloc size.toNat with
  | ok p => exact Or.inl ⟨_, p.2, fun m hm => run_malloc (hm ▸ hf)⟩
  | error a => exact Or.inr ⟨.abort a, fun m hm => run_malloc_error (hm ▸ hf)⟩

theorem follows_displaced (v : Value) (bytes : UInt64) :
    C.Follows (displaced v bytes) (displaced v bytes) :=
  follows_tick.bind fun _ => (follows_outcome _).bind fun _ => follows_pure _

theorem follows_fetch (L : Layouts) (addr : UInt64) : C.Follows (L.fetch addr) (L.fetch addr) :=
  follows_tick.bind fun _ => follows_read fun h => follows_outcome (L.loadWord h addr)

theorem follows_counter (L : Layouts) (layout : RefLayout) (v : Value) :
    C.Follows (L.counter layout v) (L.counter layout v) :=
  (follows_displaced v _).bind fun a => (follows_fetch L a).bind fun _ => follows_pure _

theorem follows_fetchValue (L : Layouts) (ty : TypeId) (v : Value) :
    C.Follows (L.fetchValue ty v) (L.fetchValue ty v) :=
  follows_tick.bind fun _ => (follows_outcome _).bind fun _ =>
    follows_read fun h => follows_outcome (L.load h ty _)

theorem follows_put (L : Layouts) (addr w : UInt64) : C.Follows (L.put addr w) (L.put addr w) :=
  follows_tick.bind fun _ => follows_withHeap _

/-! ## Letting go -/

section Runtime

variable {e : Emitter} {R T : Runtime e} {ty : TypeId} {layout : RefLayout} {v : Value}
  {delta : Int64}

theorem follows_freeAt : C.Follows (R.freeAt v) (T.freeAt v) := by
  unfold Runtime.freeAt
  split
  · exact follows_tick.bind fun _ => (follows_outcome _).bind fun _ => follows_withHeap _
  · exact follows_tick.bind fun _ => (follows_outcome _).bind fun _ =>
      (follows_malloc _).bind fun _ => follows_pure ()

theorem follows_guardTrap (cause : TrapCause) (bad : Bool) :
    C.Follows (guardTrap cause bad) (guardTrap cause bad) := by
  refine follows_tick.bind fun _ => ?_
  split
  · exact follows_throw _
  · exact follows_pure ()

theorem follows_requireHolders (old : UInt64) :
    C.Follows (R.requireHolders old delta) (T.requireHolders old delta) := by
  unfold Runtime.requireHolders
  split
  · exact follows_guardTrap _ _
  · exact follows_pure ()

/-- If contents are let go of in the same way, all else is. -/
theorem follows_decrease (hcontents : ∀ ty v, C.Follows (R.letGo ty v) (T.letGo ty v)) :
    C.Follows (R.decrease layout v delta) (T.decrease layout v delta) := by
  refine (follows_counter _ _ _).bind fun p => (follows_requireHolders _).bind fun _ => ?_
  refine (follows_tick.bind fun _ => follows_pure _).bind fun new => ?_
  refine (follows_put _ _ _).bind fun _ => follows_tick.bind fun _ => ?_
  split
  · exact (hcontents _ _).bind fun _ => follows_freeAt
  · exact follows_pure ()

theorem follows_release (hcontents : ∀ ty v, C.Follows (R.letGo ty v) (T.letGo ty v)) :
    C.Follows (R.release ty v) (T.release ty v) := by
  unfold Runtime.release
  cases e.layouts.ref ty with
  | error s => exact follows_throw _
  | ok layout =>
      simp only
      cases layout.region with
      | owning => exact (hcontents _ _).bind fun _ => follows_freeAt
      | counted => exact follows_decrease hcontents
      | borrowed => exact follows_pure ()

theorem follows_releaseField (hcontents : ∀ ty v, C.Follows (R.letGo ty v) (T.letGo ty v))
    (r : FieldRelease) : C.Follows (R.releaseField v r) (T.releaseField v r) := by
  refine (follows_displaced v _).bind fun addr => ?_
  cases r.action with
  | release region =>
      exact (follows_fetchValue _ _ _).bind fun held => follows_release hcontents
  | descend => exact hcontents _ _

end Runtime

/-! ## Other stack slots -/

/-- The machines differ in the stack slots of the running call, and no more than `limit` steps are
left. -/
def sameSteps (limit : Nat) (slots slots' : List Address) : Coupling where
  rel m n := m.slots = slots ∧ n = { m with slots := slots' } ∧ m.budget ≤ limit
  heap := by
    rintro m n ⟨-, rfl, -⟩
    rfl
  put := by
    rintro m n ⟨hslots, rfl, hlimit⟩ h
    exact ⟨hslots, rfl, hlimit⟩
  spend := by
    rintro m n k ⟨hslots, rfl, hlimit⟩ hk
    exact ⟨k, hk, hslots, rfl, show k ≤ limit by omega⟩
  fails := True
  spent := by
    rintro - m n ⟨-, rfl, -⟩ hm
    exact hm

variable {limit : Nat} {slots slots' : List Address}

theorem follows_tick_zero {f g : Unit → Exec β} :
    (sameSteps 0 slots slots').Follows (tick >>= f) (tick >>= g) where
  ok {m n _ _} h hrun := by
    rw [Step.run_bind_error (run_tick_zero (Nat.le_zero.mp h.2.2))] at hrun
    cases hrun
  error hfails m n m' s h hrun := by
    have hm : m.budget = 0 := Nat.le_zero.mp h.2.2
    have hn : n.budget = 0 := (sameSteps 0 slots slots').spent hfails h hm
    rw [Step.run_bind_error (run_tick_zero hm)] at hrun
    obtain ⟨rfl, rfl⟩ := EStateM.Result.error.inj hrun
    exact ⟨n, Step.run_bind_error (run_tick_zero hn), h⟩

/-- Behind a step that was spent, one step less is left. -/
theorem follows_tick_succ {f g : Unit → Exec β}
    (hf : (sameSteps limit slots slots').Follows (f ()) (g ())) :
    (sameSteps (limit + 1) slots slots').Follows (tick >>= f) (tick >>= g) := by
  have hless : ∀ {m : Machine} {k : Nat}, m.slots = slots → m.budget ≤ limit + 1 →
      m.budget = k + 1 → (sameSteps limit slots slots').rel { m with budget := k }
        { m with slots := slots', budget := k } :=
    fun {_ k} hslots hlimit hk => ⟨hslots, rfl, show k ≤ limit by omega⟩
  constructor
  · rintro m _ m' a ⟨hslots, rfl, hlimit⟩ hrun
    obtain ⟨⟨⟩, m₁, h₁, hrun₁⟩ := Step.bind_ok hrun
    obtain ⟨k, hk, rfl⟩ := tick_ok h₁
    obtain ⟨n', hn', hslots', hrel, hlimit'⟩ := hf.ok (hless hslots hlimit hk) hrun₁
    refine ⟨n', ?_, hslots', hrel, Nat.le_succ_of_le hlimit'⟩
    exact (Step.run_bind_ok (run_tick (m := { m with slots := slots' }) hk)).trans hn'
  · rintro hfails m _ m' s ⟨hslots, rfl, hlimit⟩ hrun
    rcases Nat.eq_zero_or_pos m.budget with hm | hm
    · rw [Step.run_bind_error (run_tick_zero hm)] at hrun
      obtain ⟨rfl, rfl⟩ := EStateM.Result.error.inj hrun
      exact ⟨_, Step.run_bind_error (run_tick_zero (m := { m with slots := slots' }) hm), hslots,
        rfl, hlimit⟩
    · obtain ⟨k, hk⟩ := Nat.exists_eq_add_of_le' hm
      rw [Step.run_bind_ok (run_tick hk)] at hrun
      obtain ⟨n', hn', hslots', hrel, hlimit'⟩ := hf.error hfails (hless hslots hlimit hk) hrun
      refine ⟨n', ?_, hslots', hrel, Nat.le_succ_of_le hlimit'⟩
      exact (Step.run_bind_ok (run_tick (m := { m with slots := slots' }) hk)).trans hn'

/-- A call has its own stack slots, so it does not matter which ones the caller has. -/
theorem Follows.inCall (h : (sameSteps limit [] []).Follows x y) :
    (sameSteps limit slots slots').Follows (Exec.inCall x) (Exec.inCall y) := by
  have hempty : ∀ {m : Machine}, m.budget ≤ limit → (sameSteps limit [] []).rel
      { m with slots := [] } { m with slots := [] } := fun hlimit => ⟨rfl, rfl, hlimit⟩
  constructor
  · rintro m _ m' a ⟨hslots, rfl, hlimit⟩ hrun
    obtain ⟨m₁, hx, rfl⟩ := inCall_ok hrun
    obtain ⟨n₁, hy, hslots₁, rfl, hlimit₁⟩ := h.ok (hempty hlimit) hx
    refine ⟨_, run_inCall_ok (m := { m with slots := slots' }) hy, hslots, ?_, hlimit₁⟩
    rw [leave_of_slots_nil rfl, leave_of_slots_nil hslots₁]
  · rintro hfails m _ m' s ⟨hslots, rfl, hlimit⟩ hrun
    obtain ⟨m₁, hx, rfl⟩ := inCall_error hrun
    obtain ⟨n₁, hy, hslots₁, rfl, hlimit₁⟩ := h.error hfails (hempty hlimit) hx
    refine ⟨_, run_inCall_error (m := { m with slots := slots' }) hy, hslots, ?_, hlimit₁⟩
    rw [leave_of_slots_nil rfl, leave_of_slots_nil hslots₁]

theorem Follows.congr {z : Exec α} (h : (sameSteps limit slots slots).Follows x y)
    (heq : ∀ m : Machine, m.budget ≤ limit → z.run m = y.run m) :
    (sameSteps limit slots slots).Follows x z where
  ok {m n _ _} hrel hrun := by
    have hn : n.budget ≤ limit := hrel.2.1 ▸ hrel.2.2
    rw [heq n hn]
    exact h.ok hrel hrun
  error hfails m n _ _ hrel hrun := by
    have hn : n.budget ≤ limit := hrel.2.1 ▸ hrel.2.2
    rw [heq n hn]
    exact h.error hfails hrel hrun

/-- Actions that do the same on the same machine. -/
theorem Follows.run_eq {m : Machine} (h : (sameSteps limit m.slots m.slots).Follows x y)
    (hm : m.budget ≤ limit) : y.run m = x.run m := by
  cases hx : x.run m with
  | ok a m' =>
      obtain ⟨n', hy, hslots, rfl, -⟩ := h.ok (n := m) ⟨rfl, rfl, hm⟩ hx
      rw [hy, ← hslots]
  | error s m' =>
      obtain ⟨n', hy, hslots, rfl, -⟩ := h.error trivial (n := m) ⟨rfl, rfl, hm⟩ hx
      rw [hy, ← hslots]

/-- What an action does in a call of its own. -/
theorem Follows.run_inCall {m : Machine} (h : (sameSteps limit m.slots []).Follows x y)
    (hm : m.budget ≤ limit) : (Exec.inCall y).run m = x.run m := by
  cases hx : x.run m with
  | ok a m' =>
      obtain ⟨n', hy, hslots, rfl, -⟩ := h.ok (n := { m with slots := [] }) ⟨rfl, rfl, hm⟩ hx
      rw [run_inCall_ok hy, leave_of_slots_nil rfl, ← hslots]
  | error s m' =>
      obtain ⟨n', hy, hslots, rfl, -⟩ :=
        h.error trivial (n := { m with slots := [] }) ⟨rfl, rfl, hm⟩ hx
      rw [run_inCall_error hy, leave_of_slots_nil rfl, ← hslots]

end Coupling

end Ownership
