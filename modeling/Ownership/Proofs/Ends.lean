import Ownership.Proofs.Actions

/-!
# How actions end

`Exec.Ends x m Q` says that `Q` holds of the result of `x` on the machine
`m` and of the machine behind it, unless the budget runs out on the way.
`Exec.Yields` says in addition that there is a result. The rules follow
the actions: sequence, the single instructions and the call.
-/

namespace Ownership

/-- The machine `m'` is `m` with another heap and maybe less budget. -/
structure Machine.Becomes (m : Machine) (h : Heap) (m' : Machine) : Prop where
  heap : m'.heap = h
  slots : m'.slots = m.slots
  budget : m'.budget ≤ m.budget

theorem Machine.Becomes.refl (m : Machine) : m.Becomes m.heap m := ⟨rfl, rfl, Nat.le_refl _⟩

theorem Machine.Becomes.trans {m m₁ m₂ : Machine} {h₁ h₂ : Heap} (hm₁ : m.Becomes h₁ m₁)
    (hm₂ : m₁.Becomes h₂ m₂) : m.Becomes h₂ m₂ :=
  ⟨hm₂.heap, hm₂.slots.trans hm₁.slots, Nat.le_trans hm₂.budget hm₁.budget⟩

theorem Machine.Becomes.self {m m' : Machine} {h : Heap} (hm : m.Becomes h m') :
    m.Becomes m'.heap m' := ⟨rfl, hm.slots, hm.budget⟩

namespace Exec

variable {α β : Type}

/-- Unless the budget runs out, `x` ends as `Q` says. -/
def Ends (x : Exec α) (m : Machine) (Q : Outcome α → Machine → Prop) : Prop :=
  match x.run m with
  | .ok a m' => Q (.ok a) m'
  | .error s m' => s = .error .stepLimit ∨ Q (.error s) m'

/-- Unless the budget runs out, `x` has a result as `Q` says. -/
def Yields (x : Exec α) (m : Machine) (Q : α → Machine → Prop) : Prop :=
  x.Ends m fun r m' => ∃ a, r = .ok a ∧ Q a m'

theorem Ends.mono {x : Exec α} {m : Machine} {P Q : Outcome α → Machine → Prop}
    (h : x.Ends m P) (hPQ : ∀ r m', P r m' → Q r m') : x.Ends m Q := by
  unfold Ends at h ⊢
  split at h
  · exact hPQ _ _ h
  · exact h.imp_right (hPQ _ _)

theorem Yields.mono {x : Exec α} {m : Machine} {P Q : α → Machine → Prop} (h : x.Yields m P)
    (hPQ : ∀ a m', P a m' → Q a m') : x.Yields m Q :=
  Ends.mono h fun _ m' ⟨a, hr, ha⟩ => ⟨a, hr, hPQ a m' ha⟩

theorem Yields.cases {x : Exec α} {m : Machine} {Q : α → Machine → Prop} (h : x.Yields m Q) :
    (∃ m', x.run m = .error (.error .stepLimit) m') ∨ ∃ a m', x.run m = .ok a m' ∧ Q a m' := by
  unfold Yields Ends at h
  cases hrun : x.run m with
  | ok a m' =>
      rw [hrun] at h
      obtain ⟨a', ha, hQ⟩ := h
      obtain rfl := Except.ok.inj ha
      exact Or.inr ⟨a, m', rfl, hQ⟩
  | error s m' =>
      rw [hrun] at h
      rcases h with rfl | ⟨a, ha, -⟩
      · exact Or.inl ⟨m', rfl⟩
      · cases ha

theorem Ends.of_run_eq {x y : Exec α} {m : Machine} {Q : Outcome α → Machine → Prop}
    (h : y.Ends m Q) (hrun : x.run m = y.run m) : x.Ends m Q := by
  unfold Ends
  rw [hrun]
  exact h

theorem Ends.of_ok {x : Exec α} {m m' : Machine} {a : α} {Q : Outcome α → Machine → Prop}
    (h : x.Ends m Q) (hrun : x.run m = .ok a m') : Q (.ok a) m' := by
  unfold Ends at h
  rw [hrun] at h
  exact h

theorem Ends.of_error {x : Exec α} {m m' : Machine} {s : Stop Fault}
    {Q : Outcome α → Machine → Prop} (h : x.Ends m Q) (hrun : x.run m = .error s m') :
    s = .error .stepLimit ∨ Q (.error s) m' := by
  unfold Ends at h
  rw [hrun] at h
  exact h

theorem Yields.of_ok {x : Exec α} {m m' : Machine} {a : α} {Q : α → Machine → Prop}
    (h : x.Yields m Q) (hrun : x.run m = .ok a m') : Q a m' := by
  obtain ⟨a', ha, hQ⟩ := Ends.of_ok h hrun
  exact Except.ok.inj ha ▸ hQ

/-- What follows a result. -/
theorem Yields.then {x : Exec α} {f : α → Exec β} {m : Machine} {P : α → Machine → Prop}
    {Q : Outcome β → Machine → Prop} (hx : x.Yields m P)
    (hf : ∀ a m', P a m' → (f a).Ends m' Q) : (x >>= f).Ends m Q := by
  unfold Yields Ends at hx
  unfold Ends
  rw [EStateM.run_bind]
  cases hrun : x.run m with
  | ok a m' =>
      rw [hrun] at hx
      obtain ⟨a', ha, hP⟩ := hx
      obtain rfl := Except.ok.inj ha
      exact hf a m' hP
  | error s m' =>
      rw [hrun] at hx
      rcases hx with hs | ⟨a, ha, -⟩
      · exact Or.inl hs
      · cases ha

theorem Yields.bind {x : Exec α} {f : α → Exec β} {m : Machine} {P : α → Machine → Prop}
    {Q : β → Machine → Prop} (hx : x.Yields m P)
    (hf : ∀ a m', P a m' → (f a).Yields m' Q) : (x >>= f).Yields m Q := Yields.then hx hf

/-- Nothing follows a fault. -/
theorem ends_bind_of_error {x : Exec α} {f : α → Exec β} {m : Machine}
    {Q : Outcome β → Machine → Prop}
    (hx : x.Ends m fun r m' => ∃ s, r = .error s ∧ Q (.error s) m') : (x >>= f).Ends m Q := by
  unfold Ends at hx ⊢
  rw [EStateM.run_bind]
  cases hrun : x.run m with
  | ok a m' =>
      rw [hrun] at hx
      obtain ⟨s, hs, -⟩ := hx
      cases hs
  | error s m' =>
      rw [hrun] at hx
      rcases hx with hs | ⟨s', hs, hQ⟩
      · exact Or.inl hs
      · obtain rfl := Except.error.inj hs
        exact Or.inr hQ

theorem Ends.map {x : Exec α} {f : α → β} {m : Machine} {Q : Outcome β → Machine → Prop}
    (h : x.Ends m fun r m' => Q (r.map f) m') : (x >>= fun a => pure (f a)).Ends m Q := by
  unfold Ends at h ⊢
  rw [EStateM.run_bind]
  cases hrun : x.run m with
  | ok a m' =>
      rw [hrun] at h
      exact h
  | error s m' =>
      rw [hrun] at h
      exact h

theorem yields_pure {a : α} {m : Machine} {Q : α → Machine → Prop} (h : Q a m) :
    (pure a : Exec α).Yields m Q := ⟨a, rfl, h⟩

/-! ## Single steps -/

theorem yields_tick (m : Machine) :
    tick.Yields m fun _ m' => m.Becomes m.heap m' ∧ m'.budget < m.budget := by
  unfold Yields Ends
  cases hb : m.budget with
  | zero =>
      rw [run_tick_zero hb]
      exact Or.inl rfl
  | succ budget =>
      rw [run_tick hb]
      exact ⟨(), rfl, ⟨rfl, rfl, by rw [hb]; exact Nat.le_succ _⟩, Nat.lt_succ_self _⟩

/-- A step that is paid for. -/
theorem ends_tick {x : Exec α} {m : Machine} {Q : Outcome α → Machine → Prop}
    (h : ∀ m', m.Becomes m.heap m' → m'.budget < m.budget → x.Ends m' Q) :
    (tick >>= fun _ => x).Ends m Q := (yields_tick m).then fun _ m' hm' => h m' hm'.1 hm'.2

theorem yields_displaced (a n : UInt64) (m : Machine) :
    (displaced (.ptr a) n).Yields m fun r m' => r = a + n ∧ m.Becomes m.heap m' :=
  ends_tick fun _ hm' _ => yields_pure ⟨rfl, hm'⟩

theorem ends_get {f : Machine → Exec α} {m : Machine} {Q : Outcome α → Machine → Prop}
    (h : (f m).Ends m Q) : (get >>= f).Ends m Q := by
  unfold Ends
  rw [EStateM.run_bind]
  exact h

theorem ends_outcome (r : Outcome α) (m : Machine) :
    (outcome r).Ends m fun r' m' => r' = r ∧ m' = m := by
  cases r with
  | ok a => exact ⟨rfl, rfl⟩
  | error s => cases s <;> exact Or.inr ⟨rfl, rfl⟩

theorem yields_outcome {r : Outcome α} {a : α} (h : r = .ok a) (m : Machine) :
    (outcome r).Yields m fun a' m' => a' = a ∧ m' = m :=
  (ends_outcome r m).mono fun _ _ ⟨hr, hm⟩ => ⟨a, hr.trans h, rfl, hm⟩

theorem yields_withHeap {f : Heap → Outcome Heap} {m : Machine} {h' : Heap}
    (h : f m.heap = .ok h') : (withHeap f).Yields m fun _ m' => m.Becomes h' m' := by
  refine ends_get ((yields_outcome h m).bind ?_)
  rintro heap m' ⟨rfl, rfl⟩
  exact ⟨(), rfl, rfl, rfl, Nat.le_refl _⟩

theorem yields_freeAt {a : UInt64} {m : Machine} {h' : Heap} (h : m.heap.free a.toNat = .ok h') :
    (freeAt (.ptr a)).Yields m fun _ m' => m.Becomes h' m' := by
  refine ends_tick fun m' hm' _ => ?_
  have hfree : (m'.heap.free a.toNat).mapError (fun f => Stop.error (Fault.memory f)) = .ok h' := by
    rw [hm'.heap, h]
    rfl
  have hyields := yields_withHeap (f := fun h => (h.free a.toNat).mapError _) hfree
  exact hyields.mono fun _ m'' hm'' => hm'.trans hm''

theorem yields_guardTrap (cause : TrapCause) (m : Machine) :
    (guardTrap cause false).Yields m fun _ m' => m.Becomes m.heap m' :=
  ends_tick fun _ hm' _ => yields_pure hm'

theorem ends_guardTrap (cause : TrapCause) (m : Machine) :
    (guardTrap cause true).Ends m fun r m' =>
      r = .error (.error (.trap cause)) ∧ m.Becomes m.heap m' :=
  ends_tick fun _ hm' _ => Or.inr ⟨rfl, hm'⟩

theorem leave_of_slots_nil {m : Machine} (h : m.slots = []) (slots : List Address) :
    leave m slots = { m with slots } := by
  rw [leave, h]
  rfl

/-- A call whose slots are gone when it ends leaves the memory as it is. -/
theorem ends_inCall {x : Exec α} {m : Machine} {Q : Outcome α → Machine → Prop}
    (h : x.Ends { m with slots := [] } fun r m' =>
      m'.slots = [] ∧ Q r { m' with slots := m.slots }) : (inCall x).Ends m Q := by
  unfold Ends
  cases hrun : x.run { m with slots := [] } with
  | ok a m' =>
      obtain ⟨hslots, hQ⟩ := h.of_ok hrun
      rw [run_inCall_ok hrun, leave_of_slots_nil hslots]
      exact hQ
  | error s m' =>
      rw [run_inCall_error hrun]
      rcases h.of_error hrun with hs | ⟨hslots, hQ⟩
      · exact Or.inl hs
      · rw [leave_of_slots_nil hslots]
        exact Or.inr hQ

theorem inCall_ok {x : Exec α} {m m' : Machine} {a : α} (h : (inCall x).run m = .ok a m') :
    ∃ m₁, x.run { m with slots := [] } = .ok a m₁ ∧ m' = leave m₁ m.slots := by
  cases hrun : x.run { m with slots := [] } with
  | ok a' m₁ =>
      rw [run_inCall_ok hrun] at h
      obtain ⟨rfl, rfl⟩ := EStateM.Result.ok.inj h
      exact ⟨m₁, rfl, rfl⟩
  | error s m₁ =>
      rw [run_inCall_error hrun] at h
      cases h

theorem inCall_error {x : Exec α} {m m' : Machine} {s : Stop Fault}
    (h : (inCall x).run m = .error s m') :
    ∃ m₁, x.run { m with slots := [] } = .error s m₁ ∧ m' = leave m₁ m.slots := by
  cases hrun : x.run { m with slots := [] } with
  | ok a m₁ =>
      rw [run_inCall_ok hrun] at h
      cases h
  | error s' m₁ =>
      rw [run_inCall_error hrun] at h
      obtain ⟨rfl, rfl⟩ := EStateM.Result.error.inj h
      exact ⟨m₁, rfl, rfl⟩

/-- A call of a function with a result. -/
theorem yields_inCall {x : Exec α} {f : α → β} {m : Machine} {Q : α → Heap → Prop}
    (h : x.Yields { m with slots := [] } fun a m' =>
      Machine.Becomes { m with slots := [] } m'.heap m' ∧ Q a m'.heap) :
    (inCall (x >>= fun a => pure (f a))).Yields m fun b m' =>
      m.Becomes m'.heap m' ∧ ∃ a, b = f a ∧ Q a m'.heap := by
  refine ends_inCall (h.then fun a m' hm' => ?_)
  exact ⟨hm'.1.slots, f a, rfl, ⟨rfl, rfl, hm'.1.budget⟩, a, rfl, hm'.2⟩

end Exec

namespace Layouts

variable {L : Layouts} {m : Machine} {a w : UInt64}

theorem ends_fetch (L : Layouts) (a : UInt64) (m : Machine) :
    (L.fetch a).Ends m fun r m' => r = L.loadWord m.heap a ∧ m.Becomes m.heap m' := by
  refine Exec.ends_tick fun m' hm' _ => ?_
  refine Exec.ends_get <| (Exec.ends_outcome _ m').mono ?_
  rintro r m'' ⟨rfl, rfl⟩
  exact ⟨by rw [hm'.heap], hm'⟩

theorem yields_fetch (h : L.loadWord m.heap a = .ok w) :
    (L.fetch a).Yields m fun r m' => r = w ∧ m.Becomes m.heap m' :=
  (L.ends_fetch a m).mono fun _ _ ⟨hr, hm'⟩ => ⟨w, hr.trans h, rfl, hm'⟩

theorem yields_put {h' : Heap} (h : L.storeWord m.heap a w = .ok h') :
    (L.put a w).Yields m fun _ m' => m.Becomes h' m' := by
  refine Exec.ends_tick fun m' hm' _ => ?_
  have hstore : L.storeWord m'.heap a w = .ok h' := hm'.heap ▸ h
  exact (Exec.yields_withHeap hstore).mono fun _ m'' hm'' => hm'.trans hm''

theorem yields_counter {layout : RefLayout}
    (h : L.loadWord m.heap (a + (Int64.ofInt layout.countOffset).toUInt64) = .ok w) :
    (L.counter layout (.ptr a)).Yields m fun r m' =>
      r = (a + (Int64.ofInt layout.countOffset).toUInt64, w) ∧ m.Becomes m.heap m' := by
  refine (Exec.yields_displaced _ _ m).bind ?_
  rintro a' m₁ ⟨rfl, hm₁⟩
  refine (yields_fetch (hm₁.heap ▸ h)).bind ?_
  rintro w' m₂ ⟨rfl, hm₂⟩
  exact Exec.yields_pure ⟨rfl, hm₁.heap ▸ hm₁.trans hm₂⟩

theorem yields_fetchValue {ty : TypeId} (htag : L.pool.tag ty = .reference)
    (h : L.loadWord m.heap a = .ok w) :
    (L.fetchValue ty (.ptr a)).Yields m fun r m' => r = .ptr w ∧ m.Becomes m.heap m' := by
  refine Exec.ends_tick fun m' hm' _ => ?_
  have hload : L.load m'.heap ty a = .ok (.ptr w) := by
    rw [hm'.heap, load_reference htag, h]
    rfl
  refine Exec.ends_get <| (Exec.yields_outcome hload m').mono ?_
  rintro v m'' ⟨rfl, rfl⟩
  exact ⟨rfl, hm'⟩

end Layouts

/-! ## Counts -/

namespace Emitter

theorem toNat_word (e : Emitter) (n : Int64) :
    ((e.word n).toNat : Int) = n.toInt % 2 ^ e.config.target.width.bits := by
  have h := toNat_toUInt64_emod n
  rw [Emitter.word, PointerWidth.toNat_truncate, Int.natCast_mod, h, Nat.cast_pow, Nat.cast_ofNat,
    Int.emod_emod_of_dvd _ (PointerWidth.two_pow_bits_dvd _)]

/-- The sum of a count and a change, as a word. -/
theorem toNat_changed {e : Emitter} (hwidth : e.layouts.width = e.config.target.width)
    (old : UInt64) (delta : Int64) :
    ((e.layouts.width.truncate (old + e.word delta)).toNat : Int)
      = (old.toNat + delta.toInt) % 2 ^ e.layouts.width.bits := by
  rw [PointerWidth.toNat_truncate, UInt64.toNat_add, Int.natCast_mod, Int.natCast_mod,
    Nat.cast_add, e.toNat_word, hwidth, Nat.cast_pow, Nat.cast_pow, Nat.cast_ofNat,
    Int.emod_emod_of_dvd _ (PointerWidth.two_pow_bits_dvd _), Int.add_emod_emod]

end Emitter

namespace Runtime

variable {e : Emitter} (R : Runtime e)

theorem yields_changed (old : UInt64) (delta : Int64) (m : Machine) :
    (R.changed old delta).Yields m fun r m' =>
      r = e.layouts.width.truncate (old + e.word delta) ∧ m.Becomes m.heap m' :=
  Exec.ends_tick fun _ hm' _ => Exec.yields_pure ⟨rfl, hm'⟩

theorem yields_requireHolders {old : UInt64} {delta : Int64}
    (h : ¬ old < e.word (Emitter.negateCapped delta)) (m : Machine) :
    (R.requireHolders old delta).Yields m fun _ m' => m.Becomes m.heap m' := by
  unfold requireHolders
  split
  · rw [decide_eq_false h]
    exact Exec.yields_guardTrap _ m
  · exact Exec.yields_pure (.refl m)

theorem yields_requireRoom {old new : UInt64} (h : ¬ new < old) (m : Machine) :
    (R.requireRoom old new).Yields m fun _ m' => m.Becomes m.heap m' := by
  unfold requireRoom
  split
  · rw [decide_eq_false h]
    exact Exec.yields_guardTrap _ m
  · exact Exec.yields_pure (.refl m)

end Runtime

end Ownership
