import Ownership.Layout.Table

/-!
# How a step ends

`Step.Stops P x` says that wherever `x` is started, it only fails for
reasons in `P`. `Step.Answers I x r` says that started in a state of `I`,
`x` ends with `r`, a value or a failure, and that it leaves a state of
`I`. Both are put together along the way in which `x` is.
-/

namespace Ownership

namespace Step

variable {ε ε' σ α β : Type} {P Q : Stop ε → Prop} {x : Step ε σ α} {f : α → Step ε σ β}

/-- Wherever it is started, `x` only fails for reasons in `P`. -/
def Stops (P : Stop ε → Prop) (x : Step ε σ α) : Prop :=
  ∀ (s s' : σ) (r : Stop ε), x.run s = .error r s' → P r

theorem stops_of_ok (h : ∀ s, ∃ a s', x.run s = .ok a s') : Stops P x := by
  intro s s' r hrun
  obtain ⟨a, s₁, hok⟩ := h s
  rw [hok] at hrun
  cases hrun

theorem stops_pure (a : α) : Stops P (pure a : Step ε σ α) := stops_of_ok fun s => ⟨a, s, rfl⟩

theorem stops_get : Stops P (get : Step ε σ σ) := stops_of_ok fun s => ⟨s, s, rfl⟩

theorem stops_set (s : σ) : Stops P (set s : Step ε σ Unit) := stops_of_ok fun _ => ⟨(), s, rfl⟩

theorem stops_throw {r : Stop ε} (h : P r) : Stops P (throw r : Step ε σ α) := by
  intro s s' r' hrun
  rw [← (EStateM.Result.error.inj hrun).1]
  exact h

theorem Stops.bind (hx : Stops P x) (hf : ∀ a, Stops P (f a)) : Stops P (x >>= f) := by
  intro s s' r hrun
  rw [EStateM.run_bind] at hrun
  split at hrun
  · exact hf _ _ _ _ hrun
  · next hx' =>
      obtain ⟨rfl, -⟩ := EStateM.Result.error.inj hrun
      exact hx _ _ _ hx'

/-- An answer from elsewhere, and what is done with it. -/
theorem stops_lift_bind {y : Except (Stop ε') α} {g : ε' → ε} (hy : ∀ r, y = .error r → P (r.map g))
    (hf : ∀ a, y = .ok a → Stops P (f a)) : Stops P ((lift g y : Step ε σ α) >>= f) := by
  cases y with
  | ok a => exact hf a rfl
  | error r => exact fun s s' r' hrun => stops_throw (hy r rfl) s s' r' hrun

theorem stops_ofAbort {y : Except Abort α} (hy : ∀ a, y = .error a → P (.abort a)) :
    Stops P (ofAbort y : Step ε σ α) := by
  cases y with
  | ok a => exact stops_pure a
  | error a => exact stops_throw (hy a rfl)

/-! ## What a step answers -/

/-- How a run ends that has the answer `r` and leaves the state `s`. -/
def ending : Except (Stop ε) α → σ → EStateM.Result (Stop ε) σ α
  | .ok a, s => .ok a s
  | .error e, s => .error e s

theorem ending_inj {r r' : Except (Stop ε) α} {s s' : σ} (h : ending r s = ending r' s') :
    r = r' ∧ s = s' := by
  cases r with
  | ok a =>
      cases r' with
      | ok a' => exact ⟨congrArg _ (EStateM.Result.ok.inj h).1, (EStateM.Result.ok.inj h).2⟩
      | error e => cases h
  | error e =>
      cases r' with
      | ok a => cases h
      | error e' =>
          exact ⟨congrArg _ (EStateM.Result.error.inj h).1, (EStateM.Result.error.inj h).2⟩

/-- Started in a state of `I`, `x` has the answer `r` and leaves a state of `I`. -/
def Answers (I : σ → Prop) (x : Step ε σ α) (r : Except (Stop ε) α) : Prop :=
  ∀ s, I s → ∃ s', I s' ∧ x.run s = ending r s'

variable {I : σ → Prop} {r : Except (Stop ε) α} {g : α → Except (Stop ε) β}

theorem answers_pure (a : α) : Answers I (pure a : Step ε σ α) (.ok a) := fun s hs => ⟨s, hs, rfl⟩

theorem answers_throw (e : Stop ε) : Answers I (throw e : Step ε σ α) (.error e) :=
  fun s hs => ⟨s, hs, rfl⟩

theorem answers_ofAbort (y : Except Abort α) :
    Answers I (ofAbort y : Step ε σ α) (y.mapError .abort) := by
  cases y with
  | ok a => exact answers_pure a
  | error a => exact answers_throw _

/-- The answer of a sequence is the sequence of the answers. -/
theorem Answers.bind (hx : Answers I x r) (hf : ∀ a, r = .ok a → Answers I (f a) (g a)) :
    Answers I (x >>= f) (r >>= g) := by
  intro s hs
  obtain ⟨s₁, hs₁, hrun⟩ := hx s hs
  rw [EStateM.run_bind, hrun]
  cases r with
  | ok a => exact hf a rfl s₁ hs₁
  | error e => exact ⟨s₁, hs₁, rfl⟩

theorem Answers.map (hx : Answers I x r) (f : α → β) : Answers I (f <$> x) (r.map f) := by
  have hbind : Answers I (x >>= fun a => pure (f a)) (r >>= fun a => pure (f a)) :=
    hx.bind fun a _ => answers_pure (f a)
  rw [map_eq_pure_bind]
  cases r with
  | ok a => exact hbind
  | error e => exact hbind

theorem answer_map (f : α → β) (s : σ) : (f <$> x).answer s = (x.answer s).map f := by
  rw [map_eq_pure_bind, answer, answer, EStateM.run_bind]
  cases x.run s with
  | ok a s' => rfl
  | error e s' => rfl

theorem Answers.answer (hx : Answers I x r) {s : σ} (hs : I s) : x.answer s = r := by
  obtain ⟨s', -, hrun⟩ := hx s hs
  rw [Step.answer, hrun]
  cases r <;> rfl

end Step

theorem eq_ok_of_toOption {ε α : Type} {r : Except ε α} {a : α} (h : r.toOption = some a) :
    r = .ok a := by
  cases r with
  | ok b => exact congrArg Except.ok (Option.some.inj h)
  | error e => cases h

theorem toOption_eq_some_iff {ε α : Type} {r : Except ε α} {a : α} :
    r.toOption = some a ↔ r = .ok a :=
  ⟨eq_ok_of_toOption, fun h => by rw [h]; rfl⟩

theorem eq_error_of_map {ε α β : Type} {r : Except ε α} {f : α → β} {e : ε}
    (h : r.map f = .error e) : r = .error e := by
  cases r with
  | ok a => cases h
  | error e' => exact congrArg Except.error (Except.error.inj h)

/-! ## Sizes that do not fit -/

/-- An error, or an abort for a size that does not fit. -/
def Stop.Sized {ε : Type} : Stop ε → Prop
  | .error _ => True
  | .abort a => a = .overflow

theorem addSize_error {m n : Nat} {a : Abort} (h : addSize m n = .error a) : a = .overflow := by
  unfold addSize at h
  split at h
  · cases h
  · exact (Except.error.inj h).symm

theorem alignSize_error {n align : Nat} {a : Abort} (h : alignSize n align = .error a) :
    a = .overflow := by
  unfold alignSize at h
  split at h
  · cases h
  · next a' hadd =>
      obtain rfl := Except.error.inj h
      exact addSize_error hadd

theorem Placement.add_error {p : Placement} {field : FieldDef} {layout : ValueLayout} {a : Abort}
    (h : p.add field layout = .error a) : a = .overflow := by
  unfold Placement.add at h
  cases hoffset : alignSize p.offset layout.align with
  | error a' =>
      rw [hoffset] at h
      cases h
      exact alignSize_error hoffset
  | ok offset =>
      rw [hoffset] at h
      cases hnext : addSize offset layout.size with
      | error a' =>
          simp only [bind, Except.bind, hnext] at h
          cases h
          exact addSize_error hnext
      | ok next =>
          simp only [bind, Except.bind, hnext] at h
          cases h

theorem Placement.finish_error {p : Placement} {a : Abort} (h : p.finish = .error a) :
    a = .overflow := by
  unfold Placement.finish at h
  cases hsize : alignSize p.offset p.align with
  | error a' =>
      rw [hsize] at h
      cases h
      exact alignSize_error hsize
  | ok size =>
      rw [hsize] at h
      cases h

theorem Layouts.header_error {L : Layouts} {region : Region} {value : ValueLayout} {a : Abort}
    (h : L.header region value = .error a) : a = .overflow := by
  cases region with
  | counted => exact alignSize_error h
  | owning => cases h
  | borrowed => cases h

end Ownership
