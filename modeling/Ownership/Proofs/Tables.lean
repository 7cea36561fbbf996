import Ownership.Proofs.Leaves

/-!
# Questions on one table

An interview asks one question after the other on one table. What was
asked before leaves its traces in the caches and, where a question failed
halfway, only in some of them; but the table is settled after each
question (`answers_ask`). So no answer depends on what was asked before
(`memoization_unobservable`), and a size is refused exactly to the types
that lead into a circle of records (`self_containment_exact`).
-/

namespace Ownership

/-- A question about the layout of a type. -/
inductive LayoutQuestion where
  | value (ty : TypeId)
  | record (ty : TypeId)
  | ref (ty : TypeId)
  | plan (ty : TypeId)
  deriving DecidableEq

/-- What a question is answered with. -/
inductive LayoutAnswer where
  | value (layout : ValueLayout)
  | record (layout : RecordLayout)
  | ref (layout : RefLayout)
  | plan (plan : ReleasePlan)
  deriving DecidableEq

namespace Layouts

open Step Relation

/-- Asks a question. -/
def ask (L : Layouts) : LayoutQuestion → LayoutQuery LayoutAnswer
  | .value ty => .value <$> L.queryValue ty
  | .record ty => .record <$> L.queryRecord ty
  | .ref ty => .ref <$> L.queryRef ty
  | .plan ty => .plan <$> L.queryPlan ty

/-- The answer on an empty table. -/
def freshAnswer (L : Layouts) (q : LayoutQuestion) : Except (Stop LayoutError) LayoutAnswer :=
  (L.ask q).answer {}

/-- The answers to questions that are asked one after the other, and the
table after them. A question that fails is followed by the next one; after
an abort there is none. -/
def interview (L : Layouts) : List LayoutQuestion → LayoutCache →
    List (Except (Stop LayoutError) LayoutAnswer) × LayoutCache
  | [], c => ([], c)
  | q :: qs, c =>
    match (L.ask q).run c with
    | .ok a after => (.ok a :: (L.interview qs after).1, (L.interview qs after).2)
    | .error (.error e) after =>
      (.error (.error e) :: (L.interview qs after).1, (L.interview qs after).2)
    | .error (.abort a) after => ([.error (.abort a)], after)

variable {L : Layouts} {c : LayoutCache}

/-! ## One question -/

/-- A settled table answers as an empty one does, and is settled again. -/
theorem answers_ask (L : Layouts) (q : LayoutQuestion) :
    Answers L.Settled (L.ask q) (L.freshAnswer q) := by
  cases q with
  | value ty =>
      rw [freshAnswer, ask, answer_map]
      exact (answers_settled (L.answers_queryValue · ty)).map _
  | record ty =>
      rw [freshAnswer, ask, answer_map]
      exact (answers_settled (L.answers_queryRecord · ty)).map _
  | ref ty =>
      rw [freshAnswer, ask, answer_map]
      exact (answers_settled (L.answers_queryRef · ty)).map _
  | plan ty =>
      rw [freshAnswer, ask, answer_map]
      exact (L.answers_queryPlan ty).map _

/-- A question is aborted only for a size that does not fit. -/
theorem freshAnswer_error {q : LayoutQuestion} {r : Stop LayoutError}
    (h : L.freshAnswer q = .error r) : r.Sized := by
  cases q with
  | value ty =>
      rw [freshAnswer, ask, answer_map] at h
      exact value_error (eq_error_of_map h)
  | record ty =>
      rw [freshAnswer, ask, answer_map] at h
      exact record_error (eq_error_of_map h)
  | ref ty =>
      rw [freshAnswer, ask, answer_map] at h
      exact ref_error (eq_error_of_map h)
  | plan ty =>
      rw [freshAnswer, ask, answer_map] at h
      exact plan_error (eq_error_of_map h)

/-! ## Interviews -/

/-- An interview gives the answers on an empty table up to an abort, and
leaves a settled table. -/
theorem interview_spec : ∀ (qs : List LayoutQuestion) {c : LayoutCache}, L.Settled c →
    L.Settled (L.interview qs c).2
      ∧ ∃ asked, asked <+: qs ∧ (L.interview qs c).1 = asked.map L.freshAnswer
        ∧ (asked = qs ∨ ∃ a, .error (.abort a) ∈ (L.interview qs c).1)
  | [], c, hc => ⟨hc, [], List.prefix_refl _, rfl, Or.inl rfl⟩
  | q :: qs, c, hc => by
      obtain ⟨c', hc', hrun⟩ := L.answers_ask q c hc
      obtain ⟨hsettled, asked, hpre, hanswers, hend⟩ := interview_spec qs hc'
      have hmore : q :: asked = q :: qs ∨ ∃ a, .error (.abort a) ∈
          L.freshAnswer q :: (L.interview qs c').1 :=
        hend.imp (congrArg (q :: ·)) fun ⟨a, ha⟩ => ⟨a, List.mem_cons_of_mem _ ha⟩
      have hpre' : q :: asked <+: q :: qs := List.cons_prefix_cons.mpr ⟨rfl, hpre⟩
      cases hq : L.freshAnswer q with
      | ok a =>
          rw [hq] at hrun hmore
          simp only [interview, hrun, ending]
          exact ⟨hsettled, q :: asked, hpre', by rw [List.map_cons, hq, hanswers], hmore⟩
      | error r =>
          cases r with
          | error e =>
              rw [hq] at hrun hmore
              simp only [interview, hrun, ending]
              exact ⟨hsettled, q :: asked, hpre', by rw [List.map_cons, hq, hanswers], hmore⟩
          | abort a =>
              rw [hq] at hrun
              simp only [interview, hrun, ending]
              exact ⟨hc', [q], List.cons_prefix_cons.mpr ⟨rfl, List.nil_prefix⟩, by simp [hq],
                Or.inr ⟨a, List.mem_cons_self⟩⟩

theorem interview_error {qs : List LayoutQuestion} {r : Stop LayoutError}
    (h : .error r ∈ (L.interview qs {}).1) : r.Sized := by
  obtain ⟨-, asked, -, hanswers, -⟩ := L.interview_spec qs L.settled_empty
  rw [hanswers] at h
  obtain ⟨q, -, hq⟩ := List.mem_map.mp h
  exact freshAnswer_error hq

end Layouts

open Layouts Relation

/-- The caches of a table cannot be told from its answers. Whatever is asked, in whatever order,
and also after questions that failed, each answer is the one that an empty table gives, as long as
no size is too large. -/
theorem memoization_unobservable {L : Layouts} {qs : List LayoutQuestion}
    (hfits : ∀ x ∈ (L.interview qs {}).1, x ≠ .error (.abort .overflow)) :
    (L.interview qs {}).1 = qs.map L.freshAnswer := by
  obtain ⟨-, asked, -, hanswers, rfl | ⟨a, ha⟩⟩ := L.interview_spec qs L.settled_empty
  · exact hanswers
  · obtain rfl : a = .overflow := interview_error ha
    exact absurd rfl (hfits _ ha)

namespace Circle

/-- A record that holds another one twice and a reference to itself; two records that hold each
other; and a record that holds the first and one of the two. -/
def pool : Pool :=
  .ofItems .new [.record ⟨⟨0⟩, [⟨⟨1⟩, ⟨17⟩, none⟩, ⟨⟨2⟩, ⟨17⟩, none⟩, ⟨⟨3⟩, ⟨18⟩, none⟩]⟩,
    .record ⟨⟨4⟩, [⟨⟨5⟩, .int, none⟩]⟩, .reference .counted ⟨16⟩,
    .record ⟨⟨6⟩, [⟨⟨7⟩, ⟨20⟩, none⟩]⟩, .record ⟨⟨8⟩, [⟨⟨9⟩, .byte, none⟩, ⟨⟨10⟩, ⟨19⟩, none⟩]⟩,
    .record ⟨⟨11⟩, [⟨⟨12⟩, ⟨16⟩, none⟩, ⟨⟨13⟩, ⟨19⟩, none⟩]⟩]

def layouts : Layouts := ⟨pool, .w32⟩

/-- Questions of which the first, the fourth, the fifth and the sixth fail. -/
def questions : List LayoutQuestion :=
  [.value ⟨21⟩, .plan ⟨16⟩, .ref ⟨18⟩, .record ⟨20⟩, .value ⟨21⟩, .ref ⟨16⟩, .record .int]

end Circle

theorem memoization_unobservable_circle :
    (∀ x ∈ (Circle.layouts.interview Circle.questions {}).1, x ≠ .error (.abort .overflow))
      ∧ (Circle.layouts.interview Circle.questions {}).1
        = Circle.questions.map Circle.layouts.freshAnswer := by
  have hfits : ∀ x ∈ (Circle.layouts.interview Circle.questions {}).1,
      x ≠ .error (.abort .overflow) := by decide +kernel
  exact ⟨hfits, memoization_unobservable hfits⟩

/-- Sizing comes to an end on every table, and refuses a size exactly to the types from which
records lead into a circle of containment, unless a size is too large. It names a record on such a
circle. After every answer nothing is being sized any more. -/
theorem self_containment_exact (L : Layouts) :
    (∀ qs, ∀ x ∈ (L.interview qs {}).1, x ≠ .error (.abort .endless))
      ∧ (∀ ty, L.value ty ≠ .error (.abort .overflow) →
        ((∃ x, L.value ty = .error (.error (.infiniteSize x))) ↔
          ∃ x, ReflTransGen L.pool.Contains ty x ∧ TransGen L.pool.Contains x x))
      ∧ (∀ ty x, L.value ty = .error (.error (.infiniteSize x)) →
        ReflTransGen L.pool.Contains ty x ∧ TransGen L.pool.Contains x x)
      ∧ ∀ qs, (L.interview qs {}).2.sizing = [] := by
  have hnamed : ∀ ty x, L.value ty = .error (.error (.infiniteSize x)) →
      ReflTransGen L.pool.Contains ty x ∧ TransGen L.pool.Contains x x := by
    intro ty x h
    rcases value_explained h with hover | ⟨x', hx', hcycle⟩
    · cases hover
    · cases hx'
      exact hcycle
  refine ⟨?_, fun ty hfits => ⟨?_, ?_⟩, hnamed, ?_⟩
  · rintro qs x hx rfl
    cases interview_error hx
  · rintro ⟨x, hx⟩
    exact ⟨x, hnamed ty x hx⟩
  · rintro ⟨x, hreach, hcycle⟩
    have hsize := sizeOf_eq_none_of_cycle hreach hcycle
    cases hv : L.value ty with
    | ok v =>
        rw [value_eq_ok_iff, hsize] at hv
        cases hv
    | error r =>
        rcases value_explained hv with rfl | ⟨x', rfl, -, -⟩
        · exact absurd hv hfits
        · exact ⟨x', rfl⟩
  · intro qs
    exact (L.interview_spec qs L.settled_empty).1.right.sizing

/-- The circle is reached from the last record, and there is none in the first. -/
theorem self_containment_exact_circle :
    Circle.layouts.value ⟨21⟩ = .error (.error (.infiniteSize ⟨19⟩))
      ∧ ReflTransGen Circle.pool.Contains ⟨21⟩ ⟨19⟩ ∧ TransGen Circle.pool.Contains ⟨19⟩ ⟨19⟩
      ∧ ¬ ∃ x, ReflTransGen Circle.pool.Contains ⟨16⟩ x ∧ TransGen Circle.pool.Contains x x := by
  obtain ⟨-, hexact, hnamed, -⟩ := self_containment_exact Circle.layouts
  have hlast : Circle.layouts.value ⟨21⟩ = .error (.error (.infiniteSize ⟨19⟩)) := by decide +kernel
  have hfirst : Circle.layouts.value ⟨16⟩ = .ok ⟨24, 8⟩ := by decide +kernel
  refine ⟨hlast, (hnamed _ _ hlast).1, (hnamed _ _ hlast).2, fun hcycle => ?_⟩
  obtain ⟨x, hx⟩ := (hexact ⟨16⟩ (by rw [hfirst]; nofun)).mpr hcycle
  rw [hfirst] at hx
  cases hx

end Ownership
