import Mathlib.Data.Finset.Card
import Ownership.Proofs.PoolCalls

/-!
# One name for each text

Texts are interned and names are looked up, in any order and any number
of times. `Interner.History` is an interner with the calls that were made
on it, and `Interner.History.Kept` ties the log to the tables: what was
answered is found in them, and besides the empty text there is nothing
else in them. Since the tables lead to each other, texts and names are in
bijection at any time, and a name keeps its text (`names_biject`).
-/

namespace Ownership

namespace Interner

/-! ## Calls and histories -/

inductive Call where
  | intern (text : String)
  | lookup (n : Name)
  deriving DecidableEq

inductive Answer where
  | name (n : Name)
  | text (s : String)
  deriving DecidableEq

/-- What a call answers, and the interner it leaves. -/
def call (i : Interner) : Call → Answer × Interner
  | .intern s =>
    let (n, i) := i.intern s
    (.name n, i)
  | .lookup n => (.text (i.lookup n), i)

/-- The text that a call asks a name for. -/
def Call.text? : Call → Option String
  | .intern s => some s
  | .lookup _ => none

/-- An interner with the calls that were made on it and their answers, newest first. -/
structure History where
  interner : Interner
  log : List (Call × Answer)

namespace History

def new : History := ⟨.new, []⟩

def call (h : History) (c : Call) : History :=
  ⟨(h.interner.call c).2, (c, (h.interner.call c).1) :: h.log⟩

/-- Calls lead here from a new interner. -/
inductive Reached : History → Prop
  | new : Reached .new
  | call {h : History} (c : Call) (hreached : Reached h) : Reached (h.call c)

/-- The text was interned, and `n` was the answer. -/
def Answered (h : History) (s : String) (n : Name) : Prop := (.intern s, .name n) ∈ h.log

/-- The texts that were interned, with repetitions. -/
def asked (h : History) : List String := h.log.filterMap fun entry => entry.1.text?

end History

/-! ## Two tables that agree -/

/-- No text has two names. -/
theorem name_inj {i : Interner} {n m : Name} {s : String} (hn : i.texts[n.index]? = some s)
    (hm : i.texts[m.index]? = some s) : n = m :=
  Option.some.inj (((i.agree s n).mpr hn).symm.trans ((i.agree s m).mpr hm))

theorem nodup_texts (i : Interner) : i.texts.Nodup := by
  refine List.nodup_iff_getElem?_ne_getElem?.mpr fun j k hjk hk heq => ?_
  have htext : i.texts[k]? = some i.texts[k] := List.getElem?_eq_getElem hk
  have hname : (⟨j⟩ : Name) = ⟨k⟩ := name_inj (heq.trans htext) htext
  exact hjk.ne (congrArg Name.index hname)

/-- Interning a text that has a name changes nothing. -/
theorem intern_of_getElem? {i : Interner} {n : Name} {s : String}
    (h : i.texts[n.index]? = some s) : i.intern s = (n, i) :=
  intern_of_known ((i.agree s n).mpr h)

/-- Interning adds at most the entry that it answers with. -/
theorem entry_of_intern {i : Interner} {s t : String} {n : Name}
    (h : (i.intern s).2.texts[n.index]? = some t) :
    i.texts[n.index]? = some t ∨ (s = t ∧ (i.intern s).1 = n) := by
  cases hs : i.known.lookup s with
  | some m =>
      rw [intern_of_known hs] at h
      exact Or.inl h
  | none =>
      rw [intern_of_new hs] at h ⊢
      refine (getElem?_concat.mp h).imp_right ?_
      rintro ⟨hindex, rfl⟩
      exact ⟨rfl, congrArg Name.mk hindex.symm⟩

/-! ## The log and the tables -/

namespace History

variable {h : History} {c : Call} {s t : String} {n m : Name}

theorem answered_call :
    (h.call c).Answered s n ↔ (c = .intern s ∧ (h.interner.intern s).1 = n) ∨ h.Answered s n := by
  simp only [Answered, call, List.mem_cons, Prod.mk.injEq]
  refine or_congr_left ⟨?_, ?_⟩
  · rintro ⟨rfl, hname⟩
    exact ⟨rfl, (Answer.name.inj hname).symm⟩
  · rintro ⟨rfl, rfl⟩
    exact ⟨rfl, rfl⟩

/-- The tables hold the empty text and what was answered, and nothing else. -/
structure Kept (h : History) : Prop where
  empty : h.interner.texts[Name.empty.index]? = some ""
  answered : ∀ {s : String} {n : Name}, h.Answered s n → h.interner.texts[n.index]? = some s
  made : ∀ {s : String} {n : Name}, h.interner.texts[n.index]? = some s →
    n = .empty ∨ h.Answered s n

theorem kept_new : new.Kept where
  empty := rfl
  answered := nofun
  made {s n} htext := by
    have hlt : n.index < 1 := (List.getElem?_eq_some_iff.mp htext).1
    exact Or.inl (congrArg Name.mk (Nat.lt_one_iff.mp hlt))

theorem Kept.call (hk : h.Kept) (c : Call) : (h.call c).Kept := by
  cases c with
  | lookup m =>
      refine ⟨hk.empty, fun ha => hk.answered ?_, fun htext => ?_⟩
      · exact (answered_call.mp ha).resolve_left (by rintro ⟨⟨⟩, -⟩)
      · exact (hk.made htext).imp_right fun ha => answered_call.mpr (Or.inr ha)
  | intern r =>
      obtain ⟨hgrows, hnamed⟩ := h.interner.intern_grows r
      refine ⟨hgrows.getElem? hk.empty, fun ha => ?_, fun htext => ?_⟩
      · rcases answered_call.mp ha with ⟨hr, rfl⟩ | ha
        · cases hr
          exact hnamed
        · exact hgrows.getElem? (hk.answered ha)
      · rcases entry_of_intern htext with hold | ⟨rfl, hname⟩
        · exact (hk.made hold).imp_right fun ha => answered_call.mpr (Or.inr ha)
        · exact Or.inr (answered_call.mpr (Or.inl ⟨rfl, hname⟩))

theorem Reached.kept (hreached : h.Reached) : h.Kept := by
  induction hreached with
  | new => exact kept_new
  | call c _ ih => exact ih.call c

/-- Every text that was interned got a name. -/
theorem Reached.mem_asked_iff (hreached : h.Reached) : s ∈ h.asked ↔ ∃ n, h.Answered s n := by
  induction hreached with
  | new => simp [asked, Answered, History.new]
  | @call h c _ ih =>
      have hasked : s ∈ (h.call c).asked ↔ c = .intern s ∨ s ∈ h.asked := by
        cases c <;> simp [asked, History.call, Call.text?, eq_comm]
      simp only [hasked, ih, answered_call, exists_or, exists_and_left, exists_eq', and_true]

/-! ## What the answers say -/

theorem Kept.lt_size_iff (hk : h.Kept) :
    n.index < h.interner.size ↔ n = .empty ∨ ∃ s, h.Answered s n := by
  constructor
  · intro hlt
    exact (hk.made (List.getElem?_eq_getElem hlt)).imp_right fun ha => ⟨_, ha⟩
  · rintro (rfl | ⟨s, ha⟩)
    · exact (List.getElem?_eq_some_iff.mp hk.empty).1
    · exact (List.getElem?_eq_some_iff.mp (hk.answered ha)).1

theorem Kept.answered_inj (hk : h.Kept) (hs : h.Answered s n) (ht : h.Answered t m) :
    n = m ↔ s = t := by
  constructor
  · rintro rfl
    exact Option.some.inj ((hk.answered hs).symm.trans (hk.answered ht))
  · rintro rfl
    exact name_inj (hk.answered hs) (hk.answered ht)

theorem Kept.lookup_unanswered (hk : h.Kept) (hempty : n ≠ .empty)
    (hno : ∀ s, ¬ h.Answered s n) : h.interner.lookup n = placeholder := by
  have hout : ¬ n.index < h.interner.size := by
    rw [hk.lt_size_iff]
    rintro (rfl | ⟨s, ha⟩)
    · exact hempty rfl
    · exact hno s ha
  rw [lookup, List.getElem?_eq_none (Nat.le_of_not_lt hout), Option.getD_none]

/-- There are as many names as different texts. -/
theorem Reached.size_eq (hreached : h.Reached) :
    h.interner.size = (insert "" h.asked.toFinset).card := by
  have hk := hreached.kept
  have htexts : h.interner.texts.toFinset = insert "" h.asked.toFinset := by
    ext s
    rw [List.mem_toFinset, Finset.mem_insert, List.mem_toFinset, hreached.mem_asked_iff,
      List.mem_iff_getElem?]
    constructor
    · rintro ⟨k, hs⟩
      rcases hk.made (n := ⟨k⟩) hs with hempty | ha
      · rw [show k = 0 from congrArg Name.index hempty] at hs
        exact Or.inl (Option.some.inj (hs.symm.trans hk.empty))
      · exact Or.inr ⟨_, ha⟩
    · rintro (rfl | ⟨n, ha⟩)
      · exact ⟨_, hk.empty⟩
      · exact ⟨_, hk.answered ha⟩
  rw [← htexts, List.toFinset_card_of_nodup h.interner.nodup_texts, size]

end History

end Interner

open Interner in
/-- Names and texts are in bijection at any time. Whatever calls were made on a new interner, with
fewer than `2³²` different texts: the names that were handed out are the numbers below its size,
which all fit in 32 bits, and the empty text has the first of them; two answers are the same name
just when the texts are the same; a name that was handed out is looked up as its text, and interning
that text once more gives the name and changes nothing; and any other name is looked up as the
placeholder. -/
theorem names_biject {h : History} (hreached : h.Reached)
    (hroom : h.asked.toFinset.card < 4294967296) :
    ((∀ n : Name, n.index < h.interner.size ↔ n = .empty ∨ ∃ s, h.Answered s n)
      ∧ h.interner.size = (insert "" h.asked.toFinset).card ∧ h.interner.size ≤ 4294967296)
    ∧ (h.interner.lookup .empty = "" ∧ h.interner.intern "" = (.empty, h.interner))
    ∧ (∀ s n t m, h.Answered s n → h.Answered t m → (n = m ↔ s = t))
    ∧ (∀ s n, h.Answered s n → h.interner.lookup n = s ∧ h.interner.intern s = (n, h.interner))
    ∧ ∀ n, n ≠ .empty → (∀ s, ¬ h.Answered s n) → h.interner.lookup n = placeholder := by
  have hk := hreached.kept
  have hsize := hreached.size_eq
  have hfits : h.interner.size ≤ 4294967296 := by
    have hinsert := Finset.card_insert_le "" h.asked.toFinset
    omega
  refine ⟨⟨fun n => hk.lt_size_iff, hsize, hfits⟩, ⟨?_, ?_⟩, ?_, ?_, ?_⟩
  · exact lookup_of_getElem? hk.empty
  · exact intern_of_getElem? hk.empty
  · exact fun s n t m hs ht => hk.answered_inj hs ht
  · exact fun s n ha => ⟨lookup_of_getElem? (hk.answered ha), intern_of_getElem? (hk.answered ha)⟩
  · exact fun n hempty hno => hk.lookup_unanswered hempty hno

namespace Interner.Repeated

/-- A name is looked up before it is handed out, and texts come again, the empty one among them. -/
def history : History :=
  ((((((History.new.call (.intern "next")).call (.lookup ⟨2⟩)).call (.intern "value")).call
    (.intern "")).call (.intern "next")).call (.lookup ⟨2⟩)).call (.lookup ⟨3⟩)

theorem reached : history.Reached :=
  .call _ (.call _ (.call _ (.call _ (.call _ (.call _ (.call _ .new))))))

end Interner.Repeated

theorem names_biject_repeated :
    Interner.Repeated.history.interner.size = 3
      ∧ Interner.Repeated.history.Answered "value" ⟨2⟩
      ∧ Interner.Repeated.history.interner.lookup ⟨2⟩ = "value"
      ∧ Interner.Repeated.history.interner.lookup ⟨3⟩ = Interner.placeholder := by
  obtain ⟨⟨hnames, hcard, -⟩, -, -, htext, hother⟩ :=
    names_biject Interner.Repeated.reached (by decide +kernel)
  have hsize : Interner.Repeated.history.interner.size = 3 := hcard.trans (by decide +kernel)
  have hvalue : Interner.Repeated.history.Answered "value" ⟨2⟩ := by
    unfold Interner.History.Answered
    decide +kernel
  refine ⟨hsize, hvalue, (htext _ _ hvalue).1, hother ⟨3⟩ nofun fun s hs => ?_⟩
  have hlt := (hnames ⟨3⟩).mpr (Or.inr ⟨s, hs⟩)
  rw [hsize] at hlt
  exact absurd hlt (Nat.lt_irrefl 3)

end Ownership
