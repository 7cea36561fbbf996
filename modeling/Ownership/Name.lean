/-!
# Names

Identifiers are interned: an `Interner` hands out one small number per
distinct text, in order of first use, and the empty text is always
name 0.
-/

namespace Ownership

/-- The number of an interned text. -/
structure Name where
  index : Nat
  deriving DecidableEq, Repr

namespace Name

/-- The name of the empty text. -/
def empty : Name := ⟨0⟩

instance : Inhabited Name := ⟨empty⟩

def isEmpty (n : Name) : Bool := n.index = 0

/-- A name as it appears in diagnostics. -/
def describe (n : Name) : String := s!"Name({n.index})"

end Name

/-- The texts interned so far, and the names that were handed out for them. -/
structure Interner where
  /-- The text of each name, at its index. -/
  texts : List String
  /-- The name of each text. -/
  known : List (String × Name)
  /-- The two tables lead to each other. -/
  agree : ∀ s n, known.lookup s = some n ↔ texts[n.index]? = some s

namespace Interner

/-- Only the empty text is known. -/
def new : Interner where
  texts := [""]
  known := [("", .empty)]
  agree s n := by
    obtain ⟨k⟩ := n
    by_cases hs : s = ""
    · cases k <;> simp [hs, Name.empty]
    · cases k <;> simp [List.lookup_cons, beq_false_of_ne hs, Ne.symm hs]

instance : Inhabited Interner := ⟨new⟩

/-- Number of names handed out. -/
def size (i : Interner) : Nat := i.texts.length

theorem getElem?_concat {texts : List String} {s t : String} {k : Nat} :
    (texts ++ [s])[k]? = some t ↔ texts[k]? = some t ∨ (k = texts.length ∧ s = t) := by
  grind

/-- Hands out the next name, for a text that has none. -/
def add (i : Interner) (s : String) (hnew : i.known.lookup s = none) : Interner where
  texts := i.texts ++ [s]
  known := (s, ⟨i.size⟩) :: i.known
  agree t n := by
    rw [getElem?_concat, ← i.agree]
    obtain ⟨k⟩ := n
    by_cases ht : t = s
    · subst ht
      simp [hnew, size, eq_comm]
    · simp [List.lookup_cons, beq_false_of_ne ht, Ne.symm ht]

/-- The name of `s`, handed out now if it is new. -/
def intern (i : Interner) (s : String) : Name × Interner :=
  match hs : i.known.lookup s with
  | some n => (n, i)
  | none => (⟨i.size⟩, i.add s hs)

theorem intern_of_known {i : Interner} {s : String} {n : Name} (h : i.known.lookup s = some n) :
    i.intern s = (n, i) := by
  unfold intern
  split
  · next m hm => rw [Option.some.inj (hm.symm.trans h)]
  · next hm => cases hm.symm.trans h

theorem intern_of_new {i : Interner} {s : String} (h : i.known.lookup s = none) :
    i.intern s = (⟨i.size⟩, i.add s h) := by
  unfold intern
  split
  · next m hm => cases hm.symm.trans h
  · rfl

/-- The text read for a name that was not handed out. -/
def placeholder : String := "<?>"

/-- The text of a name. -/
def lookup (i : Interner) (n : Name) : String :=
  (i.texts[n.index]?).getD placeholder

end Interner

end Ownership
