/-!
# Ordered maps keyed by numbers

A `NatMap` is a height-balanced search tree. Beside the usual look-up it
answers *floor* queries: the entry with the greatest key at or below a
given one. Everything it does is described through `toList`, the entries
in order of their keys: an insertion replaces the entry with its key
(`toList_insert`), a look-up finds what is listed (`get?_eq_some_iff`),
and a floor query finds the last entry that is low enough
(`floor?_eq_some_iff`).
-/

namespace Ownership

/-- A search tree; every node carries its height. -/
inductive Tree (α : Type) where
  | leaf
  | node (height : Nat) (left : Tree α) (key : Nat) (value : α) (right : Tree α)

namespace Tree

variable {α : Type}

def height : Tree α → Nat
  | .leaf => 0
  | .node h _ _ _ _ => h

/-- The entries from left to right. -/
def toList : Tree α → List (Nat × α)
  | .leaf => []
  | .node _ l k v r => l.toList ++ (k, v) :: r.toList

/-- The value under a key. -/
def get? : Tree α → Nat → Option α
  | .leaf, _ => none
  | .node _ l k v r, a => if a < k then l.get? a else if k < a then r.get? a else some v

/-- The entry with the greatest key at or below `a`. -/
def floor? : Tree α → Nat → Option (Nat × α)
  | .leaf, _ => none
  | .node _ l k v r, a =>
    if a < k then l.floor? a
    else match r.floor? a with
      | some entry => some entry
      | none => some (k, v)

/-- The node over two trees, with its height. -/
def join (l : Tree α) (k : Nat) (v : α) (r : Tree α) : Tree α :=
  .node (max l.height r.height + 1) l k v r

/-- The node over two trees, the left one rotated up. -/
def rotateRight (l : Tree α) (k : Nat) (v : α) (r : Tree α) : Tree α :=
  match l with
  | .node _ ll lk lv (.node _ m mk mv n) =>
    if ll.height < max m.height n.height + 1 then join (join ll lk lv m) mk mv (join n k v r)
    else join ll lk lv (join (join m mk mv n) k v r)
  | .node _ ll lk lv .leaf => join ll lk lv (join .leaf k v r)
  | .leaf => join .leaf k v r

/-- The node over two trees, the right one rotated up. -/
def rotateLeft (l : Tree α) (k : Nat) (v : α) (r : Tree α) : Tree α :=
  match r with
  | .node _ (.node _ m mk mv n) rk rv rr =>
    if rr.height < max m.height n.height + 1 then join (join l k v m) mk mv (join n rk rv rr)
    else join (join l k v (join m mk mv n)) rk rv rr
  | .node _ .leaf rk rv rr => join (join l k v .leaf) rk rv rr
  | .leaf => join l k v .leaf

/-- The node over two trees whose heights differ by at most two. -/
def balance (l : Tree α) (k : Nat) (v : α) (r : Tree α) : Tree α :=
  if r.height + 1 < l.height then rotateRight l k v r
  else if l.height + 1 < r.height then rotateLeft l k v r
  else join l k v r

def insert : Tree α → Nat → α → Tree α
  | .leaf, a, x => join .leaf a x .leaf
  | .node h l k v r, a, x =>
    if a < k then balance (l.insert a x) k v r
    else if k < a then balance l k v (r.insert a x)
    else .node h l k x r

/-! ## Order -/

/-- Keys grow from left to right. -/
def Ordered (t : Tree α) : Prop := t.toList.Pairwise fun a b => a.1 < b.1

theorem toList_join (l : Tree α) (k : Nat) (v : α) (r : Tree α) :
    (join l k v r).toList = l.toList ++ (k, v) :: r.toList := rfl

theorem toList_balance (l : Tree α) (k : Nat) (v : α) (r : Tree α) :
    (balance l k v r).toList = l.toList ++ (k, v) :: r.toList := by
  unfold balance rotateRight rotateLeft
  repeat' split
  all_goals simp [toList_join, toList]

theorem Ordered.node {h : Nat} {l : Tree α} {k : Nat} {v : α} {r : Tree α}
    (o : Ordered (.node h l k v r)) :
    l.Ordered ∧ r.Ordered ∧ (∀ e ∈ l.toList, e.1 < k) ∧ ∀ e ∈ r.toList, k < e.1 := by
  simp only [Ordered, toList, List.pairwise_append, List.pairwise_cons] at o
  exact ⟨o.1, o.2.1.2, fun e he => o.2.2 e he (k, v) (by simp), o.2.1.1⟩

theorem toList_insert {t : Tree α} (o : t.Ordered) (a : Nat) (x : α) :
    (t.insert a x).toList =
      t.toList.filter (·.1 < a) ++ (a, x) :: t.toList.filter (a < ·.1) := by
  induction t with
  | leaf => simp [insert, toList_join, toList]
  | node h l k v r ihl ihr =>
    obtain ⟨ol, or, hl, hr⟩ := o.node
    unfold insert
    split
    next hak =>
      have hr1 : r.toList.filter (·.1 < a) = [] := by
        simp only [List.filter_eq_nil_iff, decide_eq_true_eq]
        intro e he; have := hr e he; omega
      have hr2 : r.toList.filter (a < ·.1) = r.toList := by
        simp only [List.filter_eq_self, decide_eq_true_eq]
        intro e he; have := hr e he; omega
      have hka : ¬ k < a := by omega
      simp [toList_balance, ihl ol, toList, hr1, hr2, hak, hka]
    next hak =>
      split
      next hka =>
        have hl1 : l.toList.filter (a < ·.1) = [] := by
          simp only [List.filter_eq_nil_iff, decide_eq_true_eq]
          intro e he; have := hl e he; omega
        have hl2 : l.toList.filter (·.1 < a) = l.toList := by
          simp only [List.filter_eq_self, decide_eq_true_eq]
          intro e he; have := hl e he; omega
        simp [toList_balance, ihr or, toList, hl1, hl2, hak, hka]
      next hka =>
        obtain rfl : a = k := by omega
        have hl1 : l.toList.filter (a < ·.1) = [] := by
          simp only [List.filter_eq_nil_iff, decide_eq_true_eq]
          intro e he; have := hl e he; omega
        have hl2 : l.toList.filter (·.1 < a) = l.toList := by
          simp only [List.filter_eq_self, decide_eq_true_eq]
          intro e he; exact hl e he
        have hr1 : r.toList.filter (·.1 < a) = [] := by
          simp only [List.filter_eq_nil_iff, decide_eq_true_eq]
          intro e he; have := hr e he; omega
        have hr2 : r.toList.filter (a < ·.1) = r.toList := by
          simp only [List.filter_eq_self, decide_eq_true_eq]
          intro e he; exact hr e he
        simp [toList, hl1, hl2, hr1, hr2]

theorem Ordered.insert {t : Tree α} (o : t.Ordered) (a : Nat) (x : α) :
    (t.insert a x).Ordered := by
  rw [Ordered, toList_insert o, List.pairwise_append, List.pairwise_cons]
  refine ⟨o.filter _, ⟨?_, o.filter _⟩, ?_⟩
  · intro e he
    simpa using (List.mem_filter.mp he).2
  · intro e he e' he'
    have h1 : e.1 < a := by simpa using (List.mem_filter.mp he).2
    rcases List.mem_cons.mp he' with rfl | he'
    · exact h1
    · have h2 : a < e'.1 := by simpa using (List.mem_filter.mp he').2
      omega

/-! ## Look-ups -/

theorem get?_eq_some_iff {t : Tree α} (o : t.Ordered) {a : Nat} {x : α} :
    t.get? a = some x ↔ (a, x) ∈ t.toList := by
  induction t with
  | leaf => simp [get?, toList]
  | node h l k v r ihl ihr =>
    obtain ⟨ol, or, hl, hr⟩ := o.node
    have nl : k ≤ a → (a, x) ∉ l.toList := fun h he => by
      have : a < k := hl _ he
      omega
    have nr : a ≤ k → (a, x) ∉ r.toList := fun h he => by
      have : k < a := hr _ he
      omega
    unfold get?
    split
    next hak => simp [toList, ihl ol, nr (by omega), Nat.ne_of_lt hak]
    next hak =>
      split
      next hka => simp [toList, ihr or, nl (by omega), Nat.ne_of_gt hka]
      next hka =>
        obtain rfl : a = k := by omega
        simp [toList, nl, nr, eq_comm]

theorem floor?_eq_none_iff {t : Tree α} (o : t.Ordered) {a : Nat} :
    t.floor? a = none ↔ ∀ e ∈ t.toList, a < e.1 := by
  induction t with
  | leaf => simp [floor?, toList]
  | node h l k v r ihl ihr =>
    obtain ⟨ol, or, hl, hr⟩ := o.node
    unfold floor?
    split
    next hak =>
      rw [ihl ol]
      simp only [toList, List.mem_append, List.mem_cons]
      grind
    next hak =>
      have low : ¬ ∀ e ∈ (node h l k v r).toList, a < e.1 :=
        fun all => hak (all (k, v) (by simp [toList]))
      exact iff_of_false (by split <;> simp) low

theorem floor?_eq_some_iff {t : Tree α} (o : t.Ordered) {a : Nat} {e : Nat × α} :
    t.floor? a = some e ↔
      e ∈ t.toList ∧ e.1 ≤ a ∧ ∀ e' ∈ t.toList, e'.1 ≤ a → e'.1 ≤ e.1 := by
  induction t generalizing e with
  | leaf => simp [floor?, toList]
  | node h l k v r ihl ihr =>
    obtain ⟨ol, or, hl, hr⟩ := o.node
    unfold floor?
    split
    next hak =>
      rw [ihl ol]
      simp only [toList, List.mem_append, List.mem_cons]
      grind
    next hak =>
      split
      next e' he' =>
        have h' := (ihr or).mp he'
        simp only [Option.some.injEq, toList, List.mem_append, List.mem_cons]
        constructor
        · rintro rfl
          grind
        · intro ⟨hm, hle, hmax⟩
          have hmem : e ∈ r.toList := by grind
          have : r.floor? a = some e := (ihr or).mpr ⟨hmem, hle, by grind⟩
          rw [he'] at this
          exact Option.some.inj this
      next hnone =>
        have none_low := (floor?_eq_none_iff or).mp hnone
        simp only [Option.some.injEq, toList, List.mem_append, List.mem_cons]
        constructor
        · rintro rfl
          grind
        · intro ⟨hm, hle, hmax⟩
          have hk : k ≤ e.1 := hmax (k, v) (.inr (.inl rfl)) (by simpa using hak)
          rcases hm with hm | rfl | hm
          · exact absurd (hl e hm) (by omega)
          · rfl
          · exact absurd (none_low e hm) (by omega)

end Tree

/-- A finite map from numbers, in the order of its keys. -/
structure NatMap (α : Type) where
  tree : Tree α
  ordered : tree.Ordered

namespace NatMap

variable {α : Type}

def empty : NatMap α := ⟨.leaf, List.Pairwise.nil⟩

instance : Inhabited (NatMap α) := ⟨empty⟩

/-- The entries in order of their keys. -/
def toList (m : NatMap α) : List (Nat × α) := m.tree.toList

def get? (m : NatMap α) (a : Nat) : Option α := m.tree.get? a

/-- The entry with the greatest key at or below `a`. -/
def floor? (m : NatMap α) (a : Nat) : Option (Nat × α) := m.tree.floor? a

/-- Adds an entry; one with the same key is replaced. -/
def insert (m : NatMap α) (a : Nat) (x : α) : NatMap α := ⟨m.tree.insert a x, m.ordered.insert a x⟩

theorem toList_insert (m : NatMap α) (a : Nat) (x : α) :
    (m.insert a x).toList =
      m.toList.filter (·.1 < a) ++ (a, x) :: m.toList.filter (a < ·.1) :=
  Tree.toList_insert m.ordered a x

theorem get?_eq_some_iff {m : NatMap α} {a : Nat} {x : α} :
    m.get? a = some x ↔ (a, x) ∈ m.toList :=
  Tree.get?_eq_some_iff m.ordered

@[simp]
theorem get?_empty (a : Nat) : (empty : NatMap α).get? a = none := rfl

theorem get?_insert (m : NatMap α) (a b : Nat) (x : α) :
    (m.insert a x).get? b = if b = a then some x else m.get? b := by
  apply Option.ext
  intro y
  rw [get?_eq_some_iff, toList_insert]
  split <;> simp [get?_eq_some_iff] <;> grind

theorem floor?_eq_some_iff {m : NatMap α} {a : Nat} {e : Nat × α} :
    m.floor? a = some e ↔
      e ∈ m.toList ∧ e.1 ≤ a ∧ ∀ e' ∈ m.toList, e'.1 ≤ a → e'.1 ≤ e.1 :=
  Tree.floor?_eq_some_iff m.ordered

end NatMap

end Ownership
