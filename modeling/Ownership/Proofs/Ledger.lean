import Mathlib
import Ownership.TypeId

/-!
# Ledgers of holders

Letting go of references, with nothing but the numbers of holders in
view. A `Ledger` has for every reference the number of its holders, and
the references whose blocks were freed. Letting go of a reference takes
one holder from it; where the last one went, its children are let go of
in order, and then its block is freed (`Graph.Releases`).

What is conserved is the balance of holders: the count of a reference is
a fixed slack, plus what is still to be let go of, plus the children of
those that have holders (`Graph.Balanced`). All else follows from it: a
reference with a holder is not freed, none is freed twice, and without a
cycle the counts that are left depend on the slack only
(`Graph.Balanced.unique`).
-/

namespace Ownership

/-- A reference: its type and the address in it. -/
structure Ref where
  type : TypeId
  addr : UInt64
  deriving DecidableEq

structure Ledger where
  /-- Number of holders of a reference. -/
  count : Ref → Nat
  /-- The references whose blocks were freed, in order. -/
  freed : List Ref

namespace Ledger

/-- The ledger with another number of holders. -/
def tallied (s : Ledger) (r : Ref) (n : Nat) : Ledger :=
  { s with count := Function.update s.count r n }

/-- A holder lets go. -/
def drop (s : Ledger) (r : Ref) : Ledger := s.tallied r (s.count r - 1)

def free (s : Ledger) (r : Ref) : Ledger := { s with freed := s.freed ++ [r] }

@[simp]
theorem count_tallied_self (s : Ledger) (r : Ref) (n : Nat) : (s.tallied r n).count r = n :=
  Function.update_self r _ _

theorem count_tallied_of_ne (s : Ledger) {r x : Ref} (h : x ≠ r) (n : Nat) :
    (s.tallied r n).count x = s.count x := Function.update_of_ne h _ _

@[simp]
theorem count_drop_self (s : Ledger) (r : Ref) : (s.drop r).count r = s.count r - 1 :=
  s.count_tallied_self r _

theorem count_drop_of_ne (s : Ledger) {r x : Ref} (h : x ≠ r) : (s.drop r).count x = s.count x :=
  s.count_tallied_of_ne h _

theorem count_drop_le (s : Ledger) (r x : Ref) : (s.drop r).count x ≤ s.count x := by
  by_cases h : x = r
  · rw [h, count_drop_self]
    exact Nat.sub_le _ _
  · rw [s.count_drop_of_ne h]

end Ledger

/-- References with the references inside their blocks. -/
structure Graph where
  nodes : List Ref
  children : Ref → List Ref
  nodup : nodes.Nodup
  closed : ∀ x ∈ nodes, ∀ y ∈ children x, y ∈ nodes

namespace Graph

/-- Letting go of a list of references, one after the other. -/
inductive Releases (g : Graph) : List Ref → Ledger → Ledger → Prop where
  | nil (s : Ledger) : Releases g [] s s
  | keep {r : Ref} {rs : List Ref} {s s' : Ledger} :
      (s.drop r).count r ≠ 0 → Releases g rs (s.drop r) s' → Releases g (r :: rs) s s'
  | last {r : Ref} {rs : List Ref} {s s₁ s' : Ledger} :
      (s.drop r).count r = 0 → Releases g (g.children r) (s.drop r) s₁ →
      Releases g rs (s₁.free r) s' → Releases g (r :: rs) s s'

variable {g : Graph}

theorem Releases.append {l₁ l₂ : List Ref} {s s₁ s₂ : Ledger} (h₁ : g.Releases l₁ s s₁)
    (h₂ : g.Releases l₂ s₁ s₂) : g.Releases (l₁ ++ l₂) s s₂ := by
  induction h₁ with
  | nil => exact h₂
  | keep hk _ ih => exact .keep hk (ih h₂)
  | last hz hin _ _ ih => exact .last hz hin (ih h₂)

/-- There is only one way to let go of references. -/
theorem Releases.unique {l : List Ref} {s s' : Ledger} (h : g.Releases l s s') :
    ∀ {s''}, g.Releases l s s'' → s'' = s' := by
  induction h with
  | nil =>
      intro s'' h'
      cases h'
      rfl
  | keep hk _ ih =>
      intro s'' h'
      cases h' with
      | keep _ hrest => exact ih hrest
      | last hz _ _ => exact absurd hz hk
  | last hz _ _ ih₁ ih₂ =>
      intro s'' h'
      cases h' with
      | keep hk _ => exact absurd hz hk
      | last _ hin hrest =>
          rw [ih₁ hin] at hrest
          exact ih₂ hrest

/-! ## The balance of holders -/

/-- How often `x` is a child of references that have holders. -/
def holdings (g : Graph) (count : Ref → Nat) (x : Ref) : Nat :=
  ((g.nodes.filter fun y => count y ≠ 0).flatMap g.children).count x

/-- Every count is a slack, plus what is still to be let go of, plus holdings. -/
def Balanced (g : Graph) (slack : Ref → Nat) (count : Ref → Nat) (todo : List Ref) : Prop :=
  ∀ x ∈ g.nodes, count x = slack x + todo.count x + g.holdings count x

theorem holdings_split {r : Ref} (hr : r ∈ g.nodes) (count : Ref → Nat) (x : Ref) :
    g.holdings count x = (if count r ≠ 0 then (g.children r).count x else 0) +
      (((g.nodes.erase r).filter fun y => count y ≠ 0).flatMap g.children).count x := by
  have hperm := ((List.perm_cons_erase hr).filter fun y => decide (count y ≠ 0)).flatMap_right
    g.children
  rw [holdings, hperm.count_eq, List.filter_cons]
  by_cases h : count r ≠ 0
  · rw [if_pos (decide_eq_true h), if_pos h, List.flatMap_cons, List.count_append]
  · rw [if_neg (by simpa using h), if_neg h, Nat.zero_add]

theorem count_flatMap_filter_congr {x : Ref} {f : Ref → List Ref} {p q : Ref → Bool} :
    ∀ {l : List Ref}, (∀ y ∈ l, x ∈ f y → p y = q y) →
      ((l.filter p).flatMap f).count x = ((l.filter q).flatMap f).count x
  | [], _ => rfl
  | y :: l, h => by
      have hrest := count_flatMap_filter_congr fun z hz => h z (List.mem_cons_of_mem y hz)
      have hcount : ∀ p : Ref → Bool, (((y :: l).filter p).flatMap f).count x =
          (if p y then (f y).count x else 0) + ((l.filter p).flatMap f).count x := by
        intro p
        rw [List.filter_cons]
        split
        · rw [List.flatMap_cons, List.count_append]
        · rw [Nat.zero_add]
      rw [hcount p, hcount q, hrest]
      by_cases hx : x ∈ f y
      · rw [h y List.mem_cons_self hx]
      · rw [List.count_eq_zero.mpr hx, ite_self, ite_self]

/-- Only the references that `x` is a child of matter. -/
theorem holdings_congr {count count' : Ref → Nat} {x : Ref}
    (h : ∀ y ∈ g.nodes, x ∈ g.children y → (count y ≠ 0 ↔ count' y ≠ 0)) :
    g.holdings count x = g.holdings count' x :=
  count_flatMap_filter_congr fun y hy hx => by
    rw [decide_eq_decide]
    exact h y hy hx

theorem holdings_keep {s : Ledger} {r : Ref} (h : (s.drop r).count r ≠ 0) (x : Ref) :
    g.holdings (s.drop r).count x = g.holdings s.count x := by
  refine holdings_congr fun y _ _ => ?_
  by_cases hy : y = r
  · subst hy
    rw [s.count_drop_self] at h ⊢
    omega
  · rw [s.count_drop_of_ne hy]

/-- The children of a reference that loses its last holder are no longer held by it. -/
theorem holdings_last {s : Ledger} {r : Ref} (hr : r ∈ g.nodes) (hone : s.count r = 1) (x : Ref) :
    g.holdings s.count x = (g.children r).count x + g.holdings (s.drop r).count x := by
  have hsame : ((g.nodes.erase r).filter fun y => (s.drop r).count y ≠ 0)
      = (g.nodes.erase r).filter fun y => s.count y ≠ 0 := by
    refine List.filter_congr fun y hy => ?_
    have hne : y ≠ r := by
      rintro rfl
      exact g.nodup.not_mem_erase hy
    rw [s.count_drop_of_ne hne]
  have hzero : (s.drop r).count r = 0 := by
    rw [s.count_drop_self]
    omega
  rw [holdings_split hr, holdings_split hr (s.drop r).count, hsame, if_pos (by omega),
    if_neg (by omega), Nat.zero_add]

theorem Balanced.count_pos {slack count : Ref → Nat} {r : Ref} {todo : List Ref}
    (h : g.Balanced slack count (r :: todo)) (hr : r ∈ g.nodes) : 0 < count r := by
  rw [h r hr, List.count_cons_self]
  omega

theorem Balanced.keep {slack : Ref → Nat} {s : Ledger} {r : Ref} {todo : List Ref}
    (h : g.Balanced slack s.count (r :: todo)) (hk : (s.drop r).count r ≠ 0) :
    g.Balanced slack (s.drop r).count todo := by
  intro x hx
  have hbal := h x hx
  rw [holdings_keep hk]
  by_cases hxr : x = r
  · subst hxr
    rw [List.count_cons_self] at hbal
    rw [s.count_drop_self]
    omega
  · rw [List.count_cons_of_ne (Ne.symm hxr)] at hbal
    rw [s.count_drop_of_ne hxr]
    exact hbal

theorem Balanced.last {slack : Ref → Nat} {s : Ledger} {r : Ref} {todo : List Ref}
    (h : g.Balanced slack s.count (r :: todo)) (hr : r ∈ g.nodes)
    (hz : (s.drop r).count r = 0) :
    g.Balanced slack (s.drop r).count (g.children r ++ todo) := by
  have hpos := h.count_pos hr
  have hone : s.count r = 1 := by
    rw [s.count_drop_self] at hz
    omega
  intro x hx
  have hbal := h x hx
  rw [holdings_last hr hone] at hbal
  rw [List.count_append]
  by_cases hxr : x = r
  · subst hxr
    rw [List.count_cons_self] at hbal
    omega
  · rw [List.count_cons_of_ne (Ne.symm hxr)] at hbal
    rw [s.count_drop_of_ne hxr]
    omega

end Graph

/-! ## What is freed -/

/-- On the way from `s` to `s'` just the references of `new` lose their last holder, and are
freed. -/
structure Ledger.Frees (s s' : Ledger) (new : List Ref) : Prop where
  freed : s'.freed = s.freed ++ new
  nodup : new.Nodup
  mem_iff : ∀ x, x ∈ new ↔ s.count x ≠ 0 ∧ s'.count x = 0
  le : ∀ x, s'.count x ≤ s.count x

namespace Ledger

variable {s s₁ s₂ : Ledger} {new₁ new₂ : List Ref}

theorem Frees.refl (s : Ledger) : s.Frees s [] where
  freed := (List.append_nil _).symm
  nodup := List.nodup_nil
  mem_iff := fun _ => ⟨nofun, fun h => absurd h.2 h.1⟩
  le := fun _ => Nat.le_refl _

theorem Frees.trans (h₁ : s.Frees s₁ new₁) (h₂ : s₁.Frees s₂ new₂) :
    s.Frees s₂ (new₁ ++ new₂) where
  freed := by rw [h₂.freed, h₁.freed, List.append_assoc]
  nodup := by
    refine h₁.nodup.append h₂.nodup fun x hx₁ hx₂ => ?_
    exact ((h₂.mem_iff x).mp hx₂).1 ((h₁.mem_iff x).mp hx₁).2
  mem_iff := fun x => by
    have hle₁ := h₁.le x
    have hle₂ := h₂.le x
    rw [List.mem_append, h₁.mem_iff, h₂.mem_iff]
    omega
  le := fun x => Nat.le_trans (h₂.le x) (h₁.le x)

theorem Frees.keep {r : Ref} (h : (s.drop r).count r ≠ 0) : s.Frees (s.drop r) [] where
  freed := (List.append_nil _).symm
  nodup := List.nodup_nil
  mem_iff := fun x => by
    refine ⟨nofun, fun hx => ?_⟩
    by_cases hxr : x = r
    · exact absurd (hxr ▸ hx.2) h
    · rw [s.count_drop_of_ne hxr] at hx
      exact absurd hx.2 hx.1
  le := s.count_drop_le r

theorem Frees.last {r : Ref} (hpos : 0 < s.count r) (hz : (s.drop r).count r = 0)
    (h : (s.drop r).Frees s₁ new₁) : s.Frees (s₁.free r) (new₁ ++ [r]) where
  freed := by
    change s₁.freed ++ [r] = s.freed ++ (new₁ ++ [r])
    rw [h.freed, List.append_assoc]
    rfl
  nodup := by
    refine h.nodup.append (List.nodup_singleton r) fun x hx hxr => ?_
    rw [List.mem_singleton.mp hxr] at hx
    exact ((h.mem_iff r).mp hx).1 hz
  mem_iff := fun x => by
    change _ ↔ s.count x ≠ 0 ∧ s₁.count x = 0
    rw [List.mem_append, List.mem_singleton, h.mem_iff]
    by_cases hxr : x = r
    · subst hxr
      exact ⟨fun _ => ⟨Nat.ne_of_gt hpos, Nat.le_zero.mp (hz ▸ h.le x)⟩, fun _ => Or.inr rfl⟩
    · rw [s.count_drop_of_ne hxr]
      exact or_iff_left hxr
  le := fun x => Nat.le_trans (h.le x) (s.count_drop_le r x)

/-- Whatever was freed has no holder. -/
def Settled (s : Ledger) : Prop := ∀ x ∈ s.freed, s.count x = 0

theorem Frees.settled (h : s.Frees s₁ new₁) (hs : s.Settled) : s₁.Settled := by
  intro x hx
  rw [h.freed] at hx
  rcases List.mem_append.mp hx with hx | hx
  · exact Nat.le_zero.mp (hs x hx ▸ h.le x)
  · exact ((h.mem_iff x).mp hx).2

end Ledger

namespace Graph

variable {g : Graph}

/-- Letting go keeps the balance, and frees what has lost its last holder. -/
theorem Releases.spec {slack : Ref → Nat} {l : List Ref} {s s' : Ledger}
    (h : g.Releases l s s') : ∀ {todo}, (∀ x ∈ l, x ∈ g.nodes) →
      g.Balanced slack s.count (l ++ todo) →
      g.Balanced slack s'.count todo ∧ ∃ new, s.Frees s' new ∧ ∀ x ∈ new, x ∈ g.nodes := by
  induction h with
  | nil s => exact fun _ hbal => ⟨hbal, [], .refl s, nofun⟩
  | keep hk _ ih =>
      intro todo hl hbal
      obtain ⟨hbal', new, hnew, hnodes⟩ :=
        ih (fun x hx => hl x (List.mem_cons_of_mem _ hx)) (hbal.keep hk)
      exact ⟨hbal', [] ++ new, (Ledger.Frees.keep hk).trans hnew, hnodes⟩
  | @last r rs s s₁ s' hz _ _ ih₁ ih₂ =>
      intro todo hl hbal
      have hr : r ∈ g.nodes := hl r List.mem_cons_self
      obtain ⟨hbal₁, new₁, hnew₁, hnodes₁⟩ := ih₁ (g.closed r hr) (hbal.last hr hz)
      obtain ⟨hbal₂, new₂, hnew₂, hnodes₂⟩ :=
        ih₂ (fun x hx => hl x (List.mem_cons_of_mem _ hx)) hbal₁
      refine ⟨hbal₂, _, (Ledger.Frees.last (hbal.count_pos hr) hz hnew₁).trans hnew₂, ?_⟩
      intro x hx
      rcases List.mem_append.mp hx with hx | hx
      · rcases List.mem_append.mp hx with hx | hx
        · exact hnodes₁ x hx
        · rw [List.mem_singleton.mp hx]
          exact hr
      · exact hnodes₂ x hx

/-! ## Graphs without a cycle -/

/-- No reference holds itself, directly or through others. -/
def Acyclic (g : Graph) : Prop :=
  ∀ x ∈ g.nodes, ¬ Relation.TransGen (fun y z => y ∈ g.children z) x x

theorem wellFounded_of_no_cycle {p : Ref → Ref → Prop}
    (h : ∀ x ∈ g.nodes, ¬ Relation.TransGen p x x) :
    WellFounded fun a b : { x // x ∈ g.nodes } => p a.1 b.1 := by
  have hfinite : Finite { x // x ∈ g.nodes } := g.nodes.finite_toSet
  have hirrefl : Std.Irrefl (Relation.TransGen fun a b : { x // x ∈ g.nodes } => p a.1 b.1) :=
    ⟨fun a ha => h a.1 a.2 (ha.lift Subtype.val fun _ _ hab => hab)⟩
  have hsub : Subrelation (fun a b : { x // x ∈ g.nodes } => p a.1 b.1)
      (Relation.TransGen fun a b : { x // x ∈ g.nodes } => p a.1 b.1) := fun hab => .single hab
  exact hsub.wf (Finite.wellFounded_of_trans_of_irrefl _)

theorem exists_releases_of_forall {l : List Ref}
    (h : ∀ x ∈ l, ∀ s, ∃ s', g.Releases [x] s s') : ∀ s, ∃ s', g.Releases l s s' := by
  induction l with
  | nil => exact fun s => ⟨s, .nil s⟩
  | cons x l ih =>
      intro s
      obtain ⟨s₁, h₁⟩ := h x List.mem_cons_self s
      obtain ⟨s₂, h₂⟩ := ih (fun y hy => h y (List.mem_cons_of_mem _ hy)) s₁
      exact ⟨s₂, h₁.append h₂⟩

/-- Without a cycle, letting go comes to an end. -/
theorem Acyclic.exists_releases (hacyclic : g.Acyclic) {l : List Ref}
    (hl : ∀ x ∈ l, x ∈ g.nodes) (s : Ledger) : ∃ s', g.Releases l s s' := by
  have hsingle : ∀ x : { x // x ∈ g.nodes }, ∀ s, ∃ s', g.Releases [x.1] s s' := by
    intro x
    induction x using (wellFounded_of_no_cycle hacyclic).induction with
    | _ x ih =>
        intro s
        by_cases hz : (s.drop x.1).count x.1 = 0
        · obtain ⟨s₁, h₁⟩ := exists_releases_of_forall
            (fun y hy => ih ⟨y, g.closed x.1 x.2 y hy⟩ hy) (s.drop x.1)
          exact ⟨s₁.free x.1, .last hz h₁ (.nil _)⟩
        · exact ⟨s.drop x.1, .keep hz (.nil _)⟩
  exact exists_releases_of_forall (fun x hx => hsingle ⟨x, hl x hx⟩) s

/-- Without a cycle, the slack decides what is left. -/
theorem Balanced.unique (hacyclic : g.Acyclic) {slack count count' : Ref → Nat}
    (h : g.Balanced slack count []) (h' : g.Balanced slack count' []) :
    ∀ x ∈ g.nodes, count x = count' x := by
  have hcycle : ∀ x ∈ g.nodes, ¬ Relation.TransGen (fun y z => z ∈ g.children y) x x :=
    fun x hx hxx => hacyclic x hx (Relation.transGen_swap.mp hxx)
  have hall : ∀ x : { x // x ∈ g.nodes }, count x.1 = count' x.1 := by
    intro x
    -- from the references that hold `x` to `x`
    induction x using (wellFounded_of_no_cycle hcycle).induction with
    | _ x ih =>
        have hsame : g.holdings count x.1 = g.holdings count' x.1 :=
          holdings_congr fun y hy hx => by rw [ih ⟨y, hy⟩ hx]
        rw [h x.1 x.2, h' x.1 x.2, hsame]
  exact fun x hx => hall ⟨x, hx⟩

end Graph

end Ownership
