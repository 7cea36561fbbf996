import Mathlib.Data.List.Perm.Subperm
import Ownership.Proofs.PoolCalls

/-!
# What types are shown as

A type is shown as the regions its chain of pointees leads through and the
name of the type where it ends (`Pool.Displays`). A chain that ends meets
no type twice, so it is no longer than the pool, and looking through as
many references as there are items shows every type that can be shown
(`Pool.display_eq_ok_iff`). The other types have a chain that comes back
to itself, and showing them does not return (`Pool.display_eq_error_iff`).
-/

namespace Ownership

namespace Pool

/-- Following pointees leads through these regions to a type that is no reference. -/
inductive Leads (pool : Pool) : TypeId → List Region → TypeId → Prop
  | ends {ty : TypeId} (hends : pool.reference? ty = none) : Leads pool ty [] ty
  | refers {ty pointee base : TypeId} {region : Region} {regions : List Region}
      (href : pool.reference? ty = some (region, pointee))
      (hrest : Leads pool pointee regions base) : Leads pool ty (region :: regions) base

/-- The chain of pointees of a type comes to an end. -/
def Ends (pool : Pool) (ty : TypeId) : Prop := ∃ regions base, pool.Leads ty regions base

/-- What a type that is no reference is called. -/
inductive IsCalled (pool : Pool) (ty : TypeId) : String → Prop
  | primitive {p : Primitive} (hprim : ty.primitive? = some p) : IsCalled pool ty p.name
  | record {defn : RecordDef} (hrecord : pool.record? ty = some defn) :
      IsCalled pool ty (pool.text defn.name)
  | unknown (hprim : ty.primitive? = none) (hitem : pool.item? ty = none) :
      IsCalled pool ty unknownText

/-- A type is displayed as the regions it leads through and the name where it ends. -/
def Displays (pool : Pool) (ty : TypeId) (text : String) : Prop :=
  ∃ regions base name, pool.Leads ty regions base ∧ pool.IsCalled base name
    ∧ text = String.intercalate " " (regions.map Region.keyword ++ [name])

section Chains

variable {pool : Pool}

theorem exists_isCalled {ty : TypeId} (h : pool.reference? ty = none) :
    ∃ name, pool.IsCalled ty name := by
  cases hprim : ty.primitive? with
  | some p => exact ⟨_, .primitive hprim⟩
  | none =>
      cases hitem : pool.item? ty with
      | none => exact ⟨_, .unknown hprim hitem⟩
      | some item =>
          cases item with
          | record defn => exact ⟨_, .record (record?_eq_some_iff.mpr hitem)⟩
          | reference r p => cases h.symm.trans (reference?_eq_some_iff.mpr hitem)

theorem Leads.reference? {ty base : TypeId} {regions : List Region}
    (h : pool.Leads ty regions base) : pool.reference? base = none := by
  induction h with
  | ends hends => exact hends
  | refers _ _ ih => exact ih

/-- A type leads one way only. -/
theorem Leads.unique {ty base base' : TypeId} {regions regions' : List Region}
    (h : pool.Leads ty regions base) (h' : pool.Leads ty regions' base') :
    regions = regions' ∧ base = base' := by
  induction h generalizing regions' base' with
  | ends hends =>
      cases h' with
      | ends => exact ⟨rfl, rfl⟩
      | refers href => cases hends.symm.trans href
  | refers href hrest ih =>
      cases h' with
      | ends hends => cases hends.symm.trans href
      | refers href' hrest' =>
          obtain ⟨rfl, rfl⟩ := Prod.mk.inj (Option.some.inj (href.symm.trans href'))
          obtain ⟨rfl, rfl⟩ := ih hrest'
          exact ⟨rfl, rfl⟩

/-- The references on the way to the end of a chain are different types, as each leads through
fewer regions than those before it. -/
theorem Leads.path {ty base : TypeId} {regions : List Region} (h : pool.Leads ty regions base) :
    ∃ path : List TypeId, path.length = regions.length ∧ path.Nodup
      ∧ ∀ t ∈ path, (∃ item, pool.item? t = some item)
        ∧ ∃ rest, rest.length ≤ regions.length ∧ pool.Leads t rest base := by
  induction h with
  | ends hends => exact ⟨[], rfl, .nil, by simp⟩
  | @refers ty pointee base region regions href hrest ih =>
      obtain ⟨path, hlength, hnodup, hpath⟩ := ih
      have hleads : pool.Leads ty (region :: regions) base := .refers href hrest
      refine ⟨ty :: path, congrArg (· + 1) hlength, List.nodup_cons.mpr ⟨?_, hnodup⟩, ?_⟩
      · intro hmem
        obtain ⟨-, rest, hshort, hagain⟩ := hpath ty hmem
        obtain ⟨rfl, -⟩ := hleads.unique hagain
        exact absurd hshort (Nat.not_succ_le_self _)
      · intro t ht
        rcases List.mem_cons.mp ht with rfl | ht
        · exact ⟨⟨_, reference?_eq_some_iff.mp href⟩, _, le_rfl, hleads⟩
        · obtain ⟨hitem, rest, hshort, hrest'⟩ := hpath t ht
          exact ⟨hitem, rest, Nat.le_succ_of_le hshort, hrest'⟩

/-- A chain that ends is no longer than the pool. -/
theorem Leads.length_le {ty base : TypeId} {regions : List Region}
    (h : pool.Leads ty regions base) : regions.length ≤ pool.size := by
  obtain ⟨path, hlength, hnodup, hpath⟩ := h.path
  have hsub : path ⊆ (List.range pool.size).map typeAt := by
    intro t ht
    obtain ⟨⟨item, hitem⟩, -⟩ := hpath t ht
    obtain ⟨i, rfl, hi⟩ := item?_eq_some hitem
    exact List.mem_map_of_mem (List.mem_range.mpr (List.getElem?_eq_some_iff.mp hi).1)
  calc regions.length = path.length := hlength.symm
    _ ≤ ((List.range pool.size).map typeAt).length := (hnodup.subperm hsub).length_le
    _ = pool.size := by simp

theorem Displays.refers {ty pointee : TypeId} {region : Region} {text : String}
    (h : pool.Displays pointee text) (href : pool.reference? ty = some (region, pointee)) :
    pool.Displays ty (region.keyword ++ " " ++ text) := by
  obtain ⟨regions, base, name, hleads, hcalled, rfl⟩ := h
  refine ⟨region :: regions, base, name, .refers href hleads, hcalled, ?_⟩
  rw [List.map_cons, List.cons_append,
    String.intercalate_cons_of_ne_nil (List.append_ne_nil_of_right_ne_nil _ (by simp))]

theorem IsCalled.displays {ty : TypeId} {name : String} (h : pool.IsCalled ty name)
    (hends : pool.reference? ty = none) : pool.Displays ty name :=
  ⟨[], ty, name, .ends hends, h, rfl⟩

/-- A text that was shown at any depth is the text of the type. -/
theorem displays_of_displayWithin : ∀ {depth : Nat} {ty : TypeId} {text : String},
    pool.displayWithin depth ty = .ok text → pool.Displays ty text
  | 0, _, _, h => by cases h
  | depth + 1, ty, text, h => by
      unfold displayWithin at h
      split at h
      · next p hprim =>
          obtain rfl := Except.ok.inj h
          refine IsCalled.displays (.primitive hprim) ?_
          cases href : pool.reference? ty with
          | none => rfl
          | some parts =>
              rw [Layouts.primitive?_of_item (reference?_eq_some_iff.mp href)] at hprim
              cases hprim
      · next hprim =>
          split at h
          · next defn hitem =>
              obtain rfl := Except.ok.inj h
              refine IsCalled.displays (.record (record?_eq_some_iff.mpr hitem)) ?_
              simp only [reference?, hitem]
          · next region pointee hitem =>
              cases hrest : pool.displayWithin depth pointee with
              | error a => simp [hrest, bind, Except.bind] at h
              | ok shown =>
                  rw [hrest] at h
                  obtain rfl := Except.ok.inj h
                  exact (displays_of_displayWithin hrest).refers
                    (reference?_eq_some_iff.mpr hitem)
          · next hitem =>
              obtain rfl := Except.ok.inj h
              refine IsCalled.displays (.unknown hprim hitem) ?_
              simp only [reference?, hitem]

theorem displayWithin_of_isCalled {ty : TypeId} {name : String} (h : pool.IsCalled ty name)
    (depth : Nat) : pool.displayWithin (depth + 1) ty = .ok name := by
  cases h with
  | primitive hprim => simp only [displayWithin, hprim]
  | record hrecord =>
      have hitem := record?_eq_some_iff.mp hrecord
      simp only [displayWithin, Layouts.primitive?_of_item hitem, hitem]
  | unknown hprim hitem => simp only [displayWithin, hprim, hitem]

/-- A chain that is short enough is shown. -/
theorem Leads.displayWithin {ty base : TypeId} {regions : List Region}
    (h : pool.Leads ty regions base) {depth : Nat} (hdepth : regions.length < depth) :
    ∃ text, pool.displayWithin depth ty = .ok text := by
  induction h generalizing depth with
  | ends hends =>
      obtain ⟨name, hname⟩ := exists_isCalled hends
      obtain ⟨d, rfl⟩ := Nat.exists_eq_add_one.mpr hdepth
      exact ⟨name, displayWithin_of_isCalled hname d⟩
  | refers href hrest ih =>
      obtain ⟨d, rfl⟩ : ∃ d, depth = d + 1 := ⟨depth - 1, by omega⟩
      obtain ⟨text, htext⟩ := ih (Nat.lt_of_succ_lt_succ hdepth)
      have hitem := reference?_eq_some_iff.mp href
      simp only [Pool.displayWithin, Layouts.primitive?_of_item hitem, hitem, htext]
      exact ⟨_, rfl⟩

theorem displayWithin_error : ∀ {depth : Nat} {ty : TypeId} {a : Abort},
    pool.displayWithin depth ty = .error a → a = .endless
  | 0, _, _, h => (Except.error.inj h).symm
  | depth + 1, ty, a, h => by
      unfold displayWithin at h
      split at h
      · cases h
      · split at h
        · cases h
        · next region pointee _ =>
            cases hrest : pool.displayWithin depth pointee with
            | error b =>
                rw [hrest] at h
                obtain rfl := Except.error.inj h
                exact displayWithin_error hrest
            | ok shown => simp [hrest, bind, Except.bind, pure, Except.pure] at h
        · cases h

theorem display_ok_of_ends {ty : TypeId} (h : pool.Ends ty) :
    ∃ text, pool.display ty = .ok text := by
  obtain ⟨regions, base, hleads⟩ := h
  exact hleads.displayWithin (Nat.lt_succ_of_le hleads.length_le)

theorem Displays.ends {ty : TypeId} {text : String} (h : pool.Displays ty text) : pool.Ends ty := by
  obtain ⟨regions, base, name, hleads, -, -⟩ := h
  exact ⟨regions, base, hleads⟩

theorem Displays.unique {ty : TypeId} {text text' : String} (h : pool.Displays ty text)
    (h' : pool.Displays ty text') : text = text' := by
  obtain ⟨regions, base, name, hleads, hcalled, rfl⟩ := h
  obtain ⟨regions', base', name', hleads', hcalled', rfl⟩ := h'
  obtain ⟨rfl, rfl⟩ := hleads.unique hleads'
  have hname :=
    (displayWithin_of_isCalled hcalled 0).symm.trans (displayWithin_of_isCalled hcalled' 0)
  rw [Except.ok.inj hname]

/-- The text that is shown is the text of the type. -/
theorem display_eq_ok_iff {ty : TypeId} {text : String} :
    pool.display ty = .ok text ↔ pool.Displays ty text := by
  refine ⟨displays_of_displayWithin, fun h => ?_⟩
  obtain ⟨shown, hshown⟩ := display_ok_of_ends h.ends
  rw [hshown, (displays_of_displayWithin hshown).unique h]

theorem display_isOk_iff {ty : TypeId} : (∃ text, pool.display ty = .ok text) ↔ pool.Ends ty := by
  refine ⟨?_, display_ok_of_ends⟩
  rintro ⟨text, htext⟩
  exact (display_eq_ok_iff.mp htext).ends

instance (pool : Pool) (ty : TypeId) : Decidable (pool.Ends ty) :=
  decidable_of_iff ((pool.display ty).isOk = true) <| by
    rw [← display_isOk_iff]
    cases pool.display ty <;> simp [Except.isOk, Except.toBool]

/-- Only a chain that comes back to itself is not shown. -/
theorem display_eq_error_iff {ty : TypeId} {a : Abort} :
    pool.display ty = .error a ↔ a = .endless ∧ ¬ pool.Ends ty := by
  constructor
  · intro h
    refine ⟨displayWithin_error h, fun hends => ?_⟩
    obtain ⟨text, htext⟩ := display_ok_of_ends hends
    cases h.symm.trans htext
  · rintro ⟨rfl, hends⟩
    cases h : pool.display ty with
    | error a => rw [displayWithin_error h]
    | ok text =>
        exact absurd (display_eq_ok_iff.mp h).ends hends

/-! ## Texts with types in them -/

variable {α : Type} {ty : TypeId} {mk : String → Except Abort α}

theorem display_bind_ok {r : α} (h : (pool.display ty >>= mk) = .ok r) :
    ∃ text, pool.Displays ty text ∧ mk text = .ok r := by
  cases hshown : pool.display ty with
  | ok text =>
      rw [hshown] at h
      exact ⟨text, display_eq_ok_iff.mp hshown, h⟩
  | error a =>
      rw [hshown] at h
      cases h

theorem display_bind_error {a : Abort} (h : (pool.display ty >>= mk) = .error a) :
    (a = .endless ∧ ¬ pool.Ends ty) ∨ ∃ text, pool.Displays ty text ∧ mk text = .error a := by
  cases hshown : pool.display ty with
  | ok text =>
      rw [hshown] at h
      exact .inr ⟨text, display_eq_ok_iff.mp hshown, h⟩
  | error b =>
      rw [hshown] at h
      obtain rfl := Except.error.inj h
      exact .inl (display_eq_error_iff.mp hshown)

end Chains

end Pool

end Ownership
