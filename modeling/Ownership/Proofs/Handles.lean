import Mathlib.Data.List.Nodup
import Ownership.Proofs.Display

/-!
# Type numbers are canonical and stable

Up to the fields of the records, the items of a pool are only appended
(`Pool.Change`). `Pool.History.Kept` is what follows for every history of
calls: a reference is listed once and after its pointee, what a call
returned stands for what it made, and the newest record of a name is the
one declared last. Chains of pointees therefore descend, so that they end
and every type is displayed (`Pool.Displays`).
-/

namespace Ownership

namespace Pool

/-! ## Items up to their fields -/

/-- The call makes an item, up to the fields of a record. -/
def Made (names : Interner) (c : Call) : TypeItem → Prop
  | .record defn => ∃ s, c.declares? = some s ∧ names.texts[defn.name.index]? = some s
  | .reference r p => c = .reference r p

theorem Made.grows {names names' : Interner} {c : Call} {item : TypeItem}
    (h : Made names c item) (hgrows : names.Grows names') : Made names' c item := by
  cases item with
  | record defn =>
      obtain ⟨s, hc, hs⟩ := h
      exact ⟨s, hc, hgrows.getElem? hs⟩
  | reference r p => exact h

/-- An item has the name of a text just when the call that made it declared that text. -/
theorem Made.recordName?_iff {names : Interner} {c : Call} {item : TypeItem} {k : Nat}
    {s : String} (h : Made names c item) (hnodup : names.texts.Nodup)
    (hk : names.texts[k]? = some s) :
    item.recordName? = some ⟨k⟩ ↔ c.declares? = some s := by
  cases item with
  | record defn =>
      obtain ⟨t, hc, ht⟩ := h
      rw [TypeItem.recordName?, hc, Option.some.injEq, Option.some.injEq]
      constructor
      · intro hname
        rw [hname] at ht
        exact Option.some.inj (ht.symm.trans hk)
      · rintro rfl
        obtain ⟨hlt, -⟩ := List.getElem?_eq_some_iff.mp ht
        have hindex := (List.getElem?_inj hlt hnodup).mp (ht.trans hk.symm)
        rw [← hindex]
  | reference r p =>
      rw [show c = .reference r p from h]
      simp [TypeItem.recordName?, Call.declares?]

/-- What a call does to the items without their fields. -/
inductive Change (pool : Pool) (c : Call) : Answer → Pool → Prop
  | stays {a : Answer} {pool' : Pool} (ha : ∀ ty, a ≠ .type ty)
      (hnames : pool.names.Grows pool'.names) (hbare : pool'.bare = pool.bare) :
      Change pool c a pool'
  | found {i : Nat} {item : TypeItem} (hitem : pool.bare[i]? = some item)
      (hmade : Made pool.names c item) (hc : c.declares? = none) :
      Change pool c (.type (typeAt i)) pool
  | appends {item : TypeItem} {pool' : Pool} (hnames : pool.names.Grows pool'.names)
      (hbare : pool'.bare = pool.bare ++ [item]) (hmade : Made pool'.names c item)
      (hnew : ∀ r p, item = .reference r p → item ∉ pool.bare) :
      Change pool c (.type (typeAt pool.size)) pool'

theorem reference_mem_bare {pool : Pool} {r : Region} {p : TypeId} :
    .reference r p ∈ pool.bare ↔ .reference r p ∈ pool.items := by
  rw [List.mem_iff_getElem?, List.mem_iff_getElem?]
  exact exists_congr fun i => bare_reference

theorem bare_snoc {pool pool' : Pool} {item : TypeItem} (h : pool'.items = pool.items ++ [item]) :
    pool'.bare = pool.bare ++ [item.bare] := by
  rw [bare, h, List.map_append]
  rfl

theorem Outcome.change {pool pool' : Pool} {c : Call} {a : Answer} (h : Outcome pool c a pool') :
    Change pool c a pool' := by
  cases h with
  | interned hnames hitems =>
      exact .stays (by rintro ty ⟨⟩) hnames (congrArg (List.map TypeItem.bare) hitems)
  | refused hno => exact .stays (by rintro ty ⟨⟩) (.refl _) rfl
  | defined hitem hnames hitems =>
      refine .stays (by rintro ty ⟨⟩) (hnames ▸ .refl _) ?_
      rw [bare, hitems]
      exact map_define hitem _ rfl
  | found hitem => exact .found (bare_reference.mpr hitem) rfl rfl
  | referred hnew hnames hitems =>
      refine .appends (hnames ▸ .refl _) (bare_snoc hitems) rfl ?_
      rintro r p ⟨⟩
      exact mt reference_mem_bare.mp hnew
  | declared hc hnames hn hgives hitems =>
      refine .appends hnames (bare_snoc hitems) ⟨_, hc, hn⟩ ?_
      rintro r p ⟨⟩

theorem Change.names {pool pool' : Pool} {c : Call} {a : Answer} (h : Change pool c a pool') :
    pool.names.Grows pool'.names := by
  cases h with
  | stays _ hnames _ => exact hnames
  | found => exact .refl _
  | appends hnames => exact hnames

/-- The record of a name that was appended last. -/
def newest (items : List TypeItem) (n : Name) : Option TypeId :=
  entryWith TypeItem.recordName? items.zipIdx.reverse n

theorem newest_append (items : List TypeItem) (item : TypeItem) (n : Name) :
    newest (items ++ [item]) n
      = if item.recordName? = some n then some (typeAt items.length) else newest items n := by
  rw [newest, List.zipIdx_append, List.reverse_append, List.zipIdx_singleton,
    List.reverse_singleton, List.singleton_append, entryWith_cons, newest]
  simp

theorem newest_eq_none {items : List TypeItem} {n : Name}
    (h : ∀ item ∈ items, item.recordName? ≠ some n) : newest items n = none := by
  refine entryWith_eq_none.mpr ?_
  rintro ⟨item, i⟩ hmem
  exact h item (List.fst_mem_of_mem_zipIdx (List.mem_reverse.mp hmem))

theorem newest_bare (pool : Pool) (n : Name) : newest pool.bare n = newest pool.items n := by
  have hnames : pool.bare.map TypeItem.recordName? = pool.items.map TypeItem.recordName? := by
    rw [bare, List.map_map]
    refine List.map_congr_left fun item _ => ?_
    cases item <;> rfl
  exact (entryWith_congr _ hnames n).2

namespace History

/-- What holds of the items of a pool and the log that made them. -/
structure Kept (h : History) : Prop where
  /-- No reference is listed twice. -/
  distinct : ∀ {i j : Nat} {r : Region} {p : TypeId}, h.pool.bare[i]? = some (.reference r p) →
      h.pool.bare[j]? = some (.reference r p) → i = j
  /-- A reference comes after its pointee. -/
  descends : ∀ {i : Nat} {r : Region} {p : TypeId}, h.pool.bare[i]? = some (.reference r p) →
      p.isPrimitive = true ∨ ∃ j < i, p = typeAt j
  texts : h.pool.names.texts.Nodup
  /-- What a call returned stands for what it made. -/
  returned : ∀ {c : Call} {ty : TypeId}, h.Returned c ty →
    ∃ i item, ty = typeAt i ∧ h.pool.bare[i]? = some item ∧ Made h.pool.names c item
  /-- Every item was made by a call. -/
  made : ∀ {i : Nat} {item : TypeItem}, h.pool.bare[i]? = some item →
    ∃ c, h.Returned c (typeAt i) ∧ Made h.pool.names c item
  newest : ∀ {k : Nat} {s : String}, h.pool.names.texts[k]? = some s →
    Pool.newest h.pool.bare ⟨k⟩ = h.log.findSome? (declaredAs s)

theorem kept_new : Kept .new where
  distinct := by
    intro i j r p hi
    simp [new, empty, ofItems, bare] at hi
  descends := by
    intro i r p hi
    simp [new, empty, ofItems, bare] at hi
  texts := by simp [new, empty, ofItems, Interner.new]
  returned := by
    intro c ty hmem
    cases hmem
  made := by
    intro i item hi
    simp [new, empty, ofItems, bare] at hi
  newest := fun _ => rfl

variable {h : History}

/-- A text under which a record was declared has its name. -/
theorem Kept.text_mem (hk : Kept h) {s : String} {ty : TypeId}
    (hlast : h.log.findSome? (declaredAs s) = some ty) : s ∈ h.pool.names.texts := by
  obtain ⟨⟨c, a⟩, hmem, hdeclared⟩ := List.exists_of_findSome?_eq_some hlast
  cases a with
  | type ty' =>
      simp only [declaredAs] at hdeclared
      split at hdeclared
      · next hc =>
          obtain ⟨i, item, -, -, hmade⟩ := hk.returned hmem
          cases item with
          | record defn =>
              obtain ⟨t, ht, htext⟩ := hmade
              obtain rfl := Option.some.inj (hc.symm.trans ht)
              exact List.mem_of_getElem? htext
          | reference r p =>
              rw [show c = .reference r p from hmade] at hc
              cases hc
      · cases hdeclared
  | defined done => cases hdeclared
  | name n => cases hdeclared

/-- The newest record of a name is the one declared last, also for names handed out since. -/
theorem Kept.newest_of_grows (hk : Kept h) {names : Interner}
    (hgrows : h.pool.names.Grows names) {k : Nat} {s : String} (hs : names.texts[k]? = some s) :
    Pool.newest h.pool.bare ⟨k⟩ = h.log.findSome? (declaredAs s) := by
  by_cases hold : k < h.pool.names.texts.length
  · have ht := List.getElem?_eq_getElem hold
    rw [hgrows.getElem? ht] at hs
    exact hk.newest (ht.trans hs)
  · have hnone : Pool.newest h.pool.bare ⟨k⟩ = none := by
      refine newest_eq_none fun item hmem hnamed => ?_
      obtain ⟨i, hi⟩ := List.mem_iff_getElem?.mp hmem
      obtain ⟨c, -, hmade⟩ := hk.made hi
      cases item with
      | record defn =>
          obtain ⟨t, -, ht⟩ := hmade
          rw [Option.some.inj hnamed] at ht
          exact hold (List.getElem?_eq_some_iff.mp ht).1
      | reference r p => cases hnamed
    rw [hnone]
    refine (Option.eq_none_iff_forall_ne_some.mpr fun ty hlast => ?_).symm
    -- the text would have an older name as well
    obtain ⟨j, hj⟩ := List.mem_iff_getElem?.mp (hk.text_mem hlast)
    have hlt := (List.getElem?_eq_some_iff.mp (hgrows.getElem? hj)).1
    have hindex := (List.getElem?_inj hlt (hgrows.nodup hk.texts)).mp
      ((hgrows.getElem? hj).trans hs.symm)
    rw [← hindex] at hold
    exact hold (List.getElem?_eq_some_iff.mp hj).1

theorem Kept.lt_size (hk : Kept h) {c : Call} {i : Nat} (hret : h.Returned c (typeAt i)) :
    i < h.pool.size := by
  obtain ⟨j, item, htype, hitem, -⟩ := hk.returned hret
  rw [typeAt_inj htype, ← length_bare]
  exact (List.getElem?_eq_some_iff.mp hitem).1

theorem Kept.stays (hk : Kept h) {c : Call} {a : Answer} {pool : Pool} (ha : ∀ ty, a ≠ .type ty)
    (hnames : h.pool.names.Grows pool.names) (hbare : pool.bare = h.pool.bare) :
    Kept ⟨pool, (c, a) :: h.log⟩ where
  distinct := by
    rw [hbare]
    exact hk.distinct
  descends := by
    rw [hbare]
    exact hk.descends
  texts := hnames.nodup hk.texts
  returned := by
    intro c' ty hret
    rcases List.mem_cons.mp hret with heq | hret
    · exact absurd (Prod.mk.inj heq).2.symm (ha ty)
    · obtain ⟨i, item, hty, hitem, hmade⟩ := hk.returned hret
      exact ⟨i, item, hty, hbare ▸ hitem, hmade.grows hnames⟩
  made := by
    intro i item hitem
    rw [hbare] at hitem
    obtain ⟨c', hret, hmade⟩ := hk.made hitem
    exact ⟨c', List.mem_cons_of_mem _ hret, hmade.grows hnames⟩
  newest := by
    intro k s hs
    have hentry : declaredAs s (c, a) = none := by
      cases a with
      | type ty => exact absurd rfl (ha ty)
      | defined done => rfl
      | name n => rfl
    rw [hbare, List.findSome?_cons_of_isNone (by rw [hentry]; rfl)]
    exact hk.newest_of_grows hnames hs

theorem Kept.found (hk : Kept h) {c : Call} {i : Nat} {item : TypeItem}
    (hitem : h.pool.bare[i]? = some item) (hmade : Made h.pool.names c item)
    (hc : c.declares? = none) : Kept ⟨h.pool, (c, .type (typeAt i)) :: h.log⟩ where
  distinct := hk.distinct
  descends := hk.descends
  texts := hk.texts
  returned := by
    intro c' ty hret
    rcases List.mem_cons.mp hret with heq | hret
    · obtain ⟨rfl, hty⟩ := Prod.mk.inj heq
      exact ⟨i, item, Answer.type.inj hty, hitem, hmade⟩
    · exact hk.returned hret
  made := by
    intro j other hother
    obtain ⟨c', hret, hmade'⟩ := hk.made hother
    exact ⟨c', List.mem_cons_of_mem _ hret, hmade'⟩
  newest := by
    intro k s hs
    rw [List.findSome?_cons_of_isNone (by simp [declaredAs, hc])]
    exact hk.newest hs

theorem getElem?_snoc {items : List TypeItem} {item other : TypeItem} {i : Nat}
    (h : (items ++ [item])[i]? = some other) :
    items[i]? = some other ∨ i = items.length ∧ other = item := by
  rw [List.getElem?_append] at h
  split at h
  · exact .inl h
  · next hge =>
      rw [List.getElem?_singleton] at h
      split at h
      · next hi => exact .inr ⟨by omega, (Option.some.inj h).symm⟩
      · cases h

theorem Kept.appends (hk : Kept h) {c : Call} {item : TypeItem} {pool : Pool}
    (hadmits : h.Admits c) (hnames : h.pool.names.Grows pool.names)
    (hbare : pool.bare = h.pool.bare ++ [item]) (hmade : Made pool.names c item)
    (hnew : ∀ r p, item = .reference r p → item ∉ h.pool.bare) :
    Kept ⟨pool, (c, .type (typeAt h.pool.size)) :: h.log⟩ where
  distinct := by
    intro i j r p hi hj
    rw [hbare] at hi hj
    rcases getElem?_snoc hi with hold | ⟨rfl, rfl⟩
    · rcases getElem?_snoc hj with hold' | ⟨-, rfl⟩
      · exact hk.distinct hold hold'
      · exact absurd (List.mem_of_getElem? hold) (hnew r p rfl)
    · rcases getElem?_snoc hj with hold' | ⟨rfl, -⟩
      · exact absurd (List.mem_of_getElem? hold') (hnew r p rfl)
      · rfl
  descends := by
    intro i r p hi
    rw [hbare] at hi
    rcases getElem?_snoc hi with hi | ⟨rfl, rfl⟩
    · exact hk.descends hi
    · obtain rfl : c = .reference r p := hmade
      refine hadmits.imp_right ?_
      rintro ⟨c', hret⟩
      obtain ⟨j, other, rfl, hother, -⟩ := hk.returned hret
      exact ⟨j, (List.getElem?_eq_some_iff.mp hother).1, rfl⟩
  texts := hnames.nodup hk.texts
  returned := by
    intro c' ty hret
    rcases List.mem_cons.mp hret with heq | hret
    · obtain ⟨rfl, hty⟩ := Prod.mk.inj heq
      refine ⟨h.pool.size, item, Answer.type.inj hty, ?_, hmade⟩
      rw [hbare, ← length_bare, List.getElem?_concat_length]
    · obtain ⟨i, other, hty, hother, hmade'⟩ := hk.returned hret
      refine ⟨i, other, hty, ?_, hmade'.grows hnames⟩
      rw [hbare, List.getElem?_append_left (List.getElem?_eq_some_iff.mp hother).1, hother]
  made := by
    intro i other hother
    rw [hbare] at hother
    rcases getElem?_snoc hother with hother | ⟨rfl, rfl⟩
    · obtain ⟨c', hret, hmade'⟩ := hk.made hother
      exact ⟨c', List.mem_cons_of_mem _ hret, hmade'.grows hnames⟩
    · refine ⟨c, ?_, hmade⟩
      rw [length_bare]
      exact List.mem_cons_self
  newest := by
    intro k s hs
    have hnamed := hmade.recordName?_iff (hnames.nodup hk.texts) hs
    rw [hbare, newest_append, length_bare, List.findSome?_cons, declaredAs]
    by_cases hc : c.declares? = some s
    · rw [if_pos (hnamed.mpr hc), if_pos hc]
    · rw [if_neg (mt hnamed.mp hc), if_neg hc]
      exact hk.newest_of_grows hnames hs

theorem Kept.call (hk : Kept h) {c : Call} (hadmits : h.Admits c)
    (hroom : h.pool.size < typeLimit) : Kept (h.call c) := by
  have hchange := (call_outcome hroom c).change
  unfold History.call
  generalize h.pool.call c = result at hchange ⊢
  obtain ⟨a, pool⟩ := result
  cases hchange with
  | stays ha hnames hbare => exact hk.stays ha hnames hbare
  | found hitem hmade hc => exact hk.found hitem hmade hc
  | appends hnames hbare hmade hnew => exact hk.appends hadmits hnames hbare hmade hnew

/-! ## Later histories -/

variable {start : History}

theorem Extends.size_le (hext : Extends start h) : start.pool.size ≤ h.pool.size := by
  induction hext with
  | refl => exact le_rfl
  | call c hext hadmits ih => exact ih.trans (size_le_call _ c)

theorem Extends.trans {later : History} (hext : Extends start h) (hlater : Extends h later) :
    Extends start later := by
  induction hlater with
  | refl => exact hext
  | call c _ hadmits ih => exact .call c ih hadmits

/-- The invariant holds of every history of admitted calls with fewer than `2³² - 17` types. -/
theorem Kept.extends (hk : Kept start) (hext : Extends start h)
    (hsize : h.pool.size < typeLimit) : Kept h := by
  induction hext with
  | refl => exact hk
  | call c hext hadmits ih =>
      have hroom := (size_le_call _ c).trans_lt hsize
      exact (ih hroom).call hadmits hroom

theorem Extends.names (hext : Extends start h) (hsize : h.pool.size < typeLimit) :
    start.pool.names.Grows h.pool.names := by
  induction hext with
  | refl => exact .refl _
  | call c hext hadmits ih =>
      have hroom := (size_le_call _ c).trans_lt hsize
      exact (ih hroom).trans (call_outcome hroom c).change.names

/-- A record keeps its name, and has the fields it was defined with last. -/
theorem Extends.record? (hext : Extends start h) (hsize : h.pool.size < typeLimit) {ty : TypeId}
    {defn : RecordDef} (hdefn : start.pool.record? ty = some defn) :
    ∃ newer, h.log = newer ++ start.log
      ∧ h.pool.record? ty = some ⟨defn.name, fieldsAfter ty defn.fields newer⟩ := by
  induction hext with
  | refl => exact ⟨[], rfl, hdefn⟩
  | @call later c hext hadmits ih =>
      have hroom := (size_le_call _ c).trans_lt hsize
      obtain ⟨newer, hlog, hrecord⟩ := ih hroom
      refine ⟨(c, (later.pool.call c).1) :: newer, ?_, (call_outcome hroom c).record? hrecord⟩
      rw [History.call, hlog, List.cons_append]

/-- The history right after an entry of its log. -/
theorem Extends.split (hext : Extends .new h) {newer older : List (Call × Answer)}
    {c : Call} {a : Answer} (hlog : h.log = newer ++ (c, a) :: older) :
    ∃ before, Extends .new before ∧ a = (before.pool.call c).1
      ∧ Extends (before.call c) h ∧ h.log = newer ++ (before.call c).log := by
  induction hext generalizing newer with
  | refl => simp [new] at hlog
  | @call before c' hext hadmits ih =>
      cases newer with
      | nil =>
          obtain ⟨hentry, -⟩ := List.cons.inj hlog
          obtain ⟨rfl, rfl⟩ := Prod.mk.inj hentry
          exact ⟨before, hext, rfl, .refl, rfl⟩
      | cons entry newer =>
          obtain ⟨hentry, hrest⟩ := List.cons.inj hlog
          obtain ⟨mid, hmid, ha, hlater, hlog'⟩ := ih hrest
          refine ⟨mid, hmid, ha, .call c' hlater hadmits, ?_⟩
          rw [List.cons_append, ← hlog', ← hentry]
          rfl

/-- What a call declared is a record with its name and the fields it was given last. -/
theorem Extends.declared (hext : Extends .new h) (hsize : h.pool.size < typeLimit)
    {newer older : List (Call × Answer)} {c : Call} {ty : TypeId} {s : String}
    (hlog : h.log = newer ++ (c, .type ty) :: older) (hc : c.declares? = some s) :
    ∃ n given, h.pool.text n = s ∧ c.Gives h.pool.names given
      ∧ h.pool.record? ty = some ⟨n, fieldsAfter ty given newer⟩ := by
  obtain ⟨before, hbefore, ha, hlater, hlog'⟩ := hext.split hlog
  have hroom := ((size_le_call _ c).trans hlater.size_le).trans_lt hsize
  obtain ⟨n, given, ha', hn, hgives, hrecord⟩ := (call_outcome hroom c).declares hroom hc
  obtain rfl := Answer.type.inj (ha.trans ha')
  obtain ⟨newer', hnewer, hfields⟩ := hlater.record? hsize hrecord
  obtain rfl := List.append_cancel_right (hlog'.symm.trans hnewer)
  have hnames := hlater.names hsize
  exact ⟨n, given, Interner.lookup_of_getElem? (hnames.getElem? hn), hgives.grows hnames, hfields⟩

end History

/-! ## Reading a history -/

namespace History

variable {h : History}

theorem Kept.reference? (hk : Kept h) (hsize : h.pool.size < typeLimit) {r : Region}
    {p ty : TypeId} (hret : h.Returned (.reference r p) ty) :
    ∃ i, ty = typeAt i ∧ h.pool.bare[i]? = some (.reference r p)
      ∧ h.pool.reference? ty = some (r, p) := by
  obtain ⟨i, item, rfl, hitem, hmade⟩ := hk.returned hret
  have hi := hk.lt_size hret
  cases item with
  | record defn =>
      obtain ⟨s, hs, -⟩ := hmade
      cases hs
  | reference r' p' =>
      obtain ⟨rfl, rfl⟩ := Call.reference.inj hmade
      refine ⟨i, rfl, hitem, reference?_eq_some_iff.mpr ?_⟩
      rw [item?_typeAt (hi.trans hsize)]
      exact bare_reference.mp hitem

/-- Two requests for references have one answer just when they ask for the same. -/
theorem Kept.reference_inj (hk : Kept h) (hsize : h.pool.size < typeLimit) {r r' : Region}
    {p p' ty ty' : TypeId} (hret : h.Returned (.reference r p) ty)
    (hret' : h.Returned (.reference r' p') ty') : ty = ty' ↔ r = r' ∧ p = p' := by
  obtain ⟨i, rfl, hitem, href⟩ := hk.reference? hsize hret
  obtain ⟨j, rfl, hitem', href'⟩ := hk.reference? hsize hret'
  constructor
  · intro heq
    rw [heq, href'] at href
    exact Prod.mk.inj (Option.some.inj href.symm)
  · rintro ⟨rfl, rfl⟩
    rw [hk.distinct hitem hitem']

/-- The table of references leads to all that are listed. -/
theorem Kept.lookup_reference (hk : Kept h) (hsize : h.pool.size < typeLimit) {r : Region}
    {p ty : TypeId} : h.pool.references.lookup (r, p) = some ty
      ↔ h.pool.reference? ty = some (r, p) := by
  constructor
  · intro hknown
    obtain ⟨i, rfl, hitem⟩ := item_of_reference hknown
    have hlt := (List.getElem?_eq_some_iff.mp hitem).1
    rw [reference?_eq_some_iff, item?_typeAt (hlt.trans hsize), hitem]
  · intro href
    obtain ⟨i, rfl, hitem⟩ := item?_eq_some (reference?_eq_some_iff.mp href)
    cases hknown : h.pool.references.lookup (r, p) with
    | none => exact absurd (List.mem_of_getElem? hitem) (not_mem_of_reference hknown)
    | some ty =>
        obtain ⟨j, rfl, hitem'⟩ := item_of_reference hknown
        rw [hk.distinct (bare_reference.mpr hitem) (bare_reference.mpr hitem')]

theorem Kept.recordNamed (hk : Kept h) (s : String) :
    (h.pool.recordNamed s).1 = h.log.findSome? (declaredAs s) := by
  obtain ⟨hgrows, hs⟩ := h.pool.names.intern_grows s
  rw [← hk.newest_of_grows hgrows hs, newest_bare]
  exact h.pool.indexed.record _

/-- The records are the types that declarations returned. -/
theorem Kept.record?_isSome_iff (hk : Kept h) (hsize : h.pool.size < typeLimit) {ty : TypeId} :
    (∃ defn, h.pool.record? ty = some defn) ↔ ∃ c s, c.declares? = some s ∧ h.Returned c ty := by
  constructor
  · rintro ⟨defn, hdefn⟩
    obtain ⟨i, rfl, hitem⟩ := item?_eq_some (record?_eq_some_iff.mp hdefn)
    obtain ⟨c, hret, s, hs, -⟩ := hk.made (bare_record hitem)
    exact ⟨c, s, hs, hret⟩
  · rintro ⟨c, s, hs, hret⟩
    obtain ⟨i, item, rfl, hitem, hmade⟩ := hk.returned hret
    cases item with
    | record defn =>
        obtain ⟨fields, hfields⟩ := items_of_bare_record hitem
        refine ⟨⟨defn.name, fields⟩, record?_eq_some_iff.mpr ?_⟩
        rw [item?_typeAt ((hk.lt_size hret).trans hsize)]
        exact hfields
    | reference r p =>
        rw [show c = .reference r p from hmade] at hs
        cases hs

theorem Kept.pointee_lt (hk : Kept h) {ty p : TypeId} {r : Region}
    (href : h.pool.reference? ty = some (r, p)) : p.raw < ty.raw := by
  obtain ⟨i, rfl, hitem⟩ := item?_eq_some (reference?_eq_some_iff.mp href)
  rcases hk.descends (bare_reference.mpr hitem) with hprim | ⟨j, hj, rfl⟩
  · obtain ⟨q, hq⟩ := Option.isSome_iff_exists.mp hprim
    have hlt : p.raw < 8 := (List.getElem?_eq_some_iff.mp hq).1
    simp only [typeAt, TypeId.firstDynamic]
    omega
  · simp only [typeAt]
    omega

theorem Kept.text_grows (hk : Kept h) {later : Pool} (hgrows : h.pool.names.Grows later.names)
    {ty : TypeId} {defn : RecordDef} (hdefn : h.pool.record? ty = some defn) :
    later.text defn.name = h.pool.text defn.name := by
  obtain ⟨i, rfl, hitem⟩ := item?_eq_some (record?_eq_some_iff.mp hdefn)
  obtain ⟨c, -, s, -, hs⟩ := hk.made (bare_record hitem)
  exact (Interner.lookup_of_getElem? (hgrows.getElem? hs)).trans
    (Interner.lookup_of_getElem? hs).symm

/-- The pointee of a known reference is known. -/
theorem Kept.known_pointee (hk : Kept h) {ty p : TypeId} {r : Region}
    (href : h.pool.reference? ty = some (r, p)) : h.Known p := by
  obtain ⟨i, rfl, hitem⟩ := item?_eq_some (reference?_eq_some_iff.mp href)
  have hbare := bare_reference.mpr hitem
  refine (hk.descends hbare).imp_right ?_
  rintro ⟨j, hj, rfl⟩
  have hlt := hj.trans (List.getElem?_eq_some_iff.mp hbare).1
  obtain ⟨c, hret, -⟩ := hk.made (List.getElem?_eq_getElem hlt)
  exact ⟨c, hret⟩

/-- Pointees have smaller numbers, so a chain comes to an end, and only leads to known types. -/
theorem Kept.leads (hk : Kept h) (ty : TypeId) :
    ∃ regions base, h.pool.Leads ty regions base ∧ (h.Known ty → h.Known base) := by
  cases href : h.pool.reference? ty with
  | none => exact ⟨[], ty, .ends href, id⟩
  | some parts =>
      obtain ⟨r, p⟩ := parts
      have hlt := hk.pointee_lt href
      obtain ⟨regions, base, hleads, hknown⟩ := hk.leads p
      exact ⟨r :: regions, base, .refers href hleads, fun _ => hknown (hk.known_pointee href)⟩
termination_by ty.raw

theorem Kept.display (hk : Kept h) {ty : TypeId} (hknown : h.Known ty) :
    ∃ regions base name, h.pool.Leads ty regions base ∧ h.Known base
      ∧ h.pool.IsCalled base name ∧ h.pool.display ty
        = .ok (String.intercalate " " (regions.map Region.keyword ++ [name])) := by
  obtain ⟨regions, base, hleads, hbase⟩ := hk.leads ty
  obtain ⟨name, hname⟩ := exists_isCalled hleads.reference?
  exact ⟨regions, base, name, hleads, hbase hknown, hname,
    display_eq_ok_iff.mpr ⟨regions, base, name, hleads, hname, rfl⟩⟩

end History

/-- A definition is refused, and changes nothing, unless its type is a record. -/
theorem call_define {pool : Pool} (hroom : pool.size < typeLimit) (ty : TypeId)
    (fields : List FieldDef) :
    ((pool.call (.define ty fields)).1 = .defined true ↔ ∃ defn, pool.record? ty = some defn)
      ∧ ((pool.call (.define ty fields)).1 = .defined false →
        (pool.call (.define ty fields)).2 = pool) := by
  cases hrecord : pool.record? ty with
  | none => simp [call, defineRecord?_of_none hroom hrecord]
  | some defn =>
      obtain ⟨i, pool', -, -, hdefine, -⟩ := defineRecord?_of_some hrecord fields
      simp [call, hdefine]

end Pool

open Pool.History in
/-- Type numbers are canonical and stable. From the empty pool, through
admitted calls, to a pool with fewer than `2³² - 17` types: requests for
references share their answer just when they ask for the same, and the
answer stands for what was asked for from then on; the table of references
leads to those that are listed, and to each of them; what a call declared
is a record with its name, and has the fields that it was defined with
last; a record of an earlier pool keeps its name and its tag; the record
of a name is the one declared last; a definition is refused, and changes
nothing, just when its type was not declared; and pointees have smaller
numbers, so that showing a known type returns the regions on the way to a
primitive type or a declared record, and the name of that. -/
theorem handles_canonical {early late : Pool.History} (hearly : Extends .new early)
    (hlate : Extends early late) (hsize : late.pool.size < Pool.typeLimit) :
    (∀ r p ty r' p' ty', late.Returned (.reference r p) ty → late.Returned (.reference r' p') ty' →
      (ty = ty' ↔ r = r' ∧ p = p'))
    ∧ (∀ r p ty, late.Returned (.reference r p) ty →
      late.pool.reference? ty = some (r, p) ∧ late.pool.tag ty = .reference)
    ∧ (∀ r p ty, late.pool.references.lookup (r, p) = some ty
      ↔ late.pool.reference? ty = some (r, p))
    ∧ (∀ newer c ty older s, late.log = newer ++ (c, .type ty) :: older → c.declares? = some s →
      ∃ n given, late.pool.text n = s ∧ c.Gives late.pool.names given
        ∧ late.pool.record? ty = some ⟨n, fieldsAfter ty given newer⟩)
    ∧ (∀ ty defn, early.pool.record? ty = some defn →
      late.pool.tag ty = .record ∧ late.pool.text defn.name = early.pool.text defn.name
        ∧ ∃ newer, late.log = newer ++ early.log
          ∧ late.pool.record? ty = some ⟨defn.name, fieldsAfter ty defn.fields newer⟩)
    ∧ (∀ s, (late.pool.recordNamed s).1 = late.log.findSome? (declaredAs s))
    ∧ (∀ ty fields,
      ((late.pool.call (.define ty fields)).1 = .defined true
          ↔ ∃ c s, c.declares? = some s ∧ late.Returned c ty)
        ∧ ((late.pool.call (.define ty fields)).1 = .defined false →
          (late.pool.call (.define ty fields)).2 = late.pool))
    ∧ (∀ ty r p, late.pool.reference? ty = some (r, p) → p.raw < ty.raw)
    ∧ ∀ ty, late.Known ty → ∃ regions base name,
      late.pool.Leads ty regions base ∧ late.Known base ∧ late.pool.IsCalled base name
        ∧ late.pool.display ty
          = .ok (String.intercalate " " (regions.map Region.keyword ++ [name])) := by
  have hreached : Extends .new late := hearly.trans hlate
  have hkept := kept_new.extends hreached hsize
  have hbefore := kept_new.extends hearly (hlate.size_le.trans_lt hsize)
  refine ⟨?_, ?_, fun r p ty => hkept.lookup_reference hsize, ?_, ?_, hkept.recordNamed, ?_, ?_,
    fun ty => hkept.display⟩
  · intro r p ty r' p' ty' hret hret'
    exact hkept.reference_inj hsize hret hret'
  · intro r p ty hret
    obtain ⟨i, -, -, href⟩ := hkept.reference? hsize hret
    exact ⟨href, Layouts.tag_of_reference? (Pool.reference?_eq_some_iff.mp href)⟩
  · intro newer c ty older s hlog hc
    exact hreached.declared hsize hlog hc
  · intro ty defn hdefn
    obtain ⟨newer, hlog, hrecord⟩ := hlate.record? hsize hdefn
    exact ⟨Layouts.tag_of_record? hrecord, hbefore.text_grows (hlate.names hsize) hdefn,
      newer, hlog, hrecord⟩
  · intro ty fields
    obtain ⟨htrue, hfalse⟩ := Pool.call_define hsize ty fields
    exact ⟨htrue.trans (hkept.record?_isSome_iff hsize), hfalse⟩
  · intro ty r p href
    exact hkept.pointee_lt href

namespace Linked

/-- A record is declared, to be defined later. -/
def declared : Pool.History := Pool.History.new.call (.declare "Node")

/-- It is defined with a reference to itself, and its name is given to a second record. -/
def late : Pool.History :=
  (((declared.call (.reference .owning ⟨16⟩)).call (.define ⟨16⟩ [⟨⟨1⟩, ⟨17⟩, none⟩])).call
    (.reference .counted ⟨17⟩)).call (.record "Node" [("value", .int)])

theorem known_node : declared.Known ⟨16⟩ := .inr ⟨.declare "Node", .head _⟩

theorem declared_extends : Pool.History.Extends .new declared := .call _ .refl trivial

theorem late_extends : Pool.History.Extends declared late :=
  .call _ (.call _ (.call _ (.call _ .refl known_node) trivial)
    (.inr ⟨.reference .owning ⟨16⟩, .tail _ (.head _)⟩)) trivial

end Linked

theorem handles_canonical_linked :
    Linked.late.pool.reference? ⟨18⟩ = some (.counted, ⟨17⟩)
      ∧ Linked.late.pool.references.lookup (.counted, ⟨17⟩) = some ⟨18⟩
      ∧ (Linked.late.pool.recordNamed "Node").1
        = Linked.late.log.findSome? (Pool.History.declaredAs "Node")
      ∧ ∃ text, Linked.late.pool.display ⟨18⟩ = .ok text := by
  have hrc : Linked.late.Returned (.reference .counted ⟨17⟩) ⟨18⟩ := .tail _ (.head _)
  obtain ⟨-, hparts, htable, -, -, hnamed, -, -, hdisplay⟩ :=
    handles_canonical Linked.declared_extends Linked.late_extends (by decide +kernel)
  obtain ⟨_, _, _, -, -, -, htext⟩ := hdisplay _ (.inr ⟨_, hrc⟩)
  have href := (hparts _ _ _ hrc).1
  exact ⟨href, (htable _ _ _).mpr href, hnamed "Node", _, htext⟩

end Ownership
