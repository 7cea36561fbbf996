import Ownership.Proofs.Display
import Ownership.RecordLiteral

/-!
# Which literals fit a record

A literal fits a record if it has values, not more than the record has
fields, each of the type of its field, and the fields behind them have
defaults of their own types (`Pool.Fits`). The check goes through the
fields once and stops at the first one that gets no value; it looks for
surplus values only then. So it accepts exactly the literals that fit, and
the flaw it finds is always the first one there is in a fixed order
(`Pool.Refuses`). The error shows the types that the flaw is about
(`LiteralFlaw.Tells`), and there is none if one of them cannot be shown.
`literal_check_exact` sums this up.
-/

namespace Ownership

/-! ## Single fields -/

/-- The field gets a value: one of its type is given, or none is given and there is a default of its
type. -/
def FieldDef.Filled (field : FieldDef) : (given : Option TypeId) → Prop
  | some found => found = field.type
  | none => ∃ value, field.default = some value ∧ value.type = field.type

/-- The field gets no value, for the reason that the flaw tells. -/
inductive FieldDef.Lacks (record : TypeId) (field : FieldDef) : Option TypeId → LiteralFlaw → Prop
  | given {found : TypeId} : found ≠ field.type →
      Lacks record field (some found) (.mismatch field.name field.type found)
  | default {value : Literal} : field.default = some value → value.type ≠ field.type →
      Lacks record field none (.mismatch field.name field.type value.type)
  | missing : field.default = none → Lacks record field none (.notEnough record field.name)

namespace FieldDef

variable {record : TypeId} {field : FieldDef} {given : Option TypeId} {e e' : LiteralFlaw}

theorem Lacks.not_filled (h : field.Lacks record given e) : ¬ field.Filled given := by
  cases h with
  | given hne => exact hne
  | default hvalue hne =>
      rintro ⟨value, hvalue', htype⟩
      obtain rfl := Option.some.inj (hvalue.symm.trans hvalue')
      exact hne htype
  | missing hnone =>
      rintro ⟨value, hvalue, -⟩
      cases hnone.symm.trans hvalue

theorem Lacks.unique (h : field.Lacks record given e) (h' : field.Lacks record given e') :
    e = e' := by
  cases h with
  | given =>
      cases h'
      rfl
  | default hvalue _ =>
      cases h' with
      | default hvalue' _ =>
          obtain rfl := Option.some.inj (hvalue.symm.trans hvalue')
          rfl
      | missing hnone => cases hnone.symm.trans hvalue
  | missing hnone =>
      cases h' with
      | default hvalue _ => cases hnone.symm.trans hvalue
      | missing => rfl

theorem source_given {index : Nat} {found : TypeId} {source : FieldSource}
    (h : field.source record index (some found) = .ok source) :
    source = .provided index ∧ found = field.type := by
  simp only [FieldDef.source] at h
  split at h
  · next htype => exact ⟨(Except.ok.inj h).symm, htype⟩
  · cases h

theorem source_default {index : Nat} {source : FieldSource}
    (h : field.source record index none = .ok source) :
    ∃ value, source = .default value ∧ field.default = some value
      ∧ value.type = field.type := by
  simp only [FieldDef.source] at h
  split at h
  · next value hvalue =>
      split at h
      · next htype => exact ⟨value, (Except.ok.inj h).symm, hvalue, htype⟩
      · cases h
  · cases h

theorem filled_of_source {index : Nat} {source : FieldSource}
    (h : field.source record index given = .ok source) : field.Filled given := by
  cases given with
  | some found => exact (source_given h).2
  | none =>
      obtain ⟨value, -, hvalue, htype⟩ := source_default h
      exact ⟨value, hvalue, htype⟩

theorem source_error {index : Nat} (h : field.source record index given = .error e) :
    field.Lacks record given e := by
  unfold FieldDef.source at h
  split at h
  · split at h
    · cases h
    · next hne =>
        obtain rfl := Except.error.inj h
        exact .given hne
  · split at h
    · next value hvalue =>
        split at h
        · cases h
        · next hne =>
            obtain rfl := Except.error.inj h
            exact .default hvalue hne
    · next hnone =>
        obtain rfl := Except.error.inj h
        exact .missing hnone

end FieldDef

/-! ## Lists of fields -/

/-- Each field gets a value. -/
def AllFilled (fields : List FieldDef) (given : List TypeId) : Prop :=
  ∀ (i : Nat) (f : FieldDef), fields[i]? = some f → f.Filled given[i]?

/-- The field at position `i` gets no value, and those before it do. -/
structure FirstLacks (record : TypeId) (fields : List FieldDef) (given : List TypeId) (i : Nat)
    (f : FieldDef) (e : LiteralFlaw) : Prop where
  field : fields[i]? = some f
  lacks : f.Lacks record given[i]? e
  before : AllFilled (fields.take i) given

section Fields

variable {record : TypeId} {fields : List FieldDef} {given : List TypeId} {f f' : FieldDef}
  {e e' : LiteralFlaw} {i i' : Nat}

theorem allFilled_nil : AllFilled [] given := by
  intro i f hf
  cases hf

theorem allFilled_cons (h : f.Filled given.head?) (hrest : AllFilled fields given.tail) :
    AllFilled (f :: fields) given := by
  intro i g hg
  cases i with
  | zero =>
      obtain rfl := Option.some.inj hg
      rwa [List.head?_eq_getElem?] at h
  | succ i =>
      have hfilled := hrest i g hg
      rwa [List.getElem?_tail] at hfilled

theorem FirstLacks.not_allFilled (h : FirstLacks record fields given i f e) :
    ¬ AllFilled fields given :=
  fun hall => h.lacks.not_filled (hall i f h.field)

theorem FirstLacks.not_lt (h : FirstLacks record fields given i f e)
    (h' : FirstLacks record fields given i' f' e') : ¬ i < i' := by
  intro hlt
  refine h.lacks.not_filled (h'.before i f ?_)
  rw [List.getElem?_take_of_lt hlt]
  exact h.field

theorem FirstLacks.unique (h : FirstLacks record fields given i f e)
    (h' : FirstLacks record fields given i' f' e') : e = e' := by
  obtain rfl : i = i' := Nat.le_antisymm (Nat.le_of_not_lt (h'.not_lt h))
    (Nat.le_of_not_lt (h.not_lt h'))
  obtain rfl := Option.some.inj (h.field.symm.trans h'.field)
  exact h.lacks.unique h'.lacks

/-- Where the sources are found, each field gets its value: the first ones from the literal, in
order, the others from their defaults. -/
theorem fieldSources_ok : ∀ {fields : List FieldDef} {index : Nat} {given : List TypeId}
    {sources : List FieldSource}, fieldSources record fields index given = .ok sources →
    AllFilled fields given ∧ ∃ defaults : List Literal,
      (fields.drop given.length).map FieldDef.default = defaults.map some
        ∧ fields.map FieldDef.type = given.take fields.length ++ defaults.map Literal.type
        ∧ sources = (List.range' index (min fields.length given.length)).map .provided
          ++ defaults.map .default
  | [], index, given, sources, h => by
      obtain rfl := Except.ok.inj h
      exact ⟨allFilled_nil, [], by simp, by simp, by simp⟩
  | f :: fields, index, given, sources, h => by
      unfold fieldSources at h
      split at h
      · cases h
      · next source hsource =>
          split at h
          · cases h
          · next rest hrest =>
              obtain rfl := Except.ok.inj h
              obtain ⟨hfilled, defaults, hdefaults, htypes, rfl⟩ := fieldSources_ok hrest
              cases given with
              | nil =>
                  obtain ⟨value, rfl, hvalue, htype⟩ := FieldDef.source_default hsource
                  refine ⟨allFilled_cons ⟨value, hvalue, htype⟩ hfilled, value :: defaults,
                    ?_, ?_, ?_⟩
                  · simpa [hvalue] using hdefaults
                  · simpa [htype] using htypes
                  · simp
              | cons found given =>
                  obtain ⟨rfl, htype⟩ := FieldDef.source_given hsource
                  refine ⟨allFilled_cons htype hfilled, defaults, hdefaults, ?_, ?_⟩
                  · simpa [htype] using htypes
                  · simp [Nat.succ_min_succ, List.range'_succ]

/-- Where they are not found, the error is that of the first field without a value. -/
theorem fieldSources_error : ∀ {fields : List FieldDef} {index : Nat} {given : List TypeId},
    fieldSources record fields index given = .error e →
    ∃ i f, FirstLacks record fields given i f e
  | f :: fields, index, given, h => by
      unfold fieldSources at h
      split at h
      · next hsource =>
          obtain rfl := Except.error.inj h
          refine ⟨0, f, rfl, ?_, allFilled_nil⟩
          rw [← List.head?_eq_getElem?]
          exact FieldDef.source_error hsource
      · next source hsource =>
          split at h
          · next hrest =>
              obtain ⟨i, g, hg, hlacks, hbefore⟩ := fieldSources_error (hrest.trans h)
              rw [List.getElem?_tail] at hlacks
              exact ⟨i + 1, g, hg, hlacks,
                allFilled_cons (FieldDef.filled_of_source hsource) hbefore⟩
          · cases h

end Fields

/-! ## Literals -/

/-- A literal with values of the types `given` fits the type `record`. -/
structure Pool.Fits (pool : Pool) (record : TypeId) (given : List TypeId) : Prop where
  isRecord : pool.tag record = .record
  nonempty : given ≠ []
  length_le : given.length ≤ (pool.fields record).length
  /-- The values that are given have the types of their fields. -/
  provided : ∀ (i : Nat) (f : FieldDef) (found : TypeId), (pool.fields record)[i]? = some f →
    given[i]? = some found → found = f.type
  /-- The fields behind them have defaults of their types. -/
  defaulted : ∀ (i : Nat) (f : FieldDef), given.length ≤ i → (pool.fields record)[i]? = some f →
    ∃ value, f.default = some value ∧ value.type = f.type

/-- A literal with values of the types `given` does not fit the type `record`, and this is the first
reason for it. -/
inductive Pool.Refuses (pool : Pool) (record : TypeId) (given : List TypeId) : LiteralFlaw → Prop
  | notRecord : pool.tag record ≠ .record → Refuses pool record given (.notRecord record)
  | empty : pool.tag record = .record → given = [] → Refuses pool record given (.empty record)
  | field {i : Nat} {f : FieldDef} {e : LiteralFlaw} : pool.tag record = .record → given ≠ [] →
      FirstLacks record (pool.fields record) given i f e → Refuses pool record given e
  /-- All fields get values from the literal, and there are more. -/
  | tooMany : pool.tag record = .record → (pool.fields record).length < given.length →
      (∀ (i : Nat) (f : FieldDef), (pool.fields record)[i]? = some f → given[i]? = some f.type) →
      Refuses pool record given (.tooMany record (pool.fields record).length given.length)

namespace Pool

variable {pool : Pool} {record : TypeId} {given : List TypeId} {e e' : LiteralFlaw}

theorem Fits.allFilled (h : pool.Fits record given) : AllFilled (pool.fields record) given := by
  intro i f hf
  cases hgiven : given[i]? with
  | some found => exact h.provided i f found hf hgiven
  | none => exact h.defaulted i f (List.getElem?_eq_none_iff.mp hgiven) hf

theorem fits_of_allFilled (hrecord : pool.tag record = .record) (hnonempty : given ≠ [])
    (hlength : given.length ≤ (pool.fields record).length)
    (hall : AllFilled (pool.fields record) given) : pool.Fits record given where
  isRecord := hrecord
  nonempty := hnonempty
  length_le := hlength
  provided := fun i f found hf hfound => by
    have hfilled := hall i f hf
    rw [hfound] at hfilled
    exact hfilled
  defaulted := fun i f hi hf => by
    have hfilled := hall i f hf
    rw [List.getElem?_eq_none hi] at hfilled
    exact hfilled

theorem Refuses.not_fits (h : pool.Refuses record given e) : ¬ pool.Fits record given := by
  intro hfits
  cases h with
  | notRecord hrecord => exact hrecord hfits.isRecord
  | empty _ hempty => exact hfits.nonempty hempty
  | field _ _ hlacks => exact hlacks.not_allFilled hfits.allFilled
  | tooMany _ hlength _ => exact Nat.not_le_of_lt hlength hfits.length_le

theorem filled_of_matched {fields : List FieldDef}
    (h : ∀ (i : Nat) (f : FieldDef), fields[i]? = some f → given[i]? = some f.type) :
    AllFilled fields given := by
  intro i f hf
  rw [h i f hf]
  exact rfl

theorem matched_of_filled {fields : List FieldDef} (hall : AllFilled fields given)
    (hlength : fields.length < given.length) (i : Nat) (f : FieldDef) (hf : fields[i]? = some f) :
    given[i]? = some f.type := by
  have hlt : i < given.length := Nat.lt_trans (List.getElem?_eq_some_iff.mp hf).1 hlength
  have hfilled := hall i f hf
  rw [List.getElem?_eq_getElem hlt] at hfilled ⊢
  exact congrArg some hfilled

/-- There is one first reason only. -/
theorem Refuses.unique (h : pool.Refuses record given e) (h' : pool.Refuses record given e') :
    e = e' := by
  cases h with
  | notRecord hrecord =>
      cases h' with
      | notRecord => rfl
      | empty hrecord' _ => exact absurd hrecord' hrecord
      | field hrecord' _ _ => exact absurd hrecord' hrecord
      | tooMany hrecord' _ _ => exact absurd hrecord' hrecord
  | empty hrecord hempty =>
      cases h' with
      | notRecord hrecord' => exact absurd hrecord hrecord'
      | empty => rfl
      | field _ hnonempty _ => exact absurd hempty hnonempty
      | tooMany _ hlength _ => simp [hempty] at hlength
  | field hrecord hnonempty hlacks =>
      cases h' with
      | notRecord hrecord' => exact absurd hrecord hrecord'
      | empty _ hempty => exact absurd hempty hnonempty
      | field _ _ hlacks' => exact hlacks.unique hlacks'
      | tooMany _ _ hmatched => exact absurd (filled_of_matched hmatched) hlacks.not_allFilled
  | tooMany hrecord hlength hmatched =>
      cases h' with
      | notRecord hrecord' => exact absurd hrecord hrecord'
      | empty _ hempty => simp [hempty] at hlength
      | field _ _ hlacks => exact absurd (filled_of_matched hmatched) hlacks.not_allFilled
      | tooMany => rfl

theorem record?_eq_none_iff : pool.record? record = none ↔ pool.tag record ≠ .record := by
  refine ⟨fun hnone hrecord => ?_, fun hrecord => ?_⟩
  · obtain ⟨defn, hitem⟩ := Layouts.item_of_tag_record hrecord
    simp only [record?, hitem] at hnone
    cases hnone
  · cases hdefn : pool.record? record with
    | none => rfl
    | some defn => exact absurd (Layouts.tag_of_record? hdefn) hrecord

theorem literalSources_ok {sources : List FieldSource}
    (h : pool.literalSources record given = .ok sources) :
    pool.Fits record given ∧ ∃ defaults : List Literal,
      ((pool.fields record).drop given.length).map FieldDef.default = defaults.map some
        ∧ (pool.fields record).map FieldDef.type = given ++ defaults.map Literal.type
        ∧ sources = (List.range given.length).map .provided ++ defaults.map .default := by
  unfold literalSources at h
  split at h
  · cases h
  · next defn hdefn =>
      have hfields : pool.fields record = defn.fields := by simp only [fields, hdefn]
      split at h
      · cases h
      · next hnonempty =>
          split at h
          · cases h
          · next sources' hsources =>
              split at h
              · cases h
              · next hlength =>
                  obtain rfl := Except.ok.inj h
                  obtain ⟨hall, defaults, hdefaults, htypes, rfl⟩ := fieldSources_ok hsources
                  have hle : given.length ≤ defn.fields.length := Nat.le_of_not_lt hlength
                  rw [List.take_of_length_le hle] at htypes
                  rw [← hfields] at hall hdefaults htypes hle
                  refine ⟨fits_of_allFilled (Layouts.tag_of_record? hdefn)
                    (by simpa using hnonempty) hle hall, defaults, hdefaults, htypes, ?_⟩
                  rw [← hfields, Nat.min_eq_right hle, List.range_eq_range']

theorem literalSources_error (h : pool.literalSources record given = .error e) :
    pool.Refuses record given e := by
  unfold literalSources at h
  split at h
  · next hnone =>
      obtain rfl := Except.error.inj h
      exact .notRecord (record?_eq_none_iff.mp hnone)
  · next defn hdefn =>
      have hrecord := Layouts.tag_of_record? hdefn
      have hfields : pool.fields record = defn.fields := by simp only [fields, hdefn]
      split at h
      · next hempty =>
          obtain rfl := Except.error.inj h
          exact .empty hrecord (List.isEmpty_iff.mp hempty)
      · next hnonempty =>
          split at h
          · next hsources =>
              obtain ⟨i, f, hlacks⟩ := fieldSources_error (hsources.trans h)
              rw [← hfields] at hlacks
              exact .field hrecord (by simpa using hnonempty) hlacks
          · next sources hsources =>
              split at h
              · next hlength =>
                  obtain rfl := Except.error.inj h
                  obtain ⟨hall, -⟩ := fieldSources_ok hsources
                  rw [← hfields] at hall hlength ⊢
                  exact .tooMany hrecord hlength (matched_of_filled hall hlength)
              · cases h

end Pool

/-! ## Errors -/

/-- The error for a flaw has the texts of its types and names. -/
inductive LiteralFlaw.Tells (pool : Pool) : LiteralFlaw → LiteralError → Prop
  | notRecord {ty : TypeId} {text : String} : pool.Displays ty text →
      Tells pool (.notRecord ty) (.notRecord text)
  | empty {record : TypeId} {text : String} : pool.Displays record text →
      Tells pool (.empty record) (.empty text)
  | mismatch {field : Name} {expected found : TypeId} {wanted got : String} :
      pool.Displays expected wanted → pool.Displays found got →
      Tells pool (.mismatch field expected found) (.mismatch (pool.text field) wanted got)
  | notEnough {record : TypeId} {field : Name} {text : String} : pool.Displays record text →
      Tells pool (.notEnough record field) (.notEnough text (pool.text field))
  | tooMany {record : TypeId} {expected found : Nat} {text : String} : pool.Displays record text →
      Tells pool (.tooMany record expected found) (.tooMany text expected found)

/-- The types that the error for a flaw shows. -/
def LiteralFlaw.types : LiteralFlaw → List TypeId
  | .notRecord ty => [ty]
  | .empty record => [record]
  | .mismatch _ expected found => [expected, found]
  | .notEnough record _ => [record]
  | .tooMany record _ _ => [record]

namespace LiteralFlaw

variable {pool : Pool} {flaw : LiteralFlaw} {e : LiteralError}

theorem Tells.ends (h : flaw.Tells pool e) : ∀ ty ∈ flaw.types, pool.Ends ty := by
  cases h with
  | mismatch hwanted hgot =>
      intro ty hmem
      rcases List.mem_pair.mp hmem with rfl | rfl
      · exact hwanted.ends
      · exact hgot.ends
  | notRecord htext | empty htext | notEnough htext | tooMany htext =>
      intro ty hmem
      obtain rfl := List.mem_singleton.mp hmem
      exact htext.ends

theorem report_eq_ok_iff : flaw.report pool = .ok e ↔ flaw.Tells pool e := by
  constructor
  · intro h
    cases flaw with
    | mismatch field expected found =>
        obtain ⟨wanted, hwanted, h⟩ := Pool.display_bind_ok h
        obtain ⟨got, hgot, h⟩ := Pool.display_bind_ok h
        obtain rfl := Except.ok.inj h
        exact .mismatch hwanted hgot
    | notRecord | empty | notEnough | tooMany =>
        obtain ⟨text, htext, h⟩ := Pool.display_bind_ok h
        obtain rfl := Except.ok.inj h
        constructor
        exact htext
  · intro h
    cases h with
    | mismatch hwanted hgot =>
        simp only [report, Pool.display_eq_ok_iff.mpr hwanted, Pool.display_eq_ok_iff.mpr hgot]
        rfl
    | notRecord htext | empty htext | notEnough htext | tooMany htext =>
        simp only [report, Pool.display_eq_ok_iff.mpr htext]
        rfl

theorem report_error {a : Abort} (h : flaw.report pool = .error a) :
    a = .endless ∧ ∃ ty ∈ flaw.types, ¬ pool.Ends ty := by
  cases flaw with
  | mismatch field expected found =>
      obtain ⟨ha, hends⟩ | ⟨wanted, -, h⟩ := Pool.display_bind_error h
      · exact ⟨ha, expected, List.mem_cons_self, hends⟩
      · obtain ⟨ha, hends⟩ | ⟨got, -, h⟩ := Pool.display_bind_error h
        · exact ⟨ha, found, List.mem_cons_of_mem _ List.mem_cons_self, hends⟩
        · cases h
  | notRecord ty | empty ty | notEnough ty | tooMany ty =>
      obtain ⟨ha, hends⟩ | ⟨text, -, h⟩ := Pool.display_bind_error h
      · exact ⟨ha, ty, List.mem_cons_self, hends⟩
      · cases h

end LiteralFlaw

namespace Pool

variable {pool : Pool} {record : TypeId} {given : List TypeId}

theorem checkLiteral_eq_ok_iff {sources : List FieldSource} :
    pool.checkLiteral record given = .ok sources
      ↔ pool.literalSources record given = .ok sources := by
  unfold checkLiteral
  cases pool.literalSources record given with
  | ok sources' => simp
  | error flaw =>
      dsimp only
      cases flaw.report pool <;> simp

/-- Without a flaw there is a result, and the first flaw is reported. -/
theorem checkLiteral_of_refuses {flaw : LiteralFlaw} (h : pool.Refuses record given flaw) :
    pool.checkLiteral record given
      = match flaw.report pool with
        | .ok e => .error (.error e)
        | .error a => .error (.abort a) := by
  unfold checkLiteral
  cases hsources : pool.literalSources record given with
  | ok sources => exact absurd (literalSources_ok hsources).1 h.not_fits
  | error flaw' =>
      obtain rfl := (literalSources_error hsources).unique h
      rfl

theorem refuses_of_checkLiteral {s : Stop LiteralError}
    (h : pool.checkLiteral record given = .error s) : ∃ flaw, pool.Refuses record given flaw := by
  unfold checkLiteral at h
  split at h
  · cases h
  · next flaw hsources => exact ⟨flaw, literalSources_error hsources⟩

theorem checkLiteral_error_iff {e : LiteralError} :
    pool.checkLiteral record given = .error (.error e)
      ↔ ∃ flaw, pool.Refuses record given flaw ∧ flaw.Tells pool e := by
  constructor
  · intro h
    obtain ⟨flaw, hflaw⟩ := refuses_of_checkLiteral h
    refine ⟨flaw, hflaw, LiteralFlaw.report_eq_ok_iff.mp ?_⟩
    rw [checkLiteral_of_refuses hflaw] at h
    cases hreport : flaw.report pool <;> simp_all
  · rintro ⟨flaw, hflaw, htells⟩
    rw [checkLiteral_of_refuses hflaw, LiteralFlaw.report_eq_ok_iff.mpr htells]

theorem checkLiteral_abort_iff {a : Abort} :
    pool.checkLiteral record given = .error (.abort a)
      ↔ a = .endless ∧ ∃ flaw, pool.Refuses record given flaw
        ∧ ∃ ty ∈ flaw.types, ¬ pool.Ends ty := by
  constructor
  · intro h
    obtain ⟨flaw, hflaw⟩ := refuses_of_checkLiteral h
    rw [checkLiteral_of_refuses hflaw] at h
    cases hreport : flaw.report pool with
    | ok e =>
        rw [hreport] at h
        cases h
    | error b =>
        rw [hreport] at h
        obtain rfl : b = a := Stop.abort.inj (Except.error.inj h)
        obtain ⟨hb, hends⟩ := LiteralFlaw.report_error hreport
        exact ⟨hb, flaw, hflaw, hends⟩
  · rintro ⟨rfl, flaw, hflaw, ty, hmem, hends⟩
    rw [checkLiteral_of_refuses hflaw]
    cases hreport : flaw.report pool with
    | ok e => exact absurd ((LiteralFlaw.report_eq_ok_iff.mp hreport).ends ty hmem) hends
    | error b => rw [(LiteralFlaw.report_error hreport).1]

end Pool

/-- The check accepts a literal if and only if it fits the record. The values that are given come
first then, and behind them the default of each field that is left. A literal that does not fit is
refused with the error for the first reason that there is, unless that error would have to show a
type whose chain of pointees comes back to itself: then the check does not return. -/
theorem literal_check_exact (pool : Pool) (record : TypeId) (given : List TypeId) :
    ((∃ sources, pool.checkLiteral record given = .ok sources) ↔ pool.Fits record given)
    ∧ (∀ sources, pool.checkLiteral record given = .ok sources →
      sources.length = (pool.fields record).length ∧ ∃ defaults : List Literal,
        ((pool.fields record).drop given.length).map FieldDef.default = defaults.map some
          ∧ sources = (List.range given.length).map .provided ++ defaults.map .default)
    ∧ (∀ e, pool.checkLiteral record given = .error (.error e)
      ↔ ∃ flaw, pool.Refuses record given flaw ∧ flaw.Tells pool e)
    ∧ ∀ a, pool.checkLiteral record given = .error (.abort a)
      ↔ a = .endless ∧ ∃ flaw, pool.Refuses record given flaw
        ∧ ∃ ty ∈ flaw.types, ¬ pool.Ends ty := by
  refine ⟨⟨?_, fun hfits => ?_⟩, fun sources h => ?_, fun e => Pool.checkLiteral_error_iff,
    fun a => Pool.checkLiteral_abort_iff⟩
  · rintro ⟨sources, h⟩
    exact (Pool.literalSources_ok (Pool.checkLiteral_eq_ok_iff.mp h)).1
  · cases h : pool.checkLiteral record given with
    | ok sources => exact ⟨sources, rfl⟩
    | error s =>
        obtain ⟨flaw, hflaw⟩ := Pool.refuses_of_checkLiteral h
        exact absurd hfits hflaw.not_fits
  · obtain ⟨hfits, defaults, hdefaults, -, rfl⟩ :=
      Pool.literalSources_ok (Pool.checkLiteral_eq_ok_iff.mp h)
    refine ⟨?_, defaults, hdefaults, rfl⟩
    have hrest := congrArg List.length hdefaults
    have hlength := hfits.length_le
    simp only [List.length_map, List.length_drop] at hrest
    simp only [List.length_append, List.length_map, List.length_range]
    omega

/-- A reference to itself is no record, and the error that says so would have to show it. -/
theorem literal_check_endless :
    (Pool.ofItems .new [.reference .owning ⟨16⟩]).checkLiteral ⟨16⟩ []
      = .error (.abort .endless) := by
  rfl

namespace Dated

/-- A record of a number, a mark that is set unless it is given, and a number whose default has
another type. -/
def pool : Pool :=
  .ofItems .new [.record ⟨⟨0⟩, [⟨⟨1⟩, .int, none⟩, ⟨⟨2⟩, .bool, some (.bool true)⟩,
    ⟨⟨3⟩, .int, some (.byte 1)⟩]⟩]

end Dated

-- the last default helps nobody, and surplus values are noticed when all fields have theirs
example : Dated.pool.literalSources ⟨16⟩ [.int, .bool] = .error (.mismatch ⟨3⟩ .int .byte)
    ∧ Dated.pool.literalSources ⟨16⟩ [.int, .bool, .int]
      = .ok [.provided 0, .provided 1, .provided 2]
    ∧ Dated.pool.literalSources ⟨16⟩ [.int, .byte, .int, .int]
      = .error (.mismatch ⟨2⟩ .bool .byte)
    ∧ Dated.pool.literalSources ⟨16⟩ [.int, .bool, .int, .int]
      = .error (.tooMany ⟨16⟩ 3 4) := by
  decide

end Ownership
