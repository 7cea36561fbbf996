import Ownership.Proofs.Queries

/-!
# Where fields lie

The fields of a placed record lie in order of declaration, each inside
the record and behind the one before it (`placed_shape`). Alignments are
1, 4 or 8, so the header in front of a counted pointee is one or two
words and always holds the counter (`header_counted`). Sizes are rounded
up by a mask, which is right for powers of two (`maskUp_eq_alignUp`).
-/

namespace Ownership

/-! ## Rounding -/

/-- To clear the bits of a word below a power of two is to round it down. -/
theorem and_mask {x align : Nat} (halign : align.isPowerOfTwo) (hx : x < sizeLimit)
    (hlt : align < sizeLimit) : x &&& (sizeLimit - 1 - (align - 1)) = x / align * align := by
  obtain ⟨k, rfl⟩ := halign
  have hlow : 2 ^ k - 1 < 2 ^ 64 := Nat.lt_of_le_of_lt (Nat.sub_le _ _) hlt
  have hmask : sizeLimit - 1 - (2 ^ k - 1) = 2 ^ 64 - (2 ^ k - 1 + 1) := by
    unfold sizeLimit
    omega
  refine Nat.eq_of_testBit_eq fun i => ?_
  rw [Nat.testBit_and, hmask, Nat.testBit_two_pow_sub_succ hlow, Nat.testBit_two_pow_sub_one,
    Nat.testBit_mul_two_pow, Nat.testBit_div_two_pow]
  by_cases hki : k ≤ i
  · rw [Nat.sub_add_cancel hki]
    by_cases hi : i < 64
    · simp only [hki, hi, Nat.not_lt_of_le hki, decide_true, decide_false, Bool.not_false,
        Bool.and_true, Bool.true_and]
    · have hbit : x.testBit i = false := Nat.testBit_lt_two_pow
        (Nat.lt_of_lt_of_le hx (Nat.pow_le_pow_right Nat.two_pos (Nat.le_of_not_lt hi)))
      simp only [hbit, Bool.false_and, Bool.and_false]
  · simp only [hki, Nat.lt_of_not_le hki, decide_true, decide_false, Bool.not_true,
      Bool.and_false, Bool.false_and]

/-- The mask rounds up to a power of two, if that fits. -/
theorem maskUp_eq_alignUp {n align : Nat} (halign : align.isPowerOfTwo)
    (hfits : n + align < sizeLimit) : maskUp n align = alignUp n align :=
  and_mask halign (Nat.lt_of_le_of_lt (Nat.sub_le _ _) hfits)
    (Nat.lt_of_le_of_lt (Nat.le_add_left _ n) hfits)

theorem alignUp_lt_add {align : Nat} (h : 0 < align) (n : Nat) :
    alignUp n align < n + align := by
  have := Nat.div_mul_le_self (n + align - 1) align
  unfold alignUp
  omega

theorem addSize_ok {a b n : Nat} (h : addSize a b = .ok n) : n = a + b ∧ a + b < sizeLimit := by
  unfold addSize at h
  split at h
  · next hlt => exact ⟨(Except.ok.inj h).symm, hlt⟩
  · cases h

theorem alignSize_ok {n align m : Nat} (halign : align.isPowerOfTwo)
    (h : alignSize n align = .ok m) : m = alignUp n align ∧ n + align < sizeLimit := by
  unfold alignSize at h
  split at h
  · next k hk =>
      have hfits := (addSize_ok hk).2
      exact ⟨(Except.ok.inj h).symm.trans (maskUp_eq_alignUp halign hfits), hfits⟩
  · cases h

namespace Placement

theorem add_ok {p p' : Placement} {f : FieldDef} {v : ValueLayout} (h : p.add f v = .ok p') :
    ∃ o, alignSize p.offset v.align = .ok o
      ∧ p'.slots = p.slots ++ [⟨p.slots.length, f.name, f.type, o⟩] ∧ p'.offset = o + v.size
      ∧ p'.align = max p.align v.align := by
  unfold add at h
  cases hoff : alignSize p.offset v.align with
  | error a => simp [hoff, bind, Except.bind] at h
  | ok o =>
      cases hnext : addSize o v.size with
      | error a => simp [hoff, hnext, bind, Except.bind] at h
      | ok n =>
          obtain ⟨rfl, -⟩ := addSize_ok hnext
          simp only [hoff, hnext, bind, Except.bind, pure, Except.pure, Except.ok.injEq] at h
          subst h
          exact ⟨o, rfl, rfl, rfl, rfl⟩

theorem finish_ok {p : Placement} {r : RecordLayout} (h : p.finish = .ok r) :
    ∃ n, alignSize p.offset p.align = .ok n ∧ r = ⟨p.slots, n, p.align⟩ := by
  unfold finish at h
  cases hsize : alignSize p.offset p.align with
  | error a => simp [hsize, bind, Except.bind] at h
  | ok n =>
      simp only [hsize, bind, Except.bind, pure, Except.pure, Except.ok.injEq] at h
      exact ⟨n, rfl, h.symm⟩

end Placement

namespace Layouts

/-! ## Alignments -/

/-- The alignments that types have. -/
def Natural (align : Nat) : Prop := align = 1 ∨ align = 4 ∨ align = 8

theorem Natural.pos {a : Nat} (h : Natural a) : 0 < a := by
  rcases h with rfl | rfl | rfl <;> decide

theorem Natural.isPowerOfTwo {a : Nat} (h : Natural a) : a.isPowerOfTwo := by
  rcases h with rfl | rfl | rfl
  · exact ⟨0, rfl⟩
  · exact ⟨2, rfl⟩
  · exact ⟨3, rfl⟩

theorem Natural.max {a b : Nat} (ha : Natural a) (hb : Natural b) : Natural (max a b) := by
  rcases ha with rfl | rfl | rfl <;> rcases hb with rfl | rfl | rfl <;> simp [Natural]

theorem natural_word (L : Layouts) : Natural L.word := by
  cases h : L.width <;> simp [word, PointerWidth.bytes, h, Natural]

theorem word_le (L : Layouts) : L.word ≤ 8 := by
  cases h : L.width <;> simp [word, PointerWidth.bytes, h]

theorem natural_primitive (L : Layouts) (p : Primitive) : Natural (L.primitiveLayout p).align := by
  cases p <;> first
    | exact natural_word L
    | simp [primitiveLayout, Natural]

theorem placeAll_natural {size : TypeId → Option ValueLayout}
    (hsize : ∀ ty v, size ty = some v → Natural v.align) :
    ∀ {fs : List FieldDef} {p : Placement} {r : RecordLayout}, Natural p.align →
      placeAll size fs p = some r → Natural r.align
  | [], p, r, hp, h => by
      rw [placeAll] at h
      cases hfin : p.finish with
      | error a => simp [hfin, Except.toOption] at h
      | ok r' =>
          simp only [hfin, Except.toOption, Option.some.injEq] at h
          subst h
          obtain ⟨n, -, rfl⟩ := Placement.finish_ok hfin
          exact hp
  | f :: fs, p, r, hp, h => by
      obtain ⟨v, p', hv, hp', hr⟩ := placeAll_cons_some h
      obtain ⟨o, -, -, -, halign⟩ := Placement.add_ok hp'
      refine placeAll_natural hsize ?_ hr
      rw [halign]
      exact hp.max (hsize _ _ hv)

theorem measure_natural {L : Layouts} : ∀ {d : Nat} {ty : TypeId} {v : ValueLayout},
    L.measure d ty = some v → Natural v.align
  | d + 1, ty, v, h => by
      cases htag : L.pool.tag ty with
      | primitive p =>
          simp only [measure, htag, Option.some.injEq] at h
          exact h ▸ natural_primitive L p
      | reference =>
          simp only [measure, htag, Option.some.injEq] at h
          exact h ▸ natural_word L
      | record =>
          rw [measure_record htag, Option.map_eq_some_iff] at h
          obtain ⟨r, hr, rfl⟩ := h
          exact placeAll_natural (fun ty v hv => measure_natural hv) (Or.inl rfl) hr

theorem sizeOf_natural {L : Layouts} {ty : TypeId} {v : ValueLayout}
    (h : L.sizeOf ty = some v) : Natural v.align := measure_natural h

/-! ## Fields inside a record -/

/-- The slots `slots` are sized by `size`, lie behind one another and end at or before `bound`. -/
structure Lined (size : TypeId → Option ValueLayout) (slots : List FieldSlot) (bound : Nat) :
    Prop where
  ends : ∀ s ∈ slots, ∃ v, size s.type = some v ∧ s.offset + v.size ≤ bound
  apart : slots.Pairwise fun s t => ∀ v, size s.type = some v → s.offset + v.size ≤ t.offset

theorem Lined.mono {size : TypeId → Option ValueLayout} {slots : List FieldSlot} {b b' : Nat}
    (h : Lined size slots b) (hb : b ≤ b') : Lined size slots b' := by
  refine ⟨fun s hs => ?_, h.apart⟩
  obtain ⟨v, hv, hle⟩ := h.ends s hs
  exact ⟨v, hv, Nat.le_trans hle hb⟩

theorem Lined.tail {size : TypeId → Option ValueLayout} {s : FieldSlot} {slots : List FieldSlot}
    {b : Nat} (h : Lined size (s :: slots) b) : Lined size slots b :=
  ⟨fun t ht => h.ends t (List.mem_cons_of_mem _ ht), (List.pairwise_cons.mp h.apart).2⟩

theorem Lined.snoc {size : TypeId → Option ValueLayout} {slots : List FieldSlot} {b : Nat}
    (h : Lined size slots b) {s : FieldSlot} {v : ValueLayout} (hv : size s.type = some v)
    (hb : b ≤ s.offset) : Lined size (slots ++ [s]) (s.offset + v.size) := by
  constructor
  · intro t ht
    rcases List.mem_append.mp ht with ht | ht
    · obtain ⟨w, hw, hle⟩ := h.ends t ht
      exact ⟨w, hw, by omega⟩
    · rw [List.mem_singleton] at ht
      exact ⟨v, ht ▸ hv, Nat.le_of_eq (by rw [ht])⟩
  · rw [List.pairwise_append]
    refine ⟨h.apart, List.pairwise_singleton _ _, fun t ht s' hs' w hw => ?_⟩
    rw [List.mem_singleton] at hs'
    obtain ⟨w', hw', hle⟩ := h.ends t ht
    obtain rfl := Option.some.inj (hw'.symm.trans hw)
    rw [hs']
    omega

theorem placeAll_lined {size : TypeId → Option ValueLayout}
    (hsize : ∀ ty v, size ty = some v → Natural v.align) :
    ∀ {fs : List FieldDef} {p : Placement} {r : RecordLayout},
      Lined size p.slots p.offset → Natural p.align → placeAll size fs p = some r →
      Lined size r.fields r.size ∧ r.size < sizeLimit
        ∧ r.fields.map FieldSlot.type = p.slots.map FieldSlot.type ++ fs.map FieldDef.type
  | [], p, r, hp, hal, h => by
      rw [placeAll] at h
      cases hfin : p.finish with
      | error a => simp [hfin, Except.toOption] at h
      | ok r' =>
          simp only [hfin, Except.toOption, Option.some.injEq] at h
          subst h
          obtain ⟨n, hn, rfl⟩ := Placement.finish_ok hfin
          obtain ⟨rfl, hlt⟩ := alignSize_ok hal.isPowerOfTwo hn
          have h1 := le_alignUp hal.pos p.offset
          have h2 := alignUp_lt_add hal.pos p.offset
          exact ⟨hp.mono h1, by simp only; omega, by simp⟩
  | f :: fs, p, r, hp, hal, h => by
      obtain ⟨v, p', hv, hp', hr⟩ := placeAll_cons_some h
      obtain ⟨o, ho, hslots, hoff, halign⟩ := Placement.add_ok hp'
      obtain ⟨rfl, -⟩ := alignSize_ok (hsize _ _ hv).isPowerOfTwo ho
      have hlined : Lined size p'.slots p'.offset := by
        rw [hslots, hoff]
        exact hp.snoc (s := ⟨p.slots.length, f.name, f.type, alignUp p.offset v.align⟩) hv
          (le_alignUp (hsize _ _ hv).pos _)
      have hal' : Natural p'.align := by rw [halign]; exact hal.max (hsize _ _ hv)
      obtain ⟨h1, h2, h3⟩ := placeAll_lined hsize hlined hal' hr
      exact ⟨h1, h2, by rw [h3, hslots]; simp⟩

/-- How the fields of a record lie. -/
theorem placed_shape {L : Layouts} {ty : TypeId} {r : RecordLayout} (h : L.placed ty = some r) :
    Lined L.sizeOf r.fields r.size ∧ r.size < sizeLimit
      ∧ r.fields.map FieldSlot.type = (L.pool.fields ty).map FieldDef.type := by
  have := placeAll_lined (fun ty v hv => sizeOf_natural hv)
    ⟨by simp [Placement.start], by simp [Placement.start]⟩ (Or.inl rfl) h
  simpa [Placement.start] using this

/-! ## Headers -/

theorem header_owning {L : Layouts} {v : ValueLayout} {n : Nat}
    (h : L.header .owning v = .ok n) : n = 0 := (Except.ok.inj h).symm

/-- The header in front of a counted pointee holds a word, and is at most 8 bytes. -/
theorem header_counted {L : Layouts} {ty : TypeId} {v : ValueLayout} {n : Nat}
    (hv : L.sizeOf ty = some v) (h : L.header .counted v = .ok n) : L.word ≤ n ∧ n ≤ 8 := by
  obtain ⟨rfl, -⟩ := alignSize_ok (sizeOf_natural hv).isPowerOfTwo h
  refine ⟨le_alignUp (sizeOf_natural hv).pos _, ?_⟩
  rcases sizeOf_natural hv with ha | ha | ha <;> rw [ha] <;>
    cases hw : L.width <;> simp [word, PointerWidth.bytes, hw, alignUp]

/-- A reference to a pointee that has a size has a layout. -/
theorem exists_ref {L : Layouts} {ty pointee : TypeId} {region : Region} {v : ValueLayout}
    (hp : L.pool.reference? ty = some (region, pointee)) (hv : L.sizeOf pointee = some v) :
    ∃ layout, L.ref ty = .ok layout ∧ layout.region = region ∧ layout.pointee = pointee := by
  have hheader : ∃ n, L.header region v = .ok n := by
    cases region with
    | owning => exact ⟨0, rfl⟩
    | borrowed => exact ⟨0, rfl⟩
    | counted =>
        have hfits : L.word + v.align < sizeLimit := by
          rcases natural_word L with hw | hw | hw <;> rcases sizeOf_natural hv with ha | ha | ha <;>
            rw [hw, ha] <;> decide
        refine ⟨maskUp L.word v.align, ?_⟩
        simp only [header, alignSize, addSize, if_pos hfits]
  obtain ⟨n, hn⟩ := hheader
  exact ⟨⟨region, pointee, v, n⟩, ref_eq_ok_iff.mpr ⟨hp, hv, hn⟩, rfl, rfl⟩

end Layouts

end Ownership
