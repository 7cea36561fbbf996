import Mathlib
import Ownership.Emit.Glue

/-!
# What code asks of its unit

The code that an emitter writes asks its unit for the symbols of the heap
and for glue functions, and for nothing else (`Emitter.Asks`). Once there,
these stay (`CodeUnit.Keeps`), and so does every function that does not
wait for a body (`CodeUnit.Finished`).
-/

namespace Ownership

namespace CodeUnit

/-- A later stage of a unit still has the symbols of the heap and the glue functions. -/
structure Keeps (u u' : CodeUnit) : Prop where
  heap : ∀ {heap : HeapPrimitives}, u.heap = some heap → u'.heap = some heap
  glue : ∀ {ty : TypeId} {id : FuncId}, u.glueFor? ty = some id → u'.glueFor? ty = some id

theorem Keeps.refl (u : CodeUnit) : u.Keeps u := ⟨id, id⟩

theorem Keeps.trans {u₁ u₂ u₃ : CodeUnit} (h : u₁.Keeps u₂) (h' : u₂.Keeps u₃) : u₁.Keeps u₃ :=
  ⟨h'.heap ∘ h.heap, h'.glue ∘ h.glue⟩

/-- The function `id` is `f`, and does not wait for a body. -/
structure Finished (u : CodeUnit) (id : FuncId) (f : Function) : Prop where
  function : u.function? id = some f
  settled : ∀ ty, (ty, id) ∉ u.pending

theorem Finished.lt_length {u : CodeUnit} {id : FuncId} {f : Function} (h : u.Finished id f) :
    id.index < u.functions.length := (List.getElem?_eq_some_iff.mp h.function).1

/-! ## External symbols -/

theorem declareExternal_spec (u : CodeUnit) (name : String) (params : List TypeId) (ret : TypeId) :
    (u.declareExternal name params ret).2.functions = u.functions
      ∧ (u.declareExternal name params ret).2.heap = u.heap
      ∧ (u.declareExternal name params ret).2.glue = u.glue
      ∧ (u.declareExternal name params ret).2.pending = u.pending := by
  unfold declareExternal
  split
  · exact ⟨rfl, rfl, rfl, rfl⟩
  · exact ⟨rfl, rfl, rfl, rfl⟩

/-- The symbol of a name is found under that name. -/
theorem external?_declareExternal (u : CodeUnit) (name : String) (params : List TypeId)
    (ret : TypeId) : ∃ x, (u.declareExternal name params ret).2.external?
      (u.declareExternal name params ret).1 = some x ∧ x.name = name := by
  unfold declareExternal
  cases hfind : u.findExternal? name with
  | some id =>
      obtain ⟨i, hi, rfl⟩ := Option.map_eq_some_iff.mp hfind
      obtain ⟨hlt, hname, -⟩ := List.findIdx?_eq_some_iff_getElem.mp hi
      exact ⟨_, List.getElem?_eq_getElem hlt, of_decide_eq_true hname⟩
  | none => exact ⟨⟨name, params, ret⟩, by simp [external?], rfl⟩

/-- A symbol stays what it is when others are declared. -/
theorem external?_mono {u : CodeUnit} {id : ExternalId} {x : External}
    (h : u.external? id = some x) (name : String) (params : List TypeId) (ret : TypeId) :
    (u.declareExternal name params ret).2.external? id = some x := by
  unfold declareExternal
  split
  · exact h
  · have hlt := (List.getElem?_eq_some_iff.mp h).1
    change (u.externals ++ _)[id.index]? = some x
    rw [List.getElem?_append_left hlt]
    exact h

theorem requireHeap?_spec {u u' : CodeUnit} {target : Target} {heap : HeapPrimitives}
    (h : u.requireHeap? target = some (heap, u')) :
    u'.heap = some heap ∧ u'.functions = u.functions ∧ u'.glue = u.glue
      ∧ u'.pending = u.pending ∧ (u' = u ∨ u.heap = none) := by
  unfold requireHeap? at h
  cases hheap : u.heap with
  | some heap' =>
      simp only [hheap, Option.some.injEq, Prod.mk.injEq] at h
      obtain ⟨rfl, rfl⟩ := h
      exact ⟨hheap, rfl, rfl, rfl, Or.inl rfl⟩
  | none =>
      cases hsym : target.heap with
      | none => simp [hheap, hsym] at h
      | some symbols =>
          simp only [hheap, hsym, Option.some.injEq, Prod.mk.injEq] at h
          obtain ⟨rfl, rfl⟩ := h
          obtain ⟨f1, -, g1, p1⟩ := declareExternal_spec u symbols.alloc [.usize] .ptr
          obtain ⟨f2, -, g2, p2⟩ := declareExternal_spec
            (u.declareExternal symbols.alloc [.usize] .ptr).2 symbols.free [.ptr] .unit
          exact ⟨rfl, f2.trans f1, g2.trans g1, p2.trans p1, Or.inr rfl⟩

/-- A symbol that was declared is found under its name. -/
theorem findExternal?_declareExternal (u : CodeUnit) (name : String) (params : List TypeId)
    (ret : TypeId) : (u.declareExternal name params ret).2.findExternal? name =
      some (u.declareExternal name params ret).1 := by
  unfold declareExternal
  cases hfind : u.findExternal? name with
  | some id => exact hfind
  | none =>
      have hfirst : u.externals.findIdx? (fun x => x.name = name) = none :=
        Option.map_eq_none_iff.mp hfind
      simp [findExternal?, List.findIdx?_append, hfirst]

/-- The symbols of the heap are different where their names are. -/
theorem requireHeap?_apart {u u' : CodeUnit} {target : Target} {heap : HeapPrimitives}
    {symbols : HeapSymbols} (h : u.requireHeap? target = some (heap, u')) (hnone : u.heap = none)
    (hsym : target.heap = some symbols) :
    heap.alloc ≠ heap.free ↔ symbols.alloc ≠ symbols.free := by
  unfold requireHeap? at h
  simp only [hnone, hsym, Option.some.injEq, Prod.mk.injEq] at h
  obtain ⟨rfl, -⟩ := h
  have hfind := findExternal?_declareExternal u symbols.alloc [.usize] .ptr
  obtain ⟨x, hx, hxname⟩ := external?_declareExternal u symbols.alloc [.usize] .ptr
  generalize u.declareExternal symbols.alloc [.usize] .ptr = first at hfind hx ⊢
  refine not_congr ⟨fun heq => ?_, fun heq => ?_⟩
  · have hx' := external?_mono hx symbols.free [.ptr] .unit
    obtain ⟨y, hy, hyname⟩ := external?_declareExternal first.2 symbols.free [.ptr] .unit
    rw [show first.1 = _ from heq, hy] at hx'
    obtain rfl := Option.some.inj hx'
    exact hxname.symm.trans hyname
  · rw [heq] at hfind
    simp only [declareExternal, hfind]

/-! ## Functions -/

theorem setFunction?_spec {u u' : CodeUnit} {id : FuncId} {f : Function}
    (h : u.setFunction? id f = some u') :
    u'.functions.length = u.functions.length ∧ u'.glue = u.glue ∧ u'.pending = u.pending
      ∧ u'.function? id = some f ∧ ∀ id', id' ≠ id → u'.function? id' = u.function? id' := by
  unfold setFunction? at h
  split at h
  · next hlt =>
      obtain rfl := Option.some.inj h
      refine ⟨List.length_set, rfl, rfl, List.getElem?_set_self hlt, fun id' hne => ?_⟩
      refine List.getElem?_set_ne fun heq => hne ?_
      cases id
      cases id'
      exact congrArg FuncId.mk heq.symm
  · cases h

/-! ## Glue -/

theorem glueFor?_requestGlue (u : CodeUnit) (ty : TypeId) (name : String) :
    (u.requestGlue ty name).2.glueFor? ty = some (u.requestGlue ty name).1 := by
  unfold requestGlue
  cases hglue : u.glueFor? ty with
  | some id => exact hglue
  | none => simp [glueFor?, addFunction]

/-- A request that is new adds a declaration, a glue function and a request. -/
theorem requestGlue_new {u : CodeUnit} {ty : TypeId} (name : String) (h : u.glueFor? ty = none) :
    (u.requestGlue ty name).2 = { u with
      functions := u.functions ++ [.declaration name [.ptr] .unit]
      glue := (ty, ⟨u.functions.length⟩) :: u.glue
      pending := (ty, ⟨u.functions.length⟩) :: u.pending } := by
  simp only [requestGlue, h, addFunction]

theorem requestGlue_old {u : CodeUnit} {ty : TypeId} {id : FuncId} (name : String)
    (h : u.glueFor? ty = some id) : (u.requestGlue ty name).2 = u := by
  simp only [requestGlue, h]

theorem glueFor?_cons (u : CodeUnit) (ty ty' : TypeId) (id : FuncId) (fs : List Function)
    (pending : List (TypeId × FuncId)) :
    glueFor? { u with functions := fs, glue := (ty, id) :: u.glue, pending } ty' =
      if ty' = ty then some id else u.glueFor? ty' := by
  simp only [glueFor?, List.lookup_cons]
  split
  · next heq => rw [if_pos (beq_iff_eq.mp heq)]
  · next heq => rw [if_neg (beq_eq_false_iff_ne.mp heq)]

end CodeUnit

/-! ## Emission -/

/-- Different alloc and free symbols, if there are any. -/
def Emitter.SymbolsApart (e : Emitter) : Prop :=
  ∀ symbols, e.config.target.heap = some symbols → symbols.alloc ≠ symbols.free

instance (e : Emitter) : Decidable e.SymbolsApart :=
  match h : e.config.target.heap with
  | none => isTrue fun symbols hs => by simp [h] at hs
  | some symbols =>
    decidable_of_iff (symbols.alloc ≠ symbols.free) (by simp [Emitter.SymbolsApart, h])

/-- What the emitter's code may have asked a unit for. -/
inductive Emitter.Asks (e : Emitter) (u₀ : CodeUnit) : CodeUnit → Prop where
  | refl : Asks e u₀ u₀
  | heap {u u' : CodeUnit} {heap : HeapPrimitives} : Asks e u₀ u →
      u.requireHeap? e.config.target = some (heap, u') → Asks e u₀ u'
  | glue {u : CodeUnit} (ty : TypeId) (name : String) : Asks e u₀ u →
      Asks e u₀ (u.requestGlue ty name).2

namespace Emitter

variable {e : Emitter} {u u₀ u₁ u₂ : CodeUnit}

theorem Asks.trans (h : e.Asks u₀ u₁) (h' : e.Asks u₁ u₂) : e.Asks u₀ u₂ := by
  induction h' with
  | refl => exact h
  | heap _ hu ih => exact ih.heap hu
  | glue ty name _ ih => exact ih.glue ty name

theorem keeps_requireHeap {u' : CodeUnit} {heap : HeapPrimitives} {target : Target}
    (h : u.requireHeap? target = some (heap, u')) : u.Keeps u' := by
  obtain ⟨-, -, hg, -, hsame⟩ := CodeUnit.requireHeap?_spec h
  refine ⟨fun {heap'} hheap => ?_, fun hglue => ?_⟩
  · rcases hsame with rfl | hnone
    · exact hheap
    · rw [hnone] at hheap
      cases hheap
  · rw [CodeUnit.glueFor?, hg]
    exact hglue

theorem keeps_requestGlue (u : CodeUnit) (ty : TypeId) (name : String) :
    u.Keeps (u.requestGlue ty name).2 := by
  cases hglue : u.glueFor? ty with
  | some id =>
      rw [CodeUnit.requestGlue_old name hglue]
      exact .refl u
  | none =>
      rw [CodeUnit.requestGlue_new name hglue]
      refine ⟨id, fun {ty' id} h => ?_⟩
      rw [CodeUnit.glueFor?_cons, if_neg]
      · exact h
      · rintro rfl
        rw [hglue] at h
        cases h

theorem requireHeap_apart {u' : CodeUnit} {heap : HeapPrimitives} (hnone : u.heap = none)
    (h : u.requireHeap? e.config.target = some (heap, u')) :
    heap.alloc ≠ heap.free ↔ e.SymbolsApart := by
  cases hsym : e.config.target.heap with
  | none => simp [CodeUnit.requireHeap?, hnone, hsym] at h
  | some symbols =>
      rw [CodeUnit.requireHeap?_apart h hnone hsym]
      simp [SymbolsApart, hsym]

theorem Asks.keeps (h : e.Asks u₀ u) : u₀.Keeps u := by
  induction h with
  | refl => exact .refl u₀
  | heap _ hu ih => exact ih.trans (keeps_requireHeap hu)
  | glue ty name _ ih => exact ih.trans (keeps_requestGlue _ ty name)

theorem finished_requestGlue {id : FuncId} {f : Function} (h : u.Finished id f) (ty : TypeId)
    (name : String) : (u.requestGlue ty name).2.Finished id f := by
  cases hglue : u.glueFor? ty with
  | some id' =>
      rw [CodeUnit.requestGlue_old name hglue]
      exact h
  | none =>
      rw [CodeUnit.requestGlue_new name hglue]
      refine ⟨?_, fun ty' hmem => ?_⟩
      · change (u.functions ++ _)[id.index]? = some f
        rw [List.getElem?_append_left h.lt_length]
        exact h.function
      · rcases List.mem_cons.mp hmem with heq | hmem
        · obtain ⟨-, rfl⟩ := Prod.mk.inj heq
          exact absurd h.lt_length (Nat.lt_irrefl _)
        · exact h.settled ty' hmem

theorem Asks.finished (h : e.Asks u₀ u) {id : FuncId} {f : Function} (hf : u₀.Finished id f) :
    u.Finished id f := by
  induction h with
  | refl => exact hf
  | heap _ hu ih =>
      obtain ⟨-, hfs, -, hp, -⟩ := CodeUnit.requireHeap?_spec hu
      refine ⟨?_, ?_⟩
      · rw [CodeUnit.function?, hfs]
        exact ih.function
      · rw [hp]
        exact ih.settled
  | glue ty name _ ih => exact finished_requestGlue ih ty name

end Emitter

end Ownership
