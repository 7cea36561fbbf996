import Ownership.Proofs.Calls

/-!
# Units with all their glue

A unit grows while an emitter works on it: external symbols are declared,
heap symbols and glue functions are asked for, functions are added, and
the glue functions that wait get their bodies (`Emitter.Builds`). All the
while every glue function either waits or has the body that the emitter
writes for its type (`CodeUnit.Tidy`). A `Module` is what is left when
none waits any more: there every glue function has its body
(`Module.callGlue`), and the functions that were emitted on the way are
what they were (`Module.Holds`).
-/

namespace Ownership

/-! ## Glue that emitted code calls -/

/-- The unit has the glue function for the contents of a value of type `ty`, if one is needed. -/
def CodeUnit.Serves (u : CodeUnit) (L : Layouts) (ty : TypeId) : Prop :=
  (L.leaves ty).isEmpty = false → ∃ id, u.glueFor? ty = some id

/-- The unit has the glue function that letting go of a field needs. -/
def CodeUnit.ServesField (u : CodeUnit) (L : Layouts) (r : FieldRelease) : Prop :=
  match r.action with
  | .release _ => ∀ layout, L.ref r.slot.type = .ok layout → layout.region ≠ .borrowed →
      u.Serves L layout.pointee
  | .descend => u.Serves L r.slot.type

theorem CodeUnit.Serves.mono {u u' : CodeUnit} {L : Layouts} {ty : TypeId} (h : u.Serves L ty)
    (hkeeps : u.Keeps u') : u'.Serves L ty := by
  intro hne
  obtain ⟨id, hid⟩ := h hne
  exact ⟨id, hkeeps.glue hid⟩

theorem CodeUnit.ServesField.mono {u u' : CodeUnit} {L : Layouts} {r : FieldRelease}
    (h : u.ServesField L r) (hkeeps : u.Keeps u') : u'.ServesField L r := by
  unfold ServesField at h ⊢
  split
  · next hr =>
      simp only [hr] at h
      exact fun layout hl hreg => (h layout hl hreg).mono hkeeps
  · next hr =>
      simp only [hr] at h
      exact h.mono hkeeps

section Requests

variable {e : Emitter} {d d' : Draft} {op : Operand} {ty : TypeId} {layout : RefLayout}

theorem serves_releaseContents (h : (e.releaseContents op ty).run d = .ok () d') :
    d'.unit.Serves e.layouts ty := by
  intro hne
  unfold Emitter.releaseContents at h
  obtain ⟨plan, d₁, h₁, k₁⟩ := Step.bind_ok h
  obtain ⟨hplan, rfl⟩ := Emits.layout_ok h₁
  have htrivial := (Layouts.plan_ok hplan).isTrivial_iff
  rw [hne] at htrivial
  simp only [htrivial, Bool.false_eq_true, if_false] at k₁
  obtain ⟨⟨⟩, d₂, h₂, k₂⟩ := Step.bind_ok k₁
  obtain rfl := Emits.requirePoint_ok h₂
  obtain ⟨-, rfl⟩ := EStateM.Result.ok.inj k₂
  exact ⟨_, CodeUnit.glueFor?_requestGlue d₂.unit ty (e.glueName ty)⟩

theorem serves_decreaseCount {delta : Int64}
    (h : (e.decreaseCount layout op delta).run d = .ok () d') :
    d'.unit.Serves e.layouts layout.pointee := by
  unfold Emitter.decreaseCount at h
  obtain ⟨heap, d₁, -, k₁⟩ := Step.bind_ok h
  obtain ⟨ids, d₂, -, k₂⟩ := Step.bind_ok k₁
  obtain ⟨d₃, k₃⟩ := Emits.checked_ok k₂
  obtain ⟨new, d₄, -, k₄⟩ := Step.bind_ok k₃
  obtain ⟨⟨⟩, d₅, -, k₅⟩ := Step.bind_ok k₄
  unfold Emitter.freeAtZero at k₅
  obtain ⟨isZero, d₆, -, k₆⟩ := Step.bind_ok k₅
  obtain ⟨⟨⟩, d₇, h₇, k₇⟩ := Step.bind_ok (Emits.fork_ok k₆)
  have hserves := serves_releaseContents h₇
  -- what follows leaves the unit as it is
  obtain ⟨-, rfl⟩ := Emits.moveTo_ok (d := { d₇ with builder :=
    (d₇.builder.callExternalVoid heap.free [.value ids.1]).jump d₆.builder.noBlock }) k₇
  exact hserves

theorem serves_release (h : (e.release op ty).run d = .ok () d')
    (hl : e.layouts.ref ty = .ok layout) (hreg : layout.region ≠ .borrowed) :
    d'.unit.Serves e.layouts layout.pointee := by
  unfold Emitter.release at h
  obtain ⟨layout', d₁, h₁, k₁⟩ := Step.bind_ok h
  obtain ⟨href, rfl⟩ := Emits.layout_ok h₁
  obtain rfl := Except.ok.inj (hl.symm.trans href)
  split at k₁
  · obtain ⟨⟨⟩, d₂, -, k₂⟩ := Step.bind_ok k₁
    obtain ⟨heap, d₃, -, k₃⟩ := Step.bind_ok k₂
    obtain ⟨⟨⟩, d₄, h₄, k₄⟩ := Step.bind_ok k₃
    have hserves := serves_releaseContents h₄
    obtain ⟨-, rfl⟩ := EStateM.Result.ok.inj k₄
    exact hserves
  · obtain ⟨layout', href', -, -, k₂⟩ := Emits.adjustCount_ok k₁
    obtain rfl := Except.ok.inj (href.symm.trans href')
    rw [if_pos (by decide)] at k₂
    exact serves_decreaseCount k₂
  · next hborrowed => exact absurd hborrowed hreg

theorem serves_releaseField {record : TypeId} {r : FieldRelease}
    (h : (e.releaseField op record r).run d = .ok () d') : d'.unit.ServesField e.layouts r := by
  unfold Emitter.releaseField at h
  obtain ⟨addr, d₁, -, k₁⟩ := Step.bind_ok h
  unfold CodeUnit.ServesField
  cases haction : r.action with
  | release region =>
      simp only [haction] at k₁
      obtain ⟨held, d₂, -, k₂⟩ := Step.bind_ok k₁
      exact fun layout hl hreg => serves_release k₂ hl hreg
  | descend =>
      simp only [haction] at k₁
      exact serves_releaseContents k₁

theorem serves_releaseFields {record : TypeId} {v : Value} :
    ∀ {plan : ReleasePlan} {d : Draft} {known : Facts}, d.builder.IsOpen → d.Uses known →
      (plan.forM (e.releaseField op record)).run d = .ok () d' → (op, v) ∈ known →
      ∀ r ∈ plan, d'.unit.ServesField e.layouts r
  | r :: plan, d, known, hopen, huses, h, hv, r', hr' => by
      obtain ⟨⟨⟩, d₁, h₁, k₁⟩ := Step.bind_ok h
      have hfirst := Emits.releaseField hopen huses h₁ hv
      have huses₁ := huses.leads hfirst.leads
      rcases List.mem_cons.mp hr' with rfl | hr'
      · have hrest := Emits.releaseFields hfirst.opened huses₁ k₁ hv
        exact (serves_releaseField h₁).mono hrest.leads.unit.keeps
      · exact serves_releaseFields hfirst.opened huses₁ k₁ hv r' hr'

end Requests

/-! ## Bodies of glue functions -/

theorem emits_glueBody {e : Emitter} {ty : TypeId} {plan : ReleasePlan} {u : CodeUnit}
    {name : String} {d : Draft}
    (h : (e.glueBody ty plan).run ⟨u, .new name [.ptr] .unit⟩ = .ok () d) :
    ∃ d₁, d = { d₁ with builder := d₁.builder.ret none }
      ∧ (∀ r ∈ plan, d₁.unit.ServesField e.layouts r)
      ∧ ∀ v, Emits ⟨u, .new name [.ptr] .unit⟩ d₁ (argFacts [v])
          (fun R : Runtime e => R.releaseFields v plan) fun _ => [] := by
  unfold Emitter.glueBody at h
  obtain ⟨d₀, d₀', h₀, k₀⟩ := Step.bind_ok h
  obtain ⟨rfl, rfl⟩ := EStateM.Result.ok.inj h₀
  obtain ⟨⟨⟩, d₁, h₁, k₁⟩ := Step.bind_ok k₀
  obtain ⟨-, rfl⟩ := EStateM.Result.ok.inj k₁
  have hopen : (Builder.new name [.ptr] .unit).IsOpen := (Builder.open_new ..).isOpen
  have huses : ∀ v, Draft.Uses ⟨u, .new name [.ptr] .unit⟩ (argFacts [v]) := fun v =>
    uses_argFacts rfl
  refine ⟨d₁, rfl, ?_, fun v => ?_⟩
  · exact serves_releaseFields hopen (huses .unit) h₁ (List.mem_singleton.mpr rfl)
  · exact Emits.releaseFields hopen (huses v) h₁ (List.mem_singleton.mpr rfl)

/-- The function `id` is the glue function of `ty`, with the body that the emitter writes. -/
def Emitter.HasGlue (e : Emitter) (u : CodeUnit) (ty : TypeId) (id : FuncId) : Prop :=
  ∃ plan u₀ name d, e.layouts.plan ty = .ok plan
    ∧ (e.glueBody ty plan).run ⟨u₀, .new name [.ptr] .unit⟩ = .ok () d
    ∧ u.Finished id d.builder.function ∧ d.unit.Keeps u

theorem Emitter.HasGlue.mono {e : Emitter} {u u' : CodeUnit} {ty : TypeId} {id : FuncId}
    (h : e.HasGlue u ty id) (hkeeps : u.Keeps u')
    (hfinished : ∀ f, u.Finished id f → u'.Finished id f) : e.HasGlue u' ty id := by
  obtain ⟨plan, u₀, name, d, hplan, hrun, hf, hk⟩ := h
  exact ⟨plan, u₀, name, d, hplan, hrun, hfinished _ hf, hk.trans hkeeps⟩

/-! ## Tidy units -/

/-- Every glue function waits or has its body, except for the function
`busy`, of which the body is being written. -/
structure CodeUnit.Tidy (e : Emitter) (busy : Option FuncId) (u : CodeUnit) : Prop where
  requests : ∀ {ty id}, (ty, id) ∈ u.pending → u.glueFor? ty = some id
  bound : ∀ {ty id}, u.glueFor? ty = some id → id.index < u.functions.length
  injective : ∀ {ty ty' id}, u.glueFor? ty = some id → u.glueFor? ty' = some id → ty = ty'
  bodies : ∀ {ty id}, u.glueFor? ty = some id →
    busy = some id ∨ (ty, id) ∈ u.pending ∨ e.HasGlue u ty id
  nodup : u.pending.Nodup
  busyBound : ∀ {id}, busy = some id → id.index < u.functions.length
  notBusy : ∀ {ty id}, (ty, id) ∈ u.pending → busy ≠ some id
  apart : ∀ {heap}, u.heap = some heap → (heap.alloc ≠ heap.free ↔ e.SymbolsApart)

namespace CodeUnit

variable {e : Emitter} {busy : Option FuncId} {u u' : CodeUnit}

theorem tidy_new (e : Emitter) (name : String) : Tidy e none (new name) where
  requests := nofun
  bound := nofun
  injective := nofun
  bodies := nofun
  nodup := List.nodup_nil
  busyBound := nofun
  notBusy := nofun
  apart := nofun

/-- A change that leaves functions and glue alone. -/
theorem Tidy.of_eq (h : Tidy e busy u) (hf : u'.functions = u.functions) (hg : u'.glue = u.glue)
    (hp : u'.pending = u.pending) (hkeeps : u.Keeps u')
    (hapart : ∀ {heap}, u'.heap = some heap → (heap.alloc ≠ heap.free ↔ e.SymbolsApart)) :
    Tidy e busy u' := by
  have hglue : ∀ ty, u'.glueFor? ty = u.glueFor? ty := fun ty => by rw [glueFor?, hg]; rfl
  have hfinished : ∀ {id f}, u.Finished id f → u'.Finished id f := fun h => by
    refine ⟨?_, ?_⟩
    · rw [function?, hf]
      exact h.function
    · rw [hp]
      exact h.settled
  refine ⟨?_, ?_, ?_, ?_, ?_, ?_, ?_, hapart⟩
  · intro ty id hmem
    rw [hglue]
    exact h.requests (hp ▸ hmem)
  · intro ty id hid
    rw [hf]
    exact h.bound (hglue ty ▸ hid)
  · intro ty ty' id hid hid'
    exact h.injective (hglue ty ▸ hid) (hglue ty' ▸ hid')
  · intro ty id hid
    rw [hp]
    rcases h.bodies (hglue ty ▸ hid) with hb | hb | hb
    · exact Or.inl hb
    · exact Or.inr (Or.inl hb)
    · exact Or.inr (Or.inr (hb.mono hkeeps fun f hf => hfinished hf))
  · rw [hp]
    exact h.nodup
  · intro id hid
    rw [hf]
    exact h.busyBound hid
  · intro ty id hmem
    exact h.notBusy (hp ▸ hmem)

theorem Tidy.requestGlue (h : Tidy e busy u) (ty : TypeId) (name : String) :
    Tidy e busy (u.requestGlue ty name).2 := by
  have hkeeps := Emitter.keeps_requestGlue u ty name
  have hfinished : ∀ {id f}, u.Finished id f → (u.requestGlue ty name).2.Finished id f :=
    fun hf => Emitter.finished_requestGlue hf ty name
  cases hglue : u.glueFor? ty with
  | some id =>
      rw [requestGlue_old name hglue]
      exact h
  | none =>
      have heq := requestGlue_new name hglue
      generalize (u.requestGlue ty name).2 = u' at heq hkeeps hfinished
      have hlook : ∀ ty', u'.glueFor? ty' =
          if ty' = ty then some ⟨u.functions.length⟩ else u.glueFor? ty' := by
        intro ty'
        rw [heq]
        exact glueFor?_cons u ty ty' _ _ _
      have hlen : u'.functions.length = u.functions.length + 1 := by rw [heq]; simp
      have hpending : u'.pending = (ty, ⟨u.functions.length⟩) :: u.pending := by rw [heq]
      have hheap : u'.heap = u.heap := by rw [heq]
      -- the new function has a number that no other glue function has
      have hnew : ∀ {ty' : TypeId}, u.glueFor? ty' ≠ some ⟨u.functions.length⟩ := fun h' =>
        absurd (h.bound h') (Nat.lt_irrefl _)
      refine ⟨?_, ?_, ?_, ?_, ?_, ?_, ?_, ?_⟩
      · intro ty' id hmem
        rw [hpending] at hmem
        rcases List.mem_cons.mp hmem with hp | hmem
        · obtain ⟨rfl, rfl⟩ := Prod.mk.inj hp
          rw [hlook, if_pos rfl]
        · exact hkeeps.glue (h.requests hmem)
      · intro ty' id hid
        rw [hlook] at hid
        split at hid
        · obtain rfl := Option.some.inj hid
          change u.functions.length < u'.functions.length
          omega
        · have := h.bound hid
          omega
      · intro ty₁ ty₂ id h₁ h₂
        rw [hlook] at h₁ h₂
        split at h₁ <;> split at h₂
        · next e₁ e₂ => rw [e₁, e₂]
        · exact absurd (h₂.trans h₁.symm) hnew
        · exact absurd (h₁.trans h₂.symm) hnew
        · exact h.injective h₁ h₂
      · intro ty' id hid
        rw [hpending]
        rw [hlook] at hid
        split at hid
        · next hty =>
            obtain rfl := Option.some.inj hid
            rw [hty]
            exact Or.inr (Or.inl List.mem_cons_self)
        · rcases h.bodies hid with hb | hb | hb
          · exact Or.inl hb
          · exact Or.inr (Or.inl (List.mem_cons_of_mem _ hb))
          · exact Or.inr (Or.inr (hb.mono hkeeps fun f hf => hfinished hf))
      · rw [hpending, List.nodup_cons]
        refine ⟨fun hmem => ?_, h.nodup⟩
        exact hnew (h.requests hmem)
      · intro id hid
        have := h.busyBound hid
        omega
      · intro ty' id hmem hbusy
        rw [hpending] at hmem
        rcases List.mem_cons.mp hmem with hp | hmem
        · obtain ⟨-, rfl⟩ := Prod.mk.inj hp
          exact absurd (h.busyBound hbusy) (Nat.lt_irrefl _)
        · exact h.notBusy hmem hbusy
      · rw [hheap]
        exact h.apart

theorem Tidy.requireHeap {heap : HeapPrimitives} (h : Tidy e busy u)
    (hu : u.requireHeap? e.config.target = some (heap, u')) : Tidy e busy u' := by
  obtain ⟨hheap, hf, hg, hp, hsame⟩ := requireHeap?_spec hu
  refine h.of_eq hf hg hp (Emitter.keeps_requireHeap hu) fun {heap'} hheap' => ?_
  rcases hsame with rfl | hnone
  · exact h.apart hheap'
  · obtain rfl := Option.some.inj (hheap.symm.trans hheap')
    exact Emitter.requireHeap_apart hnone hu

theorem Tidy.asks (h : Tidy e busy u) (ha : e.Asks u u') : Tidy e busy u' := by
  induction ha with
  | refl => exact h
  | heap _ hu ih => exact ih.requireHeap hu
  | glue ty name _ ih => exact ih.requestGlue ty name

theorem keeps_addFunction (u : CodeUnit) (f : Function) : u.Keeps (u.addFunction f).2 :=
  ⟨fun h => h, fun h => h⟩

theorem finished_addFunction {id : FuncId} {f g : Function} (h : u.Finished id g) :
    (u.addFunction f).2.Finished id g := by
  refine ⟨?_, h.settled⟩
  change (u.functions ++ [f])[id.index]? = some g
  rw [List.getElem?_append_left h.lt_length]
  exact h.function

theorem Tidy.addFunction (h : Tidy e busy u) (f : Function) : Tidy e busy (u.addFunction f).2 := by
  have hlen : (u.addFunction f).2.functions.length = u.functions.length + 1 := by
    simp [CodeUnit.addFunction]
  refine ⟨h.requests, fun hid => ?_, h.injective, fun hid => ?_, h.nodup, fun hid => ?_, h.notBusy,
    h.apart⟩
  · rw [hlen]
    exact Nat.lt_succ_of_lt (h.bound hid)
  · rcases h.bodies hid with hb | hb | hb
    · exact Or.inl hb
    · exact Or.inr (Or.inl hb)
    · exact Or.inr (Or.inr (hb.mono (keeps_addFunction u f) fun g hg => finished_addFunction hg))
  · rw [hlen]
    exact Nat.lt_succ_of_lt (h.busyBound hid)

theorem Tidy.finished_last (h : Tidy e none u) (f : Function) :
    (u.addFunction f).2.Finished (u.addFunction f).1 f := by
  refine ⟨?_, fun ty hmem => ?_⟩
  · change (u.functions ++ [f])[u.functions.length]? = some f
    exact List.getElem?_concat_length
  · exact absurd (h.bound (h.requests hmem)) (Nat.lt_irrefl _)

/-- A request is taken off the stack. -/
theorem Tidy.pop {ty : TypeId} {id : FuncId} {rest : List (TypeId × FuncId)}
    (h : Tidy e none u) (hp : u.pending = (ty, id) :: rest) :
    Tidy e (some id) { u with pending := rest } := by
  have hmem : ∀ {q}, q ∈ rest → q ∈ u.pending := fun hq => by
    rw [hp]
    exact List.mem_cons_of_mem _ hq
  have hfirst : u.glueFor? ty = some id := h.requests (by rw [hp]; exact List.mem_cons_self)
  have hnodup := h.nodup
  rw [hp, List.nodup_cons] at hnodup
  refine ⟨fun hq => h.requests (hmem hq), h.bound, h.injective, ?_, hnodup.2, ?_, ?_, h.apart⟩
  · intro ty' id' hid
    rcases h.bodies hid with hb | hb | hb
    · cases hb
    · rw [hp] at hb
      rcases List.mem_cons.mp hb with heq | hb
      · obtain ⟨-, rfl⟩ := Prod.mk.inj heq
        exact Or.inl rfl
      · exact Or.inr (Or.inl hb)
    · refine Or.inr (Or.inr (hb.mono ⟨fun h => h, fun h => h⟩ fun f hf =>
        ⟨hf.function, fun ty'' hq => ?_⟩))
      exact hf.settled ty'' (hmem hq)
  · rintro id' heq
    obtain rfl := Option.some.inj heq
    exact h.bound hfirst
  · rintro ty' id' hq heq
    obtain rfl := Option.some.inj heq
    obtain rfl := h.injective hfirst (h.requests (hmem hq))
    exact hnodup.1 hq

/-- The body that is being written is put in its place. -/
theorem Tidy.setFunction {ty : TypeId} {id : FuncId} {f : Function} (h : Tidy e (some id) u)
    (hty : u.glueFor? ty = some id) (hset : u.setFunction? id f = some u')
    (hbody : u'.Finished id f → u.Keeps u' → e.HasGlue u' ty id) :
    Tidy e none u' ∧ u.Keeps u'
      ∧ ∀ {id' g}, id' ≠ id → u.Finished id' g → u'.Finished id' g := by
  unfold setFunction? at hset
  split at hset
  · next hlt =>
      obtain rfl := Option.some.inj hset
      have hkeeps : u.Keeps { u with functions := u.functions.set id.index f } :=
        ⟨fun h => h, fun h => h⟩
      have hfinished : ∀ {id' g}, id' ≠ id → u.Finished id' g →
          Finished { u with functions := u.functions.set id.index f } id' g := by
        intro id' g hne hg
        refine ⟨?_, hg.settled⟩
        change (u.functions.set id.index f)[id'.index]? = some g
        rw [List.getElem?_set_ne (fun heq => hne (by cases id'; cases id; simp_all))]
        exact hg.function
      have hself : Finished { u with functions := u.functions.set id.index f } id f := by
        refine ⟨?_, fun ty' hmem => h.notBusy hmem rfl⟩
        change (u.functions.set id.index f)[id.index]? = some f
        rw [List.getElem?_set_self hlt]
      refine ⟨⟨h.requests, fun hid => ?_, h.injective, fun {ty' id'} hid => ?_, h.nodup, nofun,
        nofun, h.apart⟩, hkeeps, hfinished⟩
      · change _ < (u.functions.set id.index f).length
        rw [List.length_set]
        exact h.bound hid
      · by_cases hid' : id' = id
        · subst hid'
          obtain rfl := h.injective hty hid
          exact Or.inr (Or.inr (hbody hself hkeeps))
        · rcases h.bodies hid with hb | hb | hb
          · exact absurd (Option.some.inj hb).symm hid'
          · exact Or.inr (Or.inl hb)
          · exact Or.inr (Or.inr (hb.mono hkeeps fun g hg => hfinished hid' hg))
  · cases hset

end CodeUnit

/-! ## Writing the bodies -/

namespace Emitter

variable {e : Emitter} {u u' : CodeUnit}

/-- What a stage of the work on a unit leaves as it is. -/
structure Advances (e : Emitter) (u u' : CodeUnit) : Prop where
  tidy : u'.Tidy e none
  keeps : u.Keeps u'
  finished : ∀ {id f}, u.Finished id f → u'.Finished id f

theorem Advances.trans {u₁ u₂ u₃ : CodeUnit} (h : e.Advances u₁ u₂) (h' : e.Advances u₂ u₃) :
    e.Advances u₁ u₃ := ⟨h'.tidy, h.keeps.trans h'.keeps, fun hf => h'.finished (h.finished hf)⟩

theorem inFunction_ok {b₀ b : Builder} {x : Emit Unit}
    (h : (inFunction b₀ x).run u = .ok b u') :
    ∃ d, x.run ⟨u, b₀⟩ = .ok () d ∧ b = d.builder ∧ u' = d.unit := by
  change inFunction b₀ x u = _ at h
  unfold inFunction at h
  split at h
  · next d hrun =>
      obtain ⟨rfl, rfl⟩ := EStateM.Result.ok.inj h
      exact ⟨d, hrun, rfl, rfl⟩
  · cases h

theorem defineGlue_ok {ty : TypeId} {id : FuncId} (h : (e.defineGlue ty id).run u = .ok () u') :
    ∃ plan name d, e.layouts.plan ty = .ok plan
      ∧ (e.glueBody ty plan).run ⟨u, .new name [.ptr] .unit⟩ = .ok () d
      ∧ d.unit.setFunction? id d.builder.function = some u' := by
  unfold defineGlue at h
  obtain ⟨plan, u₁, h₁, k₁⟩ := Step.bind_ok h
  have hplan : e.layouts.plan ty = .ok plan ∧ u₁ = u := by
    cases hp : e.layouts.plan ty with
    | error s =>
        rw [hp] at h₁
        cases h₁
    | ok plan' =>
        rw [hp] at h₁
        obtain ⟨rfl, rfl⟩ := EStateM.Result.ok.inj h₁
        exact ⟨rfl, rfl⟩
  obtain ⟨hplan, rfl⟩ := hplan
  obtain ⟨u₂, u₃, h₂, k₂⟩ := Step.bind_ok k₁
  obtain ⟨rfl, rfl⟩ := EStateM.Result.ok.inj h₂
  obtain ⟨declared, u₄, h₃, k₃⟩ := Step.bind_ok k₂
  have hu₄ : u₄ = u₁ := by
    cases hf : u₁.function? id with
    | none =>
        rw [hf] at h₃
        cases h₃
    | some f =>
        rw [hf] at h₃
        exact (EStateM.Result.ok.inj h₃).2.symm
  obtain rfl := hu₄
  obtain ⟨b, u₅, h₄, k₄⟩ := Step.bind_ok k₃
  obtain ⟨d, hrun, rfl, rfl⟩ := inFunction_ok h₄
  obtain ⟨u₆, u₇, h₅, k₅⟩ := Step.bind_ok k₄
  obtain ⟨rfl, rfl⟩ := EStateM.Result.ok.inj h₅
  refine ⟨plan, declared.name, d, hplan, hrun, ?_⟩
  cases hset : d.unit.setFunction? id d.builder.function with
  | none =>
      rw [hset] at k₅
      cases k₅
  | some u₈ =>
      rw [hset] at k₅
      obtain ⟨-, rfl⟩ := EStateM.Result.ok.inj k₅
      rfl

theorem advances_defineGlue {ty : TypeId} {id : FuncId} {rest : List (TypeId × FuncId)}
    (htidy : u.Tidy e none) (hp : u.pending = (ty, id) :: rest)
    (h : (e.defineGlue ty id).run { u with pending := rest } = .ok () u') : e.Advances u u' := by
  obtain ⟨plan, name, d, hplan, hrun, hset⟩ := defineGlue_ok h
  obtain ⟨d₁, rfl, -, hemits⟩ := emits_glueBody hrun
  have hasks : e.Asks { u with pending := rest } d₁.unit := (hemits .unit).leads.unit
  have htidy₁ := (htidy.pop hp).asks hasks
  have hty : u.glueFor? ty = some id := htidy.requests (by rw [hp]; exact List.mem_cons_self)
  have hkeeps₁ : u.Keeps { u with pending := rest } := ⟨fun h => h, fun h => h⟩
  obtain ⟨htidy₂, hkeeps₂, hfinished₂⟩ := htidy₁.setFunction (hasks.keeps.glue hty) hset
    fun hf hk => ⟨plan, _, name, _, hplan, hrun, hf, hk⟩
  refine ⟨htidy₂, (hkeeps₁.trans hasks.keeps).trans hkeeps₂, fun {id' f} hf => ?_⟩
  have hne : id' ≠ id := by
    rintro rfl
    exact hf.settled ty (by rw [hp]; exact List.mem_cons_self)
  refine hfinished₂ hne (hasks.finished ⟨hf.function, fun ty' hmem => ?_⟩)
  exact hf.settled ty' (by rw [hp]; exact List.mem_cons_of_mem _ hmem)

theorem advances_drainGlue : ∀ {limit n : Nat} {u u' : CodeUnit},
    u.Tidy e none → (e.drainGlue limit).run u = .ok n u' → e.Advances u u' ∧ u'.pending = []
  | 0, n, u, u', htidy, h => by
      unfold drainGlue at h
      obtain ⟨u₁, u₂, h₁, k₁⟩ := Step.bind_ok h
      obtain ⟨rfl, rfl⟩ := EStateM.Result.ok.inj h₁
      split at k₁
      · next hempty =>
          obtain ⟨-, rfl⟩ := EStateM.Result.ok.inj k₁
          exact ⟨⟨htidy, .refl _, fun hf => hf⟩, List.isEmpty_iff.mp hempty⟩
      · cases k₁
  | limit + 1, n, u, u', htidy, h => by
      unfold drainGlue at h
      obtain ⟨u₁, u₂, h₁, k₁⟩ := Step.bind_ok h
      obtain ⟨rfl, rfl⟩ := EStateM.Result.ok.inj h₁
      split at k₁
      · next hempty =>
          obtain ⟨-, rfl⟩ := EStateM.Result.ok.inj k₁
          exact ⟨⟨htidy, .refl _, fun hf => hf⟩, hempty⟩
      · next ty id rest hp =>
          obtain ⟨⟨⟩, u₃, h₂, k₂⟩ := Step.bind_ok k₁
          obtain ⟨-, rfl⟩ := EStateM.Result.ok.inj h₂
          obtain ⟨⟨⟩, u₄, h₃, k₃⟩ := Step.bind_ok k₂
          obtain ⟨n', u₅, h₄, k₄⟩ := Step.bind_ok k₃
          obtain ⟨-, rfl⟩ := EStateM.Result.ok.inj k₄
          have hstep := advances_defineGlue htidy hp h₃
          obtain ⟨hrest, hdone⟩ := advances_drainGlue hstep.tidy h₄
          exact ⟨hstep.trans hrest, hdone⟩

theorem advances_emitPendingGlue {n : Nat} (htidy : u.Tidy e none)
    (h : e.emitPendingGlue.run u = .ok n u') : e.Advances u u' ∧ u'.pending = [] := by
  unfold emitPendingGlue at h
  obtain ⟨u₁, u₂, h₁, k₁⟩ := Step.bind_ok h
  obtain ⟨rfl, rfl⟩ := EStateM.Result.ok.inj h₁
  exact advances_drainGlue htidy k₁

/-! ## Units under construction -/

/-- Emits a function into a unit; the result is its number. -/
def addEmitted (name : String) (params : List TypeId) (ret : TypeId) (x : Emit Unit) :
    UnitStep FuncId := do
  let b ← inFunction (.new name params ret) x
  modifyGet fun u => u.addFunction b.function

/-- The stages of a unit that an emitter works on. -/
inductive Builds (e : Emitter) (u₀ : CodeUnit) : CodeUnit → Prop where
  | refl : Builds e u₀ u₀
  | external {u : CodeUnit} (name : String) (params : List TypeId) (ret : TypeId) :
      Builds e u₀ u → Builds e u₀ (u.declareExternal name params ret).2
  | asks {u u' : CodeUnit} : Builds e u₀ u → e.Asks u u' → Builds e u₀ u'
  | function {u : CodeUnit} (f : Function) : Builds e u₀ u → Builds e u₀ (u.addFunction f).2
  | drain {u u' : CodeUnit} {n : Nat} :
      Builds e u₀ u → e.emitPendingGlue.run u = .ok n u' → Builds e u₀ u'

theorem Builds.trans {u₁ u₂ u₃ : CodeUnit} (h : e.Builds u₁ u₂) (h' : e.Builds u₂ u₃) :
    e.Builds u₁ u₃ := by
  induction h' with
  | refl => exact h
  | external name params ret _ ih => exact .external name params ret ih
  | asks _ ha ih => exact .asks ih ha
  | function f _ ih => exact .function f ih
  | drain _ hu ih => exact .drain ih hu

theorem Builds.advances {u₀ : CodeUnit} (htidy : u₀.Tidy e none)
    (h : e.Builds u₀ u) : e.Advances u₀ u := by
  induction h with
  | refl => exact ⟨htidy, .refl _, fun hf => hf⟩
  | @external u name params ret _ ih =>
      obtain ⟨hf, hh, hg, hp⟩ := CodeUnit.declareExternal_spec u name params ret
      have hkeeps : u.Keeps (u.declareExternal name params ret).2 := by
        refine ⟨fun h => ?_, fun h => ?_⟩
        · rw [hh]
          exact h
        · rw [CodeUnit.glueFor?, hg]
          exact h
      refine ih.trans ⟨ih.tidy.of_eq hf hg hp hkeeps ?_, hkeeps, fun {id f} h => ⟨?_, ?_⟩⟩
      · rw [hh]
        exact ih.tidy.apart
      · rw [CodeUnit.function?, hf]
        exact h.function
      · rw [hp]
        exact h.settled
  | asks _ ha ih => exact ih.trans ⟨ih.tidy.asks ha, ha.keeps, ha.finished⟩
  | function f _ ih =>
      exact ih.trans ⟨ih.tidy.addFunction f, CodeUnit.keeps_addFunction _ f,
        CodeUnit.finished_addFunction⟩
  | drain _ hu ih => exact ih.trans (advances_emitPendingGlue ih.tidy hu).1

/-- A unit in which all glue functions have their bodies. -/
structure Module (e : Emitter) where
  name : String
  /-- The unit before the last glue functions got their bodies. -/
  draft : CodeUnit
  built : e.Builds (.new name) draft
  unit : CodeUnit
  drained : ∃ n, e.emitPendingGlue.run draft = .ok n unit

namespace Module

def program (M : e.Module) : Program := ⟨M.unit, e.layouts⟩

/-- Under `name` the unit has the function that `x` emitted on the way. -/
def Holds (M : e.Module) (name : String) (params : List TypeId) (ret : TypeId) (x : Emit Unit) :
    Prop :=
  ∃ u₀ id u₁, e.Builds (.new M.name) u₀ ∧ (addEmitted name params ret x).run u₀ = .ok id u₁
    ∧ e.Builds u₁ M.draft ∧ M.unit.functionNamed? name = some id

theorem advances (M : e.Module) :
    e.Advances (.new M.name) M.unit ∧ M.unit.pending = [] := by
  have hbuilt := M.built.advances (CodeUnit.tidy_new e M.name)
  obtain ⟨n, hrun⟩ := M.drained
  obtain ⟨hdrained, hpending⟩ := advances_emitPendingGlue hbuilt.tidy hrun
  exact ⟨hbuilt.trans hdrained, hpending⟩

/-- What calls in the module do, nested at most `depth` deep. -/
def runtime (M : e.Module) (depth : Nat) : Runtime e where
  unit := M.unit
  call := M.program.callWithin depth
  thrifty := M.program.thrifty_callWithin depth
  apart := M.advances.1.tidy.apart

/-- A glue function lets go of the fields of its type, and what it calls for that is there. -/
theorem callGlue (M : e.Module) {ty : TypeId} {id : FuncId}
    (h : M.unit.glueFor? ty = some id) : ∃ plan, e.layouts.plan ty = .ok plan
      ∧ (∀ r ∈ plan, M.unit.ServesField e.layouts r)
      ∧ ∀ depth v, M.program.callWithin (depth + 1) id [v] =
        Exec.inCall ((M.runtime depth).releaseFields v plan >>= fun _ => pure none) := by
  obtain ⟨hadv, hpending⟩ := M.advances
  rcases hadv.tidy.bodies h with hb | hb | ⟨plan, u₀, name, d, hplan, hrun, hf, hkeeps⟩
  · cases hb
  · rw [hpending] at hb
    cases hb
  · obtain ⟨d₁, rfl, hserves, hemits⟩ := emits_glueBody hrun
    refine ⟨plan, hplan, fun r hr => (hserves r hr).mono hkeeps, fun depth v => ?_⟩
    refine callWithin_emitted (R := M.runtime depth) rfl rfl hf.function rfl (hemits v)
      hkeeps ?_
    exact fun _ => trivial

section Emitted

variable {β : Type} {M : e.Module} {name : String} {params : List TypeId} {ret : TypeId}
  {x : Emit β} {t : β → Option Operand}

theorem builds_addEmitted {u u' : CodeUnit} {id : FuncId}
    (hasks : ∀ {u b d}, x.run ⟨u, .new name params ret⟩ = .ok b d → e.Asks u d.unit)
    (h : (addEmitted name params ret (x >>= fun b => Emit.edit (·.ret (t b)))).run u = .ok id u') :
    e.Builds u u' := by
  obtain ⟨builder, u₁, h₁, k₁⟩ := Step.bind_ok h
  obtain ⟨d, hrun, rfl, rfl⟩ := inFunction_ok h₁
  obtain ⟨b, d₁, h₂, k₂⟩ := Step.bind_ok hrun
  obtain ⟨-, rfl⟩ := EStateM.Result.ok.inj k₂
  obtain ⟨-, rfl⟩ := EStateM.Result.ok.inj k₁
  have hbuilds : e.Builds u d₁.unit := .asks .refl (hasks h₂)
  exact .function _ hbuilds

/-- The emission that a function of the module comes from. -/
theorem Holds.emission (hholds : M.Holds name params ret (x >>= fun b => Emit.edit (·.ret (t b))))
    (hasks : ∀ {u b d}, x.run ⟨u, .new name params ret⟩ = .ok b d → e.Asks u d.unit) :
    ∃ u b d id, x.run ⟨u, .new name params ret⟩ = .ok b d ∧ d.unit.Keeps M.unit
      ∧ M.unit.functionNamed? name = some id
      ∧ M.unit.function? id = some (d.builder.ret (t b)).function := by
  obtain ⟨u₀, id, u₁, hu₀, hadd, hu₁, hname⟩ := hholds
  obtain ⟨builder, u₂, h₁, k₁⟩ := Step.bind_ok hadd
  obtain ⟨rfl, rfl⟩ := EStateM.Result.ok.inj k₁
  obtain ⟨d, hrun, rfl, rfl⟩ := inFunction_ok h₁
  obtain ⟨b, d₁, h₂, k₂⟩ := Step.bind_ok hrun
  obtain ⟨-, rfl⟩ := EStateM.Result.ok.inj k₂
  have htidy := (hu₀.advances (CodeUnit.tidy_new e M.name)).tidy.asks (hasks h₂)
  have hadv := hu₁.advances (htidy.addFunction _)
  obtain ⟨n, hdrain⟩ := M.drained
  have hdrained := (advances_emitPendingGlue hadv.tidy hdrain).1
  have hf := hdrained.finished (hadv.finished (htidy.finished_last _))
  have hkeeps := (CodeUnit.keeps_addFunction d₁.unit _).trans (hadv.trans hdrained).keeps
  exact ⟨u₀, b, d₁, _, h₂, hkeeps, hname, hf.function⟩

/-- A function of the module does what was emitted for it. -/
theorem Holds.performs {α : Type} {args : List Value}
    {P : (Runtime e → Exec α) → Prop} {found : β → α → Facts} {result : α → Option Value}
    (hholds : M.Holds name params ret (x >>= fun b => Emit.edit (·.ret (t b))))
    (hlen : args.length = params.length)
    (hx : ∀ {u b d}, x.run ⟨u, .new name params ret⟩ = .ok b d →
      ∃ y, P y ∧ Emits ⟨u, .new name params ret⟩ d (argFacts args) y (found b))
    (hr : ∀ b a, Returns (found b a) (t b) (result a)) :
    ∃ y, P y ∧ ∀ m : Machine, (M.program.run name args).run m =
      (Exec.inCall (y (M.runtime m.budget) >>= fun a => pure (result a))).run m := by
  obtain ⟨u, b, d, id, hrun, hkeeps, hname, hf⟩ := hholds.emission fun h => by
    obtain ⟨y, -, hy⟩ := hx h
    exact hy.leads.unit
  obtain ⟨y, hP, hy⟩ := hx hrun
  refine ⟨y, hP, fun m => ?_⟩
  rw [Program.run, show M.program.unit.functionNamed? name = some id from hname]
  have hcall := callWithin_emitted (R := M.runtime m.budget) rfl rfl hf hlen hy hkeeps
    (hr b)
  have hmachine := congrArg (EStateM.run · m) hcall
  exact hmachine

end Emitted

end Module

end Emitter

end Ownership
