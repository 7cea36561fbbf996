import Ownership.Emit.Scope
import Ownership.Proofs.Coupling
import Ownership.Proofs.Owned
import Ownership.Proofs.Progress
import Ownership.Proofs.Values

/-!
# The end of scopes

What is let go of where scopes end is told by the types of the variables
alone: a reference that is held is loaded from its slot and released, the
references inside a record are released in place, and all else is left
alone (`Emitter.releaseSlot`). The variables take their turn scope by
scope, from the innermost one on, and in each scope in order of
declaration; those that were moved take none (`ScopeStack.leaving`).

The code for this stands in the middle of a function. Running it is the
same as to run, for one variable after the other, a function that was
emitted for nothing but such a release: what memory is like afterwards is
the same, and so is the first fault (`scope_exit`).
-/

namespace Ownership

/-! ## What the types say -/

/-- The variables of the scopes from a depth on, without those that were moved: the innermost scope
first, and in each scope in order of declaration. -/
def ScopeStack.leaving (s : ScopeStack) (depth : Nat) : List Variable :=
  (s.scopes.drop depth).reverse.flatMap fun scope => scope.vars.filter fun v => !v.moved

namespace Emitter

/-- What a variable of a type has to let go of. -/
def custodyOf (e : Emitter) (ty : TypeId) : Custody :=
  match e.pool.item? ty with
  | some (.reference region _) => region.custody
  | some (.record _) => if (e.layouts.leaves ty).isEmpty then .none else .embedded
  | none => .none

/-- Code that lets go of what the slot of a variable holds: the reference in it, the references
inside the record in it, or nothing. -/
def releaseSlot (e : Emitter) (v : Variable) : Emit Unit :=
  if e.pool.isHolder v.type then do
    let held ← Emit.build (·.load v.type (.value v.slot))
    e.release (.value held) v.type
  else if (e.layouts.leaves v.type).isEmpty then pure ()
  else e.releaseContents (.value v.slot) v.type

variable {e : Emitter} {d d' : Draft}

theorem custody_ok {ty : TypeId} {c : Custody} (h : (e.custody ty).run d = .ok c d') :
    c = e.custodyOf ty ∧ d' = d := by
  unfold custody at h
  unfold custodyOf
  cases hitem : e.pool.item? ty with
  | none =>
      rw [hitem] at h
      obtain ⟨rfl, rfl⟩ := EStateM.Result.ok.inj h
      exact ⟨rfl, rfl⟩
  | some item =>
      rw [hitem] at h
      cases item with
      | reference region pointee =>
          obtain ⟨rfl, rfl⟩ := EStateM.Result.ok.inj h
          exact ⟨rfl, rfl⟩
      | record defn =>
          obtain ⟨plan, d₁, h₁, k₁⟩ := Step.bind_ok h
          obtain ⟨hplan, rfl⟩ := Emits.layout_ok h₁
          obtain ⟨rfl, rfl⟩ := EStateM.Result.ok.inj k₁
          exact ⟨by rw [(Layouts.plan_ok hplan).isTrivial_iff], rfl⟩

theorem custodyOf_holder {ty : TypeId} (h : e.pool.isHolder ty = true) :
    e.custodyOf ty = .owning ∨ e.custodyOf ty = .counted := by
  unfold Pool.isHolder Pool.reference? at h
  unfold custodyOf
  cases hitem : e.pool.item? ty with
  | none => simp [hitem] at h
  | some item =>
      cases item with
      | record defn => simp [hitem] at h
      | reference region pointee =>
          simp only [hitem] at h
          cases region with
          | owning => exact Or.inl rfl
          | counted => exact Or.inr rfl
          | borrowed => cases h

theorem custodyOf_other {ty : TypeId} (h : e.pool.isHolder ty = false) :
    e.custodyOf ty = if (e.layouts.leaves ty).isEmpty then .none else .embedded := by
  unfold Pool.isHolder Pool.reference? at h
  unfold custodyOf
  have hplain : (e.pool.record? ty = none) → (e.layouts.leaves ty).isEmpty = true := fun hrec =>
    List.isEmpty_iff.mpr (Layouts.leaves_plain hrec)
  unfold Pool.record? at hplain
  cases hitem : e.pool.item? ty with
  | none => rw [hplain (by rw [hitem]), if_pos rfl]
  | some item =>
      cases item with
      | record defn => rfl
      | reference region pointee =>
          rw [hplain (by rw [hitem]), if_pos rfl]
          simp only [hitem] at h
          cases region with
          | borrowed => rfl
          | _ => cases h

/-- A variable in whose custody is what its type says is let go of as its type says. -/
theorem releaseSlot_eq {v : Variable} (h : v.custody = e.custodyOf v.type) :
    e.releaseSlot v = if v.custody.needsRelease then e.releaseVariable v else pure () := by
  unfold releaseSlot releaseVariable
  cases hholder : e.pool.isHolder v.type with
  | true => rcases custodyOf_holder hholder with hc | hc <;> rw [h, hc] <;> rfl
  | false =>
      rw [h, custodyOf_other hholder]
      cases (e.layouts.leaves v.type).isEmpty <;> rfl

end Emitter

/-- A type has a layout, and so has what it refers to. -/
structure Layouts.HasLayout (L : Layouts) (ty : TypeId) : Prop where
  size : ∃ v, L.sizeOf ty = some v
  pointee {region : Region} {pointee : TypeId} :
    L.pool.reference? ty = some (region, pointee) → ∃ v, L.sizeOf pointee = some v

/-! ## Scopes that are filled while a function is built -/

namespace Emitter

variable {e : Emitter} {d d' : Draft}

/-- The scopes `s` were filled with variables while code was emitted that led to the draft. Between
the declarations there may be other code. -/
inductive Fills (e : Emitter) : Draft → ScopeStack → Prop where
  | start (d : Draft) : Fills e d .empty
  | push {d : Draft} {s : ScopeStack} : Fills e d s → Fills e d s.push
  | pop {d : Draft} {s : ScopeStack} : Fills e d s → Fills e d s.pop
  | declare {d d' : Draft} {s : ScopeStack} {scope scope' : Scope} {name : Name} {ty : TypeId}
      {init : Option Operand} {index : Nat} : Fills e d s → s.current? = some scope →
      (e.declareLocal scope name ty init).run d = .ok (index, scope') d' →
      Fills e d' (s.setCurrent scope')
  | markMoved {d : Draft} {s : ScopeStack} (depth index : Nat) : Fills e d s →
      Fills e d (s.modify depth (·.markMoved index))
  | code {d d' : Draft} {s : ScopeStack} : Fills e d s →
      d.builder.function.Grows d'.builder.function → Fills e d' s

/-- The variables are in custody of what their types say, and their slots are values in use. -/
def Declared (e : Emitter) (n : Nat) (scope : Scope) : Prop :=
  ∀ v ∈ scope.vars, v.custody = e.custodyOf v.type ∧ v.slot.index < n

theorem Declared.mono {n n' : Nat} {scope : Scope} (h : e.Declared n scope) (hn : n ≤ n') :
    e.Declared n' scope := fun v hv => ⟨(h v hv).1, Nat.lt_of_lt_of_le (h v hv).2 hn⟩

theorem mem_modify {α : Type} {l : List α} {i : Nat} {f : α → α} {a : α} (h : a ∈ l.modify i f) :
    a ∈ l ∨ ∃ b ∈ l, a = f b := by
  obtain ⟨j, hj⟩ := List.getElem?_of_mem h
  rw [List.getElem?_modify] at hj
  obtain ⟨b, hb, rfl⟩ := Option.map_eq_some_iff.mp hj
  split
  · exact Or.inr ⟨b, List.mem_of_getElem? hb, rfl⟩
  · exact Or.inl (List.mem_of_getElem? hb)

theorem Declared.markMoved {n : Nat} {scope : Scope} (h : e.Declared n scope) (index : Nat) :
    e.Declared n (scope.markMoved index) := by
  intro v hv
  rcases mem_modify hv with hv | ⟨old, hold, rfl⟩
  · exact h v hv
  · exact h old hold

/-- A declaration makes a slot, and the variable for it is the last one of the scope. -/
theorem declareLocal_ok {scope scope' : Scope} {name : Name} {ty : TypeId} {init : Option Operand}
    {index : Nat} (h : (e.declareLocal scope name ty init).run d = .ok (index, scope') d') :
    Draft.Leads e d d' ∧ d.values < d'.values
      ∧ scope'.vars = scope.vars ++ [⟨name, ty, ⟨d.values⟩, e.custodyOf ty, false⟩] := by
  unfold declareLocal at h
  obtain ⟨⟨⟩, d₁, h₁, k₁⟩ := Step.bind_ok h
  obtain rfl := Emits.requirePoint_ok h₁
  obtain ⟨custody, d₂, h₂, k₂⟩ := Step.bind_ok k₁
  obtain ⟨rfl, rfl⟩ := custody_ok h₂
  obtain ⟨slot, d₃, h₃, k₃⟩ := Step.bind_ok k₂
  obtain ⟨rfl, rfl⟩ := Emits.build_ok rfl h₃
  have hleads := Builder.leads_define d₂.builder .ptr fun dst => .alloca dst ty name
  have hlt : d₂.values < (d₂.builder.define .ptr fun dst => .alloca dst ty name).2.values := by
    rw [Builder.values_define]
    exact Nat.lt_succ_self _
  cases init with
  | none =>
      obtain ⟨hscope, rfl⟩ := EStateM.Result.ok.inj k₃
      exact ⟨⟨hleads, .refl⟩, hlt, (congrArg (Scope.vars ∘ Prod.snd) hscope).symm⟩
  | some v =>
      obtain ⟨hscope, rfl⟩ := EStateM.Result.ok.inj k₃
      refine ⟨⟨hleads.trans (Builder.leads_push _ _), .refl⟩, ?_,
        (congrArg (Scope.vars ∘ Prod.snd) hscope).symm⟩
      exact Nat.lt_of_lt_of_le hlt (Builder.leads_push _ _).grows.values

theorem Fills.declared {s : ScopeStack} (h : e.Fills d s) :
    ∀ scope ∈ s.scopes, e.Declared d.values scope := by
  induction h with
  | start d => nofun
  | push _ ih =>
      intro scope hscope
      rcases List.mem_append.mp hscope with hscope | hscope
      · exact ih scope hscope
      · rw [List.mem_singleton.mp hscope]
        nofun
  | pop _ ih => exact fun scope hscope => ih scope (List.mem_of_mem_dropLast hscope)
  | @declare d d' s scope scope' _ ty _ _ _ hcurrent hrun ih =>
      obtain ⟨-, hlt, hvars⟩ := declareLocal_ok hrun
      have hold := ih scope (List.mem_of_getLast? hcurrent)
      intro t ht
      rcases mem_modify ht with ht | ⟨-, -, rfl⟩
      · exact (ih t ht).mono (Nat.le_of_lt hlt)
      · intro v hv
        rw [hvars] at hv
        rcases List.mem_append.mp hv with hv | hv
        · exact hold.mono (Nat.le_of_lt hlt) v hv
        · rw [List.mem_singleton.mp hv]
          exact ⟨rfl, hlt⟩
  | markMoved depth index _ ih =>
      intro scope hscope
      rcases mem_modify hscope with hscope | ⟨old, hold, rfl⟩
      · exact ih scope hscope
      · exact (ih old hold).markMoved index
  | code _ hgrows ih => exact fun scope hscope => (ih scope hscope).mono hgrows.values

theorem Fills.slot_lt {s : ScopeStack} (h : e.Fills d s) {depth : Nat} {v : Variable}
    (hv : v ∈ s.leaving depth) : v.slot.index < d.values := by
  obtain ⟨scope, hscope, hvar⟩ := List.mem_flatMap.mp hv
  have hdeclared := h.declared scope (List.mem_of_mem_drop (List.mem_reverse.mp hscope))
  exact (hdeclared v (List.mem_of_mem_filter hvar)).2

/-! ## The code for the end of scopes -/

theorem closeScope_eq {n : Nat} {scope : Scope} (h : e.Declared n scope) :
    e.closeScope scope = (scope.vars.filter fun v => !v.moved).forM e.releaseSlot := by
  obtain ⟨vars⟩ := scope
  unfold closeScope Scope.pending
  induction vars with
  | nil => rfl
  | cons v vars ih =>
      have hrest := ih fun w hw => h w (List.mem_cons_of_mem v hw)
      have hslot := releaseSlot_eq (h v List.mem_cons_self).1
      simp only [List.forM_eq_forM] at hrest ⊢
      cases hmoved : v.moved with
      | true => simpa [Variable.needsRelease, hmoved] using hrest
      | false =>
          cases hneeds : v.custody.needsRelease with
          | true =>
              rw [hneeds, if_pos rfl] at hslot
              simp [Variable.needsRelease, hmoved, hneeds, hslot, hrest]
          | false =>
              rw [hneeds, if_neg Bool.false_ne_true] at hslot
              simp [Variable.needsRelease, hmoved, hneeds, hslot, hrest]

theorem forM_closeScope {n : Nat} : ∀ {scopes : List Scope}, (∀ t ∈ scopes, e.Declared n t) →
    scopes.forM e.closeScope
      = (scopes.flatMap fun t => t.vars.filter fun v => !v.moved).forM e.releaseSlot
  | [], _ => rfl
  | t :: scopes, h => by
      obtain ⟨ht, hscopes⟩ := List.forall_mem_cons.mp h
      have hrest := forM_closeScope hscopes
      simp only [List.forM_eq_forM] at hrest ⊢
      rw [List.flatMap_cons, List.forM_append, List.forM_cons, hrest, closeScope_eq ht,
        List.forM_eq_forM]

/-- Where scopes end, code is emitted for the variables that were not moved, as their types say. -/
theorem closeScopes_eq {s : ScopeStack} (h : e.Fills d s) (depth : Nat) :
    e.closeScopes s depth = (s.leaving depth).forM e.releaseSlot :=
  forM_closeScope fun t ht => h.declared t (List.mem_of_mem_drop (List.mem_reverse.mp ht))

open Emit

/-- Where the type of a variable has a layout, code that lets go of it can be emitted. -/
theorem succeeds_releaseSlot (hheap : e.config.target.heap.isSome) {v : Variable}
    (h : e.layouts.HasLayout v.type) : Succeeds (e.releaseSlot v) := by
  unfold releaseSlot
  cases hholder : e.pool.isHolder v.type with
  | true =>
      cases href : e.pool.reference? v.type with
      | none => simp [Pool.isHolder, href] at hholder
      | some target =>
          obtain ⟨w, hw⟩ := h.pointee href
          obtain ⟨layout, hlayout, -, -⟩ := Layouts.exists_ref href hw
          refine (succeeds_define fun _ => rfl).bind fun held => ?_
          exact succeeds_release hheap hlayout (.value held)
  | false =>
      obtain ⟨w, hw⟩ := h.size
      cases (e.layouts.leaves v.type).isEmpty with
      | true => exact succeeds_pure ()
      | false => exact succeeds_releaseContents hw (.value v.slot)

end Emitter

/-! ## What the code does -/

namespace Runtime

variable {e : Emitter}

/-- Lets go of what is in the slot at `place`. -/
def releaseAt (R : Runtime e) (ty : TypeId) (place : Value) : Exec Unit :=
  if e.pool.isHolder ty then do
    let held ← e.layouts.fetchValue ty place
    R.release ty held
  else R.letGo ty place

end Runtime

namespace Emits

variable {e : Emitter} {known : Facts} {d' : Draft}

theorem releaseAt {v : Variable} {place : Value} {d : Draft} (hopen : d.builder.IsOpen)
    (huses : d.Uses known) (h : (e.releaseSlot v).run d = .ok () d')
    (hv : (.value v.slot, place) ∈ known) :
    Emits d d' known (fun R : Runtime e => R.releaseAt v.type place) fun _ => [] := by
  unfold Emitter.releaseSlot at h
  cases hholder : e.pool.isHolder v.type with
  | true =>
      rw [hholder, if_pos rfl] at h
      obtain ⟨held, d₁, h₁, k₁⟩ := Step.bind_ok h
      have hfetch := fetchValue (e := e) hopen h₁ hv
      have hreleased : Emits d d' known (fun R : Runtime e => do
          let held ← e.layouts.fetchValue v.type place
          R.release v.type held) fun _ => [] :=
        hfetch.bind huses fun x huses₁ => release hfetch.opened huses₁ k₁ (by simp)
      refine hreleased.congr fun R => ?_
      rw [Runtime.releaseAt, hholder, if_pos rfl]
  | false =>
      rw [hholder, if_neg Bool.false_ne_true] at h
      have hcontents :
          Emits d d' known (fun R : Runtime e => R.letGo v.type place) fun _ => [] := by
        cases hempty : (e.layouts.leaves v.type).isEmpty with
        | true =>
            rw [hempty, if_pos rfl] at h
            obtain ⟨-, rfl⟩ := EStateM.Result.ok.inj h
            refine (skip hopen).congr fun R => ?_
            rw [Runtime.letGo, hempty, if_pos rfl]
        | false =>
            rw [hempty, if_neg Bool.false_ne_true] at h
            exact letGo hopen h hv
      refine hcontents.congr fun R => ?_
      rw [Runtime.releaseAt, hholder, if_neg Bool.false_ne_true]

theorem releaseEach {place : ValueId → Value} : ∀ {vars : List Variable} {d : Draft}
    {known : Facts}, d.builder.IsOpen → d.Uses known → (vars.forM e.releaseSlot).run d = .ok () d' →
    (∀ v ∈ vars, (.value v.slot, place v.slot) ∈ known) →
    Emits d d' known (fun R : Runtime e => vars.forM fun v => R.releaseAt v.type (place v.slot))
      fun _ => []
  | [], d, known, hopen, _, h, _ => by
      obtain ⟨-, rfl⟩ := EStateM.Result.ok.inj h
      exact skip hopen
  | v :: vars, d, known, hopen, huses, h, hv => by
      obtain ⟨⟨⟩, d₁, h₁, k₁⟩ := Step.bind_ok h
      have hfirst := releaseAt hopen huses h₁ (hv v List.mem_cons_self)
      refine hfirst.bind huses fun _ huses₁ => ?_
      exact releaseEach hfirst.opened huses₁ k₁ fun w hw =>
        List.mem_append_right _ (hv w (List.mem_cons_of_mem v hw))

end Emits

/-! ## Single releases -/

/-- The body of a function that lets go of the references inside the value at its parameter. -/
def Emitter.contentsCode (e : Emitter) (ty : TypeId) : Emit Unit := do
  e.releaseContents (.value ⟨0⟩) ty
  Emit.edit (·.ret none)

namespace Emitter.Module

variable {e : Emitter} {M : e.Module} {name : String} {ty : TypeId}

theorem emits_contents {u : CodeUnit} {d : Draft} (v : Value)
    (h : (e.releaseContents (.value ⟨0⟩) ty).run ⟨u, .new name [.ptr] .unit⟩ = .ok () d) :
    Emits ⟨u, .new name [.ptr] .unit⟩ d (argFacts [v]) (fun R : Runtime e => R.letGo ty v)
      fun _ => [] :=
  Emits.letGo (Builder.open_new ..).isOpen h (List.mem_singleton.mpr rfl)

theorem builds_contents {u u' : CodeUnit} {id : FuncId}
    (h : (addEmitted name [.ptr] .unit (e.contentsCode ty)).run u = .ok id u') : e.Builds u u' :=
  builds_addEmitted (fun hrun => (emits_contents .unit hrun).leads.unit) h

theorem run_contents (hholds : M.Holds name [.ptr] .unit (e.contentsCode ty)) (v : Value)
    (m : Machine) :
    (M.program.run name [v]).run m = (Exec.inCall
      ((M.runtime m.budget).letGo ty v >>= fun _ => pure none)).run m := by
  have hperforms : ∃ y, y = (fun R : Runtime e => R.letGo ty v) ∧ ∀ m : Machine,
      (M.program.run name [v]).run m = (Exec.inCall
        (y (M.runtime m.budget) >>= fun _ => pure none)).run m :=
    hholds.performs rfl (fun h => ⟨_, rfl, emits_contents v h⟩) fun _ _ => trivial
  obtain ⟨_, rfl, hrun⟩ := hperforms
  exact hrun m

/-- For a type whose values hold references there is a function `drop ty` that lets go of one value:
it releases the reference that it gets, or the references inside the record that it gets the
address of. -/
structure Drops (M : e.Module) (drop : TypeId → String) (ty : TypeId) : Prop where
  reference : e.pool.isHolder ty = true → M.Holds (drop ty) [ty] .unit (e.releaseCode ty)
  contents : e.pool.isHolder ty = false → (e.layouts.leaves ty).isEmpty = false →
    M.Holds (drop ty) [.ptr] .unit (e.contentsCode ty)

/-- Lets go of what is in the slot at `place` by a run of the function for that. A reference is
loaded first. -/
def dropAt (M : e.Module) (drop : TypeId → String) (ty : TypeId) (place : Value) : Exec Unit :=
  if e.pool.isHolder ty then do
    let held ← e.layouts.fetchValue ty place
    let _ ← M.program.run (drop ty) [held]
  else if (e.layouts.leaves ty).isEmpty then pure ()
  else do
    let _ ← M.program.run (drop ty) [place]

open Coupling Exec

/-- Glue functions may be called from as deep as one likes; the induction is on the number of steps
that are left. -/
theorem follows_letGo (M : e.Module) : ∀ {limit depth : Nat} (slots slots' : List Address)
    (ty : TypeId) (v : Value), limit ≤ depth → (sameSteps limit slots slots').Follows
      ((M.runtime depth).letGo ty v) ((M.runtime limit).letGo ty v)
  | 0, depth, slots, slots', ty, v, _ => by
      unfold Runtime.letGo
      split
      · exact follows_pure ()
      · exact follows_tick_zero
  | limit + 1, depth + 1, slots, slots', ty, v, hle => by
      unfold Runtime.letGo
      split
      · exact follows_pure ()
      · refine follows_tick_succ ?_
        change (sameSteps limit slots slots').Follows
          (Step.ofOption .dangling (M.unit.glueFor? ty) >>= _)
          (Step.ofOption .dangling (M.unit.glueFor? ty) >>= _)
        cases hglue : M.unit.glueFor? ty with
        | none => exact follows_throw _
        | some id =>
            obtain ⟨plan, -, -, hcall⟩ := M.callGlue hglue
            have hfields : (sameSteps limit [] []).Follows ((M.runtime depth).releaseFields v plan)
                ((M.runtime limit).releaseFields v plan) := follows_forM fun r _ =>
              follows_releaseField (fun ty v =>
                follows_letGo M [] [] ty v (Nat.le_of_succ_le_succ hle)) r
            change (sameSteps limit slots slots').Follows
              (M.program.callWithin (depth + 1) id [v] >>= _)
              (M.program.callWithin (limit + 1) id [v] >>= _)
            rw [hcall, hcall]
            have hbody := hfields.bind fun _ => follows_pure (none : Option Value)
            exact hbody.inCall.bind fun _ => follows_pure ()

/-- An action that does the same however deep calls may nest does it in a function of its own. -/
theorem follows_run {args : List Value} {x : Runtime e → Exec Unit}
    (hx : ∀ {limit depth : Nat} (slots slots' : List Address), limit ≤ depth →
      (sameSteps limit slots slots').Follows (x (M.runtime depth)) (x (M.runtime limit)))
    (hrun : ∀ m : Machine, (M.program.run name args).run m
      = (inCall (x (M.runtime m.budget) >>= fun _ => pure none)).run m)
    (limit : Nat) (slots : List Address) : (sameSteps limit slots slots).Follows
      (x (M.runtime limit)) (M.program.run name args >>= fun _ => pure ()) := by
  refine (hx slots slots (Nat.le_refl limit)).congr fun m hm => ?_
  have hcall : (M.program.run name args).run m
      = (x (M.runtime limit) >>= fun _ => pure none).run m := by
    rw [hrun m]
    exact ((hx m.slots [] hm).bind fun _ => follows_pure none).run_inCall (Nat.le_refl _)
  refine (Step.run_bind_congr hcall).trans ?_
  rw [bind_assoc]
  exact congrArg (EStateM.run · m) (bind_pure (x (M.runtime limit)))

theorem follows_dropAt {drop : TypeId → String} (hdrop : M.Drops drop ty) (place : Value)
    (limit : Nat) (slots : List Address) : (sameSteps limit slots slots).Follows
      ((M.runtime limit).releaseAt ty place) (M.dropAt drop ty place) := by
  unfold Runtime.releaseAt dropAt
  cases hholder : e.pool.isHolder ty with
  | true =>
      refine (follows_fetchValue _ _ _).bind fun held => ?_
      refine follows_run (x := fun R => R.release ty held) (fun slots slots' hle => ?_)
        (run_release (hdrop.reference hholder) held) limit slots
      exact follows_release fun ty v => follows_letGo M slots slots' ty v hle
  | false =>
      cases hempty : (e.layouts.leaves ty).isEmpty with
      | true =>
          rw [Runtime.letGo, hempty]
          exact follows_pure ()
      | false =>
          exact follows_run (x := fun R => R.letGo ty place)
            (fun slots slots' hle => follows_letGo M slots slots' ty place hle)
            (run_contents (hdrop.contents hholder hempty) place) limit slots

end Emitter.Module

/-- From `pt` on with `frame`, where at most `limit` steps are left, the function does `y`. If that
comes to an end it goes on at `pt'`, with a frame that has the same first `n` values. -/
structure Site.RunsAs {e : Emitter} {R : Runtime e} (S : Site R) (pt pt' : Point) (n limit : Nat)
    (frame : Frame) (y : Exec Unit) : Prop where
  run (m : Machine) : m.budget ≤ limit → match y.run m with
    | .ok _ m' => ∃ frame', Frame.Keeps n frame frame'
        ∧ (S.resume pt frame).run m = (S.resume pt' frame').run m'
    | .error s m' => (S.resume pt frame).run m = .error s m'

theorem Site.Performs.runsAs {e : Emitter} {R : Runtime e} {S : Site R} {pt pt' : Point}
    {n limit : Nat} {frame : Frame} {x y : Exec Unit} {Q : Unit → Frame → Prop}
    (h : S.Performs pt pt' n frame x Q)
    (hxy : ∀ m : Machine, m.budget ≤ limit → y.run m = x.run m) :
    S.RunsAs pt pt' n limit frame y := by
  refine ⟨fun m hm => ?_⟩
  have hm' := h m
  rw [hxy m hm]
  cases hx : x.run m with
  | ok a m' =>
      rw [hx] at hm'
      obtain ⟨frame', -, hkeeps, hrun⟩ := hm'
      exact ⟨frame', hkeeps, hrun⟩
  | error s m' =>
      rw [hx] at hm'
      exact hm'

/-- What the code for the end of scopes does where the slots are at the places `place`. -/
theorem emits_closeScopes {e : Emitter} {d d' : Draft} {s : ScopeStack} (hfills : e.Fills d s)
    (hopen : d.builder.IsOpen) {depth : Nat} (hclose : (e.closeScopes s depth).run d = .ok () d')
    (place : ValueId → Value) :
    Emits d d' ((s.leaving depth).map fun v => (.value v.slot, place v.slot))
      (fun R : Runtime e => (s.leaving depth).forM fun v => R.releaseAt v.type (place v.slot))
      fun _ => [] := by
  rw [Emitter.closeScopes_eq hfills] at hclose
  refine Emits.releaseEach hopen (fun p hp => ?_) hclose fun v hv => List.mem_map_of_mem hv
  obtain ⟨v, hv, rfl⟩ := List.mem_map.mp hp
  exact hfills.slot_lt hv

/-- Where scopes end, code is emitted for the variables that were not moved and hold something.
With a heap and with types that have layouts it can be. To run it is the same as to let go of what
the variables hold one after the other, each in a function of its own. -/
theorem scope_exit {e : Emitter} (M : e.Module) {d : Draft} {s : ScopeStack}
    (hfills : e.Fills d s) (hopen : d.builder.IsOpen) (depth : Nat) :
    e.closeScopes s depth = (s.leaving depth).forM e.releaseSlot
    ∧ (e.config.target.heap.isSome → (∀ v ∈ s.leaving depth, e.layouts.HasLayout v.type) →
      ∃ d', (e.closeScopes s depth).run d = .ok () d')
    ∧ ∀ d', (e.closeScopes s depth).run d = .ok () d' →
      ∀ drop : TypeId → String, (∀ v ∈ s.leaving depth, M.Drops drop v.type) →
      ∀ (limit : Nat) (S : Site (M.runtime limit)), S.Completes d' →
      ∀ (frame : Frame) (place : ValueId → Value), S.Fits frame →
        (∀ v ∈ s.leaving depth, frame.eval (.value v.slot) = .ok (place v.slot)) →
        S.RunsAs d.builder.here d'.builder.here d.values limit frame
          ((s.leaving depth).forM fun v => M.dropAt drop v.type (place v.slot)) := by
  have hcode := Emitter.closeScopes_eq hfills depth
  refine ⟨hcode, fun hheap hlayouts => ?_, fun d' hclose drop hdrop limit S hS frame place hfit
    hframe => ?_⟩
  · obtain ⟨⟨⟩, d', hrun, -⟩ := Emit.succeeds_forM
      (fun v hv => Emitter.succeeds_releaseSlot hheap (hlayouts v hv)) d hopen
    exact ⟨d', hcode ▸ hrun⟩
  · have hgives : frame.Gives ((s.leaving depth).map fun v => (.value v.slot, place v.slot)) := by
      intro p hp
      obtain ⟨v, hv, rfl⟩ := List.mem_map.mp hp
      exact hframe v hv
    have hemits := emits_closeScopes hfills hopen hclose place
    refine (hemits.performs _ S hS frame hfit hgives).runsAs fun m hm => ?_
    exact (Coupling.follows_forM fun v hv =>
      Emitter.Module.follows_dropAt (hdrop v hv) (place v.slot) limit m.slots).run_eq hm

/-! ## Two scopes -/

theorem Emitter.Module.keeps_of_builds {e : Emitter} {M : e.Module} {u : CodeUnit}
    (h₀ : e.Builds (.new M.name) u) (h : e.Builds u M.draft) : u.Keeps M.unit := by
  have hadv := h.advances (h₀.advances (CodeUnit.tidy_new e M.name)).tidy
  obtain ⟨n, hdrain⟩ := M.drained
  exact (hadv.trans (advances_emitPendingGlue hadv.tidy hdrain).1).keeps

namespace Site

variable {e : Emitter} {M : e.Module} {limit : Nat} {d : Draft}

/-- The function that returns where its code ends. -/
def returning (M : e.Module) (limit : Nat) (d : Draft) : Site (M.runtime limit) :=
  ⟨(d.builder.ret none).function⟩

theorem RunsAs.returns {R : Runtime e} {S : Site R} {pt pt' : Point} {n : Nat} {frame : Frame}
    {y : Exec Unit} (h : S.RunsAs pt pt' n limit frame y)
    (hret : ∀ frame', S.resume pt' frame' = pure none) {m m' : Machine} (hm : m.budget ≤ limit)
    (hy : y.run m = .ok () m') : (S.resume pt frame).run m = .ok none m' := by
  have hrun := h.run m hm
  rw [hy] at hrun
  obtain ⟨frame', -, hrun⟩ := hrun
  rw [hrun, hret]
  exact Eq.refl _

theorem completes_returning (hkeeps : d.unit.Keeps M.unit) :
    (returning M limit d).Completes { d with builder := d.builder.ret none } := ⟨.refl _, hkeeps⟩

theorem completes_of_returning (hopen : d.builder.IsOpen) (hkeeps : d.unit.Keeps M.unit) :
    (returning M limit d).Completes d :=
  (completes_returning hkeeps).of_leads ⟨Builder.leads_ret hopen none, .refl⟩

theorem resume_returning (hopen : d.builder.IsOpen) (hkeeps : d.unit.Keeps M.unit)
    (frame : Frame) : (returning M limit d).resume d.builder.here frame = pure none :=
  resume_ret_none hopen (completes_returning hkeeps) frame

end Site

namespace Scoped

open Shared (emitter)

/-- A function of a cell and a pair. -/
def opened : Draft := ⟨.new "scoped", .new "leave" [⟨17⟩, ⟨18⟩] .unit⟩

/-- In the outer scope, the cell and a number that holds nothing. -/
def cellSlot : Variable := ⟨⟨0⟩, ⟨17⟩, ⟨2⟩, .counted, false⟩

def numberSlot : Variable := ⟨⟨1⟩, .int, ⟨3⟩, .none, false⟩

/-- In the inner scope, the pair and again the cell, under the name that it has already. -/
def pairSlot : Variable := ⟨⟨2⟩, ⟨18⟩, ⟨4⟩, .embedded, false⟩

def otherSlot : Variable := ⟨⟨0⟩, ⟨17⟩, ⟨5⟩, .counted, false⟩

def declareCell : Emit (Nat × Scope) := emitter.declareLocal .empty ⟨0⟩ ⟨17⟩ (some (.value ⟨0⟩))

def declareNumber : Emit (Nat × Scope) := emitter.declareLocal ⟨[cellSlot]⟩ ⟨1⟩ .int none

def declarePair : Emit (Nat × Scope) := emitter.declareLocal .empty ⟨2⟩ ⟨18⟩ (some (.value ⟨1⟩))

def declareOther : Emit (Nat × Scope) :=
  emitter.declareLocal ⟨[pairSlot]⟩ ⟨0⟩ ⟨17⟩ (some (.value ⟨0⟩))

def withCell : Draft := Step.after declareCell opened

def withNumber : Draft := Step.after declareNumber withCell

def withPair : Draft := Step.after declarePair withNumber

def filled : Draft := Step.after declareOther withPair

theorem run_cell : declareCell.run opened = .ok (0, ⟨[cellSlot]⟩) withCell :=
  Step.run_of_result? (by decide +kernel)

theorem run_number : declareNumber.run withCell = .ok (1, ⟨[cellSlot, numberSlot]⟩) withNumber :=
  Step.run_of_result? (by decide +kernel)

theorem run_pair : declarePair.run withNumber = .ok (0, ⟨[pairSlot]⟩) withPair :=
  Step.run_of_result? (by decide +kernel)

theorem run_other : declareOther.run withPair = .ok (1, ⟨[pairSlot, otherSlot]⟩) filled :=
  Step.run_of_result? (by decide +kernel)

/-- The cell of the inner scope was moved away. -/
def stack : ScopeStack :=
  ⟨[⟨[cellSlot, numberSlot]⟩, ⟨[pairSlot, { otherSlot with moved := true }]⟩]⟩

theorem fills : emitter.Fills filled stack := by
  have houter : emitter.Fills withNumber ⟨[⟨[cellSlot, numberSlot]⟩]⟩ :=
    ((Emitter.Fills.start opened).push.declare rfl run_cell).declare rfl run_number
  have hinner : emitter.Fills filled ⟨[⟨[cellSlot, numberSlot]⟩, ⟨[pairSlot, otherSlot]⟩]⟩ :=
    (houter.push.declare rfl run_pair).declare rfl run_other
  exact hinner.markMoved 1 1

/-- The function after its scopes were left. -/
def left : Draft := Step.after (emitter.closeScopes stack 0) filled

theorem run_left : (emitter.closeScopes stack 0).run filled = .ok () left :=
  Step.run_of_result? (by decide +kernel)

theorem isOpen_filled : filled.builder.IsOpen := by
  obtain ⟨n, hopen⟩ := Builder.open_of_insertionBlock?
    (show filled.builder.insertionBlock? = some ⟨0⟩ by decide +kernel)
  exact hopen.isOpen

theorem leads_left : Draft.Leads emitter opened left ∧ left.builder.IsOpen := by
  have hemits := emits_closeScopes fills isOpen_filled run_left fun _ => .unit
  have houter := (Emitter.declareLocal_ok run_cell).1.trans (Emitter.declareLocal_ok run_number).1
  have hinner := (Emitter.declareLocal_ok run_pair).1.trans (Emitter.declareLocal_ok run_other).1
  exact ⟨(houter.trans hinner).trans hemits.leads, hemits.opened⟩

def leave : Function := (left.builder.ret none).function

/-- Functions that let go of a cell and of a pair. -/
def withLeave : CodeUnit := (left.unit.addFunction leave).2

def cellDraft : CodeUnit :=
  Step.after (Emitter.addEmitted "cell" [⟨17⟩] .unit (emitter.releaseCode ⟨17⟩)) withLeave

def draft : CodeUnit :=
  Step.after (Emitter.addEmitted "pair" [.ptr] .unit (emitter.contentsCode ⟨18⟩)) cellDraft

theorem run_cellDraft : (Emitter.addEmitted "cell" [⟨17⟩] .unit
    (emitter.releaseCode ⟨17⟩)).run withLeave = .ok ⟨2⟩ cellDraft :=
  Step.run_of_result? (by decide +kernel)

theorem run_draft : (Emitter.addEmitted "pair" [.ptr] .unit
    (emitter.contentsCode ⟨18⟩)).run cellDraft = .ok ⟨3⟩ draft :=
  Step.run_of_result? (by decide +kernel)

theorem builds_left : emitter.Builds (.new "scoped") left.unit := .asks .refl leads_left.1.unit

theorem builds_withLeave : emitter.Builds left.unit withLeave := .function leave .refl

theorem builds_cellDraft : emitter.Builds withLeave cellDraft :=
  Emitter.Module.builds_release run_cellDraft

theorem builds_draft : emitter.Builds cellDraft draft := Emitter.Module.builds_contents run_draft

def linked : emitter.Module where
  name := "scoped"
  draft := draft
  built := ((builds_left.trans builds_withLeave).trans builds_cellDraft).trans builds_draft
  unit := Step.after emitter.emitPendingGlue draft
  drained := ⟨1, Step.run_of_result? (by decide +kernel)⟩

theorem builds_linked : emitter.Builds draft linked.draft := by
  simp only [linked]
  exact .refl

theorem holds_cell : linked.Holds "cell" [⟨17⟩] .unit (emitter.releaseCode ⟨17⟩) :=
  ⟨withLeave, ⟨2⟩, cellDraft, builds_left.trans builds_withLeave, run_cellDraft,
    builds_draft.trans builds_linked, by decide +kernel⟩

theorem holds_pair : linked.Holds "pair" [.ptr] .unit (emitter.contentsCode ⟨18⟩) :=
  ⟨cellDraft, ⟨3⟩, draft, (builds_left.trans builds_withLeave).trans builds_cellDraft, run_draft,
    builds_linked, by decide +kernel⟩

def drop (ty : TypeId) : String := if ty = ⟨17⟩ then "cell" else "pair"

theorem leaving_eq : stack.leaving 0 = [pairSlot, cellSlot, numberSlot] := by decide

theorem drops : ∀ v ∈ stack.leaving 0, linked.Drops drop v.type := by
  have hnumber : (emitter.layouts.leaves numberSlot.type).isEmpty = true := by decide +kernel
  simp only [leaving_eq, List.forall_mem_cons]
  refine ⟨⟨nofun, fun _ _ => holds_pair⟩, ⟨fun _ => holds_cell, nofun⟩, ⟨nofun, ?_⟩, nofun⟩
  intro _ hleaves
  rw [hnumber] at hleaves
  cases hleaves

theorem keeps_left : left.unit.Keeps linked.unit := Emitter.Module.keeps_of_builds builds_left
  (((builds_withLeave.trans builds_cellDraft).trans builds_draft).trans builds_linked)

/-- The function when no more than 100 steps are left. -/
def site : Site (linked.runtime 100) := .returning linked 100 left

/-- The slots are on the stack. Those of the cell and of the pair hold references to the cell, which
has three holders. -/
def machine : Machine where
  heap :=
    let slots := (((Shared.heap.withSlot 8).withSlot 8).withSlot 16).withSlot 8
    let cells := slots.withWord 0x70000000 0x10000008
    (cells.withWord 0x70000040 0x10000008).withWord 0x70000048 0x10000008
  budget := 100
  slots := [0x70000060, 0x70000040, 0x70000020, 0x70000000]

def place (id : ValueId) : Value :=
  .ptr (match id with
    | ⟨2⟩ => 0x70000000
    | ⟨3⟩ => 0x70000020
    | ⟨4⟩ => 0x70000040
    | _ => 0x70000060)

def frame : Frame := ((List.range 12).map fun index => some (place ⟨index⟩)).toArray

/-- Lets go of the pair, and then of the cell. -/
def letGo : Exec Unit :=
  (stack.leaving 0).forM fun v => linked.dropAt drop v.type (place v.slot)

theorem run_letGo : letGo.run machine = .ok () (Step.after letGo machine) :=
  Step.run_of_result? (by decide +kernel)

theorem fits : site.Fits frame := by
  unfold site Site.returning Site.Fits
  decide +kernel

theorem eval_frame : ∀ v ∈ stack.leaving 0, frame.eval (.value v.slot) = .ok (place v.slot) := by
  simp only [leaving_eq, List.forall_mem_cons]
  exact ⟨rfl, rfl, rfl, nofun⟩

theorem completes : site.Completes left :=
  Site.completes_of_returning leads_left.2 keeps_left

theorem resume_left (frame : Frame) : site.resume left.builder.here frame = pure none :=
  Site.resume_returning leads_left.2 keeps_left frame

end Scoped

/-- The two references in the pair and the one in the outer scope are all that hold the cell, so it
is freed. -/
theorem scope_exit_scoped :
    Shared.emitter.Fills Scoped.filled Scoped.stack
    ∧ (Shared.emitter.closeScopes Scoped.stack 0).run Scoped.filled = .ok () Scoped.left
    ∧ (Scoped.site.resume Scoped.filled.builder.here Scoped.frame).run Scoped.machine
        = .ok none (Step.after Scoped.letGo Scoped.machine)
    ∧ (Step.after Scoped.letGo Scoped.machine).heap.freed = [0x10000000] := by
  refine ⟨Scoped.fills, Scoped.run_left, ?_, by decide +kernel⟩
  obtain ⟨-, -, hruns⟩ := scope_exit Scoped.linked Scoped.fills Scoped.isOpen_filled 0
  have hsite : Scoped.site.RunsAs Scoped.filled.builder.here Scoped.left.builder.here
      Scoped.filled.values 100 Scoped.frame Scoped.letGo :=
    hruns Scoped.left Scoped.run_left Scoped.drop Scoped.drops 100 Scoped.site
      Scoped.completes Scoped.frame Scoped.place Scoped.fits Scoped.eval_frame
  exact hsite.returns Scoped.resume_left (Nat.le_refl 100) Scoped.run_letGo

end Ownership
