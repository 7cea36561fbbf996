import Ownership.Proofs.Worklist

/-!
# Requests that get lost

A request for a glue function is taken off the stack before its body is
written. If writing it fails, the function is still there for its type,
but it has no body and nothing asks for one: it is `CodeUnit.Lost`.

Every time that the work on the requests fails, it loses the request that
it fails at and no other (`failed_drain_loses`). Nothing that is done to
the unit later, by whatever emitter, brings the request back; so when the
work succeeds later, the functions of lost requests are the glue functions
that have no body.
-/

namespace Ownership

open Relation

namespace CodeUnit

/-- A glue function that has no body and does not wait for one. -/
structure Lost (u : CodeUnit) (id : FuncId) : Prop where
  glue : ∃ ty, u.glueFor? ty = some id
  bodiless : ¬ u.HasBody id
  settled : ∀ ty, (ty, id) ∉ u.pending

/-- One piece of work on a unit. Every one may be done by another emitter, and may fail. -/
inductive WorkedOn (u : CodeUnit) : CodeUnit → Prop where
  | external (symbol : String) (params : List TypeId) (ret : TypeId) :
      WorkedOn u (u.declareExternal symbol params ret).2
  | heap {u' : CodeUnit} {target : Target} {heap : HeapPrimitives} :
      u.requireHeap? target = some (heap, u') → WorkedOn u u'
  | function (f : Function) : WorkedOn u (u.addFunction f).2
  /-- Glue functions are left to the emitters. -/
  | define {u' : CodeUnit} {id : FuncId} {f : Function} : (∀ ty, u.glueFor? ty ≠ some id) →
      u.setFunction? id f = some u' → WorkedOn u u'
  | call (e : Emitter) (op : Operation) (b : Builder) :
      WorkedOn u (Draft.unitAfter ((op.emit e).run ⟨u, b⟩))
  | drained {u' : CodeUnit} {e : Emitter} {n : Nat} :
      e.emitPendingGlue.run u = .ok n u' → WorkedOn u u'
  | stuck {u' : CodeUnit} {e : Emitter} {r : Stop EmitError} :
      e.emitPendingGlue.run u = .error r u' → WorkedOn u u'

/-! ## What was taken up -/

/-- The requests in `log` were taken up, and all glue functions are functions of the unit. -/
structure Ledger (u : CodeUnit) (log : List (TypeId × FuncId)) : Prop where
  bounded : u.Bounded
  logs : u.Logs log

/-- On the way from `u` to `u'` the requests `l` were taken up. What was taken up before, which is
in `log`, stayed as it was. -/
structure Takes (u : CodeUnit) (log l : List (TypeId × FuncId)) (u' : CodeUnit) : Prop where
  ledger : u'.Ledger (log ++ l)
  kept : ∀ id ∈ log.map Prod.snd, u'.function? id = u.function? id

variable {e : Emitter} {u u₁ u' : CodeUnit} {log l l' : List (TypeId × FuncId)} {id : FuncId}

theorem Logs.lost_iff (h : u.Logs log) : u.Lost id ↔ id ∈ log.map Prod.snd ∧ ¬ u.HasBody id := by
  constructor
  · rintro ⟨⟨ty, hid⟩, hbodiless, hsettled⟩
    rcases List.mem_append.mp (h.exact.mpr hid) with hlog | hpending
    · exact ⟨List.mem_map_of_mem hlog, hbodiless⟩
    · exact absurd hpending (hsettled ty)
  · rintro ⟨hlog, hbodiless⟩
    obtain ⟨⟨ty, id'⟩, hmem, rfl⟩ := List.mem_map.mp hlog
    exact ⟨⟨ty, h.exact.mp (List.mem_append_left _ hmem)⟩, hbodiless, h.not_pending hlog⟩

theorem Ledger.finished (h : u.Ledger log) (hid : id ∈ log.map Prod.snd) :
    ∃ f, u.Finished id f := by
  obtain ⟨⟨ty, id'⟩, hmem, rfl⟩ := List.mem_map.mp hid
  have hlt := h.bounded ty id' (h.logs.exact.mp (List.mem_append_left _ hmem))
  exact ⟨_, List.getElem?_eq_getElem hlt, h.logs.not_pending hid⟩

theorem ledger_new (name : String) : (new name).Ledger [] :=
  ⟨nofun, ⟨by simp [new, glueFor?], List.nodup_nil, nofun⟩⟩

namespace Takes

theorem hasBody_iff (h : u.Takes log l u') (hid : id ∈ log.map Prod.snd) :
    u'.HasBody id ↔ u.HasBody id :=
  ⟨fun hbody => hbody.of_function (h.kept id hid),
    fun hbody => hbody.of_function (h.kept id hid).symm⟩

theorem trans (h : u.Takes log l u₁) (h' : u₁.Takes (log ++ l) l' u') :
    u.Takes log (l ++ l') u' := by
  refine ⟨?_, fun id hid => ?_⟩
  · rw [← List.append_assoc]
    exact h'.ledger
  · have hid' : id ∈ (log ++ l).map Prod.snd := by
      rw [List.map_append]
      exact List.mem_append_left _ hid
    exact (h'.kept id hid').trans (h.kept id hid)

/-- What is lost stays lost. -/
theorem lost (h : u.Takes log l u') (hledger : u.Ledger log) (hlost : u.Lost id) : u'.Lost id := by
  obtain ⟨hid, hbodiless⟩ := hledger.logs.lost_iff.mp hlost
  refine h.ledger.logs.lost_iff.mpr ⟨?_, fun hbody => hbodiless ((h.hasBody_iff hid).mp hbody)⟩
  rw [List.map_append]
  exact List.mem_append_left _ hid

/-- Of what was taken up, that is lost which was lost before or got no body since. -/
theorem lost_iff (h : u.Takes log l u') (hledger : u.Ledger log) :
    u'.Lost id ↔ u.Lost id ∨ (id ∈ l.map Prod.snd ∧ ¬ u'.HasBody id) := by
  rw [h.ledger.logs.lost_iff, hledger.logs.lost_iff, List.map_append, List.mem_append, or_and_right]
  exact or_congr_left (and_congr_right fun hid => not_congr (h.hasBody_iff hid))

end Takes

/-! ## Work that takes up nothing -/

theorem Ledger.takes_of_eq (h : u.Ledger log) (hf : u'.functions = u.functions)
    (hg : u'.glue = u.glue) (hp : u'.pending = u.pending) : u.Takes log [] u' := by
  have hfunction : ∀ id, u'.function? id = u.function? id := fun id => by
    rw [function?, hf]
    rfl
  refine ⟨⟨h.bounded.of_eq (congrArg List.length hf) hg, ?_⟩, fun id _ => hfunction id⟩
  rw [List.append_nil]
  exact h.logs.of_eq hg hp fun _ => hfunction _

theorem Ledger.takes_asks (h : u.Ledger log) (ha : e.Asks u u') : u.Takes log [] u' := by
  refine ⟨⟨h.bounded.asks ha, ?_⟩, fun id hid => ?_⟩
  · rw [List.append_nil]
    exact h.logs.asks h.bounded ha
  · obtain ⟨f, hf⟩ := h.finished hid
    exact (ha.finished hf).function.trans hf.function.symm

theorem Ledger.takes_addFunction (h : u.Ledger log) (f : Function) :
    u.Takes log [] (u.addFunction f).2 := by
  refine ⟨⟨h.bounded.addFunction f, ?_⟩, fun id hid => ?_⟩
  · rw [List.append_nil]
    exact h.logs.addFunction h.bounded f
  · obtain ⟨g, hg⟩ := h.finished hid
    exact function?_append f hg.lt_length

theorem Ledger.takes_define {f : Function} (h : u.Ledger log) (hid : ∀ ty, u.glueFor? ty ≠ some id)
    (hset : u.setFunction? id f = some u') : u.Takes log [] u' := by
  obtain ⟨hlen, hg, hp, -, hothers⟩ := setFunction?_spec hset
  have hglue : ∀ {ty id'}, (ty, id') ∈ log ++ u.pending → u'.function? id' = u.function? id' := by
    rintro ty id' hmem
    refine hothers id' fun heq => hid ty ?_
    rw [← heq]
    exact h.logs.exact.mp hmem
  refine ⟨⟨h.bounded.of_eq hlen hg, ?_⟩, fun id' hid' => ?_⟩
  · rw [List.append_nil]
    exact h.logs.of_eq hg hp fun hmem => hglue (List.mem_append_right _ hmem)
  · obtain ⟨⟨ty, id''⟩, hmem, rfl⟩ := List.mem_map.mp hid'
    exact hglue (List.mem_append_left _ hmem)

/-! ## Work on the requests -/

/-- A request is taken up; before its body is put in its place, there is none. -/
theorem Ledger.takes_pop {q : TypeId × FuncId} {rest : List (TypeId × FuncId)} (h : u.Ledger log)
    (hp : u.pending = q :: rest) (ha : e.Asks { u with pending := rest } u') :
    u.Takes log [q] u' ∧ ¬ u'.HasBody q.2 := by
  have hpop : Ledger { u with pending := rest } (log ++ [q]) := ⟨h.bounded, h.logs.pop hp⟩
  have hasks := hpop.takes_asks ha
  have hledger := hasks.ledger
  rw [List.append_nil] at hledger
  refine ⟨⟨hledger, fun id hid => hasks.kept id ?_⟩, fun hbody => ?_⟩
  · rw [List.map_append]
    exact List.mem_append_left _ hid
  · have hfirst : q ∈ u.pending := hp ▸ List.mem_cons_self
    exact h.logs.bodiless hfirst ((hasks.hasBody_iff (by simp)).mp hbody)

end CodeUnit

namespace Emitter

variable {e : Emitter} {u u₁ u' : CodeUnit} {log l : List (TypeId × FuncId)} {ty : TypeId}
  {id : FuncId} {q : TypeId × FuncId} {rest : List (TypeId × FuncId)} {r : Stop EmitError}

/-- Where the work fails, all that it has done is to ask for what code needs. -/
def FailsAsking {α : Type} (e : Emitter) (x : UnitStep α) : Prop :=
  ∀ u r u', x.run u = .error r u' → e.Asks u u'

/-- All that the work does is to ask for what code needs. -/
structure OnlyAsks {α : Type} (e : Emitter) (x : UnitStep α) : Prop where
  succeeds : ∀ u a u', x.run u = .ok a u' → e.Asks u u'
  fails : e.FailsAsking x

section

variable {α β : Type}

theorem OnlyAsks.bind {x : UnitStep α} {k : α → UnitStep β} (hx : e.OnlyAsks x)
    (hk : ∀ a, e.FailsAsking (k a)) : e.FailsAsking (x >>= k) := by
  intro u r u' h
  cases hrun : x.run u with
  | ok a u₁ =>
      rw [Step.run_bind_ok hrun] at h
      exact (hx.succeeds u a u₁ hrun).trans (hk a u₁ r u' h)
  | error r₁ u₁ =>
      rw [Step.run_bind_error hrun] at h
      obtain ⟨rfl, rfl⟩ := EStateM.Result.error.inj h
      exact hx.fails u r₁ u₁ hrun

/-- Work that leaves the unit alone. -/
theorem onlyAsks_of_still {x : UnitStep α} (h : ∀ u, ∃ r, x.run u = Step.ending r u) :
    e.OnlyAsks x := by
  refine ⟨fun u a u' hrun => ?_, fun u r u' hrun => ?_⟩ <;>
  · obtain ⟨r, hr⟩ := h u
    rw [hr] at hrun
    cases r with
    | ok a => cases hrun <;> exact .refl
    | error s => cases hrun <;> exact .refl

theorem onlyAsks_get : e.OnlyAsks (get : UnitStep CodeUnit) :=
  onlyAsks_of_still fun u => ⟨.ok u, rfl⟩

theorem onlyAsks_layout (x : Except (Stop LayoutError) α) :
    e.OnlyAsks (Step.lift .layout x : UnitStep α) := by
  cases x with
  | ok a => exact onlyAsks_of_still fun u => ⟨.ok a, rfl⟩
  | error s => exact onlyAsks_of_still fun u => ⟨.error (s.map .layout), rfl⟩

theorem onlyAsks_ofOption (a : Abort) (o : Option α) :
    e.OnlyAsks (Step.ofOption a o : UnitStep α) := by
  cases o with
  | some x => exact onlyAsks_of_still fun u => ⟨.ok x, rfl⟩
  | none => exact onlyAsks_of_still fun u => ⟨.error (.abort a), rfl⟩

theorem onlyAsks_inFunction {allowed shown : TypeId → Prop} {x : Emit Unit}
    (hx : Emit.AsksOnly e allowed shown x) (b : Builder) : e.OnlyAsks (inFunction b x) := by
  refine ⟨fun u b' u' hrun => ?_, fun u r u' hrun => ?_⟩
  · obtain ⟨d, hd, -, rfl⟩ := inFunction_ok hrun
    have hasks := (hx.asks ⟨u, b⟩).asks
    rw [hd] at hasks
    exact hasks
  · have hasks := (hx.asks ⟨u, b⟩).asks
    change inFunction b x u = _ at hrun
    unfold inFunction at hrun
    split at hrun
    · cases hrun
    · next s d hd =>
        obtain ⟨-, rfl⟩ := EStateM.Result.error.inj hrun
        rw [hd] at hasks
        exact hasks

end

/-- Nothing but the body itself is put into the unit, and that is the last thing done. -/
theorem failsAsking_defineGlue (ty : TypeId) (id : FuncId) :
    e.FailsAsking (e.defineGlue ty id) := by
  refine (onlyAsks_layout _).bind fun plan => onlyAsks_get.bind fun _ => ?_
  refine (onlyAsks_ofOption _ _).bind fun declared => ?_
  refine (onlyAsks_inFunction (e.asksOnly_glueBody ty plan) _).bind fun b => ?_
  exact onlyAsks_get.bind fun _ => (onlyAsks_ofOption _ _).bind fun _ _ _ _ h => by cases h

theorem takes_defineGlue (h : u.Ledger log) (hp : u.pending = q :: rest)
    (hrun : (e.defineGlue q.1 q.2).run { u with pending := rest } = .ok () u') :
    u.Takes log [q] u' ∧ u'.HasBody q.2 := by
  obtain ⟨plan, name, d, -, hbody, hset⟩ := defineGlue_ok hrun
  obtain ⟨d₁, rfl, -, hemits⟩ := emits_glueBody hbody
  obtain ⟨hpop, -⟩ := h.takes_pop hp (hemits .unit).leads.unit
  obtain ⟨hlen, hg, -, hself, hothers⟩ := CodeUnit.setFunction?_spec hset
  have hnodup := hpop.ledger.logs.nodup
  rw [List.append_assoc, List.map_append, List.nodup_append'] at hnodup
  refine ⟨⟨⟨hpop.ledger.bounded.of_eq hlen hg, hpop.ledger.logs.setFunction (by simp) hset⟩,
    fun id hid => ?_⟩, ⟨_, hself, isDeclaration_emitted (hemits .unit)⟩⟩
  refine (hothers id ?_).trans (hpop.kept id hid)
  rintro rfl
  exact hnodup.2.2 hid (by simp)

/-- The requests `l` are worked off on the way from one unit to another; more may be left. -/
inductive Serves (e : Emitter) : CodeUnit → List (TypeId × FuncId) → CodeUnit → Prop where
  | refl {u : CodeUnit} : Serves e u [] u
  | next {u u₁ u' : CodeUnit} {q : TypeId × FuncId} {rest l : List (TypeId × FuncId)} :
      u.pending = q :: rest →
      (e.defineGlue q.1 q.2).run { u with pending := rest } = .ok () u₁ → Serves e u₁ l u' →
      Serves e u (q :: l) u'

theorem Drains.serves (h : e.Drains u l u') : e.Serves u l u' ∧ u'.pending = [] := by
  induction h with
  | done hp => exact ⟨.refl, hp⟩
  | next hp hrun _ ih => exact ⟨.next hp hrun ih.1, ih.2⟩

/-- Work that fails has worked off some requests and fails at the next one. -/
theorem serves_of_error : ∀ {limit : Nat} {u : CodeUnit},
    (e.drainGlue limit).run u = .error r u' → r ≠ .abort .endless →
    ∃ l u₁ q rest, e.Serves u l u₁ ∧ u₁.pending = q :: rest
      ∧ (e.defineGlue q.1 q.2).run { u₁ with pending := rest } = .error r u' := by
  intro limit
  induction limit with
  | zero =>
      intro u h hr
      cases hp : u.pending with
      | nil =>
          rw [drainGlue_nil hp] at h
          cases h
      | cons q rest =>
          simp only [drainGlue, EStateM.run_bind, EStateM.run_get, hp, List.isEmpty_cons,
            Bool.false_eq_true, if_false, Step.run_giveUp, EStateM.Result.error.injEq] at h
          exact absurd h.1.symm hr
  | succ limit ih =>
      intro u h hr
      cases hp : u.pending with
      | nil =>
          rw [drainGlue_nil hp] at h
          cases h
      | cons q rest =>
          rw [drainGlue_cons hp] at h
          cases hdefine : (e.defineGlue q.1 q.2).run { u with pending := rest } with
          | error r₁ u₁ =>
              rw [Step.run_bind_error hdefine] at h
              obtain ⟨rfl, rfl⟩ := EStateM.Result.error.inj h
              exact ⟨[], u, q, rest, .refl, hp, hdefine⟩
          | ok a u₁ =>
              rw [Step.run_bind_ok hdefine] at h
              cases hrest : (e.drainGlue limit).run u₁ with
              | ok n u₂ =>
                  rw [Step.run_bind_ok hrest] at h
                  cases h
              | error r₂ u₂ =>
                  rw [Step.run_bind_error hrest] at h
                  obtain ⟨rfl, rfl⟩ := EStateM.Result.error.inj h
                  obtain ⟨l, u₃, q', rest', hserves, hp', hfails⟩ := ih hrest hr
                  exact ⟨q :: l, u₃, q', rest', .next hp hdefine hserves, hp', hfails⟩

/-- What was worked off has its body. -/
theorem Serves.takes (h : e.Serves u l u') : ∀ {log}, u.Ledger log →
    u.Takes log l u' ∧ ∀ id ∈ l.map Prod.snd, u'.HasBody id := by
  induction h with
  | refl =>
      intro log hledger
      exact ⟨⟨by rw [List.append_nil]; exact hledger, fun _ _ => rfl⟩, by simp⟩
  | @next u u₁ u' q rest l hp hrun _ ih =>
      intro log hledger
      obtain ⟨hfirst, hbody⟩ := takes_defineGlue hledger hp hrun
      obtain ⟨hrest, hbodies⟩ := ih hfirst.ledger
      refine ⟨hfirst.trans hrest, fun id hid => ?_⟩
      rcases List.mem_cons.mp hid with rfl | hid
      · exact (hrest.hasBody_iff (by simp)).mpr hbody
      · exact hbodies id hid

/-- Work that succeeds loses nothing. -/
theorem takes_emitPendingGlue {n : Nat} (hledger : u.Ledger log)
    (h : e.emitPendingGlue.run u = .ok n u') :
    u'.pending = [] ∧ ∃ l, u.Takes log l u' ∧ ∀ id, u'.Lost id ↔ u.Lost id := by
  obtain ⟨l, hdrains, -⟩ := drains_drainGlue h
  obtain ⟨hserves, hdone⟩ := hdrains.serves
  obtain ⟨htakes, hbodies⟩ := hserves.takes hledger
  refine ⟨hdone, l, htakes, fun id => (htakes.lost_iff hledger).trans (or_iff_left ?_)⟩
  rintro ⟨hid, hbodiless⟩
  exact hbodiless (hbodies id hid)

/-- Work that fails loses the request at which it does. -/
theorem takes_of_stuck (hledger : u.Ledger log) (h : e.emitPendingGlue.run u = .error r u') :
    ∃ l u₁ q rest, e.Serves u l u₁ ∧ u₁.pending = q :: rest
      ∧ (e.defineGlue q.1 q.2).run { u₁ with pending := rest } = .error r u'
      ∧ u.Takes log (l ++ [q]) u' ∧ ¬ u.Lost q.2 ∧ ∀ id, u'.Lost id ↔ u.Lost id ∨ id = q.2 := by
  have hends := (drainGlue_enough (room_le (e := e) u)).1 r u' h
  obtain ⟨l, u₁, q, rest, hserves, hp, hfails⟩ := serves_of_error h hends
  obtain ⟨hserved, hbodies⟩ := hserves.takes hledger
  obtain ⟨hpop, hbodiless⟩ := hserved.ledger.takes_pop hp (failsAsking_defineGlue _ _ _ _ _ hfails)
  refine ⟨l, u₁, q, rest, hserves, hp, hfails, hserved.trans hpop, fun hlost => ?_, fun id => ?_⟩
  · have hnodup := hpop.ledger.logs.nodup
    rw [List.append_assoc, List.append_assoc, List.map_append, List.nodup_append'] at hnodup
    exact hnodup.2.2 (hledger.logs.lost_iff.mp hlost).1 (by simp)
  · have hserved' : u₁.Lost id ↔ u.Lost id := by
      refine (hserved.lost_iff hledger).trans (or_iff_left ?_)
      rintro ⟨hid, hnone⟩
      exact hnone (hbodies id hid)
    rw [hpop.lost_iff hserved.ledger, hserved', List.map_singleton, List.mem_singleton]
    refine or_congr_right (and_iff_left_of_imp ?_)
    rintro rfl
    exact hbodiless

end Emitter

/-! ## Whatever is done to a unit -/

namespace CodeUnit

variable {u u' : CodeUnit} {log : List (TypeId × FuncId)}

theorem WorkedOn.takes (h : u.WorkedOn u') (hledger : u.Ledger log) : ∃ l, u.Takes log l u' := by
  cases h with
  | external symbol params ret =>
      obtain ⟨hf, -, hg, hp⟩ := declareExternal_spec u symbol params ret
      exact ⟨[], hledger.takes_of_eq hf hg hp⟩
  | heap hheap =>
      obtain ⟨-, hf, hg, hp, -⟩ := requireHeap?_spec hheap
      exact ⟨[], hledger.takes_of_eq hf hg hp⟩
  | function f => exact ⟨[], hledger.takes_addFunction f⟩
  | define hid hset => exact ⟨[], hledger.takes_define hid hset⟩
  | call e op b => exact ⟨[], hledger.takes_asks ((op.asksOnly e).asks ⟨u, b⟩).asks⟩
  | drained hrun =>
      obtain ⟨-, l, htakes, -⟩ := Emitter.takes_emitPendingGlue hledger hrun
      exact ⟨l, htakes⟩
  | stuck hrun =>
      obtain ⟨l, -, q, -, -, -, -, htakes, -⟩ := Emitter.takes_of_stuck hledger hrun
      exact ⟨l ++ [q], htakes⟩

theorem takes_of_worked (h : ReflTransGen WorkedOn u u') (hledger : u.Ledger log) :
    ∃ l, u.Takes log l u' := by
  induction h with
  | refl => exact ⟨[], by rw [List.append_nil]; exact hledger, fun _ _ => rfl⟩
  | tail _ hstep ih =>
      obtain ⟨l, htakes⟩ := ih
      obtain ⟨l', hnext⟩ := hstep.takes htakes.ledger
      exact ⟨l ++ l', htakes.trans hnext⟩

end CodeUnit

/-- Where the work on the requests for glue fails, the request at which it does is lost, and no
other: its function was not lost before, and every other glue function without a body either waits
or was lost before. What is lost stays lost, whatever is done to the unit by any emitter; and when
the work succeeds some time later, the glue functions without a body are those that were lost. -/
theorem failed_drain_loses {e : Emitter} {name : String} {u u' : CodeUnit} {r : Stop EmitError}
    (h : ReflTransGen CodeUnit.WorkedOn (.new name) u)
    (hrun : e.emitPendingGlue.run u = .error r u') :
    ∃ l u₁ q rest, e.Serves u l u₁ ∧ u₁.pending = q :: rest
      ∧ (e.defineGlue q.1 q.2).run { u₁ with pending := rest } = .error r u'
      ∧ ¬ u.Lost q.2
      ∧ (∀ id, u'.Lost id ↔ u.Lost id ∨ id = q.2)
      ∧ ∀ u₂, ReflTransGen CodeUnit.WorkedOn u' u₂ →
        (∀ id, u'.Lost id → u₂.Lost id)
          ∧ ∀ (e' : Emitter) n u₃, e'.emitPendingGlue.run u₂ = .ok n u₃ →
            ∀ ty id, u₃.glueFor? ty = some id → (¬ u₃.HasBody id ↔ u₂.Lost id) := by
  obtain ⟨log, hledger⟩ := CodeUnit.takes_of_worked h (CodeUnit.ledger_new name)
  obtain ⟨l, u₁, q, rest, hserves, hp, hfails, htakes, hnew, hlost⟩ :=
    Emitter.takes_of_stuck hledger.ledger hrun
  refine ⟨l, u₁, q, rest, hserves, hp, hfails, hnew, hlost, fun u₂ hlater => ?_⟩
  obtain ⟨l₂, htakes₂⟩ := CodeUnit.takes_of_worked hlater htakes.ledger
  refine ⟨fun id => htakes₂.lost htakes.ledger, fun e' n u₃ hok ty id hid => ?_⟩
  obtain ⟨hdone, -, -, hsame⟩ := Emitter.takes_emitPendingGlue htakes₂.ledger hok
  rw [← hsame id]
  refine ⟨fun hbodiless => ⟨⟨ty, hid⟩, hbodiless, fun ty' hmem => ?_⟩, CodeUnit.Lost.bodiless⟩
  rw [hdone] at hmem
  cases hmem

/-! ## A target without a heap -/

namespace Heapless

/-- An owning reference, and a record with such a field. -/
def pool : Pool :=
  .ofItems .new [.reference .owning .int, .record ⟨⟨0⟩, [⟨⟨1⟩, ⟨16⟩, none⟩]⟩]

/-- To let go of the field takes a heap, and there is none. -/
def bare : Emitter := ⟨⟨pool, .w64⟩, { target := .freestanding }⟩

def hosted : Emitter := ⟨⟨pool, .w64⟩, {}⟩

/-- The unit after code that lets go of the contents of the record. -/
def draft : CodeUnit := Draft.unitAfter
  (((Operation.releaseContents (.value ⟨0⟩) ⟨17⟩).emit bare).run
    ⟨.new "unit", .new "f" [.ptr] .unit⟩)

theorem worked_draft : ReflTransGen CodeUnit.WorkedOn (.new "unit") draft :=
  .single (.call bare (.releaseContents (.value ⟨0⟩) ⟨17⟩) (.new "f" [.ptr] .unit))

def stuck : CodeUnit := Step.after bare.emitPendingGlue draft

theorem run_draft : bare.emitPendingGlue.run draft = .error (.error .heapUnavailable) stuck := rfl

theorem glue_stuck : stuck.glueFor? ⟨17⟩ = some ⟨0⟩ := rfl

theorem function_stuck :
    stuck.function? ⟨0⟩ = some (.declaration "_cone_dealias$17" [.ptr] .unit) := rfl

theorem pending_stuck : stuck.pending = [] := rfl

end Heapless

/-- The request is lost, and a target with a heap does not bring it back. -/
theorem failed_drain_loses_heapless :
    ∃ id, ¬ Heapless.draft.Lost id
      ∧ (∀ id', Heapless.stuck.Lost id' ↔ Heapless.draft.Lost id' ∨ id' = id)
      ∧ ∀ u₂, ReflTransGen CodeUnit.WorkedOn Heapless.stuck u₂ → u₂.Lost id := by
  obtain ⟨-, -, q, -, -, -, -, hnew, hlost, hlater⟩ :=
    failed_drain_loses Heapless.worked_draft Heapless.run_draft
  exact ⟨q.2, hnew, hlost, fun u₂ hu₂ => (hlater u₂ hu₂).1 q.2 ((hlost q.2).mpr (Or.inr rfl))⟩

/-- After the work failed, a glue function without a body does not wait for one; the work succeeds
later, and the function still has none. -/
theorem glue_without_request :
    ReflTransGen CodeUnit.WorkedOn (.new "unit") Heapless.draft
      ∧ Heapless.bare.emitPendingGlue.run Heapless.draft
        = .error (.error .heapUnavailable) Heapless.stuck
      ∧ Heapless.stuck.glueFor? ⟨17⟩ = some ⟨0⟩
      ∧ ¬ Heapless.stuck.HasBody ⟨0⟩ ∧ (∀ ty, (ty, ⟨0⟩) ∉ Heapless.stuck.pending)
      ∧ Heapless.hosted.emitPendingGlue.run Heapless.stuck = .ok 0 Heapless.stuck := by
  refine ⟨Heapless.worked_draft, Heapless.run_draft, Heapless.glue_stuck, ?_, fun ty hmem => ?_,
    Emitter.drainGlue_nil Heapless.pending_stuck _⟩
  · rintro ⟨f, hf, hbody⟩
    rw [Heapless.function_stuck] at hf
    obtain rfl := Option.some.inj hf
    cases hbody
  · rw [Heapless.pending_stuck] at hmem
    cases hmem

end Ownership
