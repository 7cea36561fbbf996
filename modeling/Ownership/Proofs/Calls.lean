import Ownership.Proofs.Actions

/-!
# Calls of emitted functions

A function is finished by the return at the end of the code that was
emitted into it. A call of it performs the action of that code
(`runBody_emitted`), as a call of its own (`callWithin_emitted`).
-/

namespace Ownership

/-! ## Arguments -/

/-- The parameters of a call with its arguments. -/
def argFacts (args : List Value) : Facts := args.zipIdx.map fun p => (.value ⟨p.2⟩, p.1)

theorem mem_argFacts {args : List Value} {p : Operand × Value} (h : p ∈ argFacts args) :
    ∃ i : Nat, p.1 = .value ⟨i⟩ ∧ args[i]? = some p.2 := by
  obtain ⟨⟨v, i⟩, hmem, rfl⟩ := List.mem_map.mp h
  exact ⟨i, rfl, List.mem_zipIdx_iff_getElem?.mp hmem⟩

namespace Frame

/-- Defines values one after the other. -/
def defineAll (frame : Frame) (l : List (ValueId × Value)) : Frame :=
  l.foldl (fun frame p => frame.define p.1 p.2) frame

theorem size_defineAll : ∀ (l : List (ValueId × Value)) (frame : Frame),
    (frame.defineAll l).size = frame.size
  | [], _ => rfl
  | _ :: l, _ => (size_defineAll l _).trans (Array.size_setIfInBounds ..)

theorem keeps_defineAll {n : Nat} : ∀ {l : List (ValueId × Value)} (frame : Frame),
    (∀ p ∈ l, n ≤ p.1.index) → Keeps n frame (frame.defineAll l)
  | [], frame, _ => .refl n frame
  | p :: l, frame, h => by
      have hfirst := keeps_define frame (h p List.mem_cons_self) p.2
      exact hfirst.trans (Nat.le_refl _)
        (keeps_defineAll _ fun q hq => h q (List.mem_cons_of_mem _ hq))

/-- Values with growing numbers are all there once they are defined. -/
theorem eval_defineAll : ∀ {l : List (ValueId × Value)} {frame : Frame},
    l.Pairwise (fun p q => p.1.index < q.1.index) → (∀ p ∈ l, p.1.index < frame.size) →
    ∀ p ∈ l, (frame.defineAll l).eval (.value p.1) = .ok p.2
  | q :: l, frame, hsorted, hsize, p, hp => by
      rw [List.pairwise_cons] at hsorted
      rcases List.mem_cons.mp hp with rfl | hp
      · have hkeeps : Keeps (p.1.index + 1) (frame.define p.1 p.2)
            ((frame.define p.1 p.2).defineAll l) := keeps_defineAll _ hsorted.1
        have hbelow : (Operand.value p.1).Below (p.1.index + 1) := Nat.lt_succ_self _
        exact (hkeeps.eval hbelow).trans (eval_define (hsize p List.mem_cons_self) p.2)
      · refine eval_defineAll hsorted.2 (fun r hr => ?_) p hp
        have hsame : (frame.define q.1 q.2).size = frame.size := Array.size_setIfInBounds ..
        exact hsame ▸ hsize r (List.mem_cons_of_mem _ hr)

theorem start_eq (f : Function) (args : List Value) :
    start f args =
      defineAll (Array.replicate f.valueTypes.length none) (f.params.zip args) := rfl

theorem size_start (f : Function) (args : List Value) :
    (start f args).size = f.valueTypes.length := by
  rw [start_eq, size_defineAll, Array.size_replicate]

/-- The frame of a call has the arguments as values of the parameters. -/
theorem start_gives {f : Function} {args : List Value} (hlen : args.length ≤ f.arity)
    (hvalues : f.arity ≤ f.valueTypes.length) : (start f args).Gives (argFacts args) := by
  intro p hp
  obtain ⟨i, hi, harg⟩ := mem_argFacts hp
  have hlt := (List.getElem?_eq_some_iff.mp harg).1
  have hindex : ∀ (j : Nat) (q : ValueId × Value), (f.params.zip args)[j]? = some q →
      q.1.index = j ∧ j < f.arity := by
    intro j q hq
    have hparam := (List.getElem?_zip_eq_some.mp hq).1
    obtain ⟨hlt, hget⟩ := List.getElem?_eq_some_iff.mp hparam
    simp only [Function.params, List.length_map, List.length_range, List.getElem_map,
      List.getElem_range] at hlt hget
    exact ⟨by rw [← hget], hlt⟩
  have hmem : (⟨⟨i⟩, p.2⟩ : ValueId × Value) ∈ f.params.zip args := by
    refine List.mem_of_getElem? (i := i) ?_
    rw [List.getElem?_zip_eq_some]
    exact ⟨by simp [Function.params, show i < f.arity by omega], harg⟩
  rw [hi, start_eq]
  refine eval_defineAll ?_ (fun q hq => ?_) _ hmem
  · refine List.pairwise_iff_getElem.mpr fun j k hj hk hjk => ?_
    rw [(hindex j _ (List.getElem?_eq_getElem hj)).1, (hindex k _ (List.getElem?_eq_getElem hk)).1]
    exact hjk
  · obtain ⟨j, hj⟩ := List.getElem?_of_mem hq
    obtain ⟨h1, h2⟩ := hindex j q hj
    rw [Array.size_replicate]
    omega

end Frame

/-! ## Bodies -/

/-- What a return gives back where the operands in `l` have the values listed there. -/
def Returns (l : Facts) : Option Operand → Option Value → Prop
  | none, none => True
  | some op, some v => (op, v) ∈ l
  | _, _ => False

namespace Site

variable {e : Emitter} {R : Runtime e} {S : Site R} {d : Draft} {pt : Point}

theorem resume_ret {t : Option Operand} {r : Option Value} {l : Facts} (hopen : d.builder.Open pt)
    (hS : S.Completes { d with builder := d.builder.ret t }) {frame : Frame}
    (hg : frame.Gives l) (hr : Returns l t r) : S.resume pt frame = pure r := by
  match t, r with
  | none, none => exact resume_ret_none hopen hS frame
  | some op, some v => exact resume_ret_some hopen hS (hg _ hr)

end Site

theorem uses_argFacts {u : CodeUnit} {name : String} {params : List TypeId} {ret : TypeId}
    {args : List Value} (hlen : args.length = params.length) :
    Draft.Uses ⟨u, .new name params ret⟩ (argFacts args) := by
  intro p hp
  obtain ⟨i, hi, harg⟩ := mem_argFacts hp
  rw [hi]
  refine Operand.below_value ?_
  have hlt := (List.getElem?_eq_some_iff.mp harg).1
  change i < params.length
  omega

variable {e : Emitter} {α : Type} {u : CodeUnit} {name : String} {params : List TypeId}
  {ret : TypeId} {d' : Draft} {args : List Value} {y : Runtime e → Exec α} {found : α → Facts}
  {t : Option Operand} {result : α → Option Value}

/-- The body of an emitted function does what the emitted code does. -/
theorem runBody_emitted {R : Runtime e} (hlen : args.length = params.length)
    (hy : Emits ⟨u, .new name params ret⟩ d' (argFacts args) y found)
    (hkeeps : d'.unit.Keeps R.unit) (hr : ∀ a, Returns (found a) t (result a)) :
    R.program.runBody R.call (d'.builder.ret t).function args =
      (y R >>= fun a => pure (result a)) := by
  let S : Site R := ⟨(d'.builder.ret t).function⟩
  have hret : d'.builder.Leads (d'.builder.ret t) := Builder.leads_ret hy.opened t
  have hS : S.Completes { d' with builder := d'.builder.ret t } := ⟨.refl _, hkeeps⟩
  have hS' : S.Completes d' := hS.of_leads ⟨hret, .refl⟩
  have hgrows : (Builder.new name params ret).function.Grows S.function :=
    (hS'.of_leads hy.leads).function
  have harity : S.function.arity = params.length := hgrows.arity
  have hvalues : params.length ≤ S.function.valueTypes.length := hgrows.values
  have hgives : (Frame.start S.function args).Gives (argFacts args) :=
    Frame.start_gives (by omega) (by omega)
  have hrun := hy.performs R S hS' _ (Frame.size_start ..) hgives
  have hhere : (Builder.new name params ret).here = ⟨⟨0⟩, 0⟩ := (Builder.open_new ..).here
  have hbody : R.program.runBody R.call S.function args
      = S.resume ⟨⟨0⟩, 0⟩ (Frame.start S.function args) := by
    rw [Program.runBody_eq_runFrom]
    exact S.runFrom_eq_resume ⟨0⟩ _
  refine EStateM.ext fun m => ?_
  have hm := hrun m
  rw [hhere] at hm
  change (R.program.runBody R.call S.function args).run m = _
  rw [hbody, EStateM.run_bind]
  cases hyr : (y R).run m with
  | error s m' =>
      rw [hyr] at hm
      exact hm
  | ok a m' =>
      rw [hyr] at hm
      obtain ⟨frame', hg', -, hend⟩ := hm
      rw [hend, Site.resume_ret hy.opened hS hg' (hr a)]

/-- An emitted function has a body. -/
theorem isDeclaration_emitted
    (hy : Emits ⟨u, .new name params ret⟩ d' (argFacts args) y found) :
    (d'.builder.ret t).function.isDeclaration = false := by
  obtain ⟨B, hB, -⟩ := (hy.leads.builder.trans
    (Builder.leads_ret hy.opened t)).grows.blocks (i := 0) rfl
  rw [Function.isDeclaration, List.isEmpty_eq_false_iff]
  rintro hnil
  have hB' : (d'.builder.ret t).function.blocks[0]? = some B := hB
  rw [hnil] at hB'
  cases hB'

/-- A call of an emitted function. -/
theorem callWithin_emitted {p : Program} {depth : Nat} {id : FuncId} {R : Runtime e}
    (hp : R.program = p) (hcall : R.call = p.callWithin depth)
    (hid : p.unit.function? id = some (d'.builder.ret t).function)
    (hlen : args.length = params.length)
    (hy : Emits ⟨u, .new name params ret⟩ d' (argFacts args) y found)
    (hkeeps : d'.unit.Keeps R.unit) (hr : ∀ a, Returns (found a) t (result a)) :
    p.callWithin (depth + 1) id args = Exec.inCall (y R >>= fun a => pure (result a)) := by
  have hbody := runBody_emitted hlen hy hkeeps hr
  have hblocks := isDeclaration_emitted (t := t) hy
  rw [Program.callWithin, hid]
  simp only [Step.ofOption, pure_bind, hblocks, Bool.false_eq_true, if_false]
  rw [← hbody, hcall, hp]

end Ownership
