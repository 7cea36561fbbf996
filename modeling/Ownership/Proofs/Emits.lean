import Ownership.Proofs.Segment

/-!
# What an emission means

`Emits d d' known y found` relates two drafts by the code that an
emission put between them: wherever that code stands in a finished
function, it does `y` if the operands in `known` have the values listed
there, and afterwards the operands in `found` have theirs. The rules
below follow the ways in which emissions are put together: one after the
other (`bind`), a single instruction (`define`, `push`), a trap behind a
condition (`trapIf`) and code that runs only under a condition (`when`).
-/

namespace Ownership

instance : Inhabited Value := ⟨.unit⟩

/-- Operands with the values that they are known to have. -/
abbrev Facts := List (Operand × Value)

/-- The operands have the values listed for them. -/
def Frame.Gives (frame : Frame) (l : Facts) : Prop := ∀ p ∈ l, frame.eval p.1 = .ok p.2

/-- The operands are constants or values in use. -/
def Draft.Uses (d : Draft) (l : Facts) : Prop := ∀ p ∈ l, p.1.Below d.values

theorem Frame.Gives.keeps {n : Nat} {frame frame' : Frame} {l : Facts} (h : frame.Gives l)
    (hl : ∀ p ∈ l, p.1.Below n) (hk : Frame.Keeps n frame frame') : frame'.Gives l :=
  fun p hp => (hk.eval (hl p hp)).trans (h p hp)

theorem Frame.Gives.append {frame : Frame} {l l' : Facts} (h : frame.Gives l)
    (h' : frame.Gives l') : frame.Gives (l ++ l') := by
  intro p hp
  rcases List.mem_append.mp hp with hp | hp
  · exact h p hp
  · exact h' p hp

theorem Draft.Uses.leads {e : Emitter} {d d' : Draft} {l : Facts} (h : d.Uses l)
    (hd : Draft.Leads e d d') :
    d'.Uses l := fun p hp => (h p hp).mono hd.values

theorem Draft.Uses.append {d : Draft} {l l' : Facts} (h : d.Uses l) (h' : d.Uses l') :
    d.Uses (l ++ l') := by
  intro p hp
  rcases List.mem_append.mp hp with hp | hp
  · exact h p hp
  · exact h' p hp

theorem Draft.uses_nil (d : Draft) : d.Uses [] := nofun

/-- The code between two drafts does `y`. -/
structure Emits {e : Emitter} {α : Type} (d d' : Draft) (known : Facts)
    (y : Runtime e → Exec α) (found : α → Facts) : Prop where
  leads : Draft.Leads e d d'
  opened : d'.builder.IsOpen
  uses : ∀ a, d'.Uses (found a)
  performs : ∀ (R : Runtime e) (S : Site R), S.Completes d' → ∀ frame, S.Fits frame →
    frame.Gives known → S.Performs d.builder.here d'.builder.here d.values frame (y R)
      fun a frame' => frame'.Gives (found a)

namespace Emits

variable {e : Emitter} {α β : Type} {d d₁ d₂ d' : Draft} {known : Facts}

/-- One emission after another. What the first one found out is known to the second. -/
theorem bind [Inhabited α] {y : Runtime e → Exec α} {k : Runtime e → α → Exec β}
    {found₁ : α → Facts} {found₂ : β → Facts} (h₁ : Emits d d₁ known y found₁)
    (huses : d.Uses known)
    (h₂ : ∀ a, d₁.Uses (found₁ a ++ known) →
      Emits d₁ d₂ (found₁ a ++ known) (fun R => k R a) found₂) :
    Emits d d₂ known (fun R => y R >>= k R) found₂ := by
  have huses₁ : ∀ a, d₁.Uses (found₁ a ++ known) := fun a =>
    (h₁.uses a).append (huses.leads h₁.leads)
  have hnext := h₂ default (huses₁ default)
  refine ⟨h₁.leads.trans hnext.leads, hnext.opened, hnext.uses, fun R S hS frame hfit hg => ?_⟩
  have hS₁ : S.Completes d₁ := hS.of_leads hnext.leads
  refine (h₁.performs R S hS₁ frame hfit hg).bind h₁.leads.values fun a frame₁ hq hk => ?_
  have hg₁ : frame₁.Gives (found₁ a ++ known) := hq.append (hg.keeps huses hk)
  exact (h₂ a (huses₁ a)).performs R S hS frame₁ (hfit.keeps hk) hg₁

theorem congr {y y' : Runtime e → Exec α} {found : α → Facts} (h : Emits d d' known y found)
    (heq : ∀ R, y R = y' R) : Emits d d' known y' found :=
  ⟨h.leads, h.opened, h.uses, fun R S hS frame hfit hp =>
    heq R ▸ h.performs R S hS frame hfit hp⟩

theorem pure {a : α} {found : α → Facts} (hopen : d.builder.IsOpen)
    (huses : ∀ a, d.Uses (found a)) (hfound : ∀ p ∈ found a, p ∈ known) :
    Emits d d known (fun _ : Runtime e => Pure.pure a) found :=
  ⟨.refl e d, hopen, huses, fun _ _ _ _ _ hg =>
    Site.performs_pure fun p hp => hg p (hfound p hp)⟩

/-- An emission of nothing. -/
theorem skip (hopen : d.builder.IsOpen) :
    Emits d d known (fun _ : Runtime e => (Pure.pure () : Exec Unit)) fun _ => [] :=
  Emits.pure hopen (fun _ => d.uses_nil) nofun

/-- An emission that first changed the unit only. -/
theorem after_unit {u : CodeUnit} {y : Runtime e → Exec α} {found : α → Facts}
    (hu : e.Asks d.unit u) (h : Emits { d with unit := u } d' known y found) :
    Emits d d' known y found := by
  have hleads : Draft.Leads e d { d with unit := u } := ⟨.refl _, hu⟩
  exact ⟨hleads.trans h.leads, h.opened, h.uses, h.performs⟩

/-! ## Instructions -/

/-- One instruction that defines a value. -/
theorem define {ty : TypeId} {instr : ValueId → Instr} {x : Runtime e → Exec α}
    {value : α → Value} (hopen : d.builder.IsOpen)
    (hx : ∀ (R : Runtime e) frame, d.unit.Keeps R.unit → frame.Gives known →
      R.program.runInstr R.call frame (instr ⟨d.values⟩) =
        x R >>= fun a => Pure.pure (frame.define ⟨d.values⟩ (value a))) :
    Emits d { d with builder := (d.builder.define ty instr).2 } known
      (fun R => Exec.tick >>= fun _ => x R) fun a => [(.value ⟨d.values⟩, value a)] := by
  have hend := (Builder.Open.define hopen ty instr).1
  refine ⟨⟨Builder.leads_define _ _ _, .refl⟩, hend.isOpen, fun a p hp => ?_,
    fun R S hS frame hfit hg => ?_⟩
  · rw [List.mem_singleton.mp hp]
    refine Operand.below_value ?_
    change d.values < (d.builder.define ty instr).2.values
    rw [Builder.values_define]
    exact Nat.lt_succ_self _
  · change S.Performs d.builder.here (d.builder.define ty instr).2.here d.values frame _ _
    rw [hend.here]
    refine (Site.performs_define hopen hS hfit (hx R frame hS.unit hg)).weaken
      fun a frame' hq p hp => ?_
    rw [List.mem_singleton.mp hp]
    exact hq

/-- One instruction that defines nothing. -/
theorem push {i : Instr} {x : Runtime e → Exec Unit} (hopen : d.builder.IsOpen)
    (hx : ∀ (R : Runtime e) frame, d.unit.Keeps R.unit → frame.Gives known →
      R.program.runInstr R.call frame i = x R >>= fun _ => Pure.pure frame) :
    Emits d { d with builder := d.builder.push i } known
      (fun R => Exec.tick >>= fun _ => x R) fun _ => [] := by
  have hend := (Builder.Open.push hopen i).1
  refine ⟨⟨Builder.leads_push _ _, .refl⟩, hend.isOpen, fun _ => Draft.uses_nil _,
    fun R S hS frame hfit hg => ?_⟩
  change S.Performs d.builder.here (d.builder.push i).here d.values frame _ _
  rw [hend.here]
  exact (Site.performs_push hopen hS (hx R frame hS.unit hg)).weaken fun _ _ _ => nofun

end Emits

/-! ## Branches -/

namespace Builder

variable {pt : Point}

/-- The builder after two blocks were reserved and a branch to them was made. -/
def fork (b : Builder) (cond : Operand) (yes no : String) : Builder :=
  let (yesBlock, b) := b.appendBlock yes
  let (noBlock, b) := b.appendBlock no
  b.branch cond yesBlock noBlock

/-- The first block that a fork reserves. -/
def yesBlock (b : Builder) : BlockId := ⟨b.function.blocks.length⟩

/-- The second block that a fork reserves. -/
def noBlock (b : Builder) : BlockId := ⟨b.function.blocks.length + 1⟩

theorem length_fork (b : Builder) (cond : Operand) (yes no : String) :
    (b.fork cond yes no).function.blocks.length = b.function.blocks.length + 2 :=
  (length_extend _ _).trans (by simp)

/-- The builder behind a fork, in the first block. -/
def forked (b : Builder) (cond : Operand) (yes no : String) : Builder :=
  (b.fork cond yes no).moveTo b.yesBlock (b.length_fork .. ▸ Nat.lt_add_of_pos_right Nat.two_pos)

theorem leads_forked (b : Builder) (cond : Operand) (yes no : String) :
    (b.fork cond yes no).Leads (b.forked cond yes no) := leads_moveTo _ _

theorem fork_spec {b : Builder} (hopen : b.Open pt) (cond : Operand) (yes no : String) :
    b.Leads (fork b cond yes no) ∧ (fork b cond yes no).Reserved (yesBlock b)
      ∧ (fork b cond yes no).Reserved (noBlock b)
      ∧ (fork b cond yes no).values = b.values
      ∧ ∀ {e : Emitter} {R : Runtime e} (S : Site R) (u : CodeUnit),
        S.Completes ⟨u, fork b cond yes no⟩ → ∀ {frame : Frame} {c : Bool},
        frame.eval cond = .ok (.bool c) →
          S.resume pt frame = S.resume ⟨if c then yesBlock b else noBlock b, 0⟩ frame := by
  let b₁ := (b.appendBlock yes).2
  let b₂ := (b₁.appendBlock no).2
  have hlen₁ : b₁.function.blocks.length = b.function.blocks.length + 1 := by
    simp [b₁, Builder.appendBlock]
  have hno : (b₁.appendBlock no).1 = noBlock b := by
    simp only [Builder.appendBlock, hlen₁, noBlock]
  have hfork : fork b cond yes no = b₂.branch cond (yesBlock b) (noBlock b) := by
    rw [← hno]
    rfl
  have hopen₂ : b₂.Open pt := (hopen.appendBlock yes).appendBlock no
  have hlen₂ : b₂.function.blocks.length = b.function.blocks.length + 2 := by
    simp [b₂, Builder.appendBlock, hlen₁]
  have hpt : pt.block.index < b.function.blocks.length := hopen.lt_length
  have hyes' : pt.block.index < (yesBlock b).index
      ∧ (yesBlock b).index < b₂.function.blocks.length := by
    simp only [yesBlock, hlen₂]
    omega
  have hno' : pt.block.index < (noBlock b).index
      ∧ (noBlock b).index < b₂.function.blocks.length := by
    simp only [noBlock, hlen₂]
    omega
  have hresYes : b₂.Reserved (yesBlock b) := (Builder.reserved_appendBlock b yes).appendBlock no
  have hresNo : b₂.Reserved (noBlock b) := by
    rw [← hno]
    exact Builder.reserved_appendBlock b₁ no
  rw [hfork]
  refine ⟨?_, ?_, ?_, ?_, ?_⟩
  · exact ((Builder.leads_appendBlock _ _).trans (Builder.leads_appendBlock _ _)).trans
      (Builder.leads_branch hopen₂ hyes' hno')
  · exact hresYes.terminate hopen₂ (by omega) _
  · exact hresNo.terminate hopen₂ (by omega) _
  · rw [Builder.branch, Builder.terminate, hopen₂.extend]
    rfl
  · intro e R S u hS frame c hc
    exact Site.resume_branch (d := ⟨u, b₂⟩) hopen₂ hS hc

theorem Open.forked {b : Builder} (hopen : b.Open pt) (cond : Operand) (yes no : String) :
    (b.forked cond yes no).Open ⟨b.yesBlock, 0⟩ := by
  obtain ⟨-, hyes, -⟩ := fork_spec hopen cond yes no
  exact hyes.moveTo

end Builder

namespace Emits

variable {e : Emitter} {d d₅ d' : Draft} {known : Facts}

/-- The draft with which an emission goes on behind a fork. -/
theorem run_fork (d : Draft) (cond : Operand) (yes no : String)
    (k : BlockId → BlockId → Emit Unit) :
    (do
      let yesBlock ← Emit.build (·.appendBlock yes)
      let noBlock ← Emit.build (·.appendBlock no)
      Emit.edit (·.branch cond yesBlock noBlock)
      Emit.moveTo yesBlock
      k yesBlock noBlock).run d
    = (k d.builder.yesBlock d.builder.noBlock).run
      { d with builder := d.builder.forked cond yes no } := by
  have hno : (((d.builder.appendBlock yes).2).appendBlock no).1 = d.builder.noBlock := by
    simp [Builder.appendBlock, Builder.noBlock]
  have hmove : (Emit.moveTo d.builder.yesBlock).run
      { d with builder := d.builder.fork cond yes no }
      = .ok () { d with builder := d.builder.forked cond yes no } := Emit.run_moveTo_ok _
  rw [← hno]
  exact Step.run_bind_ok hmove

theorem fork_ok {cond : Operand} {yes no : String} {k : BlockId → BlockId → Emit Unit}
    (h : (do
      let yesBlock ← Emit.build (·.appendBlock yes)
      let noBlock ← Emit.build (·.appendBlock no)
      Emit.edit (·.branch cond yesBlock noBlock)
      Emit.moveTo yesBlock
      k yesBlock noBlock).run d = .ok () d') :
    (k d.builder.yesBlock d.builder.noBlock).run
      { d with builder := d.builder.forked cond yes no } = .ok () d' :=
  (run_fork d cond yes no k).symm.trans h

theorem moveTo_ok {id : BlockId} (h : (Emit.moveTo id).run d = .ok () d') :
    ∃ hid, d' = { d with builder := d.builder.moveTo id hid } := by
  rw [Emit.run_moveTo] at h
  split at h
  · next hid => exact ⟨hid, (EStateM.Result.ok.inj h).2.symm⟩
  · cases h

/-- A branch to a trap. -/
theorem trapIf {cond : Operand} {cause : TrapCause} {label : String} {c : Bool}
    (hopen : d.builder.IsOpen) (h : (Emit.trapIf cond cause label).run d = .ok () d')
    (hc : (cond, .bool c) ∈ known) :
    Emits d d' known
      (fun _ : Runtime e => if c then Step.fail (.trap cause) else Pure.pure ())
      fun _ => [] := by
  let b₁ := d.builder.fork cond cause.keyword label
  let b₂ := (d.builder.forked cond cause.keyword label).trap cause
  obtain ⟨hid, rfl⟩ := moveTo_ok (d := { d with builder := b₂ }) (fork_ok h)
  obtain ⟨hleads, -, hno, -, hfork⟩ := Builder.fork_spec hopen cond cause.keyword label
  have hopenYes := Builder.Open.forked hopen cond cause.keyword label
  have hne : d.builder.yesBlock.index ≠ d.builder.noBlock.index := by
    simp [Builder.yesBlock, Builder.noBlock]
  have hnoRes : b₂.Reserved d.builder.noBlock :=
    Builder.Reserved.terminate (b := d.builder.forked ..) hno hopenYes hne _
  have hleads₂ : b₁.Leads (b₂.moveTo d.builder.noBlock hid) :=
    ((Builder.leads_forked ..).trans (Builder.leads_terminate hopenYes (.trap cause) nofun)).trans
      (Builder.leads_moveTo _ hid)
  refine ⟨⟨hleads.trans hleads₂, .refl⟩, hnoRes.moveTo.isOpen, fun _ => Draft.uses_nil _,
    fun R S hS frame hfit hg => ?_⟩
  change S.Performs d.builder.here (b₂.moveTo d.builder.noBlock hid).here d.values frame _ _
  rw [hnoRes.moveTo.here]
  have hS₁ : S.Completes ⟨d.unit, b₁⟩ := hS.of_leads ⟨hleads₂, .refl⟩
  refine Site.Performs.of_resume (hfork S d.unit hS₁ (hg _ hc)) ?_
  cases c with
  | false => exact Site.performs_pure nofun
  | true =>
      have hS₂ : S.Completes ⟨d.unit, b₂⟩ := hS.of_leads ⟨Builder.leads_moveTo _ hid, .refl⟩
      exact Site.performs_fail (Site.resume_trap (d := ⟨d.unit, d.builder.forked ..⟩) hopenYes hS₂
        frame)

/-- Code that is run only where a condition holds: a branch to a block for
it, which jumps to the block that the other branch goes to. -/
theorem when {cond : Operand} {yes no : String} {c : Bool} {y : Runtime e → Exec Unit}
    {found : Unit → Facts} (hopen : d.builder.IsOpen) (hc : (cond, .bool c) ∈ known)
    (hy : Emits { d with builder := d.builder.forked cond yes no } d₅ known y found)
    (hno : d₅.builder.Reserved d.builder.noBlock)
    (hblock : d₅.builder.here.block = d.builder.yesBlock)
    (hid : d.builder.noBlock.index
      < (d₅.builder.jump d.builder.noBlock).function.blocks.length) :
    Emits d { d₅ with builder := (d₅.builder.jump d.builder.noBlock).moveTo d.builder.noBlock hid }
      known (fun R => if c then y R else Pure.pure ()) fun _ => [] := by
  obtain ⟨hleads, -, -, hvalues, hfork⟩ := Builder.fork_spec hopen cond yes no
  have hopen₅ : d₅.builder.Open d₅.builder.here := hy.opened
  have htarget : d₅.builder.here.block.index < d.builder.noBlock.index
      ∧ d.builder.noBlock.index < d₅.builder.function.blocks.length := by
    refine ⟨?_, hno.lt_length⟩
    rw [hblock]
    simp [Builder.yesBlock, Builder.noBlock]
  have hjump : d₅.builder.Leads (d₅.builder.jump d.builder.noBlock) := by
    refine Builder.leads_terminate hopen₅ _ fun s hs => ?_
    rw [List.mem_singleton.mp hs]
    exact htarget
  have hnoRes : (d₅.builder.jump d.builder.noBlock).Reserved d.builder.noBlock :=
    hno.terminate hopen₅ (by omega) _
  have hstart : Draft.Leads e d { d with builder := d.builder.forked cond yes no } :=
    ⟨hleads.trans (Builder.leads_forked ..), .refl⟩
  have hend : Draft.Leads e d₅
      { d₅ with builder := (d₅.builder.jump d.builder.noBlock).moveTo d.builder.noBlock hid } :=
    ⟨hjump.trans (Builder.leads_moveTo _ hid), .refl⟩
  refine ⟨(hstart.trans hy.leads).trans hend, hnoRes.moveTo.isOpen, fun _ => Draft.uses_nil _,
    fun R S hS frame hfit hg => ?_⟩
  change S.Performs d.builder.here
    ((d₅.builder.jump d.builder.noBlock).moveTo d.builder.noBlock hid).here d.values frame _ _
  rw [hnoRes.moveTo.here]
  have hS₅ : S.Completes d₅ := hS.of_leads hend
  have hS₁ : S.Completes ⟨d.unit, d.builder.fork cond yes no⟩ :=
    (hS₅.of_leads hy.leads).of_leads ⟨Builder.leads_forked .., .refl⟩
  refine Site.Performs.of_resume (hfork S d.unit hS₁ (hg _ hc)) ?_
  cases c with
  | false => exact Site.performs_pure nofun
  | true =>
      have hrun := hy.performs R S hS₅ frame hfit hg
      have hn : Draft.values { d with builder := d.builder.forked cond yes no } = d.values :=
        hvalues
      rw [hn, (Builder.Open.forked hopen cond yes no).here] at hrun
      refine (hrun.to_resume fun frame' => ?_).weaken fun _ _ _ => nofun
      have hSj : S.Completes { d₅ with builder := d₅.builder.jump d.builder.noBlock } :=
        hS.of_leads ⟨Builder.leads_moveTo _ hid, .refl⟩
      exact Site.resume_jump hopen₅ hSj frame'

end Emits

end Ownership
