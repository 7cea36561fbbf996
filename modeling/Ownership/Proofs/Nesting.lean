import Ownership.Proofs.Client
import Ownership.Proofs.Expansion
import Ownership.Proofs.NewBlocks

/-!
# References to references

What a block holds is let go of by the fields of its record, and a
pointee that is itself a reference has no fields. So the release of a
reference to a reference takes the outer block alone: it frees that block
once its last holder goes, and reads nothing from it. Of blocks nested to
any depth the outermost one is freed, and those inside stay as they are
(`nested_release`), although nothing leads to them any more.
-/

namespace Ownership

/-! ## Steps of a release -/

namespace Exec

theorem takes_outcome {α : Type} {x : Outcome α} (h : x ≠ .error (.error .stepLimit)) :
    (outcome x).Takes 0 := by
  intro m _
  cases x with
  | ok a => exact Or.inl ⟨a, m, rfl, Nat.le_refl _⟩
  | error s => exact Or.inr ⟨s, m, by cases s <;> rfl, fun hs => h (hs ▸ rfl)⟩

theorem takes_get : (get : Exec Machine).Takes 0 := fun m _ => Or.inl ⟨m, m, rfl, Nat.le_refl _⟩

theorem takes_freeAt (a : UInt64) : (freeAt (.ptr a)).Takes 1 := by
  have hfree : (free a).Takes 0 := takes_withHeap fun h hlimit => by
    cases hf : h.free a.toNat <;> rw [hf] at hlimit <;> cases hlimit
  exact takes_tick.bind (k := 0) fun _ => hfree

theorem takes_guardTrap (cause : TrapCause) (bad : Bool) : (guardTrap cause bad).Takes 1 := by
  refine takes_tick.bind (k := 0) fun _ => ?_
  cases bad with
  | false => exact takes_pure ()
  | true => exact fun m _ => Or.inr ⟨_, m, rfl, nofun⟩

end Exec

theorem Layouts.takes_counter (L : Layouts) (layout : RefLayout) (a : UInt64) :
    (L.counter layout (.ptr a)).Takes 2 := by
  have hfetch : ∀ b, (L.fetch b).Takes 1 := fun b =>
    Exec.takes_tick.bind fun _ => Exec.takes_get.bind (k := 0) fun m => Exec.takes_outcome (by
      unfold loadWord
      cases m.heap.read b.toNat L.word with
      | ok data => nofun
      | error s => cases s <;> nofun)
  exact (Exec.takes_displaced _ _).bind fun b => (hfetch b).bind fun _ => Exec.takes_pure _

namespace Runtime

variable {e : Emitter} (R : Runtime e) {ty : TypeId} {layout : RefLayout}

theorem takes_letGo (hleaves : e.layouts.leaves ty = []) (v : Value) : (R.letGo ty v).Takes 0 := by
  rw [letGo, hleaves]
  exact Exec.takes_pure ()

/-- A release that looks into no block takes seven steps at most. -/
theorem takes_release (hsymbols : e.SymbolsApart) (hl : e.layouts.ref ty = .ok layout)
    (hleaves : e.layouts.leaves layout.pointee = []) (a : UInt64) :
    (R.release ty (.ptr a)).Takes 7 := by
  have hfree : ∀ b, (R.letGo layout.pointee (.ptr a) >>= fun _ => R.freeAt (.ptr b)).Takes 1 :=
    fun b => (R.takes_letGo hleaves _).bind fun _ => R.freeAt_eq hsymbols (.ptr b) ▸
      Exec.takes_freeAt b
  have hholders : ∀ old, (R.requireHolders old (-1)).Takes 1 := by
    intro old
    unfold requireHolders
    split
    · exact Exec.takes_guardTrap _ _
    · exact (Exec.takes_pure ()).mono (Nat.zero_le _)
  have hlast : ∀ counter new, (R.freeAtZero layout (.ptr a) counter new).Takes 2 := by
    intro counter new
    refine Exec.takes_tick.bind (k := 1) fun _ => ?_
    split
    · exact hfree counter
    · exact (Exec.takes_pure ()).mono (Nat.zero_le _)
  have hchanged : ∀ old, (R.changed old (-1)).Takes 1 := fun old =>
    Exec.takes_tick.bind fun _ => Exec.takes_pure _
  have hdecrease : (R.decrease layout (.ptr a) (-1)).Takes 7 :=
    (e.layouts.takes_counter layout a).bind fun p => (hholders p.2).bind fun _ =>
      (hchanged p.2).bind fun new => (Layouts.takes_put p.1 new).bind fun _ => hlast p.1 new
  unfold release
  simp only [hl]
  cases layout.region with
  | owning => exact (hfree a).mono (show 1 ≤ 7 by decide)
  | counted => exact hdecrease
  | borrowed => exact (Exec.takes_pure ()).mono (Nat.zero_le _)

end Runtime

/-! ## Blocks that are freed alone -/

/-- A block with one holder, that has no references in its fields, is freed with that holder, and
nothing else is touched. -/
theorem Emitter.Module.run_release_flat {e : Emitter} {M : e.Module} (hsymbols : e.SymbolsApart)
    (hwidth : e.layouts.width = e.config.target.width) {name : String} {x : Ref}
    (hholds : M.Holds name [x.type] .unit (e.releaseCode x.type)) {m : Machine}
    (hs : m.heap.Sound) {layout : RefLayout} {b : Block}
    (hp : e.layouts.Placed m.heap x layout b) (hleaves : e.layouts.leaves layout.pointee = [])
    (hone : e.layouts.tally m.heap x = 1) (hbudget : 7 ≤ m.budget) :
    ∃ m', (M.program.run name [.ptr x.addr]).run m = .ok none m'
      ∧ m'.heap.freeLog = m.heap.freeLog ++ [e.layouts.base x]
      ∧ m'.heap.isLive (e.layouts.base x) = false
      ∧ ∀ a, a ≠ e.layouts.base x → m'.heap.blocks.get? a = m.heap.blocks.get? a := by
  have hnone : e.layouts.leafRefs m.heap x = [] := by
    rw [Layouts.leafRefs_eq hp.ref, Layouts.refsAt, hleaves, List.map_nil]
  have hclosed : ∀ y ∈ [x], ∀ z ∈ e.layouts.leafRefs m.heap y, z ∈ [x] := by
    intro y hy z hz
    rw [List.mem_singleton.mp hy, hnone] at hz
    cases hz
  let g : Graph := ⟨[x], e.layouts.leafRefs m.heap, List.nodup_singleton x, hclosed⟩
  have hg : e.layouts.Scene m.heap g :=
    ⟨⟨hs.bounded, fun y hy => List.mem_singleton.mp hy ▸ ⟨layout, b, hp⟩,
      fun y hy z hz _ => (List.mem_singleton.mp hy).trans (List.mem_singleton.mp hz).symm⟩, hs, rfl⟩
  have hready : e.layouts.Ready m.heap g (fun _ => 0) [] [x] ⟨e.layouts.tally m.heap, []⟩
      m.heap := by
    refine ⟨hg.shows, fun _ h => absurd h List.not_mem_nil, fun y hy => ?_, fun y hy => hy,
      fun y hy _ _ _ => ?_, fun _ h => absurd h List.not_mem_nil⟩
    · obtain rfl := List.mem_singleton.mp hy
      have hhold : g.holdings (e.layouts.tally m.heap) y = 0 := by
        rw [Graph.holdings_split hy, List.erase_cons_head]
        simp [g, hnone]
      rw [hhold, List.count_singleton_self]
      exact hone
    · rw [List.mem_singleton.mp hy]
      exact Nat.le_of_eq hone
  have hyields := yields_release hsymbols hwidth hg hholds hready
  have htakes : (M.program.run name [.ptr x.addr]).Takes 7 := by
    intro n hn
    rw [run_release hholds]
    exact (((M.runtime n.budget).takes_release hsymbols hp.ref hleaves x.addr).bind fun _ =>
      Exec.takes_pure none).inCall n hn
  obtain ⟨_, m', hrun, -, rfl, s', hrel, hshows⟩ := htakes.yields hbudget hyields
  have hfreed : s'.freed = [x] := by
    cases hrel with
    | keep hmore => simp [hone] at hmore
    | last _ hinner hrest =>
        change g.Releases (e.layouts.leafRefs m.heap x) _ _ at hinner
        rw [hnone] at hinner
        cases hinner
        cases hrest
        rfl
  obtain ⟨b', hb', hsb⟩ := hshows.node x List.mem_cons_self hp
  refine ⟨m', hrun, ?_, ?_, fun a ha => ?_⟩
  · rw [hshows.freeLog, hfreed, List.map_singleton]
  · rw [Bool.eq_false_iff]
    intro hlive
    obtain ⟨c, hc, -, hclive⟩ := Heap.isLive_iff.mp hlive
    obtain rfl := Option.some.inj (hb'.symm.trans hc)
    exact hsb.live.mp hclive (hfreed ▸ List.mem_cons_self)
  · exact hshows.elsewhere a fun y hy => List.mem_singleton.mp hy ▸ Ne.symm ha

/-! ## Nested blocks -/

/-- On a new machine, blocks are made from the inside out. The innermost one is for a type without
references that are owned, and each other one has the reference to the one before as its pointee.
The references to them stand with the outermost one first. -/
inductive Nested {e : Emitter} (M : e.Module) : Machine → List Ref → Prop where
  | inner {name : String} {params : List TypeId} {ty : TypeId} {init : Initial}
      {args : List Value} {region : Region} {pointee : TypeId} {budget : Nat} {m : Machine}
      {addr : UInt64} (holds : M.Holds name params ty (e.makeCode ty init))
      (below : ∀ op ∈ init.operands, op.Below params.length)
      (arity : args.length = params.length)
      (reference : e.pool.reference? ty = some (region, pointee))
      (plain : e.layouts.ownedParts pointee = [])
      (run : (M.program.run name args).run (.new budget) = .ok (some (.ptr addr)) m) :
      Nested M m [⟨ty, addr⟩]
  | outer {name : String} {ty : TypeId} {region : Region} {m m' : Machine} {x : Ref}
      {inner : List Ref} {addr : UInt64} (nested : Nested M m (x :: inner))
      (holds : M.Holds name [x.type] ty (e.makeCode ty (.value (.value ⟨0⟩))))
      (reference : e.pool.reference? ty = some (region, x.type))
      (run : (M.program.run name [.ptr x.addr]).run m = .ok (some (.ptr addr)) m') :
      Nested M m' (⟨ty, addr⟩ :: x :: inner)

theorem Layouts.leaves_of_tag {L : Layouts} {ty : TypeId} (h : L.pool.tag ty ≠ .record) :
    L.leaves ty = [] :=
  leaves_plain (Option.eq_none_iff_forall_ne_some.mpr fun _ hdef => h (tag_of_record? hdef))

/-- What holds of nested blocks: each has one holder, and none has references in fields. -/
structure Layouts.Nests (L : Layouts) (h : Heap) (refs : List Ref) : Prop where
  sound : h.Sound
  stack : h.nextStack = Heap.stackBase
  log : h.freeLog = []
  accounts : L.Accounts h refs refs
  flat : ∀ x ∈ refs, ∀ layout, L.ref x.type = .ok layout → L.leaves layout.pointee = []

namespace Layouts.Nests

variable {L : Layouts} {h : Heap} {refs : List Ref}

theorem initial (L : Layouts) : L.Nests Heap.initial [] where
  sound := Heap.sound_initial
  stack := rfl
  log := rfl
  accounts := ⟨List.nodup_nil, nofun, nofun, nofun, nofun, fun _ => Iff.rfl, nofun⟩
  flat := nofun

theorem leafRefs (hn : L.Nests h refs) {x : Ref} (hx : x ∈ refs) : L.leafRefs h x = [] := by
  obtain ⟨layout, b, hp⟩ := hn.accounts.placed x hx
  rw [leafRefs_eq hp.ref, refsAt, hn.flat x hx layout hp.ref, List.map_nil]

theorem tally (hn : L.Nests h refs) {x : Ref} (hx : x ∈ refs) : L.tally h x = 1 := by
  have hnone : refs.flatMap (L.leafRefs h) = [] :=
    List.flatMap_eq_nil_iff.mpr fun y hy => hn.leafRefs hy
  rw [hn.accounts.tally x hx, holders, hnone, List.append_nil]
  exact List.count_eq_one_of_mem hn.accounts.nodup hx

theorem isLive_iff (hn : L.Nests h refs) (a : Address) :
    h.isLive a = true ↔ a ∈ refs.map L.base := by
  rw [List.mem_map]
  refine ⟨hn.accounts.live a, ?_⟩
  rintro ⟨x, hx, rfl⟩
  obtain ⟨layout, b, hp⟩ := hn.accounts.placed x hx
  exact Heap.isLive_iff.mpr ⟨b, base_eq hp.ref ▸ hp.block, hp.arena, hp.live⟩

theorem nodup_base (hn : L.Nests h refs) : (refs.map L.base).Nodup :=
  hn.accounts.nodup.map_on fun x hx y hy => hn.accounts.injective x hx y hy

end Layouts.Nests

namespace Emitter.Module

variable {e : Emitter} {M : e.Module}

/-- The block of a reference that was just made. -/
theorem fresh_of_run {name : String} {params : List TypeId} {ty : TypeId} {init : Initial}
    {args : List Value} {m₀ m : Machine} {r : UInt64} {layout : RefLayout} {size : Nat}
    (hholds : M.Holds name params ty (e.makeCode ty init))
    (hinit : ∀ op ∈ init.operands, op.Below params.length) (hargs : args.length = params.length)
    (hl : e.layouts.ref ty = .ok layout) (hsize : layout.allocSize = .ok size)
    (hs : m₀.heap.Sound)
    (hroom : m₀.heap.nextHeap + Heap.stride size ≤ Heap.stackBase
      ∨ m₀.heap.nextStack = Heap.stackBase)
    (hrun : (M.program.run name args).run m₀ = .ok (some (.ptr r)) m) :
    m.heap.Sound ∧ layout.region ≠ .borrowed ∧ r.toNat = m₀.heap.nextHeap + layout.header
      ∧ ∃ c b, (m₀.heap.reserve size).Puts m₀.heap.nextHeap b m.heap
        ∧ e.layouts.Fresh layout c b := by
  obtain ⟨layout', size', c, hl', hregion, hsize', hmakes, hmake⟩ :=
    run_make hholds hargs hinit
  obtain rfl := Except.ok.inj (hl.symm.trans hl')
  obtain rfl := Except.ok.inj (hsize.symm.trans hsize')
  obtain ⟨m₁, hcall, -⟩ := Exec.inCall_ok ((hmake m₀).symm.trans hrun)
  obtain ⟨r', m₂, hallocation, -⟩ := Step.bind_ok hcall
  have hlimit : size < sizeLimit := by
    obtain ⟨hsum, hlt⟩ := addSize_ok hsize
    exact hsum ▸ hlt
  obtain ⟨⟨h₁, hmalloc⟩, henc⟩ := of_allocation_ok hlimit hallocation
  have hyields := yields_make hs.bounded (hs.vacant_of_stride hroom) hl hsize hmalloc hmakes
    (List.length_map _) henc (hmake m₀)
  obtain ⟨-, r'', hr, haddr, b, hputs, hfresh⟩ := hyields.of_ok hrun
  cases hr
  have hs' := hs.reserved hmalloc hroom hputs hfresh.arena
    (Except.ok.inj (hfresh.size.symm.trans hsize))
  exact ⟨hs', hregion, haddr, c, b, hputs, hfresh⟩

/-- One more block is made. -/
theorem nests_make {name : String} {params : List TypeId} {ty : TypeId} {init : Initial}
    {args : List Value} {m m' : Machine} {refs : List Ref} {addr : UInt64}
    (hn : e.layouts.Nests m.heap refs) (hholds : M.Holds name params ty (e.makeCode ty init))
    (hbelow : ∀ op ∈ init.operands, op.Below params.length)
    (harity : args.length = params.length)
    (hflat : ∀ layout, e.layouts.ref ty = .ok layout → e.layouts.leaves layout.pointee = [])
    (hrun : (M.program.run name args).run m = .ok (some (.ptr addr)) m') :
    e.layouts.Nests m'.heap (⟨ty, addr⟩ :: refs) := by
  obtain ⟨layout, size, -, hl, -, hsize, -⟩ := run_make hholds harity hbelow
  obtain ⟨hs', hregion, haddr, c, b, hputs, hfresh⟩ :=
    fresh_of_run hholds hbelow harity hl hsize hn.sound (Or.inr hn.stack) hrun
  have hgiven : e.layouts.refsOf b.bytes layout.header layout.pointee = [] := by
    rw [Layouts.refsOf, hflat layout hl, List.map_nil]
  have hmade := hn.accounts.made (x := ⟨ty, addr⟩) hn.sound hs' hputs hl hregion haddr hfresh
    hgiven List.nil_subperm
  refine ⟨hs', hputs.nextStack.trans hn.stack, (congrArg List.reverse hputs.freed).trans hn.log,
    hmade, ?_⟩
  exact List.forall_mem_cons.mpr ⟨hflat, hn.flat⟩

end Emitter.Module

theorem Nested.nests {e : Emitter} {M : e.Module} {m : Machine} {refs : List Ref}
    (h : Nested M m refs) : e.layouts.Nests m.heap refs := by
  induction h with
  | @inner _ _ ty _ _ region pointee _ _ _ holds below arity reference plain run =>
      refine Emitter.Module.nests_make (m := .new _) (.initial _) holds below arity ?_ run
      intro layout hl
      obtain ⟨href, hvalue, -⟩ := Layouts.ref_eq_ok_iff.mp hl
      obtain ⟨-, rfl⟩ := Prod.mk.inj (Option.some.inj (reference.symm.trans href))
      by_cases htag : e.layouts.pool.tag layout.pointee = .record
      · rw [Layouts.leaves_eq_ownedParts hvalue htag, plain]
      · exact Layouts.leaves_of_tag htag
  | @outer _ ty region _ _ x _ _ _ holds reference run ih =>
      refine Emitter.Module.nests_make ih holds ?_ rfl ?_ run
      · simp [Initial.operands, Operand.Below]
      · intro layout hl
        obtain ⟨href, -, -⟩ := Layouts.ref_eq_ok_iff.mp hl
        obtain ⟨-, hx⟩ := Prod.mk.inj (Option.some.inj (reference.symm.trans href))
        obtain ⟨inner, b, hp⟩ := ih.accounts.placed x List.mem_cons_self
        rw [← hx]
        refine Layouts.leaves_of_tag fun htag => ?_
        rw [Layouts.tag_of_reference? (Pool.item?_of_reference? hp.reference?)] at htag
        cases htag

/-- Of nested blocks the release of the outermost reference frees the outermost one only. -/
theorem nested_release {e : Emitter} (hsymbols : e.SymbolsApart)
    (hwidth : e.layouts.width = e.config.target.width) {M : e.Module} {m : Machine} {x : Ref}
    {inner : List Ref} (hnested : Nested M m (x :: inner)) {name : String}
    (hholds : M.Holds name [x.type] .unit (e.releaseCode x.type)) (hbudget : 7 ≤ m.budget) :
    m.heap.liveBlocks = inner.length + 1 ∧ m.heap.freeLog = []
      ∧ (∀ y ∈ x :: inner, e.layouts.tally m.heap y = 1)
      ∧ ∃ m', (M.program.run name [.ptr x.addr]).run m = .ok none m'
        ∧ m'.heap.freeLog = [e.layouts.base x] ∧ m'.heap.liveBlocks = inner.length
        ∧ ∀ y ∈ inner, m'.heap.isLive (e.layouts.base y) = true
          ∧ m'.heap.blocks.get? (e.layouts.base y) = m.heap.blocks.get? (e.layouts.base y) := by
  have hn := hnested.nests
  obtain ⟨hnew, hinner⟩ := List.nodup_cons.mp hn.nodup_base
  have hx : x ∈ x :: inner := List.mem_cons_self
  obtain ⟨layout, b, hp⟩ := hn.accounts.placed x hx
  obtain ⟨m', hrun, hlog, hdead, hsame⟩ := Emitter.Module.run_release_flat hsymbols hwidth hholds
    hn.sound hp (hn.flat x hx layout hp.ref) (hn.tally hx) hbudget
  have hlive : ∀ a, m'.heap.isLive a = true ↔ a ∈ inner.map e.layouts.base := by
    intro a
    by_cases ha : a = e.layouts.base x
    · rw [ha, hdead]
      exact ⟨fun h => absurd h Bool.false_ne_true, fun h => absurd h hnew⟩
    · have hbefore := hn.isLive_iff a
      rw [List.map_cons, List.mem_cons, or_iff_right ha] at hbefore
      rw [← hbefore, Heap.isLive, Heap.isLive, hsame a ha]
  refine ⟨?_, hn.log, fun y hy => hn.tally hy, m', hrun, ?_, ?_, fun y hy => ?_⟩
  · rw [Heap.liveBlocks_eq_length hn.nodup_base hn.isLive_iff, List.length_map, List.length_cons]
  · rw [hlog, hn.log, List.nil_append]
  · rw [Heap.liveBlocks_eq_length hinner hlive, List.length_map]
  · have hmem : e.layouts.base y ∈ inner.map e.layouts.base := List.mem_map_of_mem hy
    exact ⟨(hlive _).mpr hmem, hsame _ fun heq => hnew (heq ▸ hmem)⟩

namespace Wrapped

/-- An owning reference to a number, an owning reference to that, and a counted one to that. -/
def emitter : Emitter where
  layouts := ⟨.ofItems .new [.reference .owning .int, .reference .owning ⟨16⟩,
    .reference .counted ⟨17⟩], .w64⟩
  config := { target := ⟨.w64, some {}⟩ }

def init : Initial := .value (.value ⟨0⟩)

/-- Functions that make a reference of each type from what it is for, and one that lets go of an
owning reference to a reference. -/
def boxed : CodeUnit :=
  Step.after (Emitter.addEmitted "box" [.int] ⟨16⟩ (emitter.makeCode ⟨16⟩ init))
    (.new "wrapped")

def wrapped : CodeUnit :=
  Step.after (Emitter.addEmitted "wrap" [⟨16⟩] ⟨17⟩ (emitter.makeCode ⟨17⟩ init)) boxed

def shared : CodeUnit :=
  Step.after (Emitter.addEmitted "share" [⟨17⟩] ⟨18⟩ (emitter.makeCode ⟨18⟩ init)) wrapped

def dropped : CodeUnit :=
  Step.after (Emitter.addEmitted "drop" [⟨17⟩] .unit (emitter.releaseCode ⟨17⟩)) shared

def draft : CodeUnit :=
  Step.after (Emitter.addEmitted "leave" [⟨18⟩] .unit (emitter.releaseCode ⟨18⟩)) dropped

theorem below_init : ∀ op ∈ init.operands, op.Below 1 := by
  simp [init, Initial.operands, Operand.Below]

theorem run_boxed : (Emitter.addEmitted "box" [.int] ⟨16⟩ (emitter.makeCode ⟨16⟩ init)).run
    (.new "wrapped") = .ok ⟨0⟩ boxed :=
  Step.run_of_result? (by decide +kernel)

theorem run_wrapped : (Emitter.addEmitted "wrap" [⟨16⟩] ⟨17⟩ (emitter.makeCode ⟨17⟩ init)).run
    boxed = .ok ⟨1⟩ wrapped :=
  Step.run_of_result? (by decide +kernel)

theorem run_shared : (Emitter.addEmitted "share" [⟨17⟩] ⟨18⟩ (emitter.makeCode ⟨18⟩ init)).run
    wrapped = .ok ⟨2⟩ shared :=
  Step.run_of_result? (by decide +kernel)

theorem run_dropped : (Emitter.addEmitted "drop" [⟨17⟩] .unit (emitter.releaseCode ⟨17⟩)).run
    shared = .ok ⟨3⟩ dropped :=
  Step.run_of_result? (by decide +kernel)

theorem run_draft : (Emitter.addEmitted "leave" [⟨18⟩] .unit (emitter.releaseCode ⟨18⟩)).run
    dropped = .ok ⟨4⟩ draft :=
  Step.run_of_result? (by decide +kernel)

theorem builds_boxed : emitter.Builds (.new "wrapped") boxed :=
  Emitter.Module.builds_make below_init run_boxed

theorem builds_wrapped : emitter.Builds boxed wrapped :=
  Emitter.Module.builds_make below_init run_wrapped

theorem builds_shared : emitter.Builds wrapped shared :=
  Emitter.Module.builds_make below_init run_shared

theorem builds_dropped : emitter.Builds shared dropped :=
  Emitter.Module.builds_release run_dropped

theorem builds_draft : emitter.Builds dropped draft :=
  Emitter.Module.builds_release run_draft

def linked : emitter.Module where
  name := "wrapped"
  draft := draft
  built := (((builds_boxed.trans builds_wrapped).trans builds_shared).trans builds_dropped).trans
    builds_draft
  unit := Step.after emitter.emitPendingGlue draft
  drained := ⟨0, Step.run_of_result? (by decide +kernel)⟩

theorem holds_boxed : linked.Holds "box" [.int] ⟨16⟩ (emitter.makeCode ⟨16⟩ init) :=
  ⟨_, ⟨0⟩, boxed, .refl, run_boxed,
    ((builds_wrapped.trans builds_shared).trans builds_dropped).trans builds_draft,
    by decide +kernel⟩

theorem holds_wrapped : linked.Holds "wrap" [⟨16⟩] ⟨17⟩ (emitter.makeCode ⟨17⟩ init) :=
  ⟨_, ⟨1⟩, wrapped, builds_boxed, run_wrapped,
    (builds_shared.trans builds_dropped).trans builds_draft, by decide +kernel⟩

theorem holds_shared : linked.Holds "share" [⟨17⟩] ⟨18⟩ (emitter.makeCode ⟨18⟩ init) :=
  ⟨_, ⟨2⟩, shared, builds_boxed.trans builds_wrapped, run_shared,
    builds_dropped.trans builds_draft, by decide +kernel⟩

theorem holds_leave : linked.Holds "leave" [⟨18⟩] .unit (emitter.releaseCode ⟨18⟩) := by
  refine ⟨_, ⟨4⟩, draft, ((builds_boxed.trans builds_wrapped).trans builds_shared).trans
    builds_dropped, run_draft, ?_, by decide +kernel⟩
  simp only [linked]
  exact .refl

def number : Ref := ⟨⟨16⟩, 0x10000000⟩

def wrapper : Ref := ⟨⟨17⟩, 0x10000020⟩

def owner : Ref := ⟨⟨18⟩, 0x10000048⟩

/-- The machine with a number, a reference to it in a block, and a reference to that in another. -/
def machine₁ : Machine := Step.after (linked.program.run "box" [.int 7]) (.new 100)

def machine₂ : Machine := Step.after (linked.program.run "wrap" [.ptr number.addr]) machine₁

def machine₃ : Machine := Step.after (linked.program.run "share" [.ptr wrapper.addr]) machine₂

theorem nested_number : Nested linked machine₁ [number] :=
  .inner holds_boxed below_init rfl (show _ = some (.owning, .int) from rfl) (by decide +kernel)
    (Exec.run_of_pointer? (r := number.addr) (by decide +kernel))

theorem nested_wrapper : Nested linked machine₂ [wrapper, number] :=
  .outer nested_number holds_wrapped
    (show emitter.pool.reference? ⟨17⟩ = some (.owning, number.type) from rfl)
    (Exec.run_of_pointer? (r := wrapper.addr) (by decide +kernel))

theorem nested_owner : Nested linked machine₃ [owner, wrapper, number] :=
  .outer nested_wrapper holds_shared
    (show emitter.pool.reference? ⟨18⟩ = some (.counted, wrapper.type) from rfl)
    (Exec.run_of_pointer? (r := owner.addr) (by decide +kernel))

end Wrapped

/-- The block of a number stays live when the reference to the reference to it is let go of. -/
theorem nested_release_leaves_number : Nested Wrapped.linked Wrapped.machine₂
      [Wrapped.wrapper, Wrapped.number]
    ∧ Wrapped.machine₂.heap.liveBlocks = 2
    ∧ ∃ m', (Wrapped.linked.program.run "drop" [.ptr Wrapped.wrapper.addr]).run Wrapped.machine₂
        = .ok none m'
      ∧ m'.heap.freeLog = [0x10000020] ∧ m'.heap.isLive 0x10000000 = true
      ∧ m'.heap.liveBlocks = 1 :=
  ⟨Wrapped.nested_wrapper, by decide +kernel, _,
    Exec.run_of_isNone (by decide +kernel), by decide +kernel,
    by decide +kernel, by decide +kernel⟩

/-- Three blocks, of which the outermost is counted. -/
theorem nested_release_owner : Nested Wrapped.linked Wrapped.machine₃
      [Wrapped.owner, Wrapped.wrapper, Wrapped.number]
    ∧ Wrapped.machine₃.heap.liveBlocks = 3
    ∧ ∃ m', (Wrapped.linked.program.run "leave" [.ptr Wrapped.owner.addr]).run Wrapped.machine₃
        = .ok none m'
      ∧ m'.heap.freeLog = [0x10000040] ∧ m'.heap.liveBlocks = 2
      ∧ m'.heap.isLive (Wrapped.emitter.layouts.base Wrapped.number) = true := by
  obtain ⟨hbefore, -, -, m', hrun, hlog, hlive, hinner⟩ := nested_release (x := Wrapped.owner)
    (show Wrapped.emitter.SymbolsApart by decide) rfl Wrapped.nested_owner Wrapped.holds_leave
    (by decide +kernel)
  exact ⟨Wrapped.nested_owner, hbefore, m', hrun, hlog, hlive,
    (hinner Wrapped.number (List.mem_cons_of_mem _ List.mem_cons_self)).1⟩

end Ownership
