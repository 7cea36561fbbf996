import Ownership.Proofs.Evaluation
import Ownership.Proofs.Release

/-!
# Well-owned heaps

A heap is well-owned for some references (its roots) if what can be
reached from them through leaves is in order: every reference leads to a
live block of its layout, a block has one type of reference, there is no
cycle, an owning reference has one holder, and a counted block has no
more of them than its count says. On such a heap the release of a root is
the abstract one (`release_refines`): the blocks that lose their last
holder are freed, contents first, the counts of the others go down by the
holders that went, and all else is as before.
-/

namespace Ownership

namespace Layouts

/-- What can be reached from `roots` through leaves. -/
inductive Reaches (L : Layouts) (h : Heap) (roots : List Ref) : Ref → Prop where
  | root {x : Ref} : x ∈ roots → Reaches L h roots x
  | leaf {x y : Ref} : Reaches L h roots x → y ∈ L.leafRefs h x → Reaches L h roots y

/-- The holders of references: the roots, and the leaves of the blocks of `nodes`. -/
def holders (L : Layouts) (h : Heap) (roots nodes : List Ref) : List Ref :=
  roots ++ nodes.flatMap (L.leafRefs h)

/-- The references `nodes` are those that can be reached from `roots`, and are in order. -/
structure WellOwned (L : Layouts) (h : Heap) (roots nodes : List Ref) : Prop where
  nodup : nodes.Nodup
  mem_iff : ∀ x, x ∈ nodes ↔ L.Reaches h roots x
  placed : ∀ x ∈ nodes, ∃ layout b, L.Placed h x layout b
  oneType : ∀ x ∈ nodes, ∀ y ∈ nodes, L.base x = L.base y → x.type = y.type
  acyclic : ∀ x ∈ nodes, ¬ Relation.TransGen (fun y z => y ∈ L.leafRefs h z) x x
  owning : ∀ x ∈ nodes, ∀ pointee, L.pool.reference? x.type = some (.owning, pointee) →
    (L.holders h roots nodes).count x = 1
  counted : ∀ x ∈ nodes, ∀ pointee, L.pool.reference? x.type = some (.counted, pointee) →
    (L.holders h roots nodes).count x ≤ L.tally h x

namespace WellOwned

variable {L : Layouts} {h : Heap} {roots nodes : List Ref}

/-- The references with those in their blocks. -/
def graph (ho : L.WellOwned h roots nodes) : Graph where
  nodes := nodes
  children := L.leafRefs h
  nodup := ho.nodup
  closed := fun x hx y hy => (ho.mem_iff y).mpr (.leaf ((ho.mem_iff x).mp hx) hy)

theorem root_mem (ho : L.WellOwned h roots nodes) {x : Ref} (hx : x ∈ roots) : x ∈ nodes :=
  (ho.mem_iff x).mpr (.root hx)

theorem scene (ho : L.WellOwned h roots nodes) (hs : h.Sound) : L.Scene h ho.graph where
  bounded := hs.bounded
  sound := hs
  children := rfl
  placed := ho.placed
  injective := fun x hx y hy hbase => by
    obtain ⟨layout, b, hp⟩ := ho.placed x hx
    obtain ⟨layout', b', hp'⟩ := ho.placed y hy
    have htype := ho.oneType x hx y hy hbase
    have hl : layout = layout' := by
      have href := hp.ref
      rw [htype, hp'.ref] at href
      exact (Except.ok.inj href).symm
    have haddr : x.addr.toNat = y.addr.toNat := by
      rw [(hp.addr_eq hs.bounded).1, (hp'.addr_eq hs.bounded).1, hbase, hl]
    cases x
    cases y
    exact Ref.mk.injEq .. ▸ ⟨htype, UInt64.toNat_inj.mp haddr⟩

theorem graph_acyclic (ho : L.WellOwned h roots nodes) : ho.graph.Acyclic := ho.acyclic

/-- Every reference has a holder. -/
theorem holders_pos (ho : L.WellOwned h roots nodes) {x : Ref} (hx : x ∈ nodes) :
    0 < (L.holders h roots nodes).count x := by
  rw [List.count_pos_iff, holders, List.mem_append, List.mem_flatMap]
  cases (ho.mem_iff x).mp hx with
  | root hroot => exact Or.inl hroot
  | @leaf y _ hy hxy => exact Or.inr ⟨y, (ho.mem_iff y).mpr hy, hxy⟩

theorem holders_le_tally (ho : L.WellOwned h roots nodes) {x : Ref} (hx : x ∈ nodes) :
    (L.holders h roots nodes).count x ≤ L.tally h x := by
  obtain ⟨layout, b, hp⟩ := ho.placed x hx
  cases hreg : layout.region with
  | owning =>
      rw [hp.tally_owning (by rw [hreg]; decide), ho.owning x hx _ (hreg ▸ hp.reference?)]
  | counted => exact ho.counted x hx _ (hreg ▸ hp.reference?)
  | borrowed => exact absurd hreg hp.region

/-- How many more holders a count has than there are. -/
def slack (L : Layouts) (h : Heap) (roots nodes : List Ref) (x : Ref) : Nat :=
  L.tally h x - (L.holders h roots nodes).count x

theorem ready (ho : L.WellOwned h roots nodes) (hs : h.Sound) :
    L.Ready h ho.graph (slack L h roots nodes) [] roots ⟨L.tally h, []⟩ h where
  shows := (ho.scene hs).shows
  settled := nofun
  balanced := fun x hx => by
    have hle := ho.holders_le_tally hx
    have hall : (nodes.filter fun y => L.tally h y ≠ 0) = nodes :=
      List.filter_eq_self.mpr fun y hy => by
        have h1 := ho.holders_pos hy
        have h2 := ho.holders_le_tally hy
        exact decide_eq_true (by omega)
    have hsplit : (L.holders h roots nodes).count x
        = roots.count x + ho.graph.holdings (L.tally h) x := by
      change _ = _ + ((nodes.filter fun y => L.tally h y ≠ 0).flatMap (L.leafRefs h)).count x
      rw [hall, holders, List.count_append]
    change L.tally h x = slack L h roots nodes x + roots.count x + ho.graph.holdings (L.tally h) x
    rw [slack]
    omega
  known := fun x hx => ho.root_mem hx
  owning := fun x hx layout hl hreg => by
    obtain ⟨layout', b, hp⟩ := ho.placed x hx
    obtain rfl := Except.ok.inj (hl.symm.trans hp.ref)
    exact Nat.le_of_eq (hp.tally_owning (by rw [hreg]; decide))
  pinned := nofun

end WellOwned

end Layouts

/-! ## A shared cell -/

namespace Shared

/-- A cell, a counted reference to it, a pair of such references, and an owning reference to the
pair. -/
def pool : Pool :=
  .ofItems .new [.record ⟨⟨0⟩, [⟨⟨1⟩, .int, none⟩]⟩, .reference .counted ⟨16⟩,
    .record ⟨⟨2⟩, [⟨⟨3⟩, ⟨17⟩, none⟩, ⟨⟨4⟩, ⟨17⟩, none⟩]⟩, .reference .owning ⟨18⟩]

def emitter : Emitter := ⟨⟨pool, .w64⟩, {}⟩

def cell : Ref := ⟨⟨17⟩, 0x10000008⟩

def pair : Ref := ⟨⟨19⟩, 0x10000020⟩

/-- Both fields of the pair are the cell, which has a third holder. -/
def heap : Heap :=
  ((((Heap.initial.withBlock 16).withBlock 16).withWord 0x10000000 3).withWord
    0x10000020 0x10000008).withWord 0x10000028 0x10000008

theorem reachable_heap : heap.Reachable := by
  have hblocks := (Heap.Reachable.initial.withBlock 16).withBlock 16
  exact ((hblocks.withWord _ _).withWord _ _).withWord _ _

theorem leafRefs_pair : emitter.layouts.leafRefs heap pair = [cell, cell] := by decide +kernel

theorem leafRefs_cell : emitter.layouts.leafRefs heap cell = [] := by decide +kernel

theorem placed_pair : ∃ layout b, emitter.layouts.Placed heap pair layout b :=
  ⟨⟨.owning, ⟨18⟩, ⟨16, 8⟩, 0⟩, _, rfl, by decide, rfl, rfl, rfl, rfl⟩

theorem placed_cell : ∃ layout b, emitter.layouts.Placed heap cell layout b :=
  ⟨⟨.counted, ⟨16⟩, ⟨8, 8⟩, 8⟩, _, rfl, by decide, rfl, rfl, rfl, rfl⟩

/-- Leaves lead from the pair to the cell, and nowhere else. -/
theorem eq_of_leaf {x y : Ref} (hx : x ∈ [pair, cell])
    (hy : y ∈ emitter.layouts.leafRefs heap x) : x = pair ∧ y = cell := by
  rcases List.mem_cons.mp hx with rfl | hx
  · rw [leafRefs_pair] at hy
    exact ⟨rfl, by simpa using hy⟩
  · rw [List.mem_singleton.mp hx, leafRefs_cell] at hy
    cases hy

theorem cell_of_transGen {x y : Ref}
    (h : Relation.TransGen (fun y z => y ∈ emitter.layouts.leafRefs heap z) x y)
    (hy : y ∈ [pair, cell]) : x = cell ∧ y = pair := by
  induction h with
  | single hxy =>
      obtain ⟨hy', hx'⟩ := eq_of_leaf hy hxy
      exact ⟨hx', hy'⟩
  | tail _ hbc ih =>
      obtain ⟨hc, rfl⟩ := eq_of_leaf hy hbc
      exact ⟨(ih (by decide)).1, hc⟩

theorem reaches_iff {roots : List Ref} (hroots : roots ⊆ [pair, cell]) (hpair : pair ∈ roots)
    (x : Ref) : x ∈ [pair, cell] ↔ emitter.layouts.Reaches heap roots x := by
  constructor
  · intro hx
    rcases List.mem_cons.mp hx with rfl | hx
    · exact .root hpair
    · rw [List.mem_singleton.mp hx]
      exact .leaf (.root hpair) (leafRefs_pair ▸ List.mem_cons_self)
  · intro hx
    induction hx with
    | root hroot => exact hroots hroot
    | leaf _ hy ih => rw [(eq_of_leaf ih hy).2]; decide

/-- The heap is well-owned for the pair, and also with the third holder of the cell. -/
theorem wellOwned {roots : List Ref} (hroots : roots = [pair] ∨ roots = [pair, cell]) :
    emitter.layouts.WellOwned heap roots [pair, cell] where
  nodup := by decide
  mem_iff := by rcases hroots with rfl | rfl <;> exact reaches_iff (by decide) (by decide)
  placed := by simpa using ⟨placed_pair, placed_cell⟩
  oneType := by decide +kernel
  acyclic := fun x hx hcycle => by
    obtain ⟨h₁, h₂⟩ := cell_of_transGen hcycle hx
    exact absurd (h₁.symm.trans h₂) (by decide)
  owning := fun x hx pointee href => by
    rcases List.mem_cons.mp hx with rfl | hx
    · rcases hroots with rfl | rfl <;> decide +kernel
    · obtain rfl := List.mem_singleton.mp hx
      cases (Option.some.inj href : (Region.counted, _) = (.owning, pointee))
  counted := fun x hx pointee href => by
    rcases List.mem_cons.mp hx with rfl | hx
    · cases (Option.some.inj href : (Region.owning, _) = (.counted, pointee))
    · obtain rfl := List.mem_singleton.mp hx
      rcases hroots with rfl | rfl <;> decide +kernel

/-- The functions that release a pair and a cell. -/
def pairDraft : CodeUnit :=
  Step.after (Emitter.addEmitted "pair" [⟨19⟩] .unit (emitter.releaseCode ⟨19⟩)) (.new "shared")

def draft : CodeUnit :=
  Step.after (Emitter.addEmitted "cell" [⟨17⟩] .unit (emitter.releaseCode ⟨17⟩)) pairDraft

theorem run_pairDraft : (Emitter.addEmitted "pair" [⟨19⟩] .unit (emitter.releaseCode ⟨19⟩)).run
    (.new "shared") = .ok ⟨1⟩ pairDraft := Step.run_of_result? (by decide +kernel)

theorem run_draft : (Emitter.addEmitted "cell" [⟨17⟩] .unit (emitter.releaseCode ⟨17⟩)).run
    pairDraft = .ok ⟨2⟩ draft := Step.run_of_result? (by decide +kernel)

theorem builds_pairDraft : emitter.Builds (.new "shared") pairDraft :=
  Emitter.Module.builds_release run_pairDraft

theorem builds_draft : emitter.Builds pairDraft draft := Emitter.Module.builds_release run_draft

def unit : CodeUnit := Step.after emitter.emitPendingGlue draft

def linked : emitter.Module where
  name := "shared"
  draft := draft
  built := builds_pairDraft.trans builds_draft
  unit := unit
  drained := ⟨1, Step.run_of_result? (by decide +kernel)⟩

theorem symbolsApart : emitter.SymbolsApart := fun symbols h => by
  obtain rfl := Option.some.inj h
  decide

theorem holds_pair : linked.Holds "pair" [⟨19⟩] .unit (emitter.releaseCode ⟨19⟩) :=
  ⟨_, ⟨1⟩, pairDraft, .refl, run_pairDraft, builds_draft, by decide +kernel⟩

theorem holds_cell : linked.Holds "cell" [⟨17⟩] .unit (emitter.releaseCode ⟨17⟩) :=
  ⟨_, ⟨2⟩, draft, builds_pairDraft, run_draft, .refl, by decide +kernel⟩

end Shared

/-! ## Releases of well-owned references -/

/-- The release of a well-owned reference does what the abstract release does. -/
theorem release_refines {e : Emitter} (hwidth : e.layouts.width = e.config.target.width)
    (hsymbols : e.SymbolsApart) (M : e.Module) {name : String} {x : Ref}
    (hholds : M.Holds name [x.type] .unit (e.releaseCode x.type)) {m : Machine}
    (hreach : m.heap.Reachable) (hcursor : m.heap.nextHeap ≤ Heap.stackBase) {nodes : List Ref}
    (ho : e.layouts.WellOwned m.heap [x] nodes) :
    ∃ s, ho.graph.Releases [x] ⟨e.layouts.tally m.heap, []⟩ s
      ∧ (∀ s', ho.graph.Releases [x] ⟨e.layouts.tally m.heap, []⟩ s' → s' = s)
      ∧ ((∃ m', (M.program.run name [.ptr x.addr]).run m = .error (.error .stepLimit) m')
        ∨ ∃ m', (M.program.run name [.ptr x.addr]).run m = .ok none m'
          ∧ m'.slots = m.slots ∧ e.layouts.Shows nodes m.heap s m'.heap) := by
  have hs := hreach.sound (Or.inl hcursor)
  obtain ⟨s, hrel⟩ := ho.graph_acyclic.exists_releases (fun y hy => ho.root_mem hy)
    ⟨e.layouts.tally m.heap, []⟩
  refine ⟨s, hrel, fun s' hrel' => hrel.unique hrel', ?_⟩
  have hrun := Emitter.Module.yields_release hsymbols hwidth (ho.scene hs) hholds (ho.ready hs)
  rcases hrun.cases with hlimit | ⟨r, m', hok, hm', rfl, s', hrel', hshows⟩
  · exact Or.inl hlimit
  · obtain rfl := hrel.unique hrel'
    exact Or.inr ⟨m', hok, hm'.slots, hshows⟩

namespace Shared

/-- The heap of a pair and a cell, and some steps. -/
def machine : Machine := ⟨heap, 100, []⟩

/-- The machine after the pair was let go of. -/
def released : Machine := Step.after (linked.program.run "pair" [.ptr 0x10000020]) machine

theorem run_pair : (linked.program.run "pair" [.ptr 0x10000020]).run machine = .ok none released :=
  Exec.run_of_isNone (by decide +kernel)

end Shared

/-- The pair is freed, and its cell is left to the third holder. -/
theorem release_refines_pair :
    Shared.heap.Reachable ∧ Shared.emitter.layouts.WellOwned Shared.heap [Shared.pair]
        [Shared.pair, Shared.cell]
      ∧ ∃ s, (Shared.wellOwned (Or.inl rfl)).graph.Releases [Shared.pair]
          ⟨Shared.emitter.layouts.tally Shared.heap, []⟩ s
        ∧ (∀ s', (Shared.wellOwned (Or.inl rfl)).graph.Releases [Shared.pair]
          ⟨Shared.emitter.layouts.tally Shared.heap, []⟩ s' → s' = s)
        ∧ (Shared.linked.program.run "pair" [.ptr 0x10000020]).run Shared.machine
          = .ok none Shared.released
        ∧ Shared.released.slots = []
        ∧ Shared.emitter.layouts.Shows [Shared.pair, Shared.cell] Shared.heap s
          Shared.released.heap
        ∧ Shared.released.heap.frees = 1
        ∧ Shared.emitter.layouts.refCount Shared.released.heap ⟨17⟩ 0x10000008 = .ok 1 := by
  obtain ⟨s, hrel, hunique, hrun⟩ := release_refines (m := Shared.machine) rfl Shared.symbolsApart
    Shared.linked Shared.holds_pair Shared.reachable_heap (by decide +kernel)
    (Shared.wellOwned (Or.inl rfl))
  rcases hrun with ⟨m', hlimit⟩ | ⟨m', hok, hslots, hshows⟩
  · cases Shared.run_pair.symm.trans hlimit
  · obtain ⟨-, rfl⟩ := EStateM.Result.ok.inj (Shared.run_pair.symm.trans hok)
    exact ⟨Shared.reachable_heap, Shared.wellOwned (Or.inl rfl), s, hrel, hunique, Shared.run_pair,
      hslots, hshows, by decide +kernel, by decide +kernel⟩

end Ownership
