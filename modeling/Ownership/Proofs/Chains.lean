import Ownership.Proofs.Accesses
import Ownership.Proofs.Expansion
import Ownership.Proofs.Guards

/-!
# Chains that end in a null link

A node has a number and an owning reference to the next node. The code
that lets go of a node does not ask whether the reference is null: the
glue function of nodes loads the link of what it is given before anything
is freed. So it goes down a chain to its end, and there loads from an
address at which no block is. The release of the head of a chain faults,
also of an empty one, and none of the nodes is freed
(`null_link_faults`).

`Exec.FailsIn` counts the steps to the fault.
-/

namespace Ownership

/-! ## Faults after a number of steps -/

namespace Exec

variable {α β : Type} {x : Exec α} {m m₁ : Machine} {n : Nat} {s : Stop Fault}

/-- The computation changes nothing, and stops with `s` if it has `n` steps for that. -/
def FailsIn (x : Exec α) (m : Machine) (n : Nat) (s : Stop Fault) : Prop :=
  ∃ m', x.run m = .error (if n ≤ m.budget then s else .error .stepLimit) m'
    ∧ m'.heap = m.heap ∧ m'.slots = m.slots

theorem failsIn_outcome (s : Stop Fault) (m : Machine) :
    (outcome (.error s) : Exec α).FailsIn m 0 s := by
  refine ⟨m, ?_, rfl, rfl⟩
  rw [if_pos (Nat.zero_le _)]
  cases s <;> rfl

/-- What would come next is not reached. -/
theorem FailsIn.bind (h : x.FailsIn m n s) (f : α → Exec β) : (x >>= f).FailsIn m n s := by
  obtain ⟨m', hrun, hm'⟩ := h
  exact ⟨m', Step.run_bind_error hrun, hm'⟩

theorem FailsIn.inCall (h : x.FailsIn { m with slots := [] } n s) : (inCall x).FailsIn m n s := by
  obtain ⟨m', hrun, hheap, hslots⟩ := h
  refine ⟨leave m' m.slots, run_inCall_error hrun, ?_, rfl⟩
  rw [leave_of_slots_nil hslots]
  exact hheap

/-- A step that changes nothing goes before. -/
theorem failsIn_tick {x : Exec α} (h : ∀ m₁ : Machine, m₁.heap = m.heap → m₁.slots = m.slots →
    m₁.budget + 1 = m.budget → x.FailsIn m₁ n s) : (tick >>= fun _ => x).FailsIn m (n + 1) s := by
  cases hbudget : m.budget with
  | zero =>
      refine ⟨m, ?_, rfl, rfl⟩
      rw [Step.run_bind_error (run_tick_zero hbudget), hbudget, if_neg (Nat.not_succ_le_zero n)]
  | succ k =>
      obtain ⟨m', hrun, hheap, hslots⟩ := h { m with budget := k } rfl rfl hbudget.symm
      refine ⟨m', ?_, hheap, hslots⟩
      rw [run_after_tick hbudget, hrun, hbudget]
      simp only [Nat.succ_le_succ_iff]

theorem failsIn_displaced {f : UInt64 → Exec α} {a bytes : UInt64}
    (h : ∀ m₁ : Machine, m₁.heap = m.heap → m₁.slots = m.slots → m₁.budget + 1 = m.budget →
      (f (a + bytes)).FailsIn m₁ n s) : (displaced (.ptr a) bytes >>= f).FailsIn m (n + 1) s := by
  rw [show displaced (.ptr a) bytes = tick >>= fun _ => pure (a + bytes) from rfl, bind_assoc]
  simp only [pure_bind]
  exact failsIn_tick h

theorem failsIn_fetchValue {L : Layouts} {ty : TypeId} {a : UInt64} {f : Value → Exec α}
    (h : ∀ m₁ : Machine, m₁.heap = m.heap → m₁.slots = m.slots → m₁.budget + 1 = m.budget →
      (outcome (L.load m.heap ty a) >>= f).FailsIn m₁ n s) :
    (L.fetchValue ty (.ptr a) >>= f).FailsIn m (n + 1) s := by
  rw [show L.fetchValue ty (.ptr a) = tick >>= fun _ => get >>= fun m₁ : Machine =>
    outcome (L.load m₁.heap ty a) from rfl, bind_assoc]
  refine failsIn_tick fun m₁ hheap hslots hbudget => ?_
  obtain ⟨m', hrun, hm'⟩ := h m₁ hheap hslots hbudget
  rw [← hheap] at hrun
  exact ⟨m', hrun, hm'⟩

end Exec

/-! ## Nodes -/

/-- Nodes are records of a number and an owning reference to a node. -/
structure Pool.Links (pool : Pool) (node link : TypeId) : Prop where
  fields : ∃ defn, pool.record? node = some defn
    ∧ defn.fields.map FieldDef.type = [.int, link]
  reference : pool.reference? link = some (.owning, node)

namespace Layouts

variable {L : Layouts} {node link : TypeId}

/-- The link of a node is behind the number, whatever the width of a word. -/
theorem placed_node (h : L.pool.Links node link) : ∃ r value next, L.placed node = some r
    ∧ r.fields = [value, next] ∧ value.type = .int ∧ next.type = link ∧ next.offset = 8 := by
  obtain ⟨⟨⟨name, fields⟩, hdef, htypes⟩, href⟩ := h
  obtain ⟨f, g, rfl, hf, hg⟩ :
      ∃ f g : FieldDef, fields = [f, g] ∧ f.type = .int ∧ g.type = link := by
    cases fields with
    | nil => cases htypes
    | cons f fs =>
        cases fs with
        | nil => simp at htypes
        | cons g gs => simp_all
  have hfields : L.pool.fields node = [f, g] := by simp only [Pool.fields, hdef]
  have hint : L.sizeOf f.type = some ⟨8, 8⟩ := hf ▸ sizeOf_primitive (p := .int) rfl
  have hlink : L.sizeOf g.type = some L.wordLayout :=
    hg ▸ sizeOf_reference (tag_of_reference? (Pool.item?_of_reference? href))
  have hword : L.word = 4 ∨ L.word = 8 := by
    unfold word
    cases L.width <;> decide
  have hfirst : Placement.add .start f ⟨8, 8⟩ = .ok ⟨[⟨0, f.name, f.type, 0⟩], 8, 8⟩ := rfl
  have hadd : ∀ w, w = 4 ∨ w = 8 → Placement.add ⟨[⟨0, f.name, f.type, 0⟩], 8, 8⟩ g ⟨w, w⟩
      = .ok ⟨[⟨0, f.name, f.type, 0⟩, ⟨1, g.name, g.type, 8⟩], 8 + w, 8⟩ := by
    rintro w (rfl | rfl) <;>
      simp [Placement.add, alignSize, addSize, maskUp, sizeLimit, bind, Except.bind, pure,
        Except.pure]
  refine ⟨⟨[⟨0, f.name, f.type, 0⟩, ⟨1, g.name, g.type, 8⟩], 16, 8⟩, _, _, ?_, rfl, hf, hg, rfl⟩
  rw [placed, hfields, placeAll_cons_of hint hfirst,
    placeAll_cons_of hlink (hadd _ hword)]
  rcases hword with hw | hw <;> rw [hw] <;>
    simp [placeAll, Placement.finish, alignSize, addSize, maskUp, sizeLimit, bind, Except.bind,
      pure, Except.pure, Except.toOption]

/-- To let go of what is in a node is to let go of its link. -/
theorem plan_node (h : L.pool.Links node link) {plan : ReleasePlan} (hplan : L.IsPlan node plan) :
    ∃ next : FieldSlot, next.type = link ∧ next.offset = 8
      ∧ plan = [⟨next, .release .owning⟩] := by
  obtain ⟨r, value, next, hr, hfields, hvalue, hnext, hoffset⟩ := placed_node h
  obtain ⟨defn, hdef, -⟩ := h.fields
  rcases hplan with ⟨hnone, -⟩ | ⟨_, r', -, hr', rfl⟩
  · rw [hnone] at hdef
    cases hdef
  · obtain rfl := Option.some.inj (hr.symm.trans hr')
    have hskip : L.slotRelease value = none := by
      unfold slotRelease
      rw [hvalue]
      rfl
    have htake : L.slotRelease next = some ⟨next, .release .owning⟩ := by
      unfold slotRelease
      rw [hnext, Pool.item?_of_reference? h.reference]
    refine ⟨next, hnext, hoffset, ?_⟩
    rw [hfields, List.filterMap_cons_none hskip, List.filterMap_cons_some htake,
      List.filterMap_nil]

theorem leaves_node (h : L.pool.Links node link) : L.leaves node = [⟨8, link⟩] := by
  obtain ⟨r, value, next, hr, -⟩ := placed_node h
  obtain ⟨defn, hdef, -⟩ := h.fields
  have hplan : L.IsPlan node (r.fields.filterMap L.slotRelease) := Or.inr ⟨defn, r, hdef, hr, rfl⟩
  obtain ⟨next, hnext, hoffset, heq⟩ := plan_node h hplan
  rw [leaves_eq_plan hplan, heq, ← hnext, ← hoffset]
  rfl

/-- The nodes at the addresses `nodes` are chained by their links, from `head` to a null link. -/
inductive Chain (L : Layouts) (link : TypeId) (h : Heap) :
    (head : UInt64) → (nodes : List UInt64) → Prop
  | null : Chain L link h 0 []
  | node {a next : UInt64} {nodes : List UInt64} {layout : RefLayout} {b : Block} :
      L.Placed h ⟨link, a⟩ layout b → L.load h link (a + 8) = .ok (.ptr next) →
      Chain L link h next nodes → Chain L link h a (a :: nodes)

/-- There is no block where the link of a node at null would be. -/
theorem load_null {h : Heap} (hs : h.Sound) (hlinks : L.pool.Links node link) :
    L.load h link (0 + 8) = .error (.error (.memory (.outOfBounds 8 L.word))) := by
  have hread : h.read 8 L.word = .error (.error (.outOfBounds 8 L.word)) := by
    refine Heap.read_none (by decide) ?_ ?_
    · unfold word
      cases L.width <;> decide
    · rintro live ⟨base, b, hc, -⟩
      have hbase := (hs.bounds hc.block).1
      have hstart := hc.start
      have hlow : 8 < Heap.heapBase := by decide
      lia
  rw [load_reference (tag_of_reference? (Pool.item?_of_reference? hlinks.reference)), loadWord]
  change (Outcome.ofMemory (h.read 8 L.word) >>= _).map _ = _
  rw [hread]
  rfl

end Layouts

/-! ## Letting go of a chain -/

namespace Emitter.Module

variable {e : Emitter} {M : e.Module} {node link : TypeId}

theorem release_link (hlinks : e.pool.Links node link) (R : Runtime e) (v : Value) :
    R.release link v = (R.letGo node v >>= fun _ => R.freeAt v) := by
  obtain ⟨r, -, -, hr, -⟩ := Layouts.placed_node (L := e.layouts) hlinks
  obtain ⟨defn, hdef, -⟩ := hlinks.fields
  obtain ⟨layout, hl, hregion, hpointee⟩ := Layouts.exists_ref (L := e.layouts) hlinks.reference
    (Layouts.sizeOf_of_placed (Layouts.tag_of_record? hdef) hr)
  simp only [Runtime.release, hl, hregion, hpointee]

/-- The glue function of nodes loads the link, which takes three steps with the call, and lets go
of what it is. -/
theorem failsIn_letGo {depth n : Nat} {m : Machine} {a : UInt64} {s : Stop Fault}
    (hlinks : e.pool.Links node link) (hserves : M.unit.Serves e.layouts node)
    (hdepth : m.budget ≤ depth)
    (h : ∀ (d : Nat) (m₁ : Machine), m₁.heap = m.heap → m₁.budget ≤ d →
      (Exec.outcome (e.layouts.load m.heap link (a + 8)) >>= fun held =>
        (M.runtime d).release link held).FailsIn m₁ n s) :
    ((M.runtime depth).letGo node (.ptr a)).FailsIn m (n + 3) s := by
  have hempty : (e.layouts.leaves node).isEmpty = false := by
    rw [Layouts.leaves_node hlinks]
    rfl
  obtain ⟨id, hid⟩ := hserves hempty
  obtain ⟨plan, hplan, -, hcall⟩ := M.callGlue hid
  obtain ⟨next, hnext, hoffset, rfl⟩ := Layouts.plan_node hlinks (Layouts.plan_ok hplan)
  rw [Runtime.letGo, hempty, if_neg Bool.false_ne_true]
  refine Exec.failsIn_tick fun m₁ hheap₁ _ hbudget₁ => ?_
  -- a step was taken, so there is a level of calls left
  obtain ⟨d, rfl⟩ : ∃ d, depth = d + 1 := ⟨depth - 1, by omega⟩
  have hglue : (M.runtime (d + 1)).unit.glueFor? node = some id := hid
  have hbody : (M.runtime (d + 1)).call id [.ptr a] = _ := hcall d _
  rw [hglue, show (Step.ofOption .dangling (some id) : Exec FuncId) = pure id from rfl, pure_bind,
    hbody]
  refine Exec.FailsIn.bind (Exec.FailsIn.inCall (Exec.FailsIn.bind (Exec.FailsIn.bind ?_ _) _)) _
  refine Exec.failsIn_displaced fun m₂ hheap₂ _ hbudget₂ => ?_
  have haddr : a + UInt64.ofNat next.offset = a + 8 := by rw [hoffset]; rfl
  rw [haddr, hnext]
  refine Exec.failsIn_fetchValue fun m₃ hheap₃ _ hbudget₃ => ?_
  have hsame : m₂.heap = m.heap := hheap₂.trans hheap₁
  rw [hsame]
  refine h d m₃ (hheap₃.trans hsame) ?_
  have : m₂.budget + 1 = m₁.budget := hbudget₂
  omega

/-- A chain is gone down to the null link. -/
theorem failsIn_chain (hlinks : e.pool.Links node link) (hserves : M.unit.Serves e.layouts node)
    {h : Heap} (hs : h.Sound) {head : UInt64} {nodes : List UInt64}
    (hchain : e.layouts.Chain link h head nodes) :
    ∀ {depth : Nat} {m : Machine}, m.heap = h → m.budget ≤ depth →
      ((M.runtime depth).letGo node (.ptr head)).FailsIn m (3 * nodes.length + 3)
        (.error (.memory (.outOfBounds 8 e.layouts.word))) := by
  induction hchain with
  | null =>
      intro depth m hheap hdepth
      refine failsIn_letGo hlinks hserves hdepth fun d m₁ _ _ => ?_
      rw [hheap, Layouts.load_null hs hlinks]
      exact Exec.FailsIn.bind (Exec.failsIn_outcome _ m₁) _
  | node _ hload _ ih =>
      intro depth m hheap hdepth
      refine failsIn_letGo hlinks hserves hdepth fun d m₁ hheap₁ hdepth₁ => ?_
      rw [hheap, hload]
      change ((M.runtime d).release link _).FailsIn m₁ _ _
      rw [release_link hlinks]
      exact Exec.FailsIn.bind (ih (hheap₁.trans hheap) hdepth₁) _

end Emitter.Module

/-- The release of a chain of nodes faults at its null link, if there are steps enough to get there,
and leaves the heap as it is. -/
theorem null_link_faults {e : Emitter} (M : e.Module) {node link : TypeId}
    (hlinks : e.pool.Links node link) {name : String}
    (hholds : M.Holds name [link] .unit (e.releaseCode link)) {m : Machine} (hs : m.heap.Sound)
    {head : UInt64} {nodes : List UInt64} (hchain : e.layouts.Chain link m.heap head nodes) :
    ∃ m', (M.program.run name [.ptr head]).run m = .error (.error
        (if 3 * nodes.length + 3 ≤ m.budget then .memory (.outOfBounds 8 e.layouts.word)
          else .stepLimit)) m'
      ∧ m'.heap = m.heap ∧ m'.slots = m.slots := by
  obtain ⟨r, -, -, hr, -⟩ := Layouts.placed_node (L := e.layouts) hlinks
  obtain ⟨defn, hdef, -⟩ := hlinks.fields
  obtain ⟨layout, hl, hregion, rfl⟩ := Layouts.exists_ref (L := e.layouts) hlinks.reference
    (Layouts.sizeOf_of_placed (Layouts.tag_of_record? hdef) hr)
  have hserves := Emitter.Module.serves_of_holds hholds hl (by rw [hregion]; decide)
  have hfails := Emitter.Module.failsIn_chain hlinks hserves hs hchain
    (m := { m with slots := [] }) rfl (Nat.le_refl m.budget)
  have hrelease : (Exec.inCall ((M.runtime m.budget).release link (.ptr head) >>= fun _ =>
      pure (none : Option Value))).FailsIn m (3 * nodes.length + 3)
        (.error (.memory (.outOfBounds 8 e.layouts.word))) := by
    rw [Emitter.Module.release_link hlinks]
    exact Exec.FailsIn.inCall (Exec.FailsIn.bind (Exec.FailsIn.bind hfails _) _)
  obtain ⟨m', hrun, hm'⟩ := hrelease
  refine ⟨m', ?_, hm'⟩
  rw [Emitter.Module.run_release hholds, hrun]
  split <;> rfl

namespace Chained

/-- Nodes, on a target with words of 32 bits. -/
def emitter : Emitter where
  layouts := ⟨.ofItems .new [.record ⟨⟨0⟩, [⟨⟨1⟩, .int, none⟩, ⟨⟨2⟩, ⟨17⟩, none⟩]⟩,
    .reference .owning ⟨16⟩], .w32⟩
  config := { target := ⟨.w32, some {}⟩ }

theorem links : emitter.pool.Links ⟨16⟩ ⟨17⟩ := ⟨⟨_, rfl, rfl⟩, rfl⟩

/-- A function that lets go of a node. -/
def draft : CodeUnit :=
  Step.after (Emitter.addEmitted "drop" [⟨17⟩] .unit (emitter.releaseCode ⟨17⟩)) (.new "chained")

theorem run_draft : (Emitter.addEmitted "drop" [⟨17⟩] .unit (emitter.releaseCode ⟨17⟩)).run
    (.new "chained") = .ok ⟨1⟩ draft :=
  Step.run_of_result? (by decide +kernel)

def linked : emitter.Module where
  name := "chained"
  draft := draft
  built := Emitter.Module.builds_release run_draft
  unit := Step.after emitter.emitPendingGlue draft
  drained := ⟨1, Step.run_of_result? (by decide +kernel)⟩

theorem holds_drop : linked.Holds "drop" [⟨17⟩] .unit (emitter.releaseCode ⟨17⟩) := by
  refine ⟨_, ⟨1⟩, draft, .refl, run_draft, ?_, by decide +kernel⟩
  simp only [linked]
  exact .refl

/-- A machine with two nodes, of which the second one leads to the first. -/
def machine : Machine :=
  ⟨((Heap.initial.withBlock 16).withBlock 16).withWord 0x10000028 0x10000000, 100, []⟩

theorem sound_machine : machine.heap.Sound := by
  have hblocks := (Heap.Reachable.initial.withBlock 16).withBlock 16
  exact (hblocks.withWord 0x10000028 0x10000000).sound (Or.inr (by decide +kernel))

def layout : RefLayout := ⟨.owning, ⟨16⟩, ⟨16, 8⟩, 0⟩

theorem chain : emitter.layouts.Chain ⟨17⟩ machine.heap 0x10000020 [0x10000020, 0x10000000] := by
  have hsecond : emitter.layouts.Placed machine.heap ⟨⟨17⟩, 0x10000020⟩ layout _ :=
    ⟨rfl, by decide, rfl, rfl, rfl, rfl⟩
  have hfirst : emitter.layouts.Placed machine.heap ⟨⟨17⟩, 0x10000000⟩ layout _ :=
    ⟨rfl, by decide, rfl, rfl, rfl, rfl⟩
  exact .node hsecond (by rfl) (.node hfirst (by rfl) .null)

/-- The release of a node. -/
def drop (addr : UInt64) : Exec (Option Value) := linked.program.run "drop" [.ptr addr]

end Chained

/-- The release of null stops, and so does the release of a chain of two nodes, which both stay
live. -/
theorem null_link_stops_release :
    (Chained.emitter.layouts.Chain ⟨17⟩ Chained.machine.heap 0 []
      ∧ (Step.result? (Chained.drop 0) Chained.machine).isNone = true)
    ∧ Chained.emitter.layouts.Chain ⟨17⟩ Chained.machine.heap 0x10000020 [0x10000020, 0x10000000]
      ∧ (Step.result? (Chained.drop 0x10000020) Chained.machine).isNone = true
      ∧ (Step.after (Chained.drop 0x10000020) Chained.machine).heap.frees = 0
      ∧ (Step.after (Chained.drop 0x10000020) Chained.machine).heap.liveBlocks = 2 :=
  ⟨⟨.null, by decide +kernel⟩, Chained.chain, by decide +kernel, by decide +kernel,
    by decide +kernel⟩

theorem null_link_faults_chained :
    Chained.emitter.layouts.Chain ⟨17⟩ Chained.machine.heap 0x10000020 [0x10000020, 0x10000000]
      ∧ ∃ m', (Chained.drop 0x10000020).run Chained.machine
          = .error (.error (.memory (.outOfBounds 8 4))) m'
        ∧ m'.heap = Chained.machine.heap := by
  obtain ⟨m', hrun, hheap, -⟩ := null_link_faults Chained.linked Chained.links Chained.holds_drop
    Chained.sound_machine Chained.chain
  exact ⟨Chained.chain, m', hrun, hheap⟩

end Ownership
