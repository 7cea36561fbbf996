import Ownership.Proofs.Accounting
import Ownership.Proofs.Counter
import Ownership.Proofs.Values

/-!
# Clients of counted memory

A client has some references, and calls functions of three kinds: one
makes a block and takes the references that are put into it, one makes a
copy of a counted reference, and one lets go of a reference. However the
calls are chosen, every block has at any time as many holders as its
count says, where a holder is a copy that the client has or a leaf of a
live block; and nothing goes wrong but that a count is full, or that the
steps or the room for blocks run out (`client_balance`).

`Layouts.Accounts` is the invariant. It is a balance without slack, so
that the release of a reference is known from the ledger of its holders,
whatever the extent of it is.
-/

namespace Ownership

/-! ## Heaps in which every block is accounted for -/

theorem Layouts.refCount_of_tally_pos {L : Layouts} {h : Heap} {x : Ref} {pointee : TypeId}
    (href : L.pool.reference? x.type = some (.counted, pointee)) (hpos : 0 < L.tally h x) :
    ∃ n, L.refCount h x.type x.addr = .ok n ∧ n.toNat = L.tally h x := by
  unfold tally at hpos ⊢
  rw [href] at hpos ⊢
  cases hcount : L.refCount h x.type x.addr with
  | ok n => exact ⟨n, rfl, rfl⟩
  | error s => simp [hcount] at hpos

/-- The live blocks of the heap are those of the references `nodes`, and what the heap has as the
number of holders of such a reference is how often it is held and is a leaf. Leaves lead to older
blocks. -/
structure Layouts.Accounts (L : Layouts) (h : Heap) (held nodes : List Ref) : Prop where
  nodup : nodes.Nodup
  injective : ∀ x ∈ nodes, ∀ y ∈ nodes, L.base x = L.base y → x = y
  live : ∀ a, h.isLive a = true → ∃ x ∈ nodes, L.base x = a
  placed : ∀ x ∈ nodes, ∃ layout b, L.Placed h x layout b
  tally : ∀ x ∈ nodes, L.tally h x = (L.holders h held nodes).count x
  mem_iff : ∀ x, x ∈ nodes ↔ x ∈ L.holders h held nodes
  older : ∀ x ∈ nodes, ∀ y ∈ L.leafRefs h x, L.base y < L.base x

namespace Layouts.Accounts

variable {L : Layouts} {h h' : Heap} {held held' nodes : List Ref} {x : Ref}

theorem mem_of_held (ha : L.Accounts h held nodes) (hx : x ∈ held) : x ∈ nodes :=
  (ha.mem_iff x).mpr (List.mem_append_left _ hx)

theorem mem_of_leaf (ha : L.Accounts h held nodes) {y : Ref} (hy : y ∈ nodes)
    (hx : x ∈ L.leafRefs h y) : x ∈ nodes :=
  (ha.mem_iff x).mpr (List.mem_append_right _ (List.mem_flatMap.mpr ⟨y, hy, hx⟩))

theorem tally_pos (ha : L.Accounts h held nodes) (hx : x ∈ nodes) : 0 < L.tally h x := by
  rw [ha.tally x hx]
  exact List.count_pos_iff.mpr ((ha.mem_iff x).mp hx)

/-- The references with those in their blocks. -/
def graph (ha : L.Accounts h held nodes) : Graph where
  nodes := nodes
  children := L.leafRefs h
  nodup := ha.nodup
  closed := fun _ hx _ hy => ha.mem_of_leaf hx hy

theorem scene (ha : L.Accounts h held nodes) (hs : h.Sound) : L.Scene h ha.graph :=
  ⟨⟨hs.bounded, ha.placed, ha.injective⟩, hs, rfl⟩

/-- There is no slack. -/
theorem balanced (ha : L.Accounts h held nodes) :
    ha.graph.Balanced (fun _ => 0) (L.tally h) held := by
  intro x hx
  have hall : (nodes.filter fun y => L.tally h y ≠ 0) = nodes :=
    List.filter_eq_self.mpr fun y hy => decide_eq_true (Nat.ne_of_gt (ha.tally_pos hy))
  change L.tally h x = 0 + held.count x
    + ((nodes.filter fun y => L.tally h y ≠ 0).flatMap (L.leafRefs h)).count x
  rw [hall, Nat.zero_add, ← List.count_append]
  exact ha.tally x hx

theorem tally_owning (ha : L.Accounts h held nodes) (hx : x ∈ nodes) {layout : RefLayout}
    (hl : L.ref x.type = .ok layout) (hreg : layout.region = .owning) : L.tally h x = 1 := by
  obtain ⟨layout', b, hp⟩ := ha.placed x hx
  obtain rfl := Except.ok.inj (hl.symm.trans hp.ref)
  exact hp.tally_owning (by rw [hreg]; decide)

/-- All is ready for the release of a reference that is held. -/
theorem ready (ha : L.Accounts h held nodes) (hs : h.Sound) (hx : x ∈ held) :
    L.Ready h ha.graph (fun _ => 0) [] (x :: held.erase x) ⟨L.tally h, []⟩ h where
  shows := (ha.scene hs).shows
  settled := nofun
  balanced := fun y hy => by
    rw [← (List.perm_cons_erase hx).count_eq]
    exact ha.balanced y hy
  known := fun y hy => ha.mem_of_held ((List.perm_cons_erase hx).mem_iff.mpr hy)
  owning := fun _ hy _ hl hreg => Nat.le_of_eq (ha.tally_owning hy hl hreg)
  pinned := nofun

/-! ### Changes of the holders -/

/-- A block that is not freed has the count of the ledger, and the leaves that it had. -/
theorem placed_of_shows (ha : L.Accounts h held nodes) (hs : h.Sound) {s : Ledger}
    (hshows : L.Shows nodes h s h') (hx : x ∈ nodes) (hfreed : x ∉ s.freed) (hpos : s.count x ≠ 0)
    (howning : ∀ layout, L.ref x.type = .ok layout → layout.region = .owning → s.count x ≤ 1) :
    (∃ layout b, L.Placed h' x layout b) ∧ L.tally h' x = s.count x
      ∧ L.leafRefs h' x = L.leafRefs h x := by
  have hg := ha.scene hs
  obtain ⟨layout, b₀, hp⟩ := ha.placed x hx
  obtain ⟨b, hb, hsb⟩ := hshows.node x hx hp
  have hp' : L.Placed h' x layout b :=
    ⟨hp.ref, hp.region, base_eq hp.ref ▸ hb, hsb.arena.trans hp.arena, hsb.live.mpr hfreed,
      hsb.size ▸ hp.size⟩
  refine ⟨⟨layout, b, hp'⟩, ?_, ?_⟩
  · cases hreg : layout.region with
    | owning =>
        have hle := howning layout hp.ref hreg
        rw [hp'.tally_owning (by rw [hreg]; decide)]
        omega
    | counted => rw [hp'.tally_counted (hshows.bounded hg.toHoused) hreg, hsb.count hreg]
    | borrowed => exact absurd hreg hp.region
  · rw [leafRefs_eq hp.ref, leafRefs_eq hp.ref]
    refine List.map_congr_left fun l hl => ?_
    rw [refAt, refAt, wordAt, hshows.loadWord_leaf hg hx hp.ref hfreed hl]

/-- A block that is live was so before, and is not freed. -/
theorem live_of_shows (ha : L.Accounts h held nodes) {s : Ledger} (hshows : L.Shows nodes h s h')
    {a : Address} (hlive : h'.isLive a = true) : ∃ x ∈ nodes, x ∉ s.freed ∧ L.base x = a := by
  obtain ⟨b, hb, harena, hblive⟩ := Heap.isLive_iff.mp hlive
  by_cases hnode : ∃ x ∈ nodes, L.base x = a
  · obtain ⟨x, hx, rfl⟩ := hnode
    obtain ⟨layout, b₀, hp⟩ := ha.placed x hx
    obtain ⟨b', hb', hsb⟩ := hshows.node x hx hp
    obtain rfl := Option.some.inj (hb.symm.trans hb')
    exact ⟨x, hx, hsb.live.mp hblive, rfl⟩
  · rw [hshows.elsewhere a fun x hx heq => hnode ⟨x, hx, heq⟩] at hb
    exact absurd (ha.live a (Heap.isLive_iff.mpr ⟨b, hb, harena, hblive⟩)) hnode

/-- What the heap shows is in balance again: what has no holder is freed. -/
theorem of_shows (ha : L.Accounts h held nodes) (hs : h.Sound) {s : Ledger}
    (hshows : L.Shows nodes h s h') (hbal : ha.graph.Balanced (fun _ => 0) s.count held')
    (hknown : ∀ x ∈ held', x ∈ nodes) (hfreed : ∀ x ∈ nodes, x ∈ s.freed ↔ s.count x = 0)
    (howning : ∀ x ∈ nodes, ∀ layout, L.ref x.type = .ok layout → layout.region = .owning →
      s.count x ≤ 1) :
    L.Accounts h' held' (nodes.filter fun x => s.count x ≠ 0) := by
  have hmem : ∀ {x}, x ∈ nodes.filter (fun x => s.count x ≠ 0) ↔ x ∈ nodes ∧ s.count x ≠ 0 := by
    intro x
    rw [List.mem_filter, decide_eq_true_iff]
  have hkept : ∀ x ∈ nodes.filter fun x => s.count x ≠ 0, (∃ layout b, L.Placed h' x layout b)
      ∧ L.tally h' x = s.count x ∧ L.leafRefs h' x = L.leafRefs h x := fun x hx => by
    obtain ⟨hnode, hpos⟩ := hmem.mp hx
    exact ha.placed_of_shows hs hshows hnode (fun hf => hpos ((hfreed x hnode).mp hf)) hpos
      (howning x hnode)
  have hcount : ∀ x ∈ nodes, s.count x
      = (L.holders h' held' (nodes.filter fun x => s.count x ≠ 0)).count x := by
    intro x hx
    have hleaves : (nodes.filter fun x => s.count x ≠ 0).flatMap (L.leafRefs h')
        = (nodes.filter fun x => s.count x ≠ 0).flatMap (L.leafRefs h) :=
      List.flatMap_congr fun y hy => (hkept y hy).2.2
    rw [holders, hleaves, List.count_append, ← Nat.zero_add (held'.count x)]
    exact hbal x hx
  refine ⟨ha.nodup.filter _, fun x hx y hy => ha.injective x (hmem.mp hx).1 y (hmem.mp hy).1,
    fun a hlive => ?_, fun x hx => (hkept x hx).1, fun x hx => ?_,
    fun x => ?_, fun x hx y hy => ?_⟩
  · obtain ⟨x, hx, hnot, hbase⟩ := ha.live_of_shows hshows hlive
    exact ⟨x, hmem.mpr ⟨hx, fun hz => hnot ((hfreed x hx).mpr hz)⟩, hbase⟩
  · rw [(hkept x hx).2.1]
    exact hcount x (hmem.mp hx).1
  · constructor
    · intro hx
      rw [← List.count_pos_iff, ← hcount x (hmem.mp hx).1]
      exact Nat.pos_of_ne_zero (hmem.mp hx).2
    · intro hx
      have hnode : x ∈ nodes := by
        rcases List.mem_append.mp hx with hx | hx
        · exact hknown x hx
        · obtain ⟨y, hy, hxy⟩ := List.mem_flatMap.mp hx
          rw [(hkept y hy).2.2] at hxy
          exact ha.mem_of_leaf (hmem.mp hy).1 hxy
      rw [← List.count_pos_iff, ← hcount x hnode] at hx
      exact hmem.mpr ⟨hnode, Nat.ne_of_gt hx⟩
  · rw [(hkept x hx).2.2] at hy
    exact ha.older x (hmem.mp hx).1 y hy

/-- One holder of a reference less. -/
theorem released (ha : L.Accounts h held nodes) (hs : h.Sound) (hx : x ∈ held) {s : Ledger}
    (hrel : ha.graph.Releases [x] ⟨L.tally h, []⟩ s) (hshows : L.Shows nodes h s h') :
    ∃ nodes', L.Accounts h' (held.erase x) nodes' := by
  have hready := ha.ready hs hx
  have hafter := hready.after (l := [x]) hrel hshows
  have hbal : ha.graph.Balanced (fun _ => 0) (L.tally h) ([x] ++ held.erase x) := hready.balanced
  obtain ⟨-, new, hnew, -⟩ := hrel.spec
    (fun y hy => hready.known y (List.mem_singleton.mp hy ▸ List.mem_cons_self)) hbal
  refine ⟨_, ha.of_shows hs hshows hafter.balanced hafter.known (fun y hy => ?_) hafter.owning⟩
  rw [hnew.freed, List.nil_append, hnew.mem_iff]
  exact and_iff_right (Nat.ne_of_gt (ha.tally_pos hy))

/-- One holder of a counted reference more. -/
theorem retained (ha : L.Accounts h held nodes) (hs : h.Sound) (hx : x ∈ held)
    {layout : RefLayout} (hl : L.ref x.type = .ok layout) (hreg : layout.region = .counted)
    (hshows : L.Shows nodes h (Ledger.tallied ⟨L.tally h, []⟩ x (L.tally h x + 1)) h') :
    ∃ nodes', L.Accounts h' (x :: held) nodes' := by
  have hcount : ∀ y, (Ledger.tallied ⟨L.tally h, []⟩ x (L.tally h x + 1)).count y
      = L.tally h y + [x].count y := by
    intro y
    by_cases hy : y = x
    · rw [hy, Ledger.count_tallied_self, List.count_cons_self, List.count_nil]
    · rw [Ledger.count_tallied_of_ne _ hy, List.count_cons_of_ne (Ne.symm hy), List.count_nil]
      rfl
  have hpos : ∀ y ∈ nodes, (Ledger.tallied ⟨L.tally h, []⟩ x (L.tally h x + 1)).count y ≠ 0 := by
    intro y hy
    have := ha.tally_pos hy
    rw [hcount]
    omega
  refine ⟨_, ha.of_shows hs hshows (fun y hy => ?_) (fun y hy => ?_) (fun y hy => ?_)
    fun y hy layout' hl' hreg' => ?_⟩
  · have hbal : L.tally h y = 0 + held.count y + ha.graph.holdings (L.tally h) y :=
      ha.balanced y hy
    have hsame : ha.graph.holdings (Ledger.tallied ⟨L.tally h, []⟩ x (L.tally h x + 1)).count y
        = ha.graph.holdings (L.tally h) y := Graph.holdings_congr fun z hz _ => by
      simp [hpos z hz, Nat.ne_of_gt (ha.tally_pos hz)]
    have hcons : (x :: held).count y = held.count y + [x].count y := by simp [List.count_cons]
    change _ = 0 + (x :: held).count y + _
    rw [hsame, hcount, hcons]
    omega
  · rcases List.mem_cons.mp hy with rfl | hy
    · exact ha.mem_of_held hx
    · exact ha.mem_of_held hy
  · exact ⟨nofun, fun hz => absurd hz (hpos y hy)⟩
  · have hne : y ≠ x := by
      rintro rfl
      obtain rfl := Except.ok.inj (hl.symm.trans hl')
      rw [hreg] at hreg'
      cases hreg'
    rw [hcount, List.count_cons_of_ne (Ne.symm hne), List.count_nil, ha.tally_owning hy hl' hreg']

/-! ### New blocks -/

/-- A block of a heap lies below the place of the next one. -/
theorem base_lt (ha : L.Accounts h held nodes) (hs : h.Sound) (hx : x ∈ nodes) :
    L.base x < h.nextHeap := by
  obtain ⟨layout, b, hp⟩ := ha.placed x hx
  have hend := (hs.inHeap hp.block hp.arena).2
  have hstride := Heap.add_guard_le_stride b.bytes.size
  have hguard : 0 < Heap.guardSize := by decide
  rw [base_eq hp.ref]
  lia

/-- Memory that stays the same shows the same. -/
theorem same_of_block {layout : RefLayout} {b : Block} (hs : h.Sound) (hs' : h'.Sound)
    (hp : L.Placed h x layout b) (hb : h'.blocks.get? (L.base x) = h.blocks.get? (L.base x)) :
    L.Placed h' x layout b ∧ L.tally h' x = L.tally h x ∧ L.leafRefs h' x = L.leafRefs h x := by
  have hp' : L.Placed h' x layout b := by
    refine ⟨hp.ref, hp.region, ?_, hp.arena, hp.live, hp.size⟩
    rw [← base_eq hp.ref, hb, base_eq hp.ref]
    exact hp.block
  refine ⟨hp', ?_, ?_⟩
  · by_cases hreg : layout.region = .counted
    · rw [hp.tally_counted hs.bounded hreg, hp'.tally_counted hs'.bounded hreg]
    · rw [hp.tally_owning hreg, hp'.tally_owning hreg]
  · rw [leafRefs_eq_refsOf hp hs, leafRefs_eq_refsOf hp' hs']

/-- A new block leaves the others as they are. -/
theorem old_of_puts (ha : L.Accounts h held nodes) (hs : h.Sound) (hs' : h'.Sound) {size : Nat}
    {b : Block} (hputs : (h.reserve size).Puts h.nextHeap b h') {y : Ref} (hy : y ∈ nodes) :
    L.base y ≠ h.nextHeap ∧ (∃ layout b, L.Placed h' y layout b) ∧ L.tally h' y = L.tally h y
      ∧ L.leafRefs h' y = L.leafRefs h y := by
  have hne : L.base y ≠ h.nextHeap := Nat.ne_of_lt (ha.base_lt hs hy)
  obtain ⟨layout, b', hp⟩ := ha.placed y hy
  obtain ⟨hplaced, hsame⟩ := same_of_block hs hs' hp (hputs.elsewhere _ hne)
  exact ⟨hne, ⟨layout, b', hplaced⟩, hsame⟩

/-- What is put into a new block has a leaf as its holder, and no longer the client. -/
theorem holders_perm {given : List Ref} (hleaves : L.leafRefs h' x = given)
    (hsame : ∀ y ∈ nodes, L.leafRefs h' y = L.leafRefs h y) (hheld : given.Subperm held) :
    (L.holders h' (x :: held.diff given) (x :: nodes)).Perm (x :: L.holders h held nodes) := by
  have hdiff : (held.diff given ++ given).Perm held :=
    List.perm_append_comm.trans
      (List.subperm_append_diff_self_of_count_le fun y _ => hheld.count_le y)
  rw [holders, List.flatMap_cons, hleaves, List.flatMap_congr hsame, List.cons_append,
    ← List.append_assoc]
  exact (hdiff.append_right _).cons x

/-- A new block takes over the holders that were put into it. -/
theorem made (ha : L.Accounts h held nodes) (hs : h.Sound) (hs' : h'.Sound) {size : Nat}
    {layout : RefLayout} {c : Contents} {b : Block} {given : List Ref}
    (hputs : (h.reserve size).Puts h.nextHeap b h') (hl : L.ref x.type = .ok layout)
    (hregion : layout.region ≠ .borrowed) (haddr : x.addr.toNat = h.nextHeap + layout.header)
    (hfresh : L.Fresh layout c b)
    (hgiven : L.refsOf b.bytes layout.header layout.pointee = given) (hheld : given.Subperm held) :
    L.Accounts h' (x :: held.diff given) (x :: nodes) := by
  have hbase : L.base x = h.nextHeap := by
    rw [base_eq hl, haddr, Nat.add_sub_cancel]
  have hp : L.Placed h' x layout b := by
    refine ⟨hl, hregion, ?_, hfresh.arena, hfresh.live, hfresh.size⟩
    rw [← base_eq hl, hbase]
    exact hputs.block
  have hleaves : L.leafRefs h' x = given := (leafRefs_eq_refsOf hp hs').trans hgiven
  have htally : L.tally h' x = 1 := by
    by_cases hreg : layout.region = .counted
    · rw [hp.tally_counted hs'.bounded hreg, hfresh.count hreg]
    · exact hp.tally_owning hreg
  have hold : ∀ y ∈ nodes, L.base y ≠ L.base x ∧ (∃ layout b, L.Placed h' y layout b)
      ∧ L.tally h' y = L.tally h y ∧ L.leafRefs h' y = L.leafRefs h y := fun y hy =>
    hbase ▸ ha.old_of_puts hs hs' hputs hy
  have hnew : x ∉ nodes := fun hx => (hold x hx).1 rfl
  have hholders := holders_perm hleaves (fun y hy => (hold y hy).2.2.2) hheld
  refine ⟨List.nodup_cons.mpr ⟨hnew, ha.nodup⟩, ?_, fun a hlive => ?_, ?_, ?_, fun y => ?_, ?_⟩
  · intro y hy z hz heq
    rcases List.mem_cons.mp hy with rfl | hyn <;> rcases List.mem_cons.mp hz with rfl | hzn
    · rfl
    · exact absurd heq.symm (hold z hzn).1
    · exact absurd heq (hold y hyn).1
    · exact ha.injective y hyn z hzn heq
  · by_cases hx : a = h.nextHeap
    · exact ⟨x, List.mem_cons_self, hbase.trans hx.symm⟩
    · obtain ⟨b', hb', hlive'⟩ := Heap.isLive_iff.mp hlive
      rw [hputs.elsewhere a hx] at hb'
      obtain ⟨y, hy, hya⟩ := ha.live a (Heap.isLive_iff.mpr ⟨b', hb', hlive'⟩)
      exact ⟨y, List.mem_cons_of_mem _ hy, hya⟩
  · exact List.forall_mem_cons.mpr ⟨⟨layout, b, hp⟩, fun y hy => (hold y hy).2.1⟩
  · -- the client is the one holder of the new block
    refine List.forall_mem_cons.mpr ⟨?_, fun y hy => ?_⟩
    · have hfree : x ∉ L.holders h held nodes := fun hx => hnew ((ha.mem_iff x).mpr hx)
      rw [htally, hholders.count_eq, List.count_cons_self, List.count_eq_zero.mpr hfree]
    · have hne : x ≠ y := fun heq => hnew (heq ▸ hy)
      rw [(hold y hy).2.2.1, hholders.count_eq, List.count_cons_of_ne hne]
      exact ha.tally y hy
  · rw [hholders.mem_iff, List.mem_cons, List.mem_cons, ha.mem_iff]
  · refine List.forall_mem_cons.mpr ⟨fun y hy => ?_, fun y hy z hz => ?_⟩
    · rw [hleaves] at hy
      rw [hbase]
      exact ha.base_lt hs (ha.mem_of_held (hheld.subset hy))
    · rw [(hold y hy).2.2.2] at hz
      exact ha.older y hy z hz

/-! ### Consequences -/

/-- A client that holds nothing has left no block behind. -/
theorem no_leak (ha : L.Accounts h [] nodes) (a : Address) : h.isLive a = false := by
  -- the newest block would have a holder, and that holder would be newer
  have hnone : nodes = [] := by
    by_contra hne
    obtain ⟨x, hx, hnewest⟩ := nodes.toFinset.exists_max_image L.base
      ((List.toFinset_nonempty_iff nodes).mpr hne)
    rw [List.mem_toFinset] at hx
    obtain ⟨y, hy, hxy⟩ := List.mem_flatMap.mp ((ha.mem_iff x).mp hx)
    exact Nat.not_lt.mpr (hnewest y (List.mem_toFinset.mpr hy)) (ha.older y hy x hxy)
  rw [Bool.eq_false_iff]
  intro hlive
  obtain ⟨x, hx, -⟩ := ha.live a hlive
  rw [hnone] at hx
  cases hx

end Layouts.Accounts

/-! ## Requests of a client -/

/-- A call of a function that makes a reference, copies one or lets go of one. -/
inductive Request where
  | make (name : String) (params : List TypeId) (type : TypeId) (init : Initial)
      (args : List Value)
  | retain (name : String) (x : Ref)
  | release (name : String) (x : Ref)

namespace Request

def run (p : Program) : Request → Exec (Option Value)
  | .make name _ _ _ args => p.run name args
  | .retain name x | .release name x => p.run name [.ptr x.addr]

variable {e : Emitter}

/-- The function is there, and a client with the references `held` may call it: it has what it
passes, and the values that a block is made from have the types of the block. References to
references are not made. -/
inductive Allowed (M : e.Module) (held : List Ref) : Request → Prop where
  | make {name : String} {params : List TypeId} {ty : TypeId} {init : Initial} {args : List Value}
      {region : Region} {pointee : TypeId} (holds : M.Holds name params ty (e.makeCode ty init))
      (reference : e.pool.reference? ty = some (region, pointee))
      (plain : e.pool.isHolder pointee = false)
      (below : ∀ op ∈ init.operands, op.Below params.length)
      (whole : ∀ op, init = .value op → op.typeIn params = pointee)
      (typed : e.pool.HasTypes params args)
      (given : (e.pool.refsGiven params init args).Subperm held) :
      Allowed M held (.make name params ty init args)
  | retain {name : String} {x : Ref} (holds : M.Holds name [x.type] .unit (e.adjustCode x.type 1))
      (mem : x ∈ held) : Allowed M held (.retain name x)
  | release {name : String} {x : Ref} (holds : M.Holds name [x.type] .unit (e.releaseCode x.type))
      (mem : x ∈ held) : Allowed M held (.release name x)

/-- There is room for the block, if one is made. -/
def Fits (L : Layouts) (h : Heap) : Request → Prop
  | .make _ _ ty _ _ => ∀ layout size, L.ref ty = .ok layout → layout.allocSize = .ok size →
      h.nextHeap + Heap.stride size ≤ Heap.stackBase
  | _ => True

/-- What the client has after a call with a result. -/
def heldAfter (pool : Pool) : Request → Option Value → List Ref → List Ref
  | .make _ params ty init args, some (.ptr addr), held =>
    ⟨ty, addr⟩ :: held.diff (pool.refsGiven params init args)
  | .make _ params _ init args, _, held => held.diff (pool.refsGiven params init args)
  | .retain _ x, _, held => x :: held
  | .release _ x, _, held => held.erase x

end Request

/-- The states that a client gets to: the machine, and the references that the client has. -/
inductive Client {e : Emitter} (M : e.Module) : Machine → List Ref → Prop where
  | start (budget : Nat) : Client M (.new budget) []
  | served {m m' : Machine} {held : List Ref} {v : Option Value} (q : Request) : Client M m held →
      q.Allowed M held → q.Fits e.layouts m.heap → (q.run M.program).run m = .ok v m' →
      Client M m' (q.heldAfter e.pool v held)
  /-- A count was full. -/
  | refused {m m' : Machine} {held : List Ref} (q : Request) : Client M m held →
      q.Allowed M held → q.Fits e.layouts m.heap →
      (q.run M.program).run m = .error (.error (.trap .countOverflow)) m' → Client M m' held

/-! ## What a call does -/

/-- What holds of the machine and the references of a client. -/
structure Machine.Serves (L : Layouts) (m : Machine) (held : List Ref) : Prop where
  sound : m.heap.Sound
  cursor : m.heap.nextHeap ≤ Heap.stackBase
  allocated : m.heap.bytesAllocated ≤ m.heap.nextHeap
  accounts : ∃ nodes, L.Accounts m.heap held nodes

namespace Machine.Serves

variable {L : Layouts} {m m' : Machine} {held : List Ref}

theorem new (L : Layouts) (budget : Nat) : (Machine.new budget).Serves L [] where
  sound := Heap.sound_initial
  cursor := show Heap.heapBase ≤ Heap.stackBase by decide
  allocated := Nat.zero_le _
  accounts := ⟨[], List.nodup_nil, nofun, nofun, nofun, nofun, fun _ => Iff.rfl, nofun⟩

/-- The addresses of references that are held fit into words. -/
theorem addr_lt (h : m.Serves L held) {x : Ref} (hx : x ∈ held) :
    x.addr.toNat < 2 ^ L.width.bits := by
  obtain ⟨nodes, ha⟩ := h.accounts
  obtain ⟨layout, b, hp⟩ := ha.placed x (ha.mem_of_held hx)
  have hend := (h.sound.inHeap hp.block hp.arena).2
  have hstride := Heap.add_guard_le_stride b.bytes.size
  obtain ⟨haddr, hsize, -⟩ := hp.addr_eq h.sound.bounded
  have hcursor := h.cursor
  have hbits : Heap.stackBase < 2 ^ L.width.bits := by cases L.width <;> decide
  rw [← Layouts.base_eq hp.ref] at hend
  lia

/-- The heap shows a ledger about the references in it. -/
theorem of_shows (h : m.Serves L held) {held' nodes nodes' : List Ref}
    (ha : L.Accounts m.heap held nodes) {s : Ledger} (hshows : L.Shows nodes m.heap s m'.heap)
    (ha' : L.Accounts m'.heap held' nodes') : m'.Serves L held' where
  sound := hshows.sound (ha.scene h.sound)
  cursor := hshows.nextHeap ▸ h.cursor
  allocated := by
    rw [hshows.nextHeap, hshows.bytesAllocated]
    exact h.allocated
  accounts := ⟨nodes', ha'⟩

end Machine.Serves

namespace Emitter.Module

variable {e : Emitter} {M : e.Module} {m : Machine} {held : List Ref}

/-- A new reference is held, and what was put into its block no longer is. -/
theorem yields_make_request {name : String} {params : List TypeId} {ty : TypeId} {init : Initial}
    {args : List Value} (hm : m.Serves e.layouts held)
    (hq : (Request.make name params ty init args).Allowed M held)
    (hfits : (Request.make name params ty init args).Fits e.layouts m.heap) :
    (M.program.run name args).Yields m fun v m' => m'.Serves e.layouts
      ((Request.make name params ty init args).heldAfter e.pool v held) := by
  cases hq with
  | @make _ _ _ _ _ region pointee hholds hreference hplain hbelow hwhole htyped hgiven =>
      obtain ⟨nodes, ha⟩ := hm.accounts
      obtain ⟨layout, size, c, hl, hregion, hsize, hmakes, hrun⟩ :=
        run_make hholds htyped.length_eq.symm hbelow
      obtain ⟨href, hvalue, -⟩ := Layouts.ref_eq_ok_iff.mp hl
      obtain ⟨-, rfl⟩ := Prod.mk.inj (Option.some.inj (hreference.symm.trans href))
      rw [operandType_new] at hmakes
      have hroom := hfits layout size hl hsize
      have hstride := Heap.add_guard_le_stride size
      have hallocated := hm.allocated
      have hlimits : Heap.stackBase < capacityLimit ∧ capacityLimit < sizeLimit := by decide
      have hmalloc : m.heap.malloc size = .ok (m.heap.nextHeap, _) :=
        Heap.malloc_eq (by lia) (by lia) (by lia)
      have hcapacity : layout.value.size < capacityLimit := by
        obtain ⟨hsum, -⟩ := addSize_ok hsize
        lia
      have henc := hmakes.encodesAll htyped hbelow hwhole hvalue hcapacity
      have hvacant := hm.sound.vacant_of_stride (Or.inl hroom)
      refine (yields_make hm.sound.bounded hvacant hl hsize hmalloc hmakes (List.length_map _) henc
        (hrun m)).mono ?_
      rintro _ m' ⟨-, r, rfl, hr, b, hputs, hfresh⟩
      have hs' := hm.sound.reserved hmalloc (Or.inl hroom) hputs hfresh.arena
        (Except.ok.inj (hfresh.size.symm.trans hsize))
      have hrefs := hmakes.refsOf htyped hbelow hwhole hvalue hplain hfresh.contents fun x hx =>
        hm.addr_lt (hgiven.subset hx)
      have hnext : m'.heap.nextHeap = m.heap.nextHeap + Heap.stride size := hputs.nextHeap
      have htotal : m'.heap.bytesAllocated = m.heap.bytesAllocated + size := hputs.bytesAllocated
      refine ⟨hs', hnext ▸ hroom, by lia, ⟨ty, r⟩ :: nodes, ?_⟩
      exact ha.made (x := ⟨ty, r⟩) hm.sound hs' hputs hl hregion hr hfresh hrefs hgiven

/-- A reference that was let go of is no longer held. -/
theorem yields_release_request {name : String} {x : Ref} (hsymbols : e.SymbolsApart)
    (hwidth : e.layouts.width = e.config.target.width) (hm : m.Serves e.layouts held)
    (hholds : M.Holds name [x.type] .unit (e.releaseCode x.type)) (hx : x ∈ held) :
    (M.program.run name [.ptr x.addr]).Yields m fun _ m' =>
      m'.Serves e.layouts (held.erase x) := by
  obtain ⟨nodes, ha⟩ := hm.accounts
  refine (yields_release hsymbols hwidth (ha.scene hm.sound) hholds (ha.ready hm.sound hx)).mono ?_
  rintro _ m' ⟨-, -, s, hrel, hshows⟩
  obtain ⟨nodes', ha'⟩ := ha.released hm.sound hx hrel hshows
  exact hm.of_shows ha hshows ha'

/-- One more copy is held, or the count was full and nothing has changed. -/
theorem ends_retain_request {name : String} {x : Ref} (htrap : e.config.checks = .trap)
    (hwidth : e.layouts.width = e.config.target.width) (hm : m.Serves e.layouts held)
    (hholds : M.Holds name [x.type] .unit (e.adjustCode x.type 1)) (hx : x ∈ held) :
    (M.program.run name [.ptr x.addr]).Ends m fun r m' =>
      (r = .ok none ∧ m'.Serves e.layouts (x :: held))
        ∨ (r = .error (.error (.trap .countOverflow)) ∧ m'.heap = m.heap) := by
  obtain ⟨nodes, ha⟩ := hm.accounts
  obtain ⟨layout, hl, hreg, -, hrun⟩ := run_adjust hholds (.ptr x.addr)
  have hg := ha.scene hm.sound
  have hnode : x ∈ ha.graph.nodes := ha.mem_of_held hx
  have hone : (1 : Int64).toInt = 1 := by decide
  have hexact : e.Exact 1 := by
    refine ⟨by decide, ?_⟩
    cases e.layouts.width <;> decide
  refine Exec.Ends.of_run_eq (Exec.ends_inCall (Exec.Ends.map ?_)) (hrun m)
  rw [Runtime.adjust, if_neg (by decide)]
  rcases lt_or_ge ((e.layouts.tally m.heap x : Int) + (1 : Int64).toInt)
    (2 ^ e.layouts.width.bits) with hlt | hmany
  · refine Exec.Ends.mono (Runtime.yields_increase (m := { m with slots := [] }) hg.toHoused hwidth
      hnode hl hreg (List.not_mem_nil) hg.shows (by decide) hlt) ?_
    rintro _ m' ⟨_, rfl, hm', hshows⟩
    rw [hone, show ((e.layouts.tally m.heap x : Int) + 1).toNat = e.layouts.tally m.heap x + 1 by
      omega] at hshows
    obtain ⟨nodes', ha'⟩ := ha.retained hm.sound hx hl hreg hshows
    have hserves : Machine.Serves e.layouts { m' with slots := m.slots } (x :: held) :=
      hm.of_shows ha hshows ha'
    exact ⟨hm'.slots, Or.inl ⟨rfl, hserves⟩⟩
  · refine (Runtime.ends_overflow (m := { m with slots := [] }) hg.toHoused htrap hwidth hnode hl
      hreg (List.not_mem_nil) hg.shows hexact hmany).mono ?_
    rintro _ m' ⟨rfl, hm'⟩
    exact ⟨hm'.slots, Or.inr ⟨rfl, hm'.heap⟩⟩

end Emitter.Module

/-- What a call does, unless the steps run out. -/
theorem Request.Allowed.ends {e : Emitter} {M : e.Module} {q : Request} {m : Machine}
    {held : List Ref} (hq : q.Allowed M held) (hsymbols : e.SymbolsApart)
    (htrap : e.config.checks = .trap) (hwidth : e.layouts.width = e.config.target.width)
    (hfits : q.Fits e.layouts m.heap) (hm : m.Serves e.layouts held) :
    (q.run M.program).Ends m fun r m' =>
      (∃ v, r = .ok v ∧ m'.Serves e.layouts (q.heldAfter e.pool v held))
        ∨ (r = .error (.error (.trap .countOverflow)) ∧ m'.heap = m.heap
          ∧ ∃ name x, q = .retain name x) := by
  cases q with
  | make name params ty init args =>
      refine Exec.Ends.mono (Emitter.Module.yields_make_request hm hq hfits) ?_
      rintro _ m' ⟨v, rfl, hm'⟩
      exact Or.inl ⟨v, rfl, hm'⟩
  | retain name x =>
      obtain ⟨⟩ | ⟨hholds, hx⟩ := hq
      refine (Emitter.Module.ends_retain_request htrap hwidth hm hholds hx).mono ?_
      rintro _ m' (⟨rfl, hm'⟩ | ⟨rfl, hheap⟩)
      · exact Or.inl ⟨none, rfl, hm'⟩
      · exact Or.inr ⟨rfl, hheap, name, x, rfl⟩
  | release name x =>
      obtain ⟨⟩ | ⟨⟩ | ⟨hholds, hx⟩ := hq
      refine Exec.Ends.mono
        (Emitter.Module.yields_release_request hsymbols hwidth hm hholds hx) ?_
      rintro _ m' ⟨v, rfl, hm'⟩
      exact Or.inl ⟨v, rfl, hm'⟩

/-- Whatever a client calls, the holders are in balance. -/
theorem Client.serves {e : Emitter} {M : e.Module} (hsymbols : e.SymbolsApart)
    (htrap : e.config.checks = .trap) (hwidth : e.layouts.width = e.config.target.width)
    {m : Machine} {held : List Ref} (h : Client M m held) : m.Serves e.layouts held := by
  induction h with
  | start budget => exact .new e.layouts budget
  | served q _ hq hfits hrun ih =>
      rcases (hq.ends hsymbols htrap hwidth hfits ih).of_ok hrun with ⟨v, hv, hm'⟩ | ⟨hv, -⟩
      · exact Except.ok.inj hv ▸ hm'
      · cases hv
  | refused q _ hq hfits hrun ih =>
      rcases (hq.ends hsymbols htrap hwidth hfits ih).of_error hrun with
        hlimit | ⟨v, hv, -⟩ | ⟨-, hheap, -⟩
      · cases hlimit
      · cases hv
      · exact ⟨hheap ▸ ih.sound, hheap ▸ ih.cursor, hheap ▸ ih.allocated, hheap ▸ ih.accounts⟩

/-- In every state that a client gets to, the live blocks are those of some references. The count of
a counted reference is the number of its holders, the copies that the client has and the leaves of
live blocks. An owning reference has one holder, and every holder leads to a live block. If the
client has nothing, no block is left. No call faults, but that a count is full, or that the steps or
the room for blocks run out; so no block is freed twice. -/
theorem client_balance {e : Emitter} (hsymbols : e.SymbolsApart)
    (htrap : e.config.checks = .trap) (hwidth : e.layouts.width = e.config.target.width)
    {M : e.Module} {m : Machine} {held : List Ref} (h : Client M m held) :
    (∃ blocks : List Ref, blocks.Nodup
      ∧ (∀ x ∈ blocks, ∀ y ∈ blocks, e.layouts.base x = e.layouts.base y → x = y)
      ∧ (∀ a, m.heap.isLive a = true ↔ ∃ x ∈ blocks, e.layouts.base x = a)
      ∧ (∀ x ∈ e.layouts.holders m.heap held blocks, x ∈ blocks)
      ∧ ∀ x ∈ blocks,
        (∃ pointee n, e.pool.reference? x.type = some (.counted, pointee)
          ∧ e.layouts.refCount m.heap x.type x.addr = .ok n
          ∧ n.toNat = (e.layouts.holders m.heap held blocks).count x)
        ∨ ∃ pointee, e.pool.reference? x.type = some (.owning, pointee)
          ∧ (e.layouts.holders m.heap held blocks).count x = 1)
    ∧ (held = [] → m.heap.liveBlocks = 0)
    ∧ ∀ q : Request, q.Allowed M held → ∀ s m', (q.run M.program).run m = .error s m' →
      s = .error .stepLimit
        ∨ (s = .error (.trap .countOverflow) ∧ m'.heap = m.heap ∧ ∃ name x, q = .retain name x)
        ∨ ¬ q.Fits e.layouts m.heap := by
  have hm := h.serves hsymbols htrap hwidth
  obtain ⟨blocks, ha⟩ := hm.accounts
  refine ⟨⟨blocks, ha.nodup, ha.injective, fun a => ⟨ha.live a, ?_⟩,
    fun x hx => (ha.mem_iff x).mpr hx, fun x hx => ?_⟩, ?_, fun q hq s m' hrun => ?_⟩
  · rintro ⟨x, hx, rfl⟩
    obtain ⟨layout, b, hp⟩ := ha.placed x hx
    exact Heap.isLive_iff.mpr ⟨b, Layouts.base_eq hp.ref ▸ hp.block, hp.arena, hp.live⟩
  · obtain ⟨layout, b, hp⟩ := ha.placed x hx
    have href := hp.reference?
    rw [← ha.tally x hx]
    cases hreg : layout.region with
    | counted =>
        obtain ⟨n, hcount, hn⟩ := Layouts.refCount_of_tally_pos (hreg ▸ href) (ha.tally_pos hx)
        exact Or.inl ⟨layout.pointee, n, hreg ▸ href, hcount, hn⟩
    | owning => exact Or.inr ⟨layout.pointee, hreg ▸ href, ha.tally_owning hx hp.ref hreg⟩
    | borrowed => exact absurd hreg hp.region
  · rintro rfl
    exact Heap.liveBlocks_eq_zero ha.no_leak
  · by_cases hfits : q.Fits e.layouts m.heap
    · rcases (hq.ends hsymbols htrap hwidth hfits hm).of_error hrun with
        hlimit | ⟨v, hv, -⟩ | ⟨hs, hrest⟩
      · exact Or.inl hlimit
      · cases hv
      · exact Or.inr (Or.inl ⟨Except.error.inj hs, hrest⟩)
    · exact Or.inr (Or.inr hfits)

namespace Pairs

/-- Functions that make a cell, copy it, make a pair of cells and let go of a pair. -/
def shared : CodeUnit :=
  Step.after (Emitter.addEmitted "share" [⟨17⟩] .unit (Shared.emitter.adjustCode ⟨17⟩ 1))
    Cells.made

def paired : CodeUnit :=
  Step.after (Emitter.addEmitted "pair" [⟨17⟩, ⟨17⟩] ⟨19⟩
    (Shared.emitter.makeCode ⟨19⟩ (.fields [.value ⟨0⟩, .value ⟨1⟩]))) shared

def draft : CodeUnit :=
  Step.after (Emitter.addEmitted "drop" [⟨19⟩] .unit (Shared.emitter.releaseCode ⟨19⟩)) paired

theorem run_shared : (Emitter.addEmitted "share" [⟨17⟩] .unit
    (Shared.emitter.adjustCode ⟨17⟩ 1)).run Cells.made = .ok ⟨1⟩ shared :=
  Step.run_of_result? (by decide +kernel)

theorem run_paired : (Emitter.addEmitted "pair" [⟨17⟩, ⟨17⟩] ⟨19⟩
    (Shared.emitter.makeCode ⟨19⟩ (.fields [.value ⟨0⟩, .value ⟨1⟩]))).run shared
      = .ok ⟨2⟩ paired :=
  Step.run_of_result? (by decide +kernel)

theorem run_draft : (Emitter.addEmitted "drop" [⟨19⟩] .unit
    (Shared.emitter.releaseCode ⟨19⟩)).run paired = .ok ⟨4⟩ draft :=
  Step.run_of_result? (by decide +kernel)

theorem below_init : ∀ op ∈ (Initial.fields [.value ⟨0⟩, .value ⟨1⟩]).operands, op.Below 2 := by
  simp [Initial.operands, Operand.Below]

theorem builds_shared : Shared.emitter.Builds Cells.made shared :=
  Emitter.Module.builds_adjust run_shared

theorem builds_paired : Shared.emitter.Builds shared paired :=
  Emitter.Module.builds_make below_init run_paired

theorem builds_draft : Shared.emitter.Builds paired draft :=
  Emitter.Module.builds_release run_draft

def linked : Shared.emitter.Module where
  name := "cells"
  draft := draft
  built := ((Cells.builds_made.trans builds_shared).trans builds_paired).trans builds_draft
  unit := Step.after Shared.emitter.emitPendingGlue draft
  drained := ⟨1, Step.run_of_result? (by decide +kernel)⟩

/-- A cell is made. -/
def makeCell : Request := .make "make" [.int] ⟨17⟩ (.fields [.value ⟨0⟩]) [.int 7]

/-- The cell is copied. -/
def share : Request := .retain "share" Shared.cell

/-- A pair is made from two copies of the cell. -/
def makePair : Request :=
  .make "pair" [⟨17⟩, ⟨17⟩] ⟨19⟩ (.fields [.value ⟨0⟩, .value ⟨1⟩])
    [.ptr Shared.cell.addr, .ptr Shared.cell.addr]

theorem allowed_makeCell : makeCell.Allowed linked [] :=
  .make ⟨_, ⟨0⟩, Cells.made, .refl, Cells.run_made,
      (builds_shared.trans builds_paired).trans builds_draft, by decide +kernel⟩
    (show _ = some (.counted, ⟨16⟩) from rfl) rfl Cells.below_init nofun
    (Pool.hasTypes_cons.mpr ⟨rfl, trivial⟩) (by decide +kernel)

theorem allowed_share {held : List Ref} (h : Shared.cell ∈ held) : share.Allowed linked held :=
  .retain ⟨_, ⟨1⟩, shared, Cells.builds_made, run_shared, builds_paired.trans builds_draft,
    by decide +kernel⟩ h

theorem allowed_makePair :
    makePair.Allowed linked [Shared.cell, Shared.cell, Shared.cell] :=
  .make ⟨_, ⟨2⟩, paired, Cells.builds_made.trans builds_shared, run_paired, builds_draft,
      by decide +kernel⟩
    (show _ = some (.owning, ⟨18⟩) from rfl) rfl below_init nofun
    (Pool.hasTypes_cons.mpr ⟨rfl, Pool.hasTypes_cons.mpr ⟨rfl, trivial⟩⟩) (by decide +kernel)

theorem fits_makeCell : makeCell.Fits Shared.emitter.layouts Heap.initial := by
  intro layout size hl hsize
  obtain rfl : (⟨.counted, ⟨16⟩, ⟨8, 8⟩, 8⟩ : RefLayout) = layout := Except.ok.inj hl
  obtain rfl : 16 = size := Except.ok.inj hsize
  decide

theorem fits_makePair {h : Heap} (hroom : h.nextHeap + Heap.stride 16 ≤ Heap.stackBase) :
    makePair.Fits Shared.emitter.layouts h := by
  intro layout size hl hsize
  obtain rfl : (⟨.owning, ⟨18⟩, ⟨16, 8⟩, 0⟩ : RefLayout) = layout := Except.ok.inj hl
  obtain rfl : 16 = size := Except.ok.inj hsize
  exact hroom

/-- The machine after the cell was made and copied `n` times. -/
def copied : Nat → Machine
  | 0 => Step.after (makeCell.run linked.program) (.new 1000)
  | n + 1 => Step.after (share.run linked.program) (copied n)

/-- The machine after the pair was made. -/
def machine : Machine := Step.after (makePair.run linked.program) (copied 2)

theorem client_machine : Client linked machine [Shared.pair, Shared.cell] := by
  have hcell : Client linked (copied 0) [Shared.cell] :=
    .served makeCell (.start 1000) allowed_makeCell fits_makeCell
      (Exec.run_of_pointer? (r := Shared.cell.addr) (by decide +kernel))
  have hcopy : Client linked (copied 1) [Shared.cell, Shared.cell] :=
    .served share hcell (allowed_share (by decide)) trivial
      (Exec.run_of_isNone (by decide +kernel))
  have hcopies : Client linked (copied 2) [Shared.cell, Shared.cell, Shared.cell] :=
    .served share hcopy (allowed_share (by decide)) trivial
      (Exec.run_of_isNone (by decide +kernel))
  have hpair := Client.served makePair hcopies allowed_makePair (fits_makePair (by decide +kernel))
    (Exec.run_of_pointer? (r := Shared.pair.addr) (by decide +kernel))
  exact hpair

end Pairs

/-- Of the three copies of a cell two are put into a pair: its count is three, and the pair is owned
by the client. -/
theorem client_balance_pair :
    Client Pairs.linked Pairs.machine [Shared.pair, Shared.cell]
    ∧ (∃ blocks : List Ref, blocks.Nodup
      ∧ (∀ x ∈ blocks, ∀ y ∈ blocks,
        Shared.emitter.layouts.base x = Shared.emitter.layouts.base y → x = y)
      ∧ (∀ a, Pairs.machine.heap.isLive a = true
        ↔ ∃ x ∈ blocks, Shared.emitter.layouts.base x = a)
      ∧ (∀ x ∈ Shared.emitter.layouts.holders Pairs.machine.heap [Shared.pair, Shared.cell] blocks,
        x ∈ blocks)
      ∧ ∀ x ∈ blocks,
        (∃ pointee n, Shared.pool.reference? x.type = some (.counted, pointee)
          ∧ Shared.emitter.layouts.refCount Pairs.machine.heap x.type x.addr = .ok n
          ∧ n.toNat = (Shared.emitter.layouts.holders Pairs.machine.heap
            [Shared.pair, Shared.cell] blocks).count x)
        ∨ ∃ pointee, Shared.pool.reference? x.type = some (.owning, pointee)
          ∧ (Shared.emitter.layouts.holders Pairs.machine.heap
            [Shared.pair, Shared.cell] blocks).count x = 1)
    ∧ ∀ q : Request, q.Allowed Pairs.linked [Shared.pair, Shared.cell] → ∀ s m',
      (q.run Pairs.linked.program).run Pairs.machine = .error s m' →
      s = .error .stepLimit
        ∨ (s = .error (.trap .countOverflow) ∧ m'.heap = Pairs.machine.heap
          ∧ ∃ name x, q = .retain name x)
        ∨ ¬ q.Fits Shared.emitter.layouts Pairs.machine.heap := by
  have h := client_balance Shared.symbolsApart rfl rfl Pairs.client_machine
  exact ⟨Pairs.client_machine, h.1, h.2.2⟩

end Ownership
