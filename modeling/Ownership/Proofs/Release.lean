import Ownership.Proofs.Counting
import Ownership.Proofs.Units

/-!
# Releases in memory

The code that lets go of references does what a ledger says. In a scene
where the holders balance (`Layouts.Ready`), the release of a reference
and the glue functions behind it let go of the reference and of the
leaves, in the order and to the extent of `Graph.Releases`, and leave a
heap that shows the ledger then (`Runtime.Lets`). The induction is on the
depth of calls: the glue function of a type runs one level below the code
that calls it, and each call costs a step of the budget.
-/

namespace Ownership

/-! ## What holds while references are let go of -/

/-- The heap shows a ledger in balance. The references `pin` have no holder, and are not freed:
their blocks are being taken apart. -/
structure Layouts.Ready (L : Layouts) (h₀ : Heap) (g : Graph) (slack : Ref → Nat)
    (pin todo : List Ref) (s : Ledger) (h : Heap) : Prop where
  shows : L.Shows g.nodes h₀ s h
  settled : s.Settled
  balanced : g.Balanced slack s.count todo
  known : ∀ x ∈ todo, x ∈ g.nodes
  owning : ∀ x ∈ g.nodes, ∀ layout, L.ref x.type = .ok layout → layout.region = .owning →
    s.count x ≤ 1
  pinned : ∀ x ∈ pin, x ∉ s.freed ∧ s.count x = 0

namespace Layouts.Ready

variable {L : Layouts} {h₀ h h' : Heap} {g : Graph} {slack : Ref → Nat} {pin todo l : List Ref}
  {s s' : Ledger} {x : Ref}

theorem count_pos (hr : L.Ready h₀ g slack pin (x :: todo) s h) : 0 < s.count x :=
  hr.balanced.count_pos (hr.known x List.mem_cons_self)

theorem not_freed (hr : L.Ready h₀ g slack pin (x :: todo) s h) : x ∉ s.freed := fun hx =>
  Nat.ne_of_gt hr.count_pos (hr.settled x hx)

/-- After some references were let go of. -/
theorem after (hr : L.Ready h₀ g slack pin (l ++ todo) s h) (hrel : g.Releases l s s')
    (hshows : L.Shows g.nodes h₀ s' h') : L.Ready h₀ g slack pin todo s' h' := by
  obtain ⟨hbal, new, hnew, -⟩ :=
    hrel.spec (fun x hx => hr.known x (List.mem_append_left _ hx)) hr.balanced
  refine ⟨hshows, hnew.settled hr.settled, hbal,
    fun x hx => hr.known x (List.mem_append_right _ hx),
    fun x hx layout hl hreg => ?_, fun x hx => ⟨fun hfreed => ?_, ?_⟩⟩
  · exact Nat.le_trans (hnew.le x) (hr.owning x hx layout hl hreg)
  · rw [hnew.freed] at hfreed
    rcases List.mem_append.mp hfreed with hold | hnow
    · exact (hr.pinned x hx).1 hold
    · exact ((hnew.mem_iff x).mp hnow).1 (hr.pinned x hx).2
  · exact Nat.le_zero.mp ((hr.pinned x hx).2 ▸ hnew.le x)

/-- The last holder of a reference let go. -/
theorem last (hr : L.Ready h₀ g slack pin (x :: todo) s h) (hz : (s.drop x).count x = 0)
    (hshows : L.Shows g.nodes h₀ (s.drop x) h') :
    L.Ready h₀ g slack (x :: pin) (g.children x ++ todo) (s.drop x) h' := by
  have hx : x ∈ g.nodes := hr.known x List.mem_cons_self
  have hzero : ∀ y, s.count y = 0 → (s.drop x).count y = 0 := fun y hy =>
    Nat.le_zero.mp (hy ▸ s.count_drop_le x y)
  refine ⟨hshows, fun y hy => hzero y (hr.settled y hy), hr.balanced.last hx hz, fun y hy => ?_,
    fun y hy layout hl hreg => ?_, fun y hy => ?_⟩
  · rcases List.mem_append.mp hy with hy | hy
    · exact g.closed x hx y hy
    · exact hr.known y (List.mem_cons_of_mem _ hy)
  · exact Nat.le_trans (s.count_drop_le x y) (hr.owning y hy layout hl hreg)
  · rcases List.mem_cons.mp hy with rfl | hy
    · exact ⟨hr.not_freed, hz⟩
    · exact ⟨(hr.pinned y hy).1, hzero y (hr.pinned y hy).2⟩

end Layouts.Ready

/-! ## Actions that let go of references -/

/-- With a budget of at most `depth`, `x` lets go of the references `l`. -/
def Exec.Lets (L : Layouts) (h₀ : Heap) (g : Graph) (slack : Ref → Nat) (depth : Nat)
    (pin : List Ref) (x : Exec Unit) (l : List Ref) : Prop :=
  ∀ m s todo, m.budget ≤ depth → L.Ready h₀ g slack pin (l ++ todo) s m.heap →
    x.Yields m fun _ m' => m.Becomes m'.heap m'
      ∧ ∃ s', g.Releases l s s' ∧ L.Shows g.nodes h₀ s' m'.heap

namespace Exec

variable {L : Layouts} {h₀ : Heap} {g : Graph} {slack : Ref → Nat} {depth : Nat} {pin : List Ref}
  {x y : Exec Unit} {l l' : List Ref}

theorem lets_pure : Lets L h₀ g slack depth pin (pure ()) [] := fun m s _ _ hr =>
  yields_pure ⟨.refl m, s, .nil s, hr.shows⟩

theorem Lets.seq (hx : Lets L h₀ g slack depth pin x l) (hy : Lets L h₀ g slack depth pin y l') :
    Lets L h₀ g slack depth pin (x >>= fun _ => y) (l ++ l') := by
  intro m s todo hm hr
  rw [List.append_assoc] at hr
  refine (hx m s (l' ++ todo) hm hr).bind ?_
  rintro _ m₁ ⟨hm₁, s₁, hrel₁, hshows₁⟩
  refine (hy m₁ s₁ todo (Nat.le_trans hm₁.budget hm) (hr.after hrel₁ hshows₁)).mono ?_
  rintro _ m₂ ⟨hm₂, s₂, hrel₂, hshows₂⟩
  exact ⟨hm₁.trans hm₂, s₂, hrel₁.append hrel₂, hshows₂⟩

theorem lets_forM {α : Type} {f : α → Exec Unit} {refs : α → List Ref} {as : List α}
    (h : ∀ a ∈ as, Lets L h₀ g slack depth pin (f a) (refs a)) :
    Lets L h₀ g slack depth pin (as.forM f) (as.flatMap refs) := by
  induction as with
  | nil => exact lets_pure
  | cons a as ih =>
      exact (h a List.mem_cons_self).seq (ih fun b hb => h b (List.mem_cons_of_mem _ hb))

end Exec

/-! ## One reference -/

section Reference

variable {e : Emitter} {h₀ : Heap} {g : Graph} {slack : Ref → Nat} {depth : Nat}
  {pin : List Ref} {R : Runtime e} {x : Ref} {layout : RefLayout}

/-- The contents of a block were let go of, and the block is freed. -/
theorem lets_free (hsymbols : e.SymbolsApart) (hg : e.layouts.Scene h₀ g) {m m₁ : Machine}
    {s : Ledger} {todo : List Ref} {a : UInt64} (hx : x ∈ g.nodes) (hz : (s.drop x).count x = 0)
    (hr : e.layouts.Ready h₀ g slack (x :: pin) (g.children x ++ todo) (s.drop x) m.heap)
    (hgo : Exec.Lets e.layouts h₀ g slack depth (x :: pin) (R.letGo layout.pointee (.ptr x.addr))
      (g.children x)) (hm : m.budget ≤ depth) (hm₁ : m₁.Becomes m.heap m)
    (ha : a.toNat = e.layouts.base x) :
    (R.letGo layout.pointee (.ptr x.addr) >>= fun _ => R.freeAt (.ptr a)).Yields m
      fun _ m' => m₁.Becomes m'.heap m'
        ∧ ∃ s', g.Releases [x] s s' ∧ e.layouts.Shows g.nodes h₀ s' m'.heap := by
  refine (hgo m (s.drop x) todo hm hr).bind ?_
  rintro _ m₂ ⟨hm₂, s₂, hrel₂, hshows₂⟩
  have hpinned := (hr.after hrel₂ hshows₂).pinned x List.mem_cons_self
  obtain ⟨h', hfree, hshows'⟩ := hshows₂.free hg.toHoused hx hpinned.1
  rw [← ha] at hfree
  rw [R.freeAt_eq hsymbols]
  refine (Exec.yields_freeAt hfree).mono fun _ m₃ hm₃ => ?_
  exact ⟨((hm₁.trans hm₂).trans hm₃).self, s₂.free x, .last hz hrel₂ (.nil _),
    hm₃.heap ▸ hshows'⟩

theorem lets_owning (hsymbols : e.SymbolsApart) (hg : e.layouts.Scene h₀ g)
    (hl : e.layouts.ref x.type = .ok layout) (hreg : layout.region = .owning)
    (hgo : Exec.Lets e.layouts h₀ g slack depth (x :: pin) (R.letGo layout.pointee (.ptr x.addr))
      (g.children x)) :
    Exec.Lets e.layouts h₀ g slack depth pin
      (R.letGo layout.pointee (.ptr x.addr) >>= fun _ => R.freeAt (.ptr x.addr)) [x] := by
  intro m s todo hm hr
  have hx : x ∈ g.nodes := hr.known x List.mem_cons_self
  have hz : (s.drop x).count x = 0 := by
    have hone := hr.owning x hx layout hl hreg
    rw [s.count_drop_self]
    omega
  have hbase : x.addr.toNat = e.layouts.base x := by
    obtain ⟨-, -, hheader⟩ := Layouts.ref_eq_ok_iff.mp hl
    rw [hreg] at hheader
    rw [Layouts.base_eq hl, Layouts.header_owning hheader]
    rfl
  have hshows := hr.shows.drop_owning hl (by rw [hreg]; decide)
  exact lets_free hsymbols hg hx hz (hr.last hz hshows) hgo hm (.refl m) hbase

theorem lets_counted (hsymbols : e.SymbolsApart) (hg : e.layouts.Scene h₀ g)
    (hwidth : e.layouts.width = e.config.target.width) (hl : e.layouts.ref x.type = .ok layout)
    (hreg : layout.region = .counted)
    (hgo : Exec.Lets e.layouts h₀ g slack depth (x :: pin) (R.letGo layout.pointee (.ptr x.addr))
      (g.children x)) :
    Exec.Lets e.layouts h₀ g slack depth pin (R.decrease layout (.ptr x.addr) (-1)) [x] := by
  intro m s todo hm hr
  have hx : x ∈ g.nodes := hr.known x List.mem_cons_self
  have hone : (-1 : Int64).toInt = -1 := by decide
  have hexact : e.Exact (-1) := by
    refine ⟨by decide, ?_⟩
    cases e.layouts.width <;> decide
  have hpos := hr.count_pos
  refine Runtime.ends_decrease hg.toHoused hwidth hx hl hreg hr.not_freed hr.shows hexact
    (by decide) (by omega) fun counter new m₁ hcounter hnew hm₁ hshows => ?_
  rw [show new.toNat = s.count x - 1 by omega] at hshows
  refine Exec.ends_tick fun m₂ hm₂ _ => ?_
  have hafter : m.Becomes m₂.heap m₂ := (hm₁.trans hm₂).self
  have hshows₂ : e.layouts.Shows g.nodes h₀ (s.drop x) m₂.heap := hm₂.heap ▸ hshows
  have hcount := s.count_drop_self x
  split
  · next hzero =>
      have hz : (s.drop x).count x = 0 := by
        rw [hzero] at hnew
        change (0 : Int) = _ at hnew
        omega
      exact lets_free hsymbols hg hx hz (hr.last hz hshows₂) hgo (Nat.le_trans hafter.budget hm)
        hafter hcounter
  · next hne =>
      refine Exec.yields_pure ⟨hafter, s.drop x, .keep (fun hz => hne ?_) (.nil _), hshows₂⟩
      refine UInt64.toNat_inj.mp ?_
      change new.toNat = 0
      omega

/-- The release of a reference, if its contents are let go of as they should be. -/
theorem lets_release (hsymbols : e.SymbolsApart) (hg : e.layouts.Scene h₀ g)
    (hwidth : e.layouts.width = e.config.target.width)
    (hgo : ∀ layout, e.layouts.ref x.type = .ok layout → layout.region ≠ .borrowed →
      x ∈ g.nodes → Exec.Lets e.layouts h₀ g slack depth (x :: pin)
        (R.letGo layout.pointee (.ptr x.addr)) (g.children x)) :
    Exec.Lets e.layouts h₀ g slack depth pin (R.release x.type (.ptr x.addr)) [x] := by
  intro m s todo hm hr
  have hx : x ∈ g.nodes := hr.known x List.mem_cons_self
  obtain ⟨layout, b₀, hp⟩ := hg.placed x hx
  have hcontents := hgo layout hp.ref hp.region hx
  simp only [Runtime.release, hp.ref]
  cases hreg : layout.region with
  | owning => exact lets_owning hsymbols hg hp.ref hreg hcontents m s todo hm hr
  | counted => exact lets_counted hsymbols hg hwidth hp.ref hreg hcontents m s todo hm hr
  | borrowed => exact absurd hreg hp.region

/-- Letting go of a field of a block that is being taken apart. -/
theorem lets_field (hg : e.layouts.Scene h₀ g) (hl : e.layouts.ref x.type = .ok layout)
    (hx : x ∈ g.nodes) (hpin : x ∈ pin) {off : Nat} {r : FieldRelease}
    (hleaves : ∀ l ∈ e.layouts.releaseLeaves r, l.shift off ∈ e.layouts.leaves layout.pointee)
    (hrelease : ∀ region addr, r.action = .release region →
      Exec.Lets e.layouts h₀ g slack depth pin (R.release r.slot.type (.ptr addr))
        [⟨r.slot.type, addr⟩])
    (hdescend : r.action = .descend → Exec.Lets e.layouts h₀ g slack depth pin
      (R.letGo r.slot.type (.ptr (x.addr + UInt64.ofNat (off + r.slot.offset))))
      (e.layouts.refsAt h₀ r.slot.type (x.addr + UInt64.ofNat (off + r.slot.offset)))) :
    Exec.Lets e.layouts h₀ g slack depth pin
      (R.releaseField (.ptr (x.addr + UInt64.ofNat off)) r)
      ((e.layouts.releaseLeaves r).map (e.layouts.refAt h₀ (x.addr + UInt64.ofNat off))) := by
  intro m s todo hm hr
  have haddr : x.addr + UInt64.ofNat off + UInt64.ofNat r.slot.offset
      = x.addr + UInt64.ofNat (off + r.slot.offset) := by
    rw [UInt64.ofNat_add, UInt64.add_assoc]
  refine (Exec.yields_displaced _ _ m).bind ?_
  rintro _ m₁ ⟨rfl, hm₁⟩
  rw [haddr]
  have hm₁' : m₁.budget ≤ depth := Nat.le_trans hm₁.budget hm
  rw [← hm₁.heap] at hr
  unfold Layouts.releaseLeaves at hr hleaves ⊢
  cases haction : r.action with
  | release region =>
      simp only [haction, List.map_cons, List.map_nil] at hr hleaves ⊢
      have hleaf := hleaves _ (List.mem_singleton.mpr rfl)
      have hload := hr.shows.loadWord_leaf hg hx hl (hr.pinned x hpin).1 hleaf
      obtain ⟨-, region', pointee, hitem, -⟩ :=
        Layouts.leaf_bounds (Layouts.ref_eq_ok_iff.mp hl).2.1 _ hleaf
      refine (Layouts.yields_fetchValue (Layouts.tag_of_reference? hitem) hload).bind ?_
      rintro _ m₂ ⟨rfl, hm₂⟩
      rw [← hm₂.heap] at hr
      have hkept : e.layouts.refAt h₀ (x.addr + UInt64.ofNat off) ⟨r.slot.offset, r.slot.type⟩
          = ⟨r.slot.type, e.layouts.wordAt h₀ (x.addr + UInt64.ofNat (off + r.slot.offset))⟩ := by
        rw [Layouts.refAt, haddr]
      rw [hkept] at hr ⊢
      refine (hrelease region _ haction m₂ s todo (Nat.le_trans hm₂.budget hm₁') hr).mono ?_
      rintro _ m₃ ⟨hm₃, hdone⟩
      exact ⟨(hm₁.trans hm₂).trans hm₃, hdone⟩
  | descend =>
      simp only [haction, List.map_map] at hr ⊢
      have hkept : e.layouts.refAt h₀ (x.addr + UInt64.ofNat off) ∘ Leaf.shift r.slot.offset
          = e.layouts.refAt h₀ (x.addr + UInt64.ofNat (off + r.slot.offset)) := by
        funext l
        rw [Function.comp_apply, Layouts.refAt_shift, haddr]
      rw [hkept] at hr ⊢
      refine (hdescend haction m₁ s todo hm₁' hr).mono ?_
      rintro _ m₂ ⟨hm₂, hdone⟩
      exact ⟨hm₁.trans hm₂, hdone⟩

end Reference

/-! ## Glue -/

namespace Emitter.Module

variable {e : Emitter} {M : e.Module} {h₀ : Heap} {g : Graph} {slack : Ref → Nat} {depth : Nat}

/-- Within `depth` nested calls, every part of a block that is being taken apart is let go of. -/
def LetsGo (M : e.Module) (h₀ : Heap) (g : Graph) (slack : Ref → Nat) (depth : Nat) : Prop :=
  ∀ (pin : List Ref) (x : Ref) (layout : RefLayout) (ty : TypeId) (off : Nat),
    e.layouts.ref x.type = .ok layout → x ∈ g.nodes → x ∈ pin →
    (∀ l ∈ e.layouts.leaves ty, l.shift off ∈ e.layouts.leaves layout.pointee) →
    M.unit.Serves e.layouts ty →
    Exec.Lets e.layouts h₀ g slack depth pin
      ((M.runtime depth).letGo ty (.ptr (x.addr + UInt64.ofNat off)))
      (e.layouts.refsAt h₀ ty (x.addr + UInt64.ofNat off))

theorem LetsGo.release (h : M.LetsGo h₀ g slack depth) (hsymbols : e.SymbolsApart)
    (hg : e.layouts.Scene h₀ g) (hwidth : e.layouts.width = e.config.target.width)
    {pin : List Ref} {x : Ref}
    (hserves : ∀ layout, e.layouts.ref x.type = .ok layout → layout.region ≠ .borrowed →
      M.unit.Serves e.layouts layout.pointee) :
    Exec.Lets e.layouts h₀ g slack depth pin
      ((M.runtime depth).release x.type (.ptr x.addr)) [x] := by
  refine lets_release hsymbols hg hwidth fun layout hl hreg hx => ?_
  have hshift : ∀ l : Leaf, l.shift 0 = l := fun l => by rw [Leaf.shift, Nat.zero_add]
  have hcontents := h (x :: pin) x layout layout.pointee 0 hl hx List.mem_cons_self
    (fun l hleaf => (hshift l).symm ▸ hleaf) (hserves layout hl hreg)
  have haddr : x.addr + UInt64.ofNat 0 = x.addr := UInt64.add_zero x.addr
  rw [hg.children, Layouts.leafRefs_eq hl]
  rw [haddr] at hcontents
  exact hcontents

theorem LetsGo.fields (h : M.LetsGo h₀ g slack depth) (hsymbols : e.SymbolsApart)
    (hg : e.layouts.Scene h₀ g) (hwidth : e.layouts.width = e.config.target.width)
    {pin : List Ref} {x : Ref}
    {layout : RefLayout} {ty : TypeId} {off : Nat} {plan : ReleasePlan}
    (hl : e.layouts.ref x.type = .ok layout) (hx : x ∈ g.nodes) (hpin : x ∈ pin)
    (hleaves : ∀ l ∈ e.layouts.leaves ty, l.shift off ∈ e.layouts.leaves layout.pointee)
    (hplan : e.layouts.IsPlan ty plan) (hserved : ∀ r ∈ plan, M.unit.ServesField e.layouts r) :
    Exec.Lets e.layouts h₀ g slack depth pin
      ((M.runtime depth).releaseFields (.ptr (x.addr + UInt64.ofNat off)) plan)
      (e.layouts.refsAt h₀ ty (x.addr + UInt64.ofNat off)) := by
  rw [Layouts.refsAt_plan hplan]
  refine Exec.lets_forM fun r hr => ?_
  have hinside : ∀ l ∈ e.layouts.releaseLeaves r,
      l.shift off ∈ e.layouts.leaves layout.pointee := fun l hleaf => by
    refine hleaves l ?_
    rw [Layouts.leaves_eq_plan hplan]
    exact List.mem_flatMap.mpr ⟨r, hr, hleaf⟩
  have hfield := hserved r hr
  unfold CodeUnit.ServesField at hfield
  refine lets_field hg hl hx hpin hinside (fun region addr haction => ?_) fun haction => ?_
  · simp only [haction] at hfield
    exact h.release (x := ⟨r.slot.type, addr⟩) hsymbols hg hwidth hfield
  · simp only [haction] at hfield
    refine h pin x layout r.slot.type (off + r.slot.offset) hl hx hpin (fun l hleaf => ?_) hfield
    have hin := hinside (l.shift r.slot.offset) (by
      rw [Layouts.releaseLeaves, haction]
      exact List.mem_map_of_mem hleaf)
    rwa [Leaf.shift, Leaf.shift, ← Nat.add_assoc] at hin

/-- The glue function of a type runs one level below its caller, with less budget. -/
theorem LetsGo.succ (h : M.LetsGo h₀ g slack depth) (hsymbols : e.SymbolsApart)
    (hg : e.layouts.Scene h₀ g) (hwidth : e.layouts.width = e.config.target.width) :
    M.LetsGo h₀ g slack (depth + 1) := by
  intro pin x layout ty off hl hx hpin hleaves hserves
  cases hempty : (e.layouts.leaves ty).isEmpty with
  | true =>
      rw [Runtime.letGo, hempty, if_pos rfl, Layouts.refsAt, List.isEmpty_iff.mp hempty]
      exact Exec.lets_pure
  | false =>
      intro m s todo hm hr
      obtain ⟨id, hid⟩ := hserves hempty
      obtain ⟨plan, hplan, hserved, hcall⟩ := M.callGlue hid
      have hfields := h.fields hsymbols hg hwidth hl hx hpin hleaves (Layouts.plan_ok hplan) hserved
      rw [Runtime.letGo, hempty, if_neg Bool.false_ne_true]
      refine Exec.ends_tick fun m₁ hm₁ hlt => ?_
      have hglue : (M.runtime (depth + 1)).unit.glueFor? ty = some id := hid
      have hbody : (M.runtime (depth + 1)).call id [.ptr (x.addr + UInt64.ofNat off)]
          = _ := hcall depth _
      have hfound : (Step.ofOption .dangling (some id) : Exec FuncId) = pure id := rfl
      rw [hglue, hfound, pure_bind, hbody]
      rw [← hm₁.heap] at hr
      have hdone := hfields { m₁ with slots := [] } s todo (show m₁.budget ≤ depth by omega) hr
      refine (Exec.yields_inCall (Q := fun _ h => ∃ s', g.Releases _ s s' ∧ e.layouts.Shows g.nodes
        h₀ s' h) hdone).bind ?_
      rintro _ m₂ ⟨hm₂, -, -, hrel⟩
      exact Exec.yields_pure ⟨hm₁.trans hm₂, hrel⟩

theorem letsGo_zero : M.LetsGo h₀ g slack 0 := by
  intro pin x layout ty off hl hx hpin hleaves hserves
  cases hempty : (e.layouts.leaves ty).isEmpty with
  | true =>
      rw [Runtime.letGo, hempty, if_pos rfl, Layouts.refsAt, List.isEmpty_iff.mp hempty]
      exact Exec.lets_pure
  | false =>
      intro m s todo hm hr
      rw [Runtime.letGo, hempty, if_neg Bool.false_ne_true]
      exact Exec.ends_tick fun m₁ hm₁ hlt => by omega

theorem letsGo (hsymbols : e.SymbolsApart) (hg : e.layouts.Scene h₀ g)
    (hwidth : e.layouts.width = e.config.target.width) : ∀ depth, M.LetsGo h₀ g slack depth
  | 0 => letsGo_zero
  | depth + 1 => (letsGo hsymbols hg hwidth depth).succ hsymbols hg hwidth

end Emitter.Module

/-! ## Functions that release a reference -/

/-- The body of a function that releases its parameter. -/
def Emitter.releaseCode (e : Emitter) (ty : TypeId) : Emit Unit := do
  e.release (.value ⟨0⟩) ty
  Emit.edit (·.ret none)

namespace Emitter.Module

variable {e : Emitter} {M : e.Module} {name : String} {ty : TypeId}

theorem emits_release {u : CodeUnit} {d : Draft} (v : Value)
    (h : (e.release (.value ⟨0⟩) ty).run ⟨u, .new name [ty] .unit⟩ = .ok () d) :
    Emits ⟨u, .new name [ty] .unit⟩ d (argFacts [v]) (fun R : Runtime e => R.release ty v)
      fun _ => [] :=
  Emits.release (Builder.open_new ..).isOpen (uses_argFacts rfl) h (List.mem_singleton.mpr rfl)

theorem run_release (hholds : M.Holds name [ty] .unit (e.releaseCode ty)) (v : Value)
    (m : Machine) :
    (M.program.run name [v]).run m = (Exec.inCall
      ((M.runtime m.budget).release ty v >>= fun _ => pure none)).run m := by
  have hperforms : ∃ y, y = (fun R : Runtime e => R.release ty v) ∧ ∀ m : Machine,
      (M.program.run name [v]).run m = (Exec.inCall
        (y (M.runtime m.budget) >>= fun _ => pure none)).run m :=
    hholds.performs rfl (fun h => ⟨_, rfl, emits_release v h⟩) fun _ _ => trivial
  obtain ⟨_, rfl, hrun⟩ := hperforms
  exact hrun m

theorem serves_of_holds (hholds : M.Holds name [ty] .unit (e.releaseCode ty))
    {layout : RefLayout} (hl : e.layouts.ref ty = .ok layout) (hreg : layout.region ≠ .borrowed) :
    M.unit.Serves e.layouts layout.pointee := by
  obtain ⟨u, ⟨⟩, d, id, hrun, hkeeps, -, -⟩ :=
    hholds.emission fun h => (emits_release .unit h).leads.unit
  exact (serves_release hrun hl hreg).mono hkeeps

theorem builds_release {u u' : CodeUnit} {id : FuncId}
    (h : (addEmitted name [ty] .unit (e.releaseCode ty)).run u = .ok id u') : e.Builds u u' :=
  builds_addEmitted (fun hrun => (emits_release .unit hrun).leads.unit) h

/-- A function that releases its parameter lets go of it, unless the budget runs out. -/
theorem yields_release (hsymbols : e.SymbolsApart)
    (hwidth : e.layouts.width = e.config.target.width) {h₀ : Heap} {g : Graph}
    (hg : e.layouts.Scene h₀ g) {slack : Ref → Nat} {x : Ref} {todo : List Ref} {s : Ledger}
    {m : Machine} (hholds : M.Holds name [x.type] .unit (e.releaseCode x.type))
    (hr : e.layouts.Ready h₀ g slack [] (x :: todo) s m.heap) :
    (M.program.run name [.ptr x.addr]).Yields m fun r m' => m.Becomes m'.heap m' ∧ r = none
      ∧ ∃ s', g.Releases [x] s s' ∧ e.layouts.Shows g.nodes h₀ s' m'.heap := by
  have hgo : M.LetsGo h₀ g slack m.budget := letsGo hsymbols hg hwidth m.budget
  have hlets : Exec.Lets e.layouts h₀ g slack m.budget []
      ((M.runtime m.budget).release x.type (.ptr x.addr)) [x] :=
    hgo.release hsymbols hg hwidth fun layout hl hreg => serves_of_holds hholds hl hreg
  have hdone := hlets { m with slots := [] } s todo (Nat.le_refl _) hr
  refine Exec.Ends.of_run_eq ?_ (run_release hholds (.ptr x.addr) m)
  refine (Exec.yields_inCall (Q := fun _ h => ∃ s', g.Releases [x] s s' ∧ e.layouts.Shows g.nodes
    h₀ s' h) hdone).mono ?_
  rintro _ m' ⟨hm', ⟨⟩, rfl, hrel⟩
  exact ⟨hm', rfl, hrel⟩

end Emitter.Module

end Ownership
