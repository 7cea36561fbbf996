import Ownership.Proofs.Allocation
import Ownership.Proofs.Owned

/-!
# The life of a counter

A new counted block has one holder. Functions that adjust its count run
on it one after the other, whatever each of them results in; what they do
to the block is what they do to an abstract `Counter`: a number of
holders, until it reaches zero. An adjustment that would leave the range
of counts stops without a trace, the one that takes the last holder away
frees the block, and all later ones find it freed (`counter_life_cycle`).
-/

namespace Ownership

/-! ## Runs one after the other -/

/-- One run on a machine: what it resulted in, with the machines before and after it. -/
structure Episode (α : Type) where
  before : Machine
  result : Outcome α
  after : Machine

namespace Exec

variable {α : Type}

def episode (x : Exec α) (m : Machine) : Episode α :=
  match x.run m with
  | .ok a m' => ⟨m, .ok a, m'⟩
  | .error s m' => ⟨m, .error s, m'⟩

/-- Runs one after the other; a fault ends one run only. -/
def episodes : List (Exec α) → Machine → List (Episode α)
  | [], _ => []
  | x :: xs, m => x.episode m :: episodes xs (x.episode m).after

theorem before_episode (x : Exec α) (m : Machine) : (x.episode m).before = m := by
  unfold episode
  split <;> rfl

theorem Ends.episode {x : Exec α} {m : Machine} {Q : Outcome α → Machine → Prop}
    (h : x.Ends m Q) (hlimit : (x.episode m).result ≠ .error (.error .stepLimit)) :
    Q (x.episode m).result (x.episode m).after := by
  unfold Exec.episode at hlimit ⊢
  cases hrun : x.run m with
  | ok a m' => exact h.of_ok hrun
  | error s m' =>
      rw [hrun] at hlimit
      exact (h.of_error hrun).resolve_left fun hs => hlimit (congrArg Except.error hs)

end Exec

/-! ## Functions that adjust a count -/

/-- The body of a function that changes the number of holders of its parameter. -/
def Emitter.adjustCode (e : Emitter) (ty : TypeId) (delta : Int64) : Emit Unit := do
  e.adjustCount (.value ⟨0⟩) delta ty
  Emit.edit (·.ret none)

namespace Emitter.Module

variable {e : Emitter} {M : e.Module} {name : String} {ty : TypeId} {delta : Int64}

theorem emits_adjust {u : CodeUnit} {d : Draft} (v : Value)
    (h : (e.adjustCount (.value ⟨0⟩) delta ty).run ⟨u, .new name [ty] .unit⟩ = .ok () d) :
    ∃ layout, e.layouts.ref ty = .ok layout ∧ layout.region = .counted ∧ delta ≠ 0
      ∧ Emits ⟨u, .new name [ty] .unit⟩ d (argFacts [v])
        (fun R : Runtime e => R.adjust layout v delta) fun _ => [] :=
  Emits.adjust (Builder.open_new ..).isOpen (uses_argFacts rfl) h (List.mem_singleton.mpr rfl)

theorem builds_adjust {u u' : CodeUnit} {id : FuncId}
    (h : (addEmitted name [ty] .unit (e.adjustCode ty delta)).run u = .ok id u') :
    e.Builds u u' := by
  refine builds_addEmitted (fun hrun => ?_) h
  obtain ⟨layout, -, -, -, hemits⟩ := emits_adjust .unit hrun
  exact hemits.leads.unit

theorem run_adjust (hholds : M.Holds name [ty] .unit (e.adjustCode ty delta)) (v : Value) :
    ∃ layout, e.layouts.ref ty = .ok layout ∧ layout.region = .counted ∧ delta ≠ 0
      ∧ ∀ m : Machine, (M.program.run name [v]).run m = (Exec.inCall
        ((M.runtime m.budget).adjust layout v delta >>= fun _ => pure none)).run m := by
  have hreturns : ∀ _ _ : Unit, Returns [] none none := fun _ _ => trivial
  have hperforms : ∃ y : Runtime e → Exec Unit, (∃ layout, e.layouts.ref ty = .ok layout
      ∧ layout.region = .counted ∧ delta ≠ 0 ∧ y = fun R => R.adjust layout v delta)
      ∧ ∀ m : Machine, (M.program.run name [v]).run m = (Exec.inCall
        (y (M.runtime m.budget) >>= fun _ => pure none)).run m := by
    refine hholds.performs rfl (fun h => ?_) hreturns
    obtain ⟨layout, hl, hreg, hdelta, hemits⟩ := emits_adjust v h
    exact ⟨_, ⟨layout, hl, hreg, hdelta, rfl⟩, hemits⟩
  obtain ⟨_, ⟨layout, hl, hreg, hdelta, rfl⟩, hrun⟩ := hperforms
  exact ⟨layout, hl, hreg, hdelta, hrun⟩

end Emitter.Module

/-! ## Counters -/

/-- The number of holders of a block, until it is freed. -/
inductive Counter where
  | live (count : Nat)
  | freed

namespace Counter

/-- A change of the number of holders, for counts of `bits` bits. The counter lies at `a`. -/
def adjust (bits : Nat) (a : Address) : Counter → Int64 → Outcome (Option Value) × Counter
  | .freed, _ => (.error (.error (.memory (.useAfterFree a))), .freed)
  | .live n, d =>
    if n + d.toInt < 0 then (.error (.error (.trap .countUnderflow)), .live n)
    else if 2 ^ bits ≤ n + d.toInt then (.error (.error (.trap .countOverflow)), .live n)
    else if n + d.toInt = 0 then (.ok none, .freed)
    else (.ok none, .live (n + d.toInt).toNat)

def adjustAll (bits : Nat) (a : Address) : Counter → List Int64 →
    List (Outcome (Option Value) × Counter)
  | _, [] => []
  | c, d :: ds => c.adjust bits a d :: adjustAll bits a (c.adjust bits a d).2 ds

section

variable {bits n : Nat} {a : Address} {d : Int64}

theorem adjust_few (h : n + d.toInt < 0) : (live n).adjust bits a d
    = (.error (.error (.trap .countUnderflow)), .live n) := if_pos h

theorem adjust_many (h : 2 ^ bits ≤ n + d.toInt) : (live n).adjust bits a d
    = (.error (.error (.trap .countOverflow)), .live n) := by
  have hpos : (0 : Int) < 2 ^ bits := Int.pow_pos (by decide)
  rw [adjust, if_neg (by omega), if_pos h]

theorem adjust_fits (hpos : 0 ≤ n + d.toInt) (hlt : n + d.toInt < 2 ^ bits) :
    (live n).adjust bits a d
      = (.ok none, if n + d.toInt = 0 then .freed else .live (n + d.toInt).toNat) := by
  rw [adjust, if_neg (by omega), if_neg (by omega)]
  split <;> rfl

end

/-- The counter as a ledger about one reference. -/
def ledger (x : Ref) : Counter → Ledger
  | .live n => ⟨fun _ => n, []⟩
  | .freed => ⟨fun _ => 0, [x]⟩

end Counter

/-- A run did to the block of `x` what was done to a counter. A fault leaves memory as it was. -/
structure Layouts.Follows (L : Layouts) (h₀ : Heap) (x : Ref) (ep : Episode (Option Value))
    (p : Outcome (Option Value) × Counter) : Prop where
  result : ep.result = p.1
  shows : L.Shows [x] h₀ (p.2.ledger x) ep.after.heap
  unchanged : (∃ s, p.1 = .error s) → ep.after.heap = ep.before.heap

section Adjust

variable {e : Emitter} {R : Runtime e} {h₀ : Heap} {g : Graph} {m : Machine} {x : Ref}
  {layout : RefLayout} {d : Int64}

/-- A block without references inside is freed where no holder is left. -/
theorem yields_freeAtZero (hsymbols : e.SymbolsApart) (hg : e.layouts.Housed h₀ g)
    (hnodes : g.nodes = [x])
    (hleaves : (e.layouts.leaves layout.pointee).isEmpty) {counter new : UInt64}
    (hcounter : counter.toNat = e.layouts.base x)
    (hshows : e.layouts.Shows [x] h₀ ⟨fun _ => new.toNat, []⟩ m.heap) :
    (R.freeAtZero layout (.ptr x.addr) counter new).Yields m fun _ m' => m.Becomes m'.heap m'
      ∧ e.layouts.Shows [x] h₀
        ((if new = 0 then Counter.freed else .live new.toNat).ledger x) m'.heap := by
  refine Exec.ends_tick fun m₁ hm₁ _ => ?_
  rw [← hm₁.heap, ← hnodes] at hshows
  by_cases hzero : new = 0
  · simp only [if_pos hzero, Runtime.letGo, hleaves, if_true, pure_bind]
    obtain ⟨h', hfree, hshows'⟩ :=
      hshows.free hg (hnodes ▸ List.mem_singleton.mpr rfl) List.not_mem_nil
    rw [← hcounter] at hfree
    rw [R.freeAt_eq hsymbols]
    refine (Exec.yields_freeAt hfree).mono fun _ m₂ hm₂ => ⟨(hm₁.trans hm₂).self, ?_⟩
    rw [← hnodes, hm₂.heap]
    exact hshows'.congr (fun _ _ => by subst hzero; rfl) rfl
  · simp only [if_neg hzero]
    exact Exec.yields_pure ⟨hm₁.self, hnodes ▸ hshows⟩

/-- A count that stays in range is changed, and the block is freed if no holder is left. -/
theorem yields_adjust (hsymbols : e.SymbolsApart) (hg : e.layouts.Housed h₀ g)
    (hnodes : g.nodes = [x]) (hwidth : e.layouts.width = e.config.target.width)
    (hl : e.layouts.ref x.type = .ok layout) (hreg : layout.region = .counted)
    (hleaves : (e.layouts.leaves layout.pointee).isEmpty) (hd : e.Exact d) (hne : d ≠ 0) {n : Nat}
    (hshows : e.layouts.Shows g.nodes h₀ ((Counter.live n).ledger x) m.heap)
    (hpos : 0 ≤ n + d.toInt) (hlt : n + d.toInt < 2 ^ e.layouts.width.bits) :
    (R.adjust layout (.ptr x.addr) d).Yields m fun _ m' => m.Becomes m'.heap m'
      ∧ e.layouts.Shows [x] h₀
        ((if n + d.toInt = 0 then Counter.freed else .live (n + d.toInt).toNat).ledger x)
        m'.heap := by
  have hx : x ∈ g.nodes := hnodes ▸ List.mem_singleton.mpr rfl
  have hne' : d.toInt ≠ 0 := fun h => hne (Int64.toInt_inj.mp h)
  have hneg : d < 0 ↔ d.toInt < 0 := Int64.lt_iff_toInt_lt
  have hcount : ∀ y ∈ g.nodes, ∀ {s : Ledger} (k : Nat), (s.tallied x k).count y = k := by
    intro y hy s k
    rw [hnodes, List.mem_singleton] at hy
    rw [hy, Ledger.count_tallied_self]
  rw [Runtime.adjust]
  split
  · next hd' =>
      refine Runtime.ends_decrease hg hwidth hx hl hreg List.not_mem_nil hshows hd
        (hneg.mp hd') hpos fun counter new m₁ hcounter hnew hm₁ hshows₁ => ?_
      change (new.toNat : Int) = n + d.toInt at hnew
      have hshows₁' : e.layouts.Shows [x] h₀ ⟨fun _ => new.toNat, []⟩ m₁.heap :=
        hnodes ▸ hshows₁.congr (fun y hy => (hcount y hy _).symm) rfl
      have hzero : new = 0 ↔ n + d.toInt = 0 := by
        rw [← UInt64.toNat_inj, ← hnew, UInt64.toNat_zero, Int.natCast_eq_zero]
      have hnew' : (if new = 0 then Counter.freed else .live new.toNat)
          = if n + d.toInt = 0 then .freed else .live (n + d.toInt).toNat := by
        rw [← hnew, Int.toNat_natCast, hnew]
        simp only [hzero]
      refine (yields_freeAtZero hsymbols hg hnodes hleaves hcounter hshows₁').mono ?_
      rintro ⟨⟩ m₂ ⟨hm₂, hshows₂⟩
      exact ⟨hm₁.trans hm₂, hnew' ▸ hshows₂⟩
  · next hd' =>
      rw [hneg] at hd'
      refine (Runtime.yields_increase hg hwidth hx hl hreg List.not_mem_nil hshows (by omega)
        hlt).mono ?_
      rintro ⟨⟩ m₁ ⟨hm₁, hshows₁⟩
      refine ⟨hm₁, ?_⟩
      rw [if_neg (show ¬ (n + d.toInt = 0) by omega), ← hnodes]
      exact hshows₁.congr (fun y hy => (hcount y hy _).symm) rfl

/-- An adjustment does to the block what it does to the counter. -/
theorem ends_adjust (hsymbols : e.SymbolsApart) (hg : e.layouts.Housed h₀ g)
    (hnodes : g.nodes = [x]) (htrap : e.config.checks = .trap)
    (hwidth : e.layouts.width = e.config.target.width)
    (hl : e.layouts.ref x.type = .ok layout) (hreg : layout.region = .counted)
    (hleaves : (e.layouts.leaves layout.pointee).isEmpty) (hd : e.Exact d) (hne : d ≠ 0)
    {c : Counter} (hshows : e.layouts.Shows [x] h₀ (c.ledger x) m.heap) :
    (R.adjust layout (.ptr x.addr) d).Ends m fun r m' => m.Becomes m'.heap m'
      ∧ r.map (fun _ => none) = (c.adjust e.layouts.width.bits (e.layouts.base x) d).1
      ∧ e.layouts.Shows [x] h₀
        ((c.adjust e.layouts.width.bits (e.layouts.base x) d).2.ledger x) m'.heap
      ∧ ((∃ s, r = .error s) → m'.heap = m.heap) := by
  have hx : x ∈ g.nodes := hnodes ▸ List.mem_singleton.mpr rfl
  have hneg : d < 0 ↔ d.toInt < 0 := Int64.lt_iff_toInt_lt
  -- a fault leaves what there was
  have hkept : ∀ {m'}, m.Becomes m.heap m' → e.layouts.Shows [x] h₀ (c.ledger x) m'.heap :=
    fun hm' => hm'.heap ▸ hshows
  rw [← hnodes] at hshows
  cases c with
  | freed =>
      refine (Runtime.ends_adjust_dead hg hx hl hreg (List.mem_singleton.mpr rfl) hshows).mono ?_
      rintro _ m' ⟨rfl, hm'⟩
      exact ⟨hm'.self, rfl, hkept hm', fun _ => hm'.heap⟩
  | live n =>
      rcases lt_or_ge (n + d.toInt) 0 with hfew | hpos
      · rw [Counter.adjust_few hfew, Runtime.adjust, if_pos (hneg.mpr (by omega))]
        refine (Runtime.ends_underflow hg htrap hwidth hx hl hreg List.not_mem_nil hshows hd
          hfew).mono ?_
        rintro _ m' ⟨rfl, hm'⟩
        exact ⟨hm'.self, rfl, hkept hm', fun _ => hm'.heap⟩
      rcases lt_or_ge (n + d.toInt) (2 ^ e.layouts.width.bits) with hlt | hmany
      · rw [Counter.adjust_fits hpos hlt]
        refine Exec.Ends.mono
          (yields_adjust hsymbols hg hnodes hwidth hl hreg hleaves hd hne hshows hpos hlt) ?_
        rintro _ m' ⟨_, rfl, hm', hshows'⟩
        exact ⟨hm', rfl, hshows', nofun⟩
      · have hrange : n < 2 ^ e.layouts.width.bits := by
          obtain ⟨_, -, -, hrange⟩ := hshows.loadWord_count hg hx hl hreg List.not_mem_nil
          exact hrange
        have hrange' : (n : Int) < 2 ^ e.layouts.width.bits := by exact_mod_cast hrange
        rw [Counter.adjust_many hmany, Runtime.adjust, if_neg fun h => by have := hneg.mp h; omega]
        refine (Runtime.ends_overflow hg htrap hwidth hx hl hreg List.not_mem_nil hshows hd
          hmany).mono ?_
        rintro _ m' ⟨rfl, hm'⟩
        exact ⟨hm'.self, rfl, hkept hm', fun _ => hm'.heap⟩

end Adjust

/-! ## New blocks -/

/-- The block at `start` is still there, with the same first `off` bytes. -/
structure Heap.Spares (h : Heap) (start off : Nat) (h' : Heap) : Prop where
  bounded : h.Bounded → h'.Bounded
  block {b : Block} : h.blocks.get? start = some b →
    ∃ b', h'.blocks.get? start = some b' ∧ b.Rewrites off b'

namespace Heap

variable {h h₁ h₂ : Heap} {start off : Nat}

theorem Spares.refl (h : Heap) (start off : Nat) : h.Spares start off h :=
  ⟨id, fun {b} hb => ⟨b, hb, rfl, rfl, rfl, fun _ _ => rfl⟩⟩

theorem Spares.trans (hs : h.Spares start off h₁) (hs' : h₁.Spares start off h₂) :
    h.Spares start off h₂ := by
  refine ⟨hs'.bounded ∘ hs.bounded, fun hb => ?_⟩
  obtain ⟨b₁, hb₁, hrw₁⟩ := hs.block hb
  obtain ⟨b₂, hb₂, hrw₂⟩ := hs'.block hb₁
  exact ⟨b₂, hb₂, hrw₁.trans hrw₂ (Nat.le_refl off)⟩

/-- A write further on may go to another block that is in the way. -/
theorem spares_write {a : Address} {data : List UInt8} (hw : h.write a data = .ok h₁)
    (ha : start + off ≤ a) : h.Spares start off h₁ := by
  obtain ⟨base, b₁, hc, -, rfl⟩ := write_ok hw
  refine ⟨fun hd => hd.rewrite hc.block (h.puts_putBlock ..) rfl, fun {b} hb => ?_⟩
  rw [get?_putBlock]
  by_cases hbase : start = base
  · subst hbase
    obtain rfl := Option.some.inj (hb.symm.trans hc.block)
    refine ⟨_, if_pos rfl, rfl, rfl, rfl, fun i hi => ?_⟩
    exact Bytes.get_put_of_not_mem (Or.inl (by omega))
  · exact ⟨b, (if_neg hbase).trans hb, rfl, rfl, rfl, fun _ _ => rfl⟩

end Heap

/-- The machine after something that spares the start of a block, and makes no slot. -/
structure Machine.Spares (m : Machine) (start off : Nat) (m' : Machine) : Prop where
  heap : m.heap.Spares start off m'.heap
  slots : m'.slots = m.slots

theorem Machine.Spares.trans {m m₁ m₂ : Machine} {start off : Nat} (h : m.Spares start off m₁)
    (h' : m₁.Spares start off m₂) : m.Spares start off m₂ :=
  ⟨h.heap.trans h'.heap, h'.slots.trans h.slots⟩

theorem Machine.Becomes.spares {m m' : Machine} (h : m.Becomes m.heap m') (start off : Nat) :
    m.Spares start off m' := ⟨h.heap ▸ .refl m.heap start off, h.slots⟩

theorem Exec.withHeap_ok {f : Heap → Outcome Heap} {m m' : Machine}
    (h : (withHeap f).run m = .ok () m') :
    ∃ h', f m.heap = .ok h' ∧ m' = { m with heap := h' } := by
  cases hf : f m.heap with
  | ok h' =>
      rw [run_withHeap hf] at h
      exact ⟨h', rfl, (EStateM.Result.ok.inj h).2.symm⟩
  | error s =>
      rw [run_withHeap_error hf] at h
      cases h

namespace Layouts

variable {L : Layouts} {ty : TypeId} {a : UInt64} {start off : Nat}

theorem spares_putValue {v : Value} {m m' : Machine} (h : (L.putValue ty a v).run m = .ok () m')
    (ha : start + off ≤ a.toNat) : m.Spares start off m' := by
  obtain ⟨⟨⟩, m₁, h₁, k₁⟩ := Step.bind_ok h
  have htick := ((Exec.yields_tick m).of_ok h₁).1
  obtain ⟨h', hstore, rfl⟩ := Exec.withHeap_ok k₁
  obtain ⟨_, data, -, -, -, -, hw⟩ := store_ok hstore
  exact (htick.spares start off).trans ⟨Heap.spares_write hw ha, rfl⟩

theorem spares_putSlots : ∀ {l : List (FieldSlot × Value)} {m m' : Machine},
    (l.forM (L.putSlot a)).run m = .ok () m' →
    (∀ p ∈ l, start + off ≤ (a + UInt64.ofNat p.1.offset).toNat) → m.Spares start off m'
  | [], m, m', h, _ => by
      obtain ⟨-, rfl⟩ := EStateM.Result.ok.inj h
      exact (Machine.Becomes.refl m).spares start off
  | p :: l, m, m', h, ha => by
      obtain ⟨⟨⟩, m₁, h₁, k₁⟩ := Step.bind_ok h
      obtain ⟨a', m₂, h₂, k₂⟩ := Step.bind_ok h₁
      obtain ⟨rfl, hdisplaced⟩ := (Exec.yields_displaced a _ m).of_ok h₂
      have hput := spares_putValue k₂ (ha p List.mem_cons_self)
      have hrest := spares_putSlots k₁ fun q hq => ha q (List.mem_cons_of_mem p hq)
      exact ((hdisplaced.spares start off).trans hput).trans hrest

end Layouts

namespace Emitter

variable {e : Emitter} {layout : RefLayout} {c : Contents} {typeOf : Operand → TypeId}
  {init : Initial} {vs : List Value} {m m' : Machine}

theorem spares_putContents {ty : TypeId} {a : UInt64} {start off : Nat} {v : ValueLayout}
    (hmakes : e.Makes ty typeOf init vs c) (hvs : vs.length = init.operands.length)
    (hv : e.layouts.sizeOf ty = some v) (ha : a.toNat = start + off)
    (hlimit : a.toNat + v.size < sizeLimit)
    (h : (e.layouts.putContents ty a c).run m = .ok () m') : m.Spares start off m' := by
  cases c with
  | value x => exact Layouts.spares_putValue h (Nat.le_of_eq ha.symm)
  | fields l =>
      obtain ⟨v', hv', hlined⟩ := hmakes.lined hvs
      obtain rfl := Option.some.inj (hv.symm.trans hv')
      refine Layouts.spares_putSlots h fun p hp => ?_
      obtain ⟨layout, -, hends⟩ := hlined.ends p.1 (List.mem_map_of_mem hp)
      rw [toNat_add_ofNat (by omega)]
      omega

/-- The block of a new reference. Its contents may be in other blocks that are in the way. -/
structure Starts (e : Emitter) (layout : RefLayout) (b : Block) : Prop where
  arena : b.arena = .heap
  live : b.live = true
  size : layout.allocSize = .ok b.bytes.size
  count : layout.region = .counted → ofLeBytes (b.bytes.slice 0 e.layouts.word) = 1

/-- An allocation with a result leaves a new block with one holder, whatever there was before. -/
theorem starts_of_allocation {ty : TypeId} {size : Nat} {r : UInt64} (hd : m.heap.Bounded)
    (hl : e.layouts.ref ty = .ok layout) (hsize : layout.allocSize = .ok size)
    (hmakes : e.Makes layout.pointee typeOf init vs c) (hvs : vs.length = init.operands.length)
    (h : (e.allocation layout size c).run m = .ok r m') :
    m'.slots = m.slots ∧ m'.heap.Bounded ∧ r.toNat = m.heap.nextHeap + layout.header
      ∧ ∃ b, m'.heap.blocks.get? m.heap.nextHeap = some b ∧ e.Starts layout b := by
  obtain ⟨hblock, hlimit⟩ := addSize_ok hsize
  obtain ⟨-, hv, -⟩ := Layouts.ref_eq_ok_iff.mp hl
  obtain ⟨⟨heap, hmalloc⟩, -⟩ := of_allocation_ok (hblock ▸ hlimit) h
  obtain ⟨-, hnext, -, hcapacity, hheap⟩ := Heap.malloc_ok hmalloc
  have hstride := Heap.add_guard_le_stride size
  have hnew : heap.blocks.get? m.heap.nextHeap = some ⟨.heap, true, .zeros size⟩ := by
    rw [hheap, Heap.get?_putBlock, if_pos rfl]
  have hstart : (UInt64.ofNat m.heap.nextHeap).toNat = m.heap.nextHeap :=
    UInt64.toNat_ofNat_of_lt' (Nat.lt_of_le_of_lt (Nat.le_add_right _ _) hnext)
  obtain ⟨⟨⟩, m₁, h₁, k₁⟩ := Step.bind_ok h
  obtain ⟨block, m₂, h₂, k₂⟩ := Step.bind_ok k₁
  obtain ⟨payload, m₃, h₃, k₃⟩ := Step.bind_ok k₂
  obtain ⟨⟨⟩, m₄, h₄, k₄⟩ := Step.bind_ok k₃
  obtain ⟨⟨⟩, m₅, h₅, k₅⟩ := Step.bind_ok k₄
  obtain ⟨rfl, rfl⟩ := EStateM.Result.ok.inj k₅
  have hm₁ := ((Exec.yields_tick m).of_ok h₁).1
  have hmalloc₁ : m₁.heap.malloc size = .ok (m.heap.nextHeap, heap) := by
    rw [hm₁.heap]
    exact hmalloc
  obtain ⟨rfl, hm₂⟩ := (Exec.yields_malloc hmalloc₁ hcapacity).of_ok h₂
  have hd₂ : m₂.heap.Bounded := hm₂.heap ▸ hd.malloc hmalloc
  have hb₂ : m₂.heap.blocks.get? m.heap.nextHeap = some ⟨.heap, true, .zeros size⟩ :=
    hm₂.heap ▸ hnew
  obtain ⟨hm₃, hpayload, b₃, hputs, hrw₃, hcount⟩ := (yields_started hd₂ hb₂ rfl hstart hl
    (show layout.header ≤ size by omega)).of_ok h₃
  have hm₄ := ((Exec.yields_tick m₃).of_ok h₄).1
  have hspares := (hm₄.spares m.heap.nextHeap layout.header).trans
    (spares_putContents hmakes hvs hv hpayload (by lia) h₅)
  obtain ⟨b, hb, hrw⟩ := hspares.heap.block hputs.block
  refine ⟨hspares.slots.trans (hm₃.slots.trans (hm₂.slots.trans hm₁.slots)),
    hspares.heap.bounded (hd₂.rewrite hb₂ hputs hrw₃.size), hpayload, b, hb, ?_⟩
  refine ⟨hrw.arena.trans hrw₃.arena, hrw.live.trans hrw₃.live, ?_, fun hreg => ?_⟩
  · rw [hsize, hrw.size, hrw₃.size]
    rfl
  · -- the counter lies in front of the contents
    have hword : e.layouts.word ≤ layout.header := by
      obtain ⟨-, -, hheader⟩ := Layouts.ref_eq_ok_iff.mp hl
      exact (Layouts.header_counted hv (hreg ▸ hheader)).1
    rw [Bytes.slice_congr fun i _ hi => hrw.kept i (by omega)]
    exact hcount hreg

end Emitter

namespace Emitter.Module

variable {e : Emitter} {M : e.Module} {h₀ : Heap} {g : Graph} {x : Ref} {layout : RefLayout}

/-- A function that adjusts the count of a block does to it what it does to the counter. -/
theorem ends_adjust {name : String} {d : Int64} {m : Machine} {c : Counter}
    (hsymbols : e.SymbolsApart) (hg : e.layouts.Housed h₀ g) (hnodes : g.nodes = [x])
    (htrap : e.config.checks = .trap) (hwidth : e.layouts.width = e.config.target.width)
    (hl : e.layouts.ref x.type = .ok layout)
    (hleaves : (e.layouts.leaves layout.pointee).isEmpty) (hd : e.Exact d)
    (hholds : M.Holds name [x.type] .unit (e.adjustCode x.type d))
    (hshows : e.layouts.Shows [x] h₀ (c.ledger x) m.heap) :
    (M.program.run name [.ptr x.addr]).Ends m fun r m' =>
      r = (c.adjust e.layouts.width.bits (e.layouts.base x) d).1
        ∧ e.layouts.Shows [x] h₀
          ((c.adjust e.layouts.width.bits (e.layouts.base x) d).2.ledger x) m'.heap
        ∧ ((∃ s, r = .error s) → m'.heap = m.heap) := by
  obtain ⟨layout', hl', hreg, hne, hrun⟩ := run_adjust hholds (.ptr x.addr)
  obtain rfl := Except.ok.inj (hl.symm.trans hl')
  refine Exec.Ends.of_run_eq (Exec.ends_inCall (Exec.Ends.map ?_)) (hrun m)
  refine (Ownership.ends_adjust (m := { m with slots := [] }) hsymbols hg hnodes htrap hwidth hl
    hreg hleaves hd hne hshows).mono fun r m' ⟨hm', hr, hshows', hkept⟩ => ?_
  refine ⟨hm'.slots, hr, hshows', ?_⟩
  rintro ⟨s, hs⟩
  cases r with
  | ok a => cases hs
  | error s' => exact hkept ⟨s', rfl⟩

/-- Functions that adjust the count of a block, one after the other. -/
theorem follows_adjustAll {adjust : Int64 → String} (hsymbols : e.SymbolsApart)
    (hg : e.layouts.Housed h₀ g) (hnodes : g.nodes = [x]) (htrap : e.config.checks = .trap)
    (hwidth : e.layouts.width = e.config.target.width) (hl : e.layouts.ref x.type = .ok layout)
    (hleaves : (e.layouts.leaves layout.pointee).isEmpty) :
    ∀ {deltas : List Int64} {m : Machine} {c : Counter},
      (∀ d ∈ deltas, M.Holds (adjust d) [x.type] .unit (e.adjustCode x.type d) ∧ e.Exact d) →
      e.layouts.Shows [x] h₀ (c.ledger x) m.heap →
      (∀ ep ∈ Exec.episodes (deltas.map fun d => M.program.run (adjust d) [.ptr x.addr]) m,
        ep.result ≠ .error (.error .stepLimit)) →
      List.Forall₂ (e.layouts.Follows h₀ x)
        (Exec.episodes (deltas.map fun d => M.program.run (adjust d) [.ptr x.addr]) m)
        (c.adjustAll e.layouts.width.bits (e.layouts.base x) deltas)
  | [], _, _, _, _, _ => .nil
  | d :: deltas, m, c, hadjust, hshows, hlimit => by
      obtain ⟨hholds, hd⟩ := hadjust d List.mem_cons_self
      have hends := ends_adjust hsymbols hg hnodes htrap hwidth hl hleaves hd hholds hshows
      obtain ⟨hresult, hshows', hkept⟩ := hends.episode (hlimit _ List.mem_cons_self)
      refine .cons ⟨hresult, hshows', ?_⟩ ?_
      · rintro ⟨s, hs⟩
        rw [Exec.before_episode]
        exact hkept ⟨s, hresult.trans hs⟩
      · exact follows_adjustAll hsymbols hg hnodes htrap hwidth hl hleaves
          (fun d hd => hadjust d (List.mem_cons_of_mem _ hd)) hshows'
          fun ep hep => hlimit ep (List.mem_cons_of_mem _ hep)

/-- The block of a reference that was just made. -/
theorem starts_of_run {name : String} {params : List TypeId} {ty : TypeId} {init : Initial}
    {args : List Value} {m₀ m : Machine} {r : UInt64}
    (hholds : M.Holds name params ty (e.makeCode ty init))
    (hinit : ∀ op ∈ init.operands, op.Below params.length) (hargs : args.length = params.length)
    (hl : e.layouts.ref ty = .ok layout) (hd : m₀.heap.Bounded)
    (hrun : (M.program.run name args).run m₀ = .ok (some (.ptr r)) m) :
    m.heap.Bounded ∧ layout.region ≠ .borrowed ∧ r.toNat = m₀.heap.nextHeap + layout.header
      ∧ ∃ b, m.heap.blocks.get? m₀.heap.nextHeap = some b ∧ e.Starts layout b := by
  obtain ⟨layout', size, c, hl', hregion, hsize, hmakes, hmake⟩ := run_make hholds hargs hinit
  obtain rfl := Except.ok.inj (hl.symm.trans hl')
  obtain ⟨m₁, hcall, rfl⟩ := Exec.inCall_ok ((hmake m₀).symm.trans hrun)
  obtain ⟨r', m₂, hallocation, hpure⟩ := Step.bind_ok hcall
  cases hpure
  obtain ⟨hslots, hd', haddr, hblock⟩ :=
    starts_of_allocation (m := { m₀ with slots := [] }) hd hl hsize hmakes (List.length_map _)
      hallocation
  rw [Exec.leave_of_slots_nil hslots]
  exact ⟨hd', hregion, haddr, hblock⟩

end Emitter.Module

/-- A new block is there with one holder, and the functions that adjust its count do to it, one
after the other, what they do to a counter that starts at 1. -/
theorem counter_life_cycle {e : Emitter} (hwidth : e.layouts.width = e.config.target.width)
    (htrap : e.config.checks = .trap) (hsymbols : e.SymbolsApart) (M : e.Module) {ty : TypeId}
    {layout : RefLayout} (hl : e.layouts.ref ty = .ok layout) (hcounted : layout.region = .counted)
    (hplan : e.layouts.plan layout.pointee = .ok []) {make : String} {params : List TypeId}
    {init : Initial} (hmake : M.Holds make params ty (e.makeCode ty init))
    (hinit : ∀ op ∈ init.operands, op.Below params.length) {adjust : Int64 → String}
    {deltas : List Int64}
    (hadjust : ∀ d ∈ deltas, M.Holds (adjust d) [ty] .unit (e.adjustCode ty d) ∧ e.Exact d)
    {m₀ m : Machine} (hreach : m₀.heap.Reachable) {args : List Value}
    (hargs : args.length = params.length) {r : UInt64}
    (hrun : (M.program.run make args).run m₀ = .ok (some (.ptr r)) m)
    (hlimit : ∀ ep ∈ Exec.episodes (deltas.map fun d => M.program.run (adjust d) [.ptr r]) m,
      ep.result ≠ .error (.error .stepLimit)) :
    (∃ b, e.layouts.Placed m.heap ⟨ty, r⟩ layout b)
      ∧ e.layouts.Shows [⟨ty, r⟩] m.heap ((Counter.live 1).ledger ⟨ty, r⟩) m.heap
      ∧ List.Forall₂ (e.layouts.Follows m.heap ⟨ty, r⟩)
        (Exec.episodes (deltas.map fun d => M.program.run (adjust d) [.ptr r]) m)
        ((Counter.live 1).adjustAll e.layouts.width.bits (e.layouts.base ⟨ty, r⟩) deltas) := by
  obtain ⟨hd, hregion, haddr, b, hb, hstarts⟩ :=
    Emitter.Module.starts_of_run hmake hinit hargs hl hreach.bounded hrun
  have hleaves : e.layouts.leaves layout.pointee = [] := by
    have htrivial := (Layouts.plan_ok hplan).isTrivial_iff
    exact List.isEmpty_iff.mp htrivial.symm
  have hplaced : e.layouts.Placed m.heap ⟨ty, r⟩ layout b := by
    refine ⟨hl, hregion, ?_, hstarts.arena, hstarts.live, hstarts.size⟩
    rw [haddr, Nat.add_sub_cancel]
    exact hb
  have hchildren : e.layouts.leafRefs m.heap ⟨ty, r⟩ = [] := by
    rw [Layouts.leafRefs_eq hl, Layouts.refsAt, hleaves, List.map_nil]
  let g : Graph := ⟨[⟨ty, r⟩], e.layouts.leafRefs m.heap, List.nodup_singleton _,
    fun x hx y hy => by
      rw [List.mem_singleton.mp hx, hchildren] at hy
      cases hy⟩
  have hg : e.layouts.Housed m.heap g := by
    refine ⟨hd, fun x hx => ?_, fun x hx y hy _ => ?_⟩
    · rw [List.mem_singleton.mp hx]
      exact ⟨layout, b, hplaced⟩
    · rw [List.mem_singleton.mp hx, List.mem_singleton.mp hy]
  have hone : e.layouts.Shows [⟨ty, r⟩] m.heap ((Counter.live 1).ledger ⟨ty, r⟩) m.heap := by
    refine hg.shows.congr (fun x hx => ?_) rfl
    rw [List.mem_singleton.mp hx]
    exact ((hplaced.tally_counted hd hcounted).trans (hstarts.count hcounted)).symm
  refine ⟨⟨b, hplaced⟩, hone, ?_⟩
  exact Emitter.Module.follows_adjustAll hsymbols hg rfl htrap hwidth hl
    (List.isEmpty_iff.mpr hleaves) hadjust hone hlimit

/-! ## A cell and its counter -/

namespace Cells

/-- Functions that make a cell, add two holders and take three away. -/
def made : CodeUnit :=
  Step.after (Emitter.addEmitted "make" [.int] ⟨17⟩
    (Shared.emitter.makeCode ⟨17⟩ (.fields [.value ⟨0⟩]))) (.new "cells")

def raised : CodeUnit :=
  Step.after (Emitter.addEmitted "more" [⟨17⟩] .unit (Shared.emitter.adjustCode ⟨17⟩ 2)) made

def draft : CodeUnit :=
  Step.after (Emitter.addEmitted "fewer" [⟨17⟩] .unit (Shared.emitter.adjustCode ⟨17⟩ (-3)))
    raised

theorem run_made : (Emitter.addEmitted "make" [.int] ⟨17⟩
    (Shared.emitter.makeCode ⟨17⟩ (.fields [.value ⟨0⟩]))).run (.new "cells") = .ok ⟨0⟩ made :=
  Step.run_of_result? (by decide +kernel)

theorem run_raised : (Emitter.addEmitted "more" [⟨17⟩] .unit
    (Shared.emitter.adjustCode ⟨17⟩ 2)).run made = .ok ⟨1⟩ raised :=
  Step.run_of_result? (by decide +kernel)

theorem run_draft : (Emitter.addEmitted "fewer" [⟨17⟩] .unit
    (Shared.emitter.adjustCode ⟨17⟩ (-3))).run raised = .ok ⟨2⟩ draft :=
  Step.run_of_result? (by decide +kernel)

theorem below_init : ∀ op ∈ (Initial.fields [.value ⟨0⟩]).operands, op.Below 1 := by
  intro op hop
  rw [List.mem_singleton.mp hop]
  exact Nat.one_pos

theorem builds_raised : Shared.emitter.Builds made raised :=
  Emitter.Module.builds_adjust run_raised

theorem builds_draft : Shared.emitter.Builds raised draft := Emitter.Module.builds_adjust run_draft

theorem builds_made : Shared.emitter.Builds (.new "cells") made :=
  Emitter.Module.builds_make below_init run_made

def linked : Shared.emitter.Module where
  name := "cells"
  draft := draft
  built := (builds_made.trans builds_raised).trans builds_draft
  unit := Step.after Shared.emitter.emitPendingGlue draft
  drained := ⟨0, Step.run_of_result? (by decide +kernel)⟩

theorem holds_make : linked.Holds "make" [.int] ⟨17⟩
    (Shared.emitter.makeCode ⟨17⟩ (.fields [.value ⟨0⟩])) :=
  ⟨_, ⟨0⟩, made, .refl, run_made, builds_raised.trans builds_draft, by decide +kernel⟩

def function (d : Int64) : String := if d < 0 then "fewer" else "more"

theorem holds_function : ∀ d ∈ [(-3 : Int64), 2, -3, 2],
    linked.Holds (function d) [⟨17⟩] .unit (Shared.emitter.adjustCode ⟨17⟩ d)
      ∧ Shared.emitter.Exact d := by
  have hfewer : linked.Holds "fewer" [⟨17⟩] .unit (Shared.emitter.adjustCode ⟨17⟩ (-3)) :=
    ⟨_, ⟨2⟩, draft, builds_made.trans builds_raised, run_draft, .refl, by decide +kernel⟩
  have hmore : linked.Holds "more" [⟨17⟩] .unit (Shared.emitter.adjustCode ⟨17⟩ 2) :=
    ⟨_, ⟨1⟩, raised, builds_made, run_raised, builds_draft, by decide +kernel⟩
  intro d hd
  simp only [List.mem_cons, List.not_mem_nil, or_false] at hd
  rcases hd with rfl | rfl | rfl | rfl
  · exact ⟨hfewer, by decide, by decide +kernel⟩
  · exact ⟨hmore, by decide, by decide +kernel⟩
  · exact ⟨hfewer, by decide, by decide +kernel⟩
  · exact ⟨hmore, by decide, by decide +kernel⟩

/-- The machine after a cell was made. -/
def machine : Machine := Step.after (linked.program.run "make" [.int 7]) (.new 100)

theorem run_make : (linked.program.run "make" [.int 7]).run (.new 100)
    = .ok (some (.ptr Shared.cell.addr)) machine :=
  Exec.run_of_pointer? (by decide +kernel)

def endless : Outcome (Option Value) → Bool
  | .error (.error .stepLimit) => true
  | _ => false

def adjusts : List (Exec (Option Value)) :=
  [(-3 : Int64), 2, -3, 2].map fun d => linked.program.run (function d) [.ptr Shared.cell.addr]

theorem ends_adjusts : ∀ ep ∈ Exec.episodes adjusts machine,
    ep.result ≠ .error (.error .stepLimit) := by
  have hall : (Exec.episodes adjusts machine).all fun ep => !endless ep.result := by
    decide +kernel
  intro ep hep hlimit
  have hends := List.all_eq_true.mp hall ep hep
  rw [hlimit] at hends
  cases hends

end Cells

/-- Of four adjustments the first takes too many holders away, the third takes the last one, and
the fourth finds the cell freed. -/
theorem counter_life_cycle_cell :
    (∃ layout b, Shared.emitter.layouts.Placed Cells.machine.heap Shared.cell layout b)
      ∧ Shared.emitter.layouts.Shows [Shared.cell] Cells.machine.heap
        ((Counter.live 1).ledger Shared.cell) Cells.machine.heap
      ∧ List.Forall₂ (Shared.emitter.layouts.Follows Cells.machine.heap Shared.cell)
        (Exec.episodes Cells.adjusts Cells.machine)
        [(.error (.error (.trap .countUnderflow)), .live 1), (.ok none, .live 3),
          (.ok none, .freed), (.error (.error (.memory (.useAfterFree 0x10000000))), .freed)] := by
  obtain ⟨hplaced, hshows, hfollows⟩ := counter_life_cycle rfl rfl Shared.symbolsApart Cells.linked
    rfl rfl rfl Cells.holds_make Cells.below_init Cells.holds_function .initial rfl Cells.run_make
    Cells.ends_adjusts
  exact ⟨⟨_, hplaced⟩, hshows, hfollows⟩

end Ownership
