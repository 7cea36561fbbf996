import Ownership.Proofs.Blocks
import Ownership.Proofs.Ends

/-!
# Counts in memory

The code that changes the number of holders works on words: it adds with
the wrap of the target, and compares without sign. For a change that is
smaller than the range of a count this is the arithmetic of integers: the
sum is the new count where that is in range, and where it is not, one of
the two comparisons notices. A block that was freed has no counter any
more.
-/

namespace Ownership

namespace Emitter

variable {e : Emitter} {d : Int64}

/-- A change that the words of the target can tell from all others. -/
def Exact (e : Emitter) (d : Int64) : Prop :=
  d ≠ Int64.minValue ∧ d.toInt.natAbs < 2 ^ e.layouts.width.bits

theorem Exact.lt (hd : e.Exact d) : (d.toInt.natAbs : Int) < 2 ^ e.layouts.width.bits := by
  exact_mod_cast hd.2

theorem toInt_neg_of_ne (hd : d ≠ Int64.minValue) : (-d).toInt = -d.toInt := by
  have hmin : d.toInt ≠ -2 ^ 63 := fun h => hd (Int64.toInt_inj.mp (h.trans (by decide)))
  have hle := d.le_toInt
  have hlt := d.toInt_lt
  rw [Int64.toInt_neg, Int.bmod_eq_of_le (by omega) (by omega)]

/-- The amount that is taken away by a change. -/
theorem toNat_amount (hwidth : e.layouts.width = e.config.target.width) (hd : e.Exact d)
    (hneg : d.toInt < 0) : ((e.word (negateCapped d)).toNat : Int) = -d.toInt := by
  have hlt := hd.lt
  have hword := e.toNat_word (negateCapped d)
  rw [negateCapped, if_neg hd.1, toInt_neg_of_ne hd.1, ← hwidth] at hword
  rw [negateCapped, if_neg hd.1, hword]
  exact Int.emod_eq_of_lt (by omega) (by omega)

/-- A sum in the range of counts is exact. -/
theorem toNat_changed_of_fits (hwidth : e.layouts.width = e.config.target.width) {old : UInt64}
    (hpos : 0 ≤ old.toNat + d.toInt) (hlt : old.toNat + d.toInt < 2 ^ e.layouts.width.bits) :
    ((e.layouts.width.truncate (old + e.word d)).toNat : Int) = old.toNat + d.toInt := by
  rw [toNat_changed hwidth]
  exact Int.emod_eq_of_lt hpos hlt

/-- A sum beyond the range of counts wraps to less than what was there. -/
theorem changed_lt_of_overflow (hwidth : e.layouts.width = e.config.target.width) {old : UInt64}
    (hd : e.Exact d) (hold : old.toNat < 2 ^ e.layouts.width.bits)
    (hge : 2 ^ e.layouts.width.bits ≤ old.toNat + d.toInt) :
    e.layouts.width.truncate (old + e.word d) < old := by
  have hlt := hd.lt
  have hold' : (old.toNat : Int) < 2 ^ e.layouts.width.bits := by exact_mod_cast hold
  have hsum := toNat_changed hwidth old d
  have hwrap : (old.toNat + d.toInt) % 2 ^ e.layouts.width.bits
      = old.toNat + d.toInt - 2 ^ e.layouts.width.bits := by
    rw [← Int.sub_emod_right]
    exact Int.emod_eq_of_lt (by omega) (by omega)
  rw [UInt64.lt_iff_toNat_lt]
  omega

end Emitter

namespace Runtime

variable {e : Emitter} {R : Runtime e} {h₀ : Heap} {g : Graph} {s : Ledger} {m : Machine}
  {x : Ref} {layout : RefLayout} {d : Int64}

/-- Fewer holders are left. What follows is up to the new count. -/
theorem ends_decrease (hg : e.layouts.Housed h₀ g)
    (hwidth : e.layouts.width = e.config.target.width) (hx : x ∈ g.nodes)
    (hl : e.layouts.ref x.type = .ok layout) (hreg : layout.region = .counted)
    (hfreed : x ∉ s.freed) (hshows : e.layouts.Shows g.nodes h₀ s m.heap) (hd : e.Exact d)
    (hneg : d.toInt < 0) (hholders : 0 ≤ s.count x + d.toInt)
    {Q : Outcome Unit → Machine → Prop}
    (h : ∀ (counter new : UInt64) (m' : Machine), counter.toNat = e.layouts.base x →
      (new.toNat : Int) = s.count x + d.toInt → m.Becomes m'.heap m' →
      e.layouts.Shows g.nodes h₀ (s.tallied x new.toNat) m'.heap →
      (R.freeAtZero layout (.ptr x.addr) counter new).Ends m' Q) :
    (R.decrease layout (.ptr x.addr) d).Ends m Q := by
  obtain ⟨old, hload, hold, hlt⟩ := hshows.loadWord_count hg hx hl hreg hfreed
  have hlt' : (s.count x : Int) < 2 ^ e.layouts.width.bits := by exact_mod_cast hlt
  have hnew : ((e.layouts.width.truncate (old + e.word d)).toNat : Int) = old.toNat + d.toInt :=
    Emitter.toNat_changed_of_fits hwidth (by omega) (by omega)
  have henough : ¬ old < e.word (Emitter.negateCapped d) := by
    have hamount := Emitter.toNat_amount hwidth hd hneg
    rw [UInt64.lt_iff_toNat_lt]
    omega
  refine (Layouts.yields_counter hload).then ?_
  rintro _ m₁ ⟨rfl, hm₁⟩
  refine (R.yields_requireHolders henough m₁).then fun _ m₂ hm₂ => ?_
  refine (R.yields_changed old d m₂).then ?_
  rintro new m₃ ⟨rfl, hm₃⟩
  have hsame : m.Becomes m.heap m₃ := by
    rw [hm₂.heap] at hm₃
    rw [hm₁.heap] at hm₃ hm₂
    exact (hm₁.trans hm₂).trans hm₃
  have hrange : (e.layouts.width.truncate (old + e.word d)).toNat < 2 ^ e.layouts.width.bits := by
    zify
    omega
  obtain ⟨h', hstore, hshows'⟩ := hshows.store_count hg hx hl hreg hfreed hrange
  rw [← hsame.heap] at hstore
  refine (Layouts.yields_put hstore).then fun _ m₄ hm₄ => ?_
  obtain ⟨layout', b₀, hp⟩ := hg.placed x hx
  obtain rfl := Except.ok.inj (hl.symm.trans hp.ref)
  exact h _ _ m₄ (hp.counter_addr hg.bounded) (by omega) (hsame.trans hm₄).self (hm₄.heap ▸ hshows')

/-- Where fewer holders are left than are taken away, nothing changes. -/
theorem ends_underflow (hg : e.layouts.Housed h₀ g) (htrap : e.config.checks = .trap)
    (hwidth : e.layouts.width = e.config.target.width) (hx : x ∈ g.nodes)
    (hl : e.layouts.ref x.type = .ok layout) (hreg : layout.region = .counted)
    (hfreed : x ∉ s.freed) (hshows : e.layouts.Shows g.nodes h₀ s m.heap) (hd : e.Exact d)
    (hfew : s.count x + d.toInt < 0) :
    (R.decrease layout (.ptr x.addr) d).Ends m fun r m' =>
      r = .error (.error (.trap .countUnderflow)) ∧ m.Becomes m.heap m' := by
  obtain ⟨old, hload, hold, -⟩ := hshows.loadWord_count hg hx hl hreg hfreed
  have hless : old < e.word (Emitter.negateCapped d) := by
    have hamount := Emitter.toNat_amount hwidth hd (by omega)
    rw [UInt64.lt_iff_toNat_lt]
    omega
  refine (Layouts.yields_counter hload).then ?_
  rintro _ m₁ ⟨rfl, hm₁⟩
  refine Exec.ends_bind_of_error ?_
  rw [requireHolders, if_pos htrap, decide_eq_true hless]
  refine (Exec.ends_guardTrap _ m₁).mono ?_
  rintro _ m₂ ⟨rfl, hm₂⟩
  exact ⟨_, rfl, rfl, hm₁.heap ▸ hm₁.trans hm₂⟩

/-- More holders, in the range of counts. -/
theorem yields_increase (hg : e.layouts.Housed h₀ g)
    (hwidth : e.layouts.width = e.config.target.width) (hx : x ∈ g.nodes)
    (hl : e.layouts.ref x.type = .ok layout) (hreg : layout.region = .counted)
    (hfreed : x ∉ s.freed) (hshows : e.layouts.Shows g.nodes h₀ s m.heap) (hpos : 0 ≤ d.toInt)
    (hfits : s.count x + d.toInt < 2 ^ e.layouts.width.bits) :
    (R.increase layout (.ptr x.addr) d).Yields m fun _ m' => m.Becomes m'.heap m'
      ∧ e.layouts.Shows g.nodes h₀ (s.tallied x (s.count x + d.toInt).toNat) m'.heap := by
  obtain ⟨old, hload, hold, -⟩ := hshows.loadWord_count hg hx hl hreg hfreed
  have hnew : ((e.layouts.width.truncate (old + e.word d)).toNat : Int) = old.toNat + d.toInt :=
    Emitter.toNat_changed_of_fits hwidth (by omega) (by omega)
  have hroom : ¬ e.layouts.width.truncate (old + e.word d) < old := by
    rw [UInt64.lt_iff_toNat_lt]
    omega
  refine (Layouts.yields_counter hload).bind ?_
  rintro _ m₁ ⟨rfl, hm₁⟩
  refine (R.yields_changed old d m₁).bind ?_
  rintro new m₂ ⟨rfl, hm₂⟩
  refine (R.yields_requireRoom hroom m₂).bind fun _ m₃ hm₃ => ?_
  have hsame : m.Becomes m.heap m₃ := by
    rw [hm₂.heap] at hm₃
    rw [hm₁.heap] at hm₃ hm₂
    exact (hm₁.trans hm₂).trans hm₃
  have hrange : (e.layouts.width.truncate (old + e.word d)).toNat < 2 ^ e.layouts.width.bits := by
    zify
    omega
  obtain ⟨h', hstore, hshows'⟩ := hshows.store_count hg hx hl hreg hfreed hrange
  rw [← hsame.heap] at hstore
  refine (Layouts.yields_put hstore).mono fun _ m₄ hm₄ => ⟨(hsame.trans hm₄).self, ?_⟩
  rw [show (s.count x + d.toInt).toNat = (e.layouts.width.truncate (old + e.word d)).toNat by omega,
    hm₄.heap]
  exact hshows'

/-- Where there would be more holders than a count can say, nothing changes. -/
theorem ends_overflow (hg : e.layouts.Housed h₀ g) (htrap : e.config.checks = .trap)
    (hwidth : e.layouts.width = e.config.target.width) (hx : x ∈ g.nodes)
    (hl : e.layouts.ref x.type = .ok layout) (hreg : layout.region = .counted)
    (hfreed : x ∉ s.freed) (hshows : e.layouts.Shows g.nodes h₀ s m.heap) (hd : e.Exact d)
    (hmany : 2 ^ e.layouts.width.bits ≤ s.count x + d.toInt) :
    (R.increase layout (.ptr x.addr) d).Ends m fun r m' =>
      r = .error (.error (.trap .countOverflow)) ∧ m.Becomes m.heap m' := by
  obtain ⟨old, hload, hold, hlt⟩ := hshows.loadWord_count hg hx hl hreg hfreed
  have hwraps := Emitter.changed_lt_of_overflow hwidth hd (hold ▸ hlt) (by omega)
  refine (Layouts.yields_counter hload).then ?_
  rintro _ m₁ ⟨rfl, hm₁⟩
  refine (R.yields_changed old d m₁).then ?_
  rintro new m₂ ⟨rfl, hm₂⟩
  refine Exec.ends_bind_of_error ?_
  rw [requireRoom, if_pos htrap, decide_eq_true hwraps]
  refine (Exec.ends_guardTrap _ m₂).mono ?_
  rintro _ m₃ ⟨rfl, hm₃⟩
  rw [hm₂.heap] at hm₃
  rw [hm₁.heap] at hm₃ hm₂
  exact ⟨_, rfl, rfl, (hm₁.trans hm₂).trans hm₃⟩

/-- A block that was freed has no count to change. -/
theorem ends_adjust_dead (hg : e.layouts.Housed h₀ g) (hx : x ∈ g.nodes)
    (hl : e.layouts.ref x.type = .ok layout) (hreg : layout.region = .counted)
    (hfreed : x ∈ s.freed) (hshows : e.layouts.Shows g.nodes h₀ s m.heap) :
    (R.adjust layout (.ptr x.addr) d).Ends m fun r m' =>
      r = .error (.error (.memory (.useAfterFree (e.layouts.base x)))) ∧ m.Becomes m.heap m' := by
  have hload := hshows.loadWord_dead hg hx hl hreg hfreed
  have hcounter : (e.layouts.counter layout (.ptr x.addr)).Ends m fun r m' =>
      ∃ s, r = .error s ∧ s = .error (.memory (.useAfterFree (e.layouts.base x)))
        ∧ m.Becomes m.heap m' := by
    refine (Exec.yields_displaced _ _ m).then ?_
    rintro _ m₁ ⟨rfl, hm₁⟩
    refine Exec.ends_bind_of_error ((e.layouts.ends_fetch _ m₁).mono ?_)
    rintro _ m₂ ⟨rfl, hm₂⟩
    rw [hm₁.heap, hload]
    exact ⟨_, rfl, _, rfl, rfl, hm₁.heap ▸ hm₁.trans hm₂⟩
  have hends : ∀ f : UInt64 × UInt64 → Exec Unit,
      (e.layouts.counter layout (.ptr x.addr) >>= f).Ends m fun r m' =>
        r = .error (.error (.memory (.useAfterFree (e.layouts.base x)))) ∧ m.Becomes m.heap m' :=
    fun f => Exec.ends_bind_of_error (hcounter.mono fun r m' ⟨s, hr, hs, hm'⟩ =>
      ⟨s, hr, congrArg Except.error hs, hm'⟩)
  unfold adjust
  split
  · exact hends _
  · exact hends _

end Runtime

end Ownership
