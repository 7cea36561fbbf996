import Ownership.Proofs.Counter

/-!
# What the guards of a counter notice

Before a count is changed, the code compares words: a decrease stops
where the count is less than the amount taken away, an increase where
the sum is less than the count. Both amounts are words of the target,
and the first one is the negated change, which has no room for the least
change of all. For the changes that words can tell apart
(`Emitter.Exact`) the guards are exact, and the count becomes the sum or
nothing is stored. For any other change there is a count at which the
sum is out of range and is stored all the same, wrapped
(`count_guards`).
-/

namespace Ownership

/-! ## Runs with a known budget -/

namespace Exec

variable {m : Machine} {n : Nat}

theorem run_after_tick {α : Type} {x : Exec α} (h : m.budget = n + 1) :
    (tick >>= fun _ => x).run m = x.run { m with budget := n } := Step.run_bind_ok (run_tick h)

theorem run_displaced (h : m.budget = n + 1) (a bytes : UInt64) :
    (displaced (.ptr a) bytes).run m = .ok (a + bytes) { m with budget := n } := run_after_tick h

theorem run_guardTrap (h : m.budget = n + 1) (cause : TrapCause) {bad : Bool} :
    (guardTrap cause bad).run m = if bad then .error (.error (.trap cause)) { m with budget := n }
      else .ok () { m with budget := n } := by
  rw [guardTrap, run_after_tick h]
  cases bad <;> rfl

/-- A call is what it comes to. -/
theorem run_inCall_congr {α : Type} {x y : Exec α} {m₁ : Machine} (hslots : m₁.slots = m.slots)
    (h : x.run { m with slots := [] } = y.run { m₁ with slots := [] }) :
    (inCall x).run m = (inCall y).run m₁ := by
  change inCall x m = inCall y m₁
  unfold inCall
  rw [h, hslots]

/-- A call without slots that has a result. -/
theorem run_inCall_pure {α β : Type} {x : Exec α} {f : α → β} {a : α} {m' : Machine}
    (h : x.run { m with slots := [] } = .ok a m') (hslots : m'.slots = []) :
    (inCall (x >>= fun a => pure (f a))).run m = .ok (f a) { m' with slots := m.slots } := by
  rw [← leave_of_slots_nil hslots]
  exact run_inCall_ok (Step.run_bind_ok h)

end Exec

namespace Layouts

variable {L : Layouts} {m : Machine} {n : Nat} {a w : UInt64}

theorem loadWord_lt {h : Heap} (hload : L.loadWord h a = .ok w) :
    w.toNat < 2 ^ L.width.bits := by
  unfold loadWord at hload
  cases hread : h.read a.toNat L.word with
  | error f => rw [hread] at hload; cases hload
  | ok data =>
      rw [hread] at hload
      obtain rfl := Except.ok.inj hload
      have hlt := ofLeBytes_lt data
      rw [Heap.length_of_read hread] at hlt
      rw [PointerWidth.bits, Nat.pow_mul, UInt64.toNat_ofNat']
      exact Nat.lt_of_le_of_lt (Nat.mod_le _ _) hlt

theorem run_fetch (h : m.budget = n + 1) (hload : L.loadWord m.heap a = .ok w) :
    (L.fetch a).run m = .ok w { m with budget := n } := by
  rw [fetch, Exec.run_after_tick h]
  change (Exec.outcome (L.loadWord m.heap a)).run _ = _
  rw [hload]
  rfl

theorem run_put {h' : Heap} (h : m.budget = n + 1) (hstore : L.storeWord m.heap a w = .ok h') :
    (L.put a w).run m = .ok () { m with heap := h', budget := n } := by
  rw [put, Exec.run_after_tick h]
  change (Exec.outcome (L.storeWord m.heap a w) >>= _).run _ = _
  rw [hstore]
  rfl

theorem run_counter {layout : RefLayout} (h : m.budget = n + 2)
    (hload : L.loadWord m.heap (a + (Int64.ofInt layout.countOffset).toUInt64) = .ok w) :
    (L.counter layout (.ptr a)).run m =
      .ok (a + (Int64.ofInt layout.countOffset).toUInt64, w) { m with budget := n } := by
  refine (Step.run_bind_ok (Exec.run_displaced h _ _)).trans ?_
  exact Step.run_bind_ok (run_fetch (m := { m with budget := n + 1 }) rfl hload)

end Layouts

namespace Runtime

variable {e : Emitter} {R : Runtime e} {layout : RefLayout} {m : Machine} {n : Nat} {a old : UInt64}
  {d : Int64}

/-- What follows a decrease to zero. -/
def dispose (R : Runtime e) (layout : RefLayout) (a : UInt64) : Exec Unit := do
  R.letGo layout.pointee (.ptr a)
  R.freeAt (.ptr (a + (Int64.ofInt layout.countOffset).toUInt64))

theorem run_changed (h : m.budget = n + 1) : (R.changed old d).run m =
    .ok (e.layouts.width.truncate (old + e.word d)) { m with budget := n } := Exec.run_after_tick h

theorem run_freeAtZero {new : UInt64} (h : m.budget = n + 1) :
    (R.freeAtZero layout (.ptr a) (a + (Int64.ofInt layout.countOffset).toUInt64) new).run m =
      if new = 0 then (R.dispose layout a).run { m with budget := n }
      else .ok () { m with budget := n } := by
  rw [freeAtZero, Exec.run_after_tick h]
  split <;> rfl

theorem run_decrease_stops (htrap : e.config.checks = .trap) (h : m.budget = n + 3)
    (hload : e.layouts.loadWord m.heap (a + (Int64.ofInt layout.countOffset).toUInt64) = .ok old)
    (hless : old < e.word (Emitter.negateCapped d)) :
    (R.decrease layout (.ptr a) d).run m =
      .error (.error (.trap .countUnderflow)) { m with budget := n } := by
  refine (Step.run_bind_ok (Layouts.run_counter h hload)).trans (Step.run_bind_error ?_)
  rw [requireHolders, if_pos htrap, Exec.run_guardTrap rfl, decide_eq_true hless]
  rfl

theorem run_decrease_stores (htrap : e.config.checks = .trap) (h : m.budget = n + 5) {h' : Heap}
    (hload : e.layouts.loadWord m.heap (a + (Int64.ofInt layout.countOffset).toUInt64) = .ok old)
    (hge : ¬ old < e.word (Emitter.negateCapped d))
    (hstore : e.layouts.storeWord m.heap (a + (Int64.ofInt layout.countOffset).toUInt64)
      (e.layouts.width.truncate (old + e.word d)) = .ok h') :
    (R.decrease layout (.ptr a) d).run m =
      (R.freeAtZero layout (.ptr a) (a + (Int64.ofInt layout.countOffset).toUInt64)
        (e.layouts.width.truncate (old + e.word d))).run { m with heap := h', budget := n } := by
  have hguard : (R.requireHolders old d).run { m with budget := n + 3 } =
      .ok () { m with budget := n + 2 } := by
    rw [requireHolders, if_pos htrap, Exec.run_guardTrap rfl, decide_eq_false hge]
    rfl
  refine (Step.run_bind_ok (Layouts.run_counter h hload)).trans ?_
  refine (Step.run_bind_ok hguard).trans ((Step.run_bind_ok (run_changed rfl)).trans ?_)
  exact Step.run_bind_ok (Layouts.run_put rfl hstore)

theorem run_increase_stops (htrap : e.config.checks = .trap) (h : m.budget = n + 4)
    (hload : e.layouts.loadWord m.heap (a + (Int64.ofInt layout.countOffset).toUInt64) = .ok old)
    (hless : e.layouts.width.truncate (old + e.word d) < old) :
    (R.increase layout (.ptr a) d).run m =
      .error (.error (.trap .countOverflow)) { m with budget := n } := by
  refine (Step.run_bind_ok (Layouts.run_counter h hload)).trans ?_
  refine (Step.run_bind_ok (run_changed rfl)).trans (Step.run_bind_error ?_)
  rw [requireRoom, if_pos htrap, Exec.run_guardTrap rfl, decide_eq_true hless]
  rfl

theorem run_increase_stores (htrap : e.config.checks = .trap) (h : m.budget = n + 5) {h' : Heap}
    (hload : e.layouts.loadWord m.heap (a + (Int64.ofInt layout.countOffset).toUInt64) = .ok old)
    (hge : ¬ e.layouts.width.truncate (old + e.word d) < old)
    (hstore : e.layouts.storeWord m.heap (a + (Int64.ofInt layout.countOffset).toUInt64)
      (e.layouts.width.truncate (old + e.word d)) = .ok h') :
    (R.increase layout (.ptr a) d).run m = .ok () { m with heap := h', budget := n } := by
  have hguard : (R.requireRoom old (e.layouts.width.truncate (old + e.word d))).run
      { m with budget := n + 2 } = .ok () { m with budget := n + 1 } := by
    rw [requireRoom, if_pos htrap, Exec.run_guardTrap rfl, decide_eq_false hge]
    rfl
  refine (Step.run_bind_ok (Layouts.run_counter h hload)).trans ?_
  refine (Step.run_bind_ok (run_changed rfl)).trans ((Step.run_bind_ok hguard).trans ?_)
  exact Layouts.run_put rfl hstore

end Runtime

/-! ## Which sums are noticed -/

namespace Emitter

variable {e : Emitter} {d : Int64} {old : UInt64}

/-- The trap that the code takes instead of storing the sum of a count and a change. -/
def noticed (e : Emitter) (old : UInt64) (d : Int64) : Option TrapCause :=
  if d < 0 then if old < e.word (negateCapped d) then some .countUnderflow else none
  else if e.layouts.width.truncate (old + e.word d) < old then some .countOverflow else none

/-- The trap for a sum of a count and a change that is out of range. -/
def outOfRange (e : Emitter) (old : UInt64) (d : Int64) : Option TrapCause :=
  if old.toNat + d.toInt < 0 then some .countUnderflow
  else if 2 ^ e.layouts.width.bits ≤ old.toNat + d.toInt then some .countOverflow else none

theorem outOfRange_eq_none : e.outOfRange old d = none ↔
    0 ≤ old.toNat + d.toInt ∧ old.toNat + d.toInt < 2 ^ e.layouts.width.bits := by
  unfold outOfRange
  split
  · simp; omega
  · split
    · simp; omega
    · simp; omega

theorem toNat_ofNat_of_range {n : Int} (hpos : 0 ≤ n) (hlt : n < 2 ^ e.layouts.width.bits) :
    ((UInt64.ofNat n.toNat).toNat : Int) = n := by
  have hbits : (2 ^ e.layouts.width.bits : Int) ≤ UInt64.size := by
    cases e.layouts.width <;> decide
  rw [UInt64.toNat_ofNat_of_lt' (by omega), Int.toNat_of_nonneg hpos]

/-- A change that words can tell from all others is noticed where the sum is out of range. -/
theorem noticed_eq (hwidth : e.layouts.width = e.config.target.width) (hd : e.Exact d)
    (hold : old.toNat < 2 ^ e.layouts.width.bits) : e.noticed old d = e.outOfRange old d := by
  have hold' : (old.toNat : Int) < 2 ^ e.layouts.width.bits := by exact_mod_cast hold
  have hneg : d < 0 ↔ d.toInt < 0 := Int64.lt_iff_toInt_lt
  unfold noticed outOfRange
  by_cases hlt : d.toInt < 0
  · have hamount := toNat_amount hwidth hd hlt
    have hfits : ¬ 2 ^ e.layouts.width.bits ≤ old.toNat + d.toInt := by omega
    rw [if_pos (hneg.mpr hlt), if_neg hfits]
    refine if_congr ?_ rfl rfl
    rw [UInt64.lt_iff_toNat_lt]
    omega
  · rw [if_neg (mt hneg.mp hlt), if_neg (show ¬ old.toNat + d.toInt < 0 by omega)]
    refine if_congr ⟨fun hwraps => ?_, changed_lt_of_overflow hwidth hd hold⟩ rfl rfl
    by_contra hfits
    have hsum : ((e.layouts.width.truncate (old + e.word d)).toNat : Int) = old.toNat + d.toInt :=
      toNat_changed_of_fits hwidth (by omega) (by omega)
    rw [UInt64.lt_iff_toNat_lt] at hwraps
    omega

theorem toNat_word_lt (e : Emitter) (n : Int64) :
    (e.word n).toNat < 2 ^ e.config.target.width.bits := by
  rw [word, PointerWidth.toNat_truncate]
  exact Nat.mod_lt _ (Nat.two_pow_pos _)

/-- A change that words cannot tell from all others and that takes holders away takes more than the
amount that the code compares with. -/
theorem amount_lt_of_not_exact (hwidth : e.layouts.width = e.config.target.width)
    (hd : ¬ e.Exact d) (hneg : d.toInt < 0) : (e.word (negateCapped d)).toNat < -d.toInt := by
  by_cases hmin : d = Int64.minValue
  · have hword := e.toNat_word (negateCapped d)
    rw [negateCapped, if_pos hmin] at hword
    rw [negateCapped, if_pos hmin, hword, hmin]
    cases e.config.target.width <;> decide
  · have hge : 2 ^ e.layouts.width.bits ≤ d.toInt.natAbs := by
      by_contra hlt
      exact hd ⟨hmin, Nat.lt_of_not_le hlt⟩
    have hword := e.toNat_word_lt (negateCapped d)
    rw [← hwidth] at hword
    omega

/-- For any other change there is a count for which nothing is noticed: the amount itself where
some is taken away, and otherwise zero. -/
theorem exists_unnoticed (hwidth : e.layouts.width = e.config.target.width) (hd : ¬ e.Exact d) :
    ∃ old : UInt64, old.toNat < 2 ^ e.layouts.width.bits ∧ e.outOfRange old d ≠ none
      ∧ e.noticed old d = none := by
  have hneg : d < 0 ↔ d.toInt < 0 := Int64.lt_iff_toInt_lt
  by_cases hlt : d.toInt < 0
  · have hrange := e.toNat_word_lt (negateCapped d)
    rw [← hwidth] at hrange
    refine ⟨e.word (negateCapped d), hrange, fun hnone => ?_, ?_⟩
    · have hamount := amount_lt_of_not_exact hwidth hd hlt
      have := (outOfRange_eq_none.mp hnone).1
      omega
    · rw [noticed, if_pos (hneg.mpr hlt), if_neg (UInt64.lt_irrefl _)]
  · have hge : 2 ^ e.layouts.width.bits ≤ d.toInt.natAbs := by
      by_contra hfits
      refine hd ⟨fun hmin => hlt ?_, Nat.lt_of_not_le hfits⟩
      rw [hmin]
      decide
    have hge' : (2 ^ e.layouts.width.bits : Int) ≤ d.toInt.natAbs := by exact_mod_cast hge
    refine ⟨0, Nat.two_pow_pos _, fun hnone => ?_, ?_⟩
    · have := (outOfRange_eq_none.mp hnone).2
      rw [UInt64.toNat_zero] at this
      omega
    · rw [noticed, if_neg (mt hneg.mp hlt), if_neg (UInt64.not_lt_zero)]

end Emitter

/-! ## Functions that adjust a count -/

/-- Where a word can be read another one can be stored. -/
theorem Layouts.store_of_load {L : Layouts} {h : Heap} {a w w' : UInt64}
    (hload : L.loadWord h a = .ok w) (hw' : w'.toNat < 2 ^ L.width.bits) :
    ∃ h', L.storeWord h a w' = .ok h' ∧ L.loadWord h' a = .ok w' := by
  obtain ⟨data, hread, -⟩ := Outcome.bind_ok hload
  obtain ⟨base, b, hj, hlive, -⟩ : ∃ base b, h.Judges a.toNat L.word base b ∧ b.live = true
      ∧ data = b.bytes.slice (a.toNat - base) L.word := by
    cases hr : h.read a.toNat L.word with
    | ok data' =>
        rw [hr] at hread
        obtain rfl := Except.ok.inj hread
        exact Heap.read_ok hr
    | error f =>
        rw [hr] at hread
        cases hread
  obtain ⟨off, ha⟩ := Nat.exists_eq_add_of_le hj.covers.start
  rw [ha] at hj
  let b' : Block := { b with bytes := b.bytes.put off (L.wordBytes w') }
  have hj' : (h.putBlock base b').Judges (base + off) L.word base b' := hj.putBlock rfl
  refine ⟨h.putBlock base b', storeWord_eq hj hlive ha, ?_⟩
  rw [loadWord_eq hj' hlive ha, ofLeBytes_put L b.bytes off hw', UInt64.ofNat_toNat]

namespace Emitter.Module

variable {e : Emitter} {M : e.Module} {name : String} {ty : TypeId} {d : Int64} {m : Machine}
  {r : UInt64} {layout : RefLayout} {old : UInt64}

/-- The function `name` stops at a trap when it is run for `r`, and memory is as before. -/
def Stops (M : e.Module) (name : String) (r : UInt64) (m : Machine) (cause : TrapCause) : Prop :=
  ∃ n, (M.program.run name [.ptr r]).run m = .error (.error (.trap cause)) { m with budget := n }

/-- The function `name` stores the count `new` when it is run for `r`, in at most six steps. If that
is where holders are taken away and none is left, it goes on to dispose of the block. -/
def Stores (M : e.Module) (name : String) (layout : RefLayout) (x : Ref) (d : Int64) (m : Machine)
    (new : UInt64) : Prop :=
  ∃ m' : Machine,
    e.layouts.storeWord m.heap (x.addr + (Int64.ofInt layout.countOffset).toUInt64) new
        = .ok m'.heap
      ∧ e.layouts.refCount m'.heap x.type x.addr = .ok new
      ∧ m'.slots = m.slots ∧ m.budget ≤ m'.budget + 6
      ∧ (M.program.run name [.ptr x.addr]).run m =
        if d < 0 ∧ new = 0 then
          (Exec.inCall ((M.runtime m.budget).dispose layout x.addr >>= fun _ => pure none)).run m'
        else .ok none m'

/-- Where the guard notices, the code stops there. -/
theorem stops_of_noticed (htrap : e.config.checks = .trap)
    (hholds : M.Holds name [ty] .unit (e.adjustCode ty d))
    (hcount : e.layouts.refCount m.heap ty r = .ok old) (hbudget : 6 ≤ m.budget)
    {cause : TrapCause} (hnoticed : e.noticed old d = some cause) : M.Stops name r m cause := by
  obtain ⟨layout, hl, -, -, hrun⟩ := run_adjust hholds (.ptr r)
  rw [Layouts.refCount_eq hl] at hcount
  obtain ⟨k, hk⟩ := Nat.exists_eq_add_of_le' hbudget
  have hstops : ∃ n, ((M.runtime m.budget).adjust layout (.ptr r) d).run { m with slots := [] } =
      .error (.error (.trap cause)) { m with slots := [], budget := n } := by
    unfold noticed at hnoticed
    unfold Runtime.adjust
    by_cases hneg : d < 0
    · rw [if_pos hneg] at hnoticed ⊢
      by_cases hless : old < e.word (negateCapped d)
      · rw [if_pos hless] at hnoticed
        cases hnoticed
        exact ⟨_, Runtime.run_decrease_stops htrap (n := k + 3) hk hcount hless⟩
      · rw [if_neg hless] at hnoticed
        cases hnoticed
    · rw [if_neg hneg] at hnoticed ⊢
      by_cases hless : e.layouts.width.truncate (old + e.word d) < old
      · rw [if_pos hless] at hnoticed
        cases hnoticed
        exact ⟨_, Runtime.run_increase_stops htrap (n := k + 2) hk hcount hless⟩
      · rw [if_neg hless] at hnoticed
        cases hnoticed
  obtain ⟨n, hstop⟩ := hstops
  refine ⟨n, ?_⟩
  rw [hrun m, Exec.run_inCall_error (Step.run_bind_error hstop), Exec.leave_of_slots_nil rfl]

/-- Where the guard notices nothing, the code stores the sum as a word. -/
theorem stores_of_unnoticed (htrap : e.config.checks = .trap)
    (hwidth : e.layouts.width = e.config.target.width)
    (hholds : M.Holds name [ty] .unit (e.adjustCode ty d))
    (hlayout : e.layouts.ref ty = .ok layout)
    (hcount : e.layouts.refCount m.heap ty r = .ok old) (hbudget : 6 ≤ m.budget)
    (hnoticed : e.noticed old d = none) {new : UInt64}
    (hnew : (new.toNat : Int) = (old.toNat + d.toInt) % 2 ^ e.layouts.width.bits) :
    M.Stores name layout ⟨ty, r⟩ d m new := by
  obtain ⟨layout', hl, hreg, -, hrun⟩ := run_adjust hholds (.ptr r)
  obtain rfl := Except.ok.inj (hl.symm.trans hlayout)
  rw [Layouts.refCount_eq hl] at hcount
  obtain ⟨k, hk⟩ := Nat.exists_eq_add_of_le' hbudget
  obtain rfl : new = e.layouts.width.truncate (old + e.word d) := by
    have hsum := toNat_changed hwidth old d
    exact UInt64.toNat_inj.mp (by omega)
  have hrange : (e.layouts.width.truncate (old + e.word d)).toNat < 2 ^ e.layouts.width.bits := by
    rw [PointerWidth.toNat_truncate]
    exact Nat.mod_lt _ (Nat.two_pow_pos _)
  obtain ⟨h', hstore, hload'⟩ := Layouts.store_of_load hcount hrange
  have hcount' := (Layouts.refCount_eq hl h' r).trans hload'
  unfold noticed at hnoticed
  by_cases hneg : d < 0
  · rw [if_pos hneg] at hnoticed
    have hge : ¬ old < e.word (negateCapped d) := fun hless => by
      rw [if_pos hless] at hnoticed
      cases hnoticed
    have hadjust : ((M.runtime m.budget).adjust layout' (.ptr r) d).run { m with slots := [] } =
        if e.layouts.width.truncate (old + e.word d) = 0 then
          ((M.runtime m.budget).dispose layout' r).run ⟨h', k, []⟩
        else .ok () ⟨h', k, []⟩ := by
      rw [Runtime.adjust, if_pos hneg, ← Runtime.run_freeAtZero (m := ⟨h', k + 1, []⟩) rfl]
      exact Runtime.run_decrease_stores (m := { m with slots := [] }) htrap hk hcount hge hstore
    refine ⟨⟨h', k, m.slots⟩, hstore, hcount', rfl, Nat.le_of_eq hk, ?_⟩
    rw [hrun m]
    by_cases hzero : e.layouts.width.truncate (old + e.word d) = 0
    · rw [if_pos hzero] at hadjust
      rw [if_pos ⟨hneg, hzero⟩]
      exact Exec.run_inCall_congr rfl (Step.run_bind_congr hadjust)
    · rw [if_neg hzero] at hadjust
      rw [if_neg fun h => hzero h.2]
      exact Exec.run_inCall_pure hadjust rfl
  · rw [if_neg hneg] at hnoticed
    have hge : ¬ e.layouts.width.truncate (old + e.word d) < old := fun hless => by
      rw [if_pos hless] at hnoticed
      cases hnoticed
    have hadjust : ((M.runtime m.budget).adjust layout' (.ptr r) d).run { m with slots := [] } =
        .ok () ⟨h', k + 1, []⟩ := by
      rw [Runtime.adjust, if_neg hneg]
      exact Runtime.run_increase_stores (m := { m with slots := [] }) htrap hk hcount hge hstore
    refine ⟨⟨h', k + 1, m.slots⟩, hstore, hcount', rfl, hk ▸ Nat.le_succ _, ?_⟩
    rw [hrun m, if_neg fun h => hneg h.1]
    exact Exec.run_inCall_pure hadjust rfl

end Emitter.Module

/-- A function that adjusts counts stores the sum where it is in range and otherwise traps without
storing, for every count if words can tell its change from all others. For every other change there
is a count at which it stores a sum that is out of range, wrapped. -/
theorem count_guards {e : Emitter} (hwidth : e.layouts.width = e.config.target.width)
    (htrap : e.config.checks = .trap) (M : e.Module) {name : String} {ty : TypeId} {d : Int64}
    (hholds : M.Holds name [ty] .unit (e.adjustCode ty d)) :
    (e.Exact d → ∀ {m : Machine} {r : UInt64} {layout : RefLayout} {old : UInt64},
      e.layouts.ref ty = .ok layout → e.layouts.refCount m.heap ty r = .ok old → 6 ≤ m.budget →
      (old.toNat + d.toInt < 0 → M.Stops name r m .countUnderflow)
        ∧ (2 ^ e.layouts.width.bits ≤ old.toNat + d.toInt → M.Stops name r m .countOverflow)
        ∧ (0 ≤ old.toNat + d.toInt → old.toNat + d.toInt < 2 ^ e.layouts.width.bits →
          M.Stores name layout ⟨ty, r⟩ d m (.ofNat (old.toNat + d.toInt).toNat)))
    ∧ (¬ e.Exact d → ∃ old : UInt64, old.toNat < 2 ^ e.layouts.width.bits
      ∧ (old.toNat + d.toInt < 0 ∨ 2 ^ e.layouts.width.bits ≤ old.toNat + d.toInt)
      ∧ ∀ {m : Machine} {r : UInt64} {layout : RefLayout}, e.layouts.ref ty = .ok layout →
        e.layouts.refCount m.heap ty r = .ok old → 6 ≤ m.budget →
        M.Stores name layout ⟨ty, r⟩ d m
          (.ofNat ((old.toNat + d.toInt) % 2 ^ e.layouts.width.bits).toNat)) := by
  have hpos : (0 : Int) < 2 ^ e.layouts.width.bits := Int.pow_pos (by decide)
  constructor
  · intro hd m r layout old hl hcount hbudget
    have hold : old.toNat < 2 ^ e.layouts.width.bits := by
      rw [Layouts.refCount_eq hl] at hcount
      exact Layouts.loadWord_lt hcount
    have hnoticed := Emitter.noticed_eq hwidth hd hold
    refine ⟨fun hfew => ?_, fun hmany => ?_, fun hnonneg hlt => ?_⟩
    · rw [Emitter.outOfRange, if_pos hfew] at hnoticed
      exact Emitter.Module.stops_of_noticed htrap hholds hcount hbudget hnoticed
    · rw [Emitter.outOfRange, if_neg (by omega), if_pos hmany] at hnoticed
      exact Emitter.Module.stops_of_noticed htrap hholds hcount hbudget hnoticed
    · rw [Emitter.outOfRange_eq_none.mpr ⟨hnonneg, hlt⟩] at hnoticed
      refine Emitter.Module.stores_of_unnoticed htrap hwidth hholds hl hcount hbudget hnoticed ?_
      rw [Emitter.toNat_ofNat_of_range hnonneg hlt, Int.emod_eq_of_lt hnonneg hlt]
  · intro hd
    obtain ⟨old, hold, hout, hnoticed⟩ := Emitter.exists_unnoticed hwidth hd
    refine ⟨old, hold, ?_, fun {m r layout} hl hcount hbudget => ?_⟩
    · by_contra hin
      exact hout (Emitter.outOfRange_eq_none.mpr (by omega))
    · refine Emitter.Module.stores_of_unnoticed htrap hwidth hholds hl hcount hbudget hnoticed ?_
      exact Emitter.toNat_ofNat_of_range (Int.emod_nonneg _ (by omega)) (Int.emod_lt_of_pos _ hpos)

namespace Narrow

/-- A counted reference to a number, on a target with words of 32 bits. -/
def emitter : Emitter where
  layouts := ⟨.ofItems .new [.reference .counted .i32], .w32⟩
  config := { target := ⟨.w32, some {}⟩ }

/-- A function that takes two holders away, and one that takes 2³². -/
def fewer : CodeUnit :=
  Step.after (Emitter.addEmitted "fewer" [⟨16⟩] .unit (emitter.adjustCode ⟨16⟩ (-2)))
    (.new "narrow")

def draft : CodeUnit :=
  Step.after (Emitter.addEmitted "wrapped" [⟨16⟩] .unit
    (emitter.adjustCode ⟨16⟩ (-0x100000000))) fewer

theorem run_fewer : (Emitter.addEmitted "fewer" [⟨16⟩] .unit
    (emitter.adjustCode ⟨16⟩ (-2))).run (.new "narrow") = .ok ⟨0⟩ fewer :=
  Step.run_of_result? (by decide +kernel)

theorem run_draft : (Emitter.addEmitted "wrapped" [⟨16⟩] .unit
    (emitter.adjustCode ⟨16⟩ (-0x100000000))).run fewer = .ok ⟨1⟩ draft :=
  Step.run_of_result? (by decide +kernel)

def linked : emitter.Module where
  name := "narrow"
  draft := draft
  built := (Emitter.Module.builds_adjust run_fewer).trans (Emitter.Module.builds_adjust run_draft)
  unit := Step.after emitter.emitPendingGlue draft
  drained := ⟨0, Step.run_of_result? (by decide +kernel)⟩

theorem holds_fewer : linked.Holds "fewer" [⟨16⟩] .unit (emitter.adjustCode ⟨16⟩ (-2)) :=
  ⟨_, ⟨0⟩, fewer, .refl, run_fewer, Emitter.Module.builds_adjust run_draft, by decide +kernel⟩

theorem holds_wrapped : linked.Holds "wrapped" [⟨16⟩] .unit
    (emitter.adjustCode ⟨16⟩ (-0x100000000)) :=
  ⟨_, ⟨1⟩, draft, Emitter.Module.builds_adjust run_fewer, run_draft, .refl, by decide +kernel⟩

/-- A machine with one number, which has one holder. -/
def machine : Machine :=
  ⟨(Heap.initial.withBlock 8).withWord 0x10000000 1, 100, []⟩

theorem reachable_machine : machine.heap.Reachable :=
  (Heap.Reachable.initial.withBlock 8).withWord 0x10000000 1

theorem refCount_number : emitter.layouts.refCount machine.heap ⟨16⟩ 0x10000004 = .ok 1 := by
  decide +kernel

end Narrow

/-- Two holders of a number that has one cannot be taken away. -/
theorem count_guards_narrow :
    Narrow.emitter.Exact (-2)
      ∧ Narrow.emitter.layouts.refCount Narrow.machine.heap ⟨16⟩ 0x10000004 = .ok 1
      ∧ Narrow.linked.Stops "fewer" 0x10000004 Narrow.machine .countUnderflow := by
  have hexact : Narrow.emitter.Exact (-2) := ⟨by decide, by decide +kernel⟩
  have hlayout : Narrow.emitter.layouts.ref ⟨16⟩ = .ok ⟨.counted, .i32, ⟨4, 4⟩, 4⟩ := rfl
  obtain ⟨hfew, -, -⟩ := (count_guards rfl rfl Narrow.linked Narrow.holds_fewer).1 hexact hlayout
    Narrow.refCount_number (by decide)
  exact ⟨hexact, Narrow.refCount_number, hfew (by decide)⟩

/-- To take 2³² holders away from a number that has one is not noticed, and changes nothing. -/
theorem wide_change_unnoticed :
    Narrow.linked.Holds "wrapped" [⟨16⟩] .unit (Narrow.emitter.adjustCode ⟨16⟩ (-0x100000000))
      ∧ Narrow.emitter.config.checks = .trap
      ∧ Narrow.emitter.layouts.refCount Narrow.machine.heap ⟨16⟩ 0x10000004 = .ok 1
      ∧ (1 : Int) + (-0x100000000 : Int64).toInt < 0
      ∧ ∃ m, (Narrow.linked.program.run "wrapped" [.ptr 0x10000004]).run Narrow.machine = .ok none m
        ∧ Narrow.emitter.layouts.refCount m.heap ⟨16⟩ 0x10000004 = .ok 1 :=
  ⟨Narrow.holds_wrapped, rfl, Narrow.refCount_number, by decide, _,
    Exec.run_of_isNone (by decide +kernel), by decide +kernel⟩

end Ownership
