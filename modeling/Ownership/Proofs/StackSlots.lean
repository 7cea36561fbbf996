import Ownership.Proofs.Effects

/-!
# Stack slots and the calls they belong to

At any time, the live stack slots are those of the calls under way, each
call having its own (`Machine.Framed`). An instruction may add a slot to
the call that runs it; the end of a call, be it a return or a fault on the
way out, ends the slots of that call and of no other. So a slot lives as
long as its call, and none is left when a run has ended. Allocated blocks
live until they are freed, and only the heap primitives change what the
heap keeps count of (`slots_live_with_calls`).
-/

namespace Ownership

/-! ## The slots of the calls under way -/

namespace Machine

/-- The stack slots of each call under way, the innermost first. -/
def frames (m : Machine) (outers : List (List Address)) : List (List Address) :=
  (m.slots :: outers).dropLast

/-- The live stack slots are those of the calls under way, and no two calls share one. -/
structure Framed (m : Machine) (outers : List (List Address)) : Prop where
  sound : m.heap.Sound
  live : ∀ a, m.heap.HasBlock a .stack true ↔ a ∈ (m.frames outers).flatten
  nodup : (m.frames outers).flatten.Nodup

variable {m m' : Machine} {outer : List Address} {outers rest : List (List Address)} {a : Address}

theorem frames_cons (m : Machine) (outer : List Address) (outers : List (List Address)) :
    m.frames (outer :: outers) = m.slots :: (outer :: outers).dropLast := rfl

/-- The budget does not matter. -/
theorem Framed.paid (h : m.Framed outers) (budget : Nat) : Framed { m with budget } outers :=
  ⟨h.sound, h.live, h.nodup⟩

/-- The end of a call ends its slots. -/
theorem Framed.leave (h : m.Framed (outer :: outers)) : (Exec.leave m outer).Framed outers := by
  have hnodup := h.nodup
  rw [frames_cons, List.flatten_cons, List.nodup_append'] at hnodup
  refine ⟨h.sound.dropSlots m.slots, fun a => ?_, hnodup.2.1⟩
  change (m.heap.dropSlots m.slots).HasBlock a .stack true ↔
    a ∈ ((outer :: outers).dropLast).flatten
  rw [Heap.live_dropSlots, h.live, frames_cons, List.flatten_cons, List.mem_append]
  constructor
  · rintro ⟨hslot | hslot, hleft⟩
    · exact absurd hslot hleft
    · exact hslot
  · exact fun hslot => ⟨Or.inr hslot, fun hleft => hnodup.2.2 hleft hslot⟩

/-- The same for one call after the other. -/
theorem Framed.unwind : ∀ {left : List (List Address)} {m : Machine}, m.Framed (left ++ rest) →
    (left.foldl Exec.leave m).Framed rest
  | [], _, h => h
  | _ :: _, _, h => h.leave.unwind

/-- Leaving calls takes their slots away and no others. -/
theorem frames_unwind : ∀ (left : Nat) (outers : List (List Address)) (m : Machine),
    ((outers.take left).foldl Exec.leave m).frames (outers.drop left) = (m.frames outers).drop left
  | 0, _, _ => rfl
  | _ + 1, [], _ => rfl
  | left + 1, outer :: outers, m => frames_unwind left outers (Exec.leave m outer)

theorem Framed.not_slot (h : m.Framed (outer :: outers)) {live : Bool}
    (hb : m.heap.HasBlock a .heap live) : a ∉ m.slots := by
  intro hslot
  have hlive : m.heap.HasBlock a .stack true := (h.live a).mpr (List.mem_append_left _ hslot)
  cases (hb.unique hlive).1

theorem Framed.keep_heap {live : Bool} : ∀ {left : List (List Address)} {m : Machine},
    m.Framed (left ++ rest) → m.heap.HasBlock a .heap live →
    (left.foldl Exec.leave m).heap.HasBlock a .heap live
  | [], _, _, hb => hb
  | _ :: _, _, h, hb => h.leave.keep_heap ((Heap.hasBlock_dropSlots (h.not_slot hb)).mpr hb)

variable {p : Program} {frame frame' : Frame} {i : Instr}

/-- An instruction keeps the slots apart; it may add one to those of the call that runs it. -/
theorem Framed.does (h : m.Framed (outer :: outers)) (hdoes : p.Does frame m i frame' m')
    (hcursor : m'.heap.nextHeap ≤ Heap.stackBase) : m'.Framed (outer :: outers) := by
  have hbefore := Nat.le_trans hdoes.nextHeap_le hcursor
  cases hdoes with
  | still => exact h
  | @alloca dst ty var size a heap hm =>
      -- where the new slot goes, there is no block yet
      have hnew : a ∉ (m.frames (outer :: outers)).flatten := by
        intro hslot
        obtain ⟨b, hb, -⟩ := (h.live a).mpr hslot
        rw [(Heap.pushSlot_ok hm).1, h.sound.get?_nextStack hbefore] at hb
        cases hb
      refine ⟨h.sound.pushSlot hm hcursor, fun x => ?_, List.nodup_cons.mpr ⟨hnew, h.nodup⟩⟩
      rw [Heap.hasBlock_pushSlot h.sound hm hcursor, h.live]
      change _ ↔ x ∈ a :: (m.frames (outer :: outers)).flatten
      simp
  | store hw =>
      exact ⟨h.sound.write hw, fun x => (Heap.hasBlock_write hw).trans (h.live x), h.nodup⟩
  | malloc _ hm =>
      refine ⟨h.sound.malloc hm (Or.inl hcursor), fun x => ?_, h.nodup⟩
      rw [Heap.hasBlock_malloc h.sound hm hcursor, h.live]
      -- the new block is not a slot
      refine or_iff_right ?_
      rintro ⟨-, harena, -⟩
      cases harena
  | free _ _ _ hf =>
      exact ⟨h.sound.free hf,
        fun x => (Heap.hasBlock_free h.sound hf (Or.inl rfl)).trans (h.live x), h.nodup⟩

/-- An allocated block stays what it is, unless it is freed. -/
theorem Framed.does_heap {live : Bool} (h : m.Framed (outer :: outers))
    (hdoes : p.Does frame m i frame' m') (hcursor : m'.heap.nextHeap ≤ Heap.stackBase)
    (hb : m.heap.HasBlock a .heap live) (hfree : ¬ p.PassesToFree frame i a) :
    m'.heap.HasBlock a .heap live := by
  cases hdoes with
  | still => exact hb
  | alloca hm => exact (Heap.hasBlock_pushSlot h.sound hm hcursor).mpr (Or.inr hb)
  | store hw => exact (Heap.hasBlock_write hw).mpr hb
  | malloc _ hm => exact (Heap.hasBlock_malloc h.sound hm hcursor).mpr (Or.inr hb)
  | free hprims hapart harg hf =>
      refine (Heap.hasBlock_free h.sound hf (Or.inr ?_)).mpr hb
      exact fun heq => hfree ⟨_, _, _, _, hprims, hapart, rfl, harg, heq.symm⟩

end Machine

namespace Snapshot

/-- The slots of the calls that are nested at most `depth` deep. -/
def slotsTo (c : Snapshot) (depth : Nat) : List Address :=
  ((c.machine.frames c.outers).drop (c.callers.length - depth)).flatten

/-- The slots are live, also after calls nested deeper were left. -/
theorem live_slotsTo {c : Snapshot} {depth left : Nat} {a : Address}
    (h : c.machine.Framed c.outers) (ha : a ∈ c.slotsTo depth)
    (hleft : left + depth ≤ c.callers.length) :
    ((c.outers.take left).foldl Exec.leave c.machine).heap.HasBlock a .stack true := by
  rw [← List.take_append_drop left c.outers] at h
  rw [h.unwind.live, Machine.frames_unwind]
  obtain ⟨slots, hslots, ha⟩ := List.mem_flatten.mp ha
  exact List.mem_flatten.mpr ⟨slots, List.drop_subset_drop_left _ (by omega) hslots, ha⟩

end Snapshot

namespace Program

variable {p : Program} {c c' c₁ c₂ : Snapshot} {e : Event} {es es' : List Event}
  {r : Outcome (Option Value)} {m m' : Machine} {a : Address} {live : Bool}

/-! ## Runs -/

theorem mem_flatten_drop {slots slots' : List Address} {frames : List (List Address)} {n : Nat}
    (h : slots ⊆ slots') (ha : a ∈ ((slots :: frames).drop n).flatten) :
    a ∈ ((slots' :: frames).drop n).flatten := by
  cases n with
  | zero => exact List.mem_append.mpr ((List.mem_append.mp ha).imp_left fun hslot => h hslot)
  | succ n => exact ha

theorem framed_of_goes (hf : c.machine.Framed c.outers) (h : p.next c = .goes e c')
    (hcursor : c'.machine.heap.nextHeap ≤ Heap.stackBase) : c'.machine.Framed c'.outers := by
  cases effect_of_next h with
  | instr _ _ hdoes houters =>
      rw [houters]
      exact (hf.paid _).does hdoes hcursor
  | call _ hm houters =>
      rw [hm, houters]
      exact ⟨hf.sound, hf.live, hf.nodup⟩
  | goto _ hm houters =>
      rw [hm, houters]
      exact hf
  | back _ houters hm =>
      rw [hm]
      rw [houters] at hf
      exact hf.leave

theorem Steps.framed (h : p.Steps c es c') (hf : c.machine.Framed c.outers)
    (hcursor : c'.machine.heap.nextHeap ≤ Heap.stackBase) : c'.machine.Framed c'.outers := by
  induction h with
  | refl => exact hf
  | head hnext hrest ih =>
      exact ih (framed_of_goes hf hnext (Nat.le_trans hrest.nextHeap_le hcursor)) hcursor

/-- As long as a call is under way, it keeps its slots. -/
theorem slotsTo_of_goes {depth : Nat} (h : p.next c = .goes e c') (hc : depth ≤ c.callers.length)
    (hc' : depth ≤ c'.callers.length) (ha : a ∈ c.slotsTo depth) : a ∈ c'.slotsTo depth := by
  have hlen := c.length_outers
  have hlen' := c'.length_outers
  -- frames are counted from the innermost call, so those below move when a call begins or ends
  unfold Snapshot.slotsTo at ha ⊢
  cases effect_of_next h with
  | instr _ _ hdoes houters =>
      rw [houters] at hlen'
      rw [houters, show c'.callers.length = c.callers.length by omega]
      exact mem_flatten_drop hdoes.slots_subset ha
  | call _ hm houters =>
      have hframes : c'.machine.frames c'.outers = [] :: c.machine.frames c.outers := by
        rw [hm, houters]
        exact Eq.refl _
      rw [houters, List.length_cons] at hlen'
      rw [hframes, show c'.callers.length - depth = c.callers.length - depth + 1 by omega]
      exact ha
  | goto _ hm houters =>
      rw [houters] at hlen'
      rw [hm, houters, show c'.callers.length = c.callers.length by omega]
      exact ha
  | back _ houters hm =>
      have hframes : c.machine.frames c.outers =
          c.machine.slots :: c'.machine.frames c'.outers := by
        rw [hm, houters]
        exact Eq.refl _
      rw [houters, List.length_cons] at hlen
      rw [hframes, show c.callers.length - depth = c'.callers.length - depth + 1 by omega] at ha
      exact ha

theorem Steps.slotsTo {depth : Nat} (h : p.Steps c es c')
    (hdepth : ∀ es₁ c₁ es₂, p.Steps c es₁ c₁ → p.Steps c₁ es₂ c' → depth ≤ c₁.callers.length)
    (ha : a ∈ c.slotsTo depth) : a ∈ c'.slotsTo depth := by
  induction h with
  | refl => exact ha
  | head hnext hrest ih =>
      have hhere := hdepth [] _ _ (.refl _) (.head hnext hrest)
      have hthere := hdepth _ _ _ (.head hnext (.refl _)) hrest
      exact ih (fun es₁ c₁ es₂ h₁ h₂ => hdepth _ c₁ es₂ (.head hnext h₁) h₂)
        (slotsTo_of_goes hnext hhere hthere ha)

theorem heapBlock_of_goes (hf : c.machine.Framed c.outers) (h : p.next c = .goes e c')
    (hcursor : c'.machine.heap.nextHeap ≤ Heap.stackBase)
    (hb : c.machine.heap.HasBlock a .heap live) (hfree : ¬ p.Frees c a) :
    c'.machine.heap.HasBlock a .heap live := by
  cases effect_of_next h with
  | instr hinstr hbudget hdoes _ =>
      refine (hf.paid _).does_heap hdoes hcursor hb fun hpasses => ?_
      exact hfree ⟨by omega, _, hinstr, hpasses⟩
  | call _ hm _ =>
      rw [hm]
      exact hb
  | goto _ hm _ =>
      rw [hm]
      exact hb
  | back _ houters hm =>
      rw [hm]
      rw [houters] at hf
      exact (Heap.hasBlock_dropSlots (hf.not_slot hb)).mpr hb

theorem Steps.heapBlock (h : p.Steps c es c') (hf : c.machine.Framed c.outers)
    (hcursor : c'.machine.heap.nextHeap ≤ Heap.stackBase)
    (hb : c.machine.heap.HasBlock a .heap live)
    (hfree : ∀ es₁ c₁, p.Steps c es₁ c₁ → ¬ p.Frees c₁ a) :
    c'.machine.heap.HasBlock a .heap live := by
  induction h with
  | refl => exact hb
  | head hnext hrest ih =>
      have hcursor₁ := Nat.le_trans hrest.nextHeap_le hcursor
      refine ih (framed_of_goes hf hnext hcursor₁) hcursor ?_
        fun es₁ c₁ h₁ => hfree _ c₁ (.head hnext h₁)
      exact heapBlock_of_goes hf hnext hcursor₁ hb (hfree [] _ (.refl _))

/-- Only a call of a heap primitive changes what the heap keeps count of. -/
theorem tally_of_goes (h : p.next c = .goes e c') (hcalls : ¬ p.CallsHeap c) :
    c'.machine.heap.tally = c.machine.heap.tally := by
  cases effect_of_next h with
  | instr hinstr hbudget hdoes _ =>
      exact hdoes.tally_eq fun hi => hcalls ⟨by omega, _, hinstr, hi⟩
  | call _ hm _ => rw [hm]
  | goto _ hm _ => rw [hm]
  | back _ _ hm =>
      rw [hm]
      exact Heap.tally_dropSlots _ _

theorem tally_of_ends (h : p.next c = .ends r m') : m'.heap.tally = c.machine.heap.tally := by
  cases effect_of_next h with
  | @ends _ budget =>
      obtain ⟨blocks, slots, heq⟩ := exists_foldl_leave_eq c.outers { c.machine with budget }
      rw [heq]
      exact Eq.refl _

theorem Steps.tally (h : p.Steps c es c')
    (hcalls : ∀ es₁ c₁, p.Steps c es₁ c₁ → ¬ p.CallsHeap c₁) :
    c'.machine.heap.tally = c.machine.heap.tally := by
  induction h with
  | refl => rfl
  | head hnext _ ih =>
      exact (ih fun es₁ c₁ h₁ => hcalls _ c₁ (.head hnext h₁)).trans
        (tally_of_goes hnext (hcalls [] _ (.refl _)))

variable {name : String} {args : List Value}

/-- A run starts on memory as it is, with no slots. -/
theorem framed_of_start (hreach : m.heap.Reachable) (hdead : ∀ a, ¬ m.heap.HasBlock a .stack true)
    (h : p.start name args m = .ok c) (hcursor : c.machine.heap.nextHeap ≤ Heap.stackBase) :
    c.machine.Framed c.outers := by
  obtain ⟨f, x, -, rfl, -⟩ := start_ok h
  refine ⟨hreach.sound (Or.inl hcursor), fun a => ⟨fun ha => absurd ha (hdead a), fun ha => ?_⟩,
    List.nodup_nil⟩
  cases ha

theorem heap_of_start (h : p.start name args m = .ok c) : c.machine.heap = m.heap := by
  obtain ⟨f, x, -, rfl, -⟩ := start_ok h
  rfl

theorem Reaches.framed (h : p.Reaches name args m es c) (hreach : m.heap.Reachable)
    (hdead : ∀ a, ¬ m.heap.HasBlock a .stack true)
    (hcursor : c.machine.heap.nextHeap ≤ Heap.stackBase) : c.machine.Framed c.outers := by
  obtain ⟨c₀, hstart, hsteps⟩ := h
  have hstarted := framed_of_start hreach hdead hstart (Nat.le_trans hsteps.nextHeap_le hcursor)
  exact hsteps.framed hstarted hcursor

/-- A run that does not start leaves the machine as it was. -/
theorem machine_of_start_error {s : Stop Fault} (h : p.start name args m = .error s)
    (hrun : (p.run name args).run m = Step.ending r m') : m' = m := by
  have hends : Step.ending r m' = Step.ending (.error s) m := hrun.symm.trans (start_error h).1
  exact (Step.ending_inj hends).2

/-- From wherever a run gets that ends, it gets to its last step. -/
theorem Reaches.last (h : p.Reaches name args m es c)
    (hrun : (p.run name args).run m = Step.ending r m') (hr : r ≠ .error (.abort .endless)) :
    ∃ es' c', p.Steps c es' c' ∧ p.next c' = .ends r m' := by
  obtain ⟨c₀, hstart, hsteps⟩ := h
  obtain ⟨es', c', hsteps', ⟨r', m'', hend, hrun', -⟩ | ⟨-, m'', hrun'⟩⟩ :=
    run_ends_or_circles hstart
  · obtain ⟨rfl, rfl⟩ := Step.ending_inj (hrun.symm.trans hrun')
    obtain ⟨rest, -, hrest⟩ := hsteps.eq_append hsteps' (hsteps'.length_le hend hsteps)
    exact ⟨rest, c', hrest, hend⟩
  · have hends : Step.ending r m' = Step.ending (.error (.abort .endless)) m'' :=
      hrun.symm.trans hrun'
    exact absurd (Step.ending_inj hends).1 hr

theorem Reaches.steps (h : p.Reaches name args m es c) (h' : p.Steps c es' c') :
    p.Reaches name args m (es ++ es') c' := by
  obtain ⟨c₀, hstart, hsteps⟩ := h
  exact ⟨c₀, hstart, hsteps.trans h'⟩

/-- A slot that is made belongs to the call that makes it. -/
theorem slot_of_alloca {dst : ValueId} {ty : TypeId} {var : Name}
    (hinstr : c.instr? = some (.alloca dst ty var)) (h : p.next c = .goes e c₁) :
    ∃ w : UInt64, c₁.machine.slots = w.toNat :: c.machine.slots
      ∧ c₁.current.frame = c.current.frame.define dst (.ptr w)
      ∧ w.toNat ∈ c₁.slotsTo c.callers.length := by
  cases effect_of_next h with
  | instr hinstr' _ hdoes houters =>
      obtain rfl := Option.some.inj (hinstr.symm.trans hinstr')
      obtain ⟨w, hslots, hframe⟩ := hdoes.of_alloca
      have hlen : c₁.callers.length = c.callers.length := by
        have hlen₁ := c₁.length_outers
        rw [houters, c.length_outers] at hlen₁
        omega
      refine ⟨w, hslots, hframe, ?_⟩
      rw [Snapshot.slotsTo, hlen, Nat.sub_self, List.drop_zero]
      refine List.mem_append_left _ ?_
      rw [hslots]
      exact List.mem_cons_self
  | call hinstr' _ _ | goto hinstr' _ _ | back hinstr' _ _ =>
      rw [hinstr] at hinstr'
      cases hinstr'

/-- The last step leaves all calls, so it leaves no slot. -/
theorem dead_of_ends (hf : c.machine.Framed c.outers) (h : p.next c = .ends r m') (a : Address) :
    ¬ m'.heap.HasBlock a .stack true := by
  rw [← List.append_nil c.outers] at hf
  cases effect_of_next h with
  | ends =>
      intro ha
      have hnone := ((hf.paid _).unwind.live a).mp ha
      cases hnone

theorem heapBlock_of_ends (hf : c.machine.Framed c.outers) (h : p.next c = .ends r m')
    (hb : c.machine.heap.HasBlock a .heap live) : m'.heap.HasBlock a .heap live := by
  rw [← List.append_nil c.outers] at hf
  cases effect_of_next h with
  | ends => exact (hf.paid _).keep_heap hb

end Program

/-- Stack slots live as long as the call that made them: as long as it is under way, whatever is
called and however these calls end. When the run has ended, with a value or with a fault, no stack
slot is live, and an allocated block that was not passed to the primitive that frees is live if it
was live before. Only calls of the heap primitives change what the heap keeps count of. -/
theorem slots_live_with_calls (p : Program) (name : String) (args : List Value) {m : Machine}
    (hreach : m.heap.Reachable) (hdead : ∀ a, ¬ m.heap.HasBlock a .stack true) :
    (∀ es c e c₁ dst ty var, p.Reaches name args m es c → c.instr? = some (.alloca dst ty var) →
      p.next c = .goes e c₁ → ∃ w : UInt64, c₁.machine.slots = w.toNat :: c.machine.slots
        ∧ c₁.current.frame = c.current.frame.define dst (.ptr w)
        ∧ ∀ es₁ c₂, p.Steps c₁ es₁ c₂ →
          (∀ es' c' es'', p.Steps c₁ es' c' → p.Steps c' es'' c₂ →
            c.callers.length ≤ c'.callers.length) →
          c₂.machine.heap.nextHeap ≤ Heap.stackBase →
          ∀ left, left + c.callers.length ≤ c₂.callers.length →
            ((c₂.outers.take left).foldl Exec.leave c₂.machine).heap.HasBlock w.toNat .stack true)
    ∧ (∀ r m', (p.run name args).run m = Step.ending r m' → r ≠ .error (.abort .endless) →
      m'.heap.nextHeap ≤ Heap.stackBase →
        (∀ a, ¬ m'.heap.HasBlock a .stack true)
        ∧ (∀ a live, m.heap.HasBlock a .heap live →
          (∀ es c, p.Reaches name args m es c → ¬ p.Frees c a) → m'.heap.HasBlock a .heap live)
        ∧ ∀ es c a live, p.Reaches name args m es c → c.machine.heap.HasBlock a .heap live →
          (∀ es' c', p.Steps c es' c' → ¬ p.Frees c' a) → m'.heap.HasBlock a .heap live)
    ∧ (∀ es c, p.Reaches name args m es c →
        (∀ e c', p.next c = .goes e c' → c'.machine.heap.tally ≠ c.machine.heap.tally →
          p.CallsHeap c)
        ∧ ∀ r m', p.next c = .ends r m' → m'.heap.tally = c.machine.heap.tally)
    ∧ (∀ r m', (p.run name args).run m = Step.ending r m' → r ≠ .error (.abort .endless) →
        (∀ es c, p.Reaches name args m es c → ¬ p.CallsHeap c) → m'.heap.tally = m.heap.tally) := by
  refine ⟨fun es c e c₁ dst ty var hc hinstr hnext => ?_, fun r m' hrun hr hcursor => ?_,
    fun es c hc => ⟨fun e c' hnext hchange => ?_, fun r m' => Program.tally_of_ends⟩,
    fun r m' hrun hr hcalls => ?_⟩
  · obtain ⟨w, hslots, hframe, hw⟩ := Program.slot_of_alloca hinstr hnext
    refine ⟨w, hslots, hframe, fun es₁ c₂ hsteps hactive hcursor left hleft => ?_⟩
    have hc₂ := hc.steps (.head hnext hsteps)
    exact Snapshot.live_slotsTo (hc₂.framed hreach hdead hcursor) (hsteps.slotsTo hactive hw) hleft
  · have hblock : ∀ es c a live, p.Reaches name args m es c →
        c.machine.heap.HasBlock a .heap live →
        (∀ es' c', p.Steps c es' c' → ¬ p.Frees c' a) → m'.heap.HasBlock a .heap live := by
      intro es c a live hc hb hfree
      -- the cursor only grows, so up to the last step it is where it should be
      obtain ⟨es', c', hsteps, hend⟩ := hc.last hrun hr
      have hcursor' : c'.machine.heap.nextHeap ≤ Heap.stackBase :=
        (Program.nextHeap_of_ends hend).symm.trans_le hcursor
      have hframed := hc.framed hreach hdead (Nat.le_trans hsteps.nextHeap_le hcursor')
      exact Program.heapBlock_of_ends (hsteps.framed hframed hcursor') hend
        (hsteps.heapBlock hframed hcursor' hb hfree)
    cases hstart : p.start name args m with
    | error s =>
        obtain rfl := Program.machine_of_start_error hstart hrun
        exact ⟨hdead, fun a live hb _ => hb, hblock⟩
    | ok c₀ =>
        have hc₀ : p.Reaches name args m [] c₀ := ⟨c₀, hstart, .refl _⟩
        refine ⟨?_, fun a live hb hfree => ?_, hblock⟩
        · obtain ⟨es', c', hsteps, hend⟩ := hc₀.last hrun hr
          rw [Program.nextHeap_of_ends hend] at hcursor
          exact Program.dead_of_ends ((hc₀.steps hsteps).framed hreach hdead hcursor) hend
        · rw [← Program.heap_of_start hstart] at hb
          exact hblock [] c₀ a live hc₀ hb fun es' c' hsteps => hfree _ c' (hc₀.steps hsteps)
  · exact Classical.byContradiction fun hcalls => hchange (Program.tally_of_goes hnext hcalls)
  · cases hstart : p.start name args m with
    | error s => rw [Program.machine_of_start_error hstart hrun]
    | ok c₀ =>
        have hc₀ : p.Reaches name args m [] c₀ := ⟨c₀, hstart, .refl _⟩
        obtain ⟨es', c', hsteps, hend⟩ := hc₀.last hrun hr
        rw [Program.tally_of_ends hend, ← Program.heap_of_start hstart]
        exact hsteps.tally fun es₁ c₁ h₁ => hcalls _ c₁ (hc₀.steps h₁)

/-! ## A fault in a nested call -/

namespace Faulting

/-- Makes a slot and reads through the reference to nothing. -/
def inner : Function where
  name := "inner"
  arity := 0
  returnType := .unit
  blocks := [⟨"entry", [.alloca ⟨0⟩ .int ⟨0⟩, .load ⟨1⟩ .int (.const .null)], some (.ret none)⟩]
  valueTypes := [.ptr, .int]

/-- Makes a slot and calls the other function. -/
def outer : Function where
  name := "outer"
  arity := 0
  returnType := .unit
  blocks := [⟨"entry", [.alloca ⟨0⟩ .int ⟨1⟩, .call none ⟨1⟩ []], some (.ret none)⟩]
  valueTypes := [.ptr]

def program : Program where
  unit := ⟨"unit", [], [outer, inner], none, [], []⟩
  layouts := ⟨.empty, .w64⟩

/-- There is one allocated block. -/
def machine : Machine := ⟨Heap.initial.withBlock 16, 10, []⟩

theorem reachable_machine : machine.heap.Reachable := Heap.Reachable.initial.withBlock 16

theorem hasBlock_machine {a : Address} {arena : Arena} {live : Bool} :
    machine.heap.HasBlock a arena live ↔ a = Heap.heapBase ∧ Arena.heap = arena ∧ true = live := by
  have hm : Heap.initial.malloc 16 = .ok (Heap.heapBase, machine.heap) := rfl
  rw [Heap.hasBlock_malloc Heap.sound_initial hm (by decide)]
  refine or_iff_left ?_
  rintro ⟨b, hb, -⟩
  cases hb

def after : Machine := Step.after (program.run "outer" []) machine

theorem run_outer : (program.run "outer" []).run machine =
    .error (.error (.memory .nullDeref)) after := rfl

end Faulting

/-- The fault leaves two calls, and the slot of each is dead then; the block is still live. -/
theorem slots_live_with_calls_faulting :
    (Faulting.program.run "outer" []).run Faulting.machine =
      .error (.error (.memory .nullDeref)) Faulting.after
    ∧ Faulting.after.heap.HasBlock 0x70000000 .stack false
    ∧ Faulting.after.heap.HasBlock 0x70000020 .stack false
    ∧ (∀ a, ¬ Faulting.after.heap.HasBlock a .stack true)
    ∧ Faulting.after.heap.HasBlock Heap.heapBase .heap true := by
  have hdead : ∀ a, ¬ Faulting.machine.heap.HasBlock a .stack true := fun a ha => by
    cases (Faulting.hasBlock_machine.mp ha).2.1
  obtain ⟨-, hend, -⟩ :=
    slots_live_with_calls Faulting.program "outer" [] Faulting.reachable_machine hdead
  obtain ⟨hslots, hblocks, -⟩ :=
    hend (.error (.error (.memory .nullDeref))) Faulting.after Faulting.run_outer (by rintro ⟨⟩)
      (by decide +kernel)
  refine ⟨Faulting.run_outer, ⟨_, rfl, rfl, rfl⟩, ⟨_, rfl, rfl, rfl⟩, hslots, ?_⟩
  refine hblocks _ _ (Faulting.hasBlock_machine.mpr ⟨rfl, rfl, rfl⟩) ?_
  -- the unit has no heap primitives
  rintro es c - ⟨-, i, -, prims, dst, arg, addr, hprims, -⟩
  cases hprims

end Ownership
