import Ownership.Proofs.Sessions

/-!
# Faults that complete units do not have

A fault of a run is *internal* if it comes from the form of the code: a
value that is not defined, a block or function that is not finished, an
id that names nothing, or a run without an end. A unit is complete if its
functions are well-formed and call only what is there. A run of a
complete unit has no internal fault, whatever the machine is and whatever
the arguments are, if only there are enough of them
(`CodeUnit.Complete.regular_call`).

A unit is complete when all that was done to it succeeded, and no glue
function waits any more (`Emitter.Works.complete`).
-/

namespace Ownership

/-- The form of the code is at fault. -/
def Stop.Internal : Stop Fault → Prop
  | .error (.undefinedValue _) | .error (.unterminated _ _) | .error (.missingBody _)
  | .error (.unknownExternal _) | .abort .dangling | .abort .endless => True
  | _ => False

/-! ## Answers -/

namespace Outcome

variable {α β : Type} {x : Outcome α} {f : α → Outcome β}

/-- If the answer is a fault, it is not an internal one. -/
def Regular (x : Outcome α) : Prop := ∀ r, x = .error r → ¬ r.Internal

theorem regular_ok (a : α) : Regular (.ok a : Outcome α) := nofun

theorem regular_error {r : Stop Fault} (h : ¬ r.Internal) : Regular (.error r : Outcome α) :=
  fun _ hr => Except.error.inj hr ▸ h

theorem Regular.bind (hx : Regular x) (hf : ∀ a, x = .ok a → Regular (f a)) :
    Regular (x >>= f) := by
  cases x with
  | ok a => exact hf a rfl
  | error r => exact regular_error (hx r rfl)

theorem regular_ofLayout {y : Except (Stop LayoutError) α} (h : ∀ r, y = .error r → r.Sized) :
    Regular (ofLayout y) := by
  cases y with
  | ok a => exact regular_ok a
  | error r =>
      have hr := h r rfl
      cases r with
      | error err => exact regular_error id
      | abort a =>
          obtain rfl : a = .overflow := hr
          exact regular_error id

theorem ofLayout_eq_ok {y : Except (Stop LayoutError) α} {a : α} (h : ofLayout y = .ok a) :
    y = .ok a := by
  cases y with
  | ok b => exact congrArg Except.ok (Except.ok.inj h)
  | error r => cases h

theorem regular_ofKind (y : Except Mismatch α) : Regular (ofKind y) := by
  cases y with
  | ok a => exact regular_ok a
  | error m => exact regular_error id

end Outcome

open Outcome

/-! ## Memory -/

namespace Heap

variable {h : Heap}

/-- Accesses abort at bounds or for addresses that do not fit. -/
def Judged (r : Stop HeapFault) : Prop := ∀ a, r = .abort a → a = .overflow ∨ a = .bounds

theorem regular_ofMemory {α : Type} {y : Except (Stop HeapFault) α}
    (hy : ∀ r, y = .error r → Judged r) : Regular (ofMemory y) := by
  cases y with
  | ok a => exact regular_ok a
  | error r =>
      cases r with
      | error fault => exact regular_error id
      | abort a => rcases hy _ rfl a rfl with rfl | rfl <;> exact regular_error id

theorem locate_error {addr : Address} {len : Nat} {r : Stop HeapFault}
    (hr : h.locate addr len = .error r) : Judged r := by
  unfold locate at hr
  split at hr
  · cases hr
    nofun
  · split at hr
    · cases hr
      nofun
    · split at hr
      · cases hr
        exact fun a ha => Or.inl (Stop.abort.inj ha).symm
      · split at hr
        · cases hr
          nofun
        · split at hr
          · cases hr
          · cases hr
            nofun

theorem regular_read (addr : Address) (len : Nat) : Regular (ofMemory (h.read addr len)) := by
  refine regular_ofMemory fun r hr => ?_
  unfold read at hr
  cases hl : h.locate addr len with
  | error r' =>
      rw [hl] at hr
      exact Except.error.inj hr ▸ locate_error hl
  | ok found =>
      simp only [hl, bind, Except.bind] at hr
      split at hr
      · cases hr
      · cases hr
        exact fun a ha => Or.inr (Stop.abort.inj ha).symm

theorem regular_write (addr : Address) (data : List UInt8) :
    Regular (ofMemory (h.write addr data)) := by
  refine regular_ofMemory fun r hr => ?_
  unfold write at hr
  cases hl : h.locate addr data.length with
  | error r' =>
      rw [hl] at hr
      exact Except.error.inj hr ▸ locate_error hl
  | ok found =>
      simp only [hl, bind, Except.bind] at hr
      split at hr
      · cases hr
      · cases hr
        exact fun a ha => Or.inr (Stop.abort.inj ha).symm

theorem place_error {addr : Address} {arena : Arena} {size : Nat} {a : Abort}
    (hr : h.place addr arena size = .error a) : a = .capacity := by
  unfold place at hr
  split at hr
  · cases hr
  · exact (Except.error.inj hr).symm

theorem malloc_error {size : Nat} {a : Abort} (hr : h.malloc size = .error a) :
    a = .overflow ∨ a = .capacity := by
  unfold malloc at hr
  cases hbump : bump h.nextHeap size with
  | error a' =>
      rw [hbump] at hr
      exact Except.error.inj hr ▸ Or.inl (addSize_error hbump)
  | ok next =>
      cases hbytes : addSize h.bytesAllocated size with
      | error a' =>
          simp only [hbump, hbytes, bind, Except.bind] at hr
          exact Except.error.inj hr ▸ Or.inl (addSize_error hbytes)
      | ok bytes =>
          cases hplace : h.place h.nextHeap .heap size with
          | error a' =>
              simp only [hbump, hbytes, hplace, bind, Except.bind] at hr
              exact Except.error.inj hr ▸ Or.inr (place_error hplace)
          | ok after => simp [hbump, hbytes, hplace, bind, Except.bind, pure, Except.pure] at hr

theorem pushSlot_error {size : Nat} {a : Abort} (hr : h.pushSlot size = .error a) :
    a = .overflow ∨ a = .capacity := by
  unfold pushSlot at hr
  cases hbump : bump h.nextStack size with
  | error a' =>
      rw [hbump] at hr
      exact Except.error.inj hr ▸ Or.inl (addSize_error hbump)
  | ok next =>
      cases hplace : h.place h.nextStack .stack size with
      | error a' =>
          simp only [hbump, hplace, bind, Except.bind] at hr
          exact Except.error.inj hr ▸ Or.inr (place_error hplace)
      | ok after => simp [hbump, hplace, bind, Except.bind, pure, Except.pure] at hr

end Heap

/-! ## Values as bytes -/

namespace Layouts

variable {L : Layouts}

theorem regular_value (ty : TypeId) : Regular (ofLayout (L.value ty)) :=
  regular_ofLayout fun _ => value_error

theorem regular_record (ty : TypeId) : Regular (ofLayout (L.record ty)) :=
  regular_ofLayout fun _ => record_error

theorem regular_encodeScalar (tag : Tag) (v : Value) : Regular (L.encodeScalar tag v) := by
  unfold encodeScalar
  split <;> first
    | exact regular_ok _
    | exact regular_error id

mutual

theorem regular_encode (ty : TypeId) : ∀ v : Value, Regular (L.encode ty v)
  | .record fields => by
      unfold encode
      split
      · refine (regular_record ty).bind fun layout _ => ?_
        split
        · refine (regular_encodeFields layout.fields fields).bind fun parts _ => ?_
          split
          · exact regular_ok _
          · exact regular_error id
        · exact regular_error id
      · exact regular_error id
  | .int _ | .i32 _ | .float _ | .bool _ | .byte _ | .usize _ | .ptr _ | .unit => by
      unfold encode
      exact regular_encodeScalar _ _

theorem regular_encodeFields : ∀ (slots : List FieldSlot) (vs : List Value),
    Regular (L.encodeFields slots vs)
  | slot :: slots, v :: vs => by
      unfold encodeFields
      refine (regular_value slot.type).bind fun layout _ => ?_
      refine (regular_encode slot.type v).bind fun part _ => ?_
      split
      · exact (regular_encodeFields slots vs).bind fun parts _ => regular_ok _
      · exact regular_error id
  | [], _ => by
      unfold encodeFields
      exact regular_ok _
  | _ :: _, [] => by
      unfold encodeFields
      exact regular_ok _

end

theorem regular_decodeFields {inner : TypeId → List UInt8 → Outcome Value} {data : List UInt8} :
    ∀ {slots : List FieldSlot}, (∀ s ∈ slots, ∀ part, Regular (inner s.type part)) →
      Regular (L.decodeFields inner data slots)
  | [], _ => regular_ok _
  | slot :: slots, h => by
      refine (regular_value slot.type).bind fun layout _ => ?_
      split
      · refine (h slot List.mem_cons_self _).bind fun v _ => ?_
        exact (regular_decodeFields fun s hs => h s (List.mem_cons_of_mem _ hs)).bind fun vs _ =>
          regular_ok _
      · exact regular_error id

/-- Reading looks as deep as the type goes. -/
theorem regular_decodeWithin : ∀ {depth : Nat} {ty : TypeId} {v : ValueLayout},
    L.measure depth ty = some v → ∀ data, Regular (L.decodeWithin depth ty data)
  | depth + 1, ty, v, h, data => by
      unfold decodeWithin
      split
      · exact regular_ok _
      · exact regular_ok _
      · next htag =>
          refine (regular_record ty).bind fun layout hlayout => ?_
          have hplaced := record_eq_ok_iff.mp (ofLayout_eq_ok hlayout)
          have hfields : ∀ s ∈ layout.fields, ∀ part,
              Regular (L.decodeWithin depth s.type part) := by
            intro s hs part
            obtain ⟨w, hw⟩ := measure_slot h hplaced hs
            exact regular_decodeWithin hw part
          exact (regular_decodeFields hfields).bind fun vs _ => regular_ok _

theorem regular_load (h : Heap) (ty : TypeId) (addr : UInt64) : Regular (L.load h ty addr) :=
  (regular_value ty).bind fun _ hlayout => (Heap.regular_read _ _).bind fun data _ =>
    regular_decodeWithin (value_eq_ok_iff.mp (ofLayout_eq_ok hlayout)) data

theorem regular_store (h : Heap) (ty : TypeId) (addr : UInt64) (v : Value) :
    Regular (L.store h ty addr v) := by
  refine (regular_value ty).bind fun layout _ => ?_
  split
  · refine (regular_encode ty v).bind fun data _ => ?_
    split
    · exact Heap.regular_write _ _
    · exact regular_error id
  · exact regular_error id

end Layouts

/-! ## Frames -/

namespace Frame

variable {frame : Frame} {n : Nat} {vs : List ValueId}

/-- The frame has places for `n` values, and those in `vs` are defined. -/
structure Covers (n : Nat) (vs : List ValueId) (frame : Frame) : Prop where
  size : frame.size = n
  values : ∀ v ∈ vs, ∃ x, frame.eval (.value v) = .ok x

theorem Covers.eval (h : frame.Covers n vs) : ∀ {op : Operand}, op.Among vs →
    ∃ x, frame.eval op = .ok x
  | .value v, hop => h.values v hop
  | .const c, _ => ⟨.ofConst c, rfl⟩

theorem Covers.regular (h : frame.Covers n vs) {op : Operand} (hop : op.Among vs) :
    Regular (frame.eval op) := by
  obtain ⟨x, hx⟩ := h.eval hop
  exact hx ▸ regular_ok x

theorem Covers.regular_addr (h : frame.Covers n vs) {op : Operand} (hop : op.Among vs) :
    Regular (frame.evalAddr op) :=
  (h.regular hop).bind fun v _ => regular_ofKind v.asAddr

theorem eval_define_of_ok {v id : ValueId} {x : Value} (h : frame.eval (.value v) = .ok x)
    (y : Value) : ∃ z, (frame.define id y).eval (.value v) = .ok z := by
  by_cases hv : v = id
  · subst hv
    refine ⟨y, eval_define ?_ y⟩
    by_contra hsize
    simp [eval, Array.getElem?_eq_none (Nat.le_of_not_lt hsize)] at h
    cases h
  · have hne : id.index ≠ v.index := fun heq => hv (by cases v; cases id; simp_all)
    refine ⟨x, ?_⟩
    rw [← h]
    simp only [eval, define, Array.getElem?_setIfInBounds_ne hne]

theorem Covers.define (h : frame.Covers n vs) {id : ValueId} (hid : id.index < n) (x : Value) :
    (frame.define id x).Covers n (id :: vs) := by
  refine ⟨(Array.size_setIfInBounds ..).trans h.size, fun v hv => ?_⟩
  rcases List.mem_cons.mp hv with rfl | hv
  · exact ⟨x, eval_define (h.size.symm ▸ hid) x⟩
  · obtain ⟨y, hy⟩ := h.values v hv
    exact eval_define_of_ok hy x

theorem Covers.defineAll : ∀ {l : List (ValueId × Value)} {frame : Frame} {vs : List ValueId},
    frame.Covers n vs → (∀ p ∈ l, p.1.index < n) →
      (frame.defineAll l).Covers n (l.map Prod.fst ++ vs)
  | [], _, _, h, _ => h
  | p :: l, frame, vs, h, hl => by
      have hnext := Covers.defineAll (h.define (hl p List.mem_cons_self) p.2) fun q hq =>
        hl q (List.mem_cons_of_mem _ hq)
      refine ⟨hnext.size, fun v hv => hnext.values v ?_⟩
      rw [List.map_cons, List.cons_append] at hv
      exact List.perm_middle.mem_iff.mpr hv

/-- With enough arguments, all parameters are defined. -/
theorem covers_start {f : Function} (hf : f.WellFormed) {args : List Value}
    (hargs : f.arity ≤ args.length) : (start f args).Covers f.valueTypes.length f.params := by
  have hlen : f.params.length = f.arity := by simp [Function.params]
  have hkeys : (f.params.zip args).map Prod.fst = f.params :=
    List.map_fst_zip (by omega)
  have hempty : Covers f.valueTypes.length [] (Array.replicate f.valueTypes.length none) :=
    ⟨Array.size_replicate, fun _ hv => absurd hv List.not_mem_nil⟩
  have hall := hempty.defineAll (l := f.params.zip args) fun p hp =>
    hf.typed p.1 (List.mem_append_left _ (List.of_mem_zip hp).1)
  rw [hkeys, List.append_nil] at hall
  exact hall

end Frame

/-! ## Runs -/

namespace Exec

variable {α β : Type} {n : Nat} {x : Exec α} {f : α → Exec β} {Q : α → Prop} {R : β → Prop}

/-- With at most `n` steps left, there is no internal fault, and a result is in `Q`. -/
structure Regular (n : Nat) (x : Exec α) (Q : α → Prop) : Prop where
  result : ∀ {m m' : Machine} {a : α}, m.budget ≤ n → x.run m = .ok a m' → m'.budget ≤ n ∧ Q a
  fault : ∀ {m m' : Machine} {r : Stop Fault}, m.budget ≤ n → x.run m = .error r m' → ¬ r.Internal

theorem regular_pure {a : α} (h : Q a) : Regular n (pure a) Q where
  result hm hrun := by
    obtain ⟨rfl, rfl⟩ := EStateM.Result.ok.inj hrun
    exact ⟨hm, h⟩
  fault _ := nofun

theorem regular_throw {r : Stop Fault} (h : ¬ r.Internal) : Regular n (throw r : Exec α) Q where
  result _ := nofun
  fault _ hrun := (EStateM.Result.error.inj hrun).1 ▸ h

theorem regular_get : Regular n (get : Exec Machine) fun _ => True where
  result hm hrun := by
    obtain ⟨rfl, rfl⟩ := EStateM.Result.ok.inj hrun
    exact ⟨hm, trivial⟩
  fault _ := nofun

theorem Regular.bind (hx : Regular n x Q) (hf : ∀ a, Q a → Regular n (f a) R) :
    Regular n (x >>= f) R where
  result hm hrun := by
    obtain ⟨a, m₁, h₁, k₁⟩ := Step.bind_ok hrun
    obtain ⟨hm₁, ha⟩ := hx.result hm h₁
    exact (hf a ha).result hm₁ k₁
  fault hm hrun := by
    rw [EStateM.run_bind] at hrun
    split at hrun
    · next a m₁ h₁ =>
        obtain ⟨hm₁, ha⟩ := hx.result hm h₁
        exact (hf a ha).fault hm₁ hrun
    · next h₁ =>
        obtain ⟨rfl, -⟩ := EStateM.Result.error.inj hrun
        exact hx.fault hm h₁

theorem regular_outcome {y : Outcome α} (hy : y.Regular) :
    Regular n (outcome y) fun a => y = .ok a := by
  cases y with
  | ok a => exact regular_pure rfl
  | error r =>
      have hr := hy r rfl
      refine regular_throw ?_
      cases r with
      | error fault => exact hr
      | abort a => exact hr

/-- A step is taken, and fewer are left then. -/
theorem regular_tick (h : ∀ k < n, Regular k x Q) : Regular n (tick >>= fun _ => x) Q where
  result {m m' a} hm hrun := by
    obtain ⟨⟨⟩, m₁, h₁, k₁⟩ := Step.bind_ok hrun
    cases hbudget : m.budget with
    | zero =>
        rw [run_tick_zero hbudget] at h₁
        cases h₁
    | succ budget =>
        rw [run_tick hbudget] at h₁
        obtain ⟨-, rfl⟩ := EStateM.Result.ok.inj h₁
        obtain ⟨hm', ha⟩ := (h budget (by omega)).result (Nat.le_refl _) k₁
        exact ⟨by omega, ha⟩
  fault {m m' r} hm hrun := by
    rw [EStateM.run_bind] at hrun
    cases hbudget : m.budget with
    | zero =>
        simp only [run_tick_zero hbudget] at hrun
        obtain ⟨rfl, -⟩ := EStateM.Result.error.inj hrun
        exact id
    | succ budget =>
        simp only [run_tick hbudget] at hrun
        exact (h budget (by omega)).fault (Nat.le_refl _) hrun

theorem regular_set {m : Machine} (h : m.budget ≤ n) :
    Regular n (set m : Exec PUnit) fun _ => True where
  result _ hrun := by
    obtain ⟨-, rfl⟩ := EStateM.Result.ok.inj hrun
    exact ⟨h, trivial⟩
  fault _ := nofun

/-- What is done to the machine is known from the machine. -/
theorem regular_get_bind {g : Machine → Exec β} (h : ∀ m, m.budget ≤ n → Regular n (g m) R) :
    Regular n (get >>= g) R :=
  ⟨fun {m _ _} hm hrun => (h m hm).result hm hrun, fun {m _ _} hm hrun => (h m hm).fault hm hrun⟩

theorem regular_withHeap {g : Heap → Outcome Heap} (h : ∀ heap, (g heap).Regular) :
    Regular n (withHeap g) fun _ => True :=
  regular_get_bind fun m hm => (regular_outcome (h m.heap)).bind fun heap _ =>
    regular_set (m := { m with heap }) hm

theorem regular_ofAbort {y : Except Abort α}
    (hy : ∀ a, y = .error a → a = .overflow ∨ a = .capacity) :
    Regular n (Step.ofAbort y) fun _ => True := by
  cases y with
  | ok a => exact regular_pure trivial
  | error a => rcases hy a rfl with rfl | rfl <;> exact regular_throw id

theorem regular_malloc (size : UInt64) : Regular n (malloc size) fun _ => True :=
  regular_get_bind fun m hm => (regular_ofAbort fun _ => Heap.malloc_error).bind fun found _ =>
    Regular.bind (regular_set (m := { m with heap := found.2 }) hm) fun _ _ => regular_pure trivial

theorem regular_pushSlot (size : Nat) : Regular n (pushSlot size) fun _ => True :=
  regular_get_bind fun m hm => (regular_ofAbort fun _ => Heap.pushSlot_error).bind fun found _ =>
    Regular.bind (regular_set (m := ⟨found.2, m.budget, found.1 :: m.slots⟩) hm) fun _ _ =>
      regular_pure trivial

theorem regular_free (addr : UInt64) : Regular n (free addr) fun _ => True := by
  refine regular_withHeap fun heap => ?_
  cases heap.free addr.toNat with
  | ok heap' => exact regular_ok heap'
  | error fault => exact regular_error id

theorem Regular.inCall (hx : Regular n x Q) : Regular n (inCall x) Q where
  result {m m' a} hm hrun := by
    obtain ⟨m₁, hrun₁, rfl⟩ := inCall_ok hrun
    have hresult := hx.result (m := { m with slots := [] }) hm hrun₁
    exact hresult
  fault {m m' r} hm hrun := by
    obtain ⟨m₁, hrun₁, -⟩ := inCall_error hrun
    exact hx.fault (m := { m with slots := [] }) hm hrun₁

end Exec

/-! ## Instructions -/

theorem Frame.Covers.mapM {frame : Frame} {n : Nat} {vs : List ValueId} (h : frame.Covers n vs) :
    ∀ {args : List Operand}, (∀ op ∈ args, op.Among vs) →
      ∃ xs, args.mapM frame.eval = .ok xs ∧ xs.length = args.length
  | [], _ => ⟨[], rfl, rfl⟩
  | op :: args, hargs => by
      obtain ⟨x, hx⟩ := h.eval (hargs op List.mem_cons_self)
      obtain ⟨xs, hxs, hlen⟩ := h.mapM fun o ho => hargs o (List.mem_cons_of_mem _ ho)
      refine ⟨x :: xs, ?_, congrArg (· + 1) hlen⟩
      rw [List.mapM_cons, hx, hxs]
      rfl

namespace Program

open Exec

variable {p : Program} {call : Caller} {frame : Frame} {n size : Nat} {defs : List ValueId}

/-- With at most `n` steps left, calls of glue functions have no internal faults. -/
def GlueRegular (p : Program) (call : Caller) (n : Nat) : Prop :=
  ∀ id args, (∃ ty, p.unit.glueFor? ty = some id) → args.length = 1 →
    Exec.Regular n (call id args) fun _ => True

theorem regular_callExternal {callee : ExternalId} {heap : HeapPrimitives}
    (hheap : p.unit.heap = some heap) (hcallee : callee = heap.alloc ∨ callee = heap.free)
    (arg : Value) : Exec.Regular n (p.callExternal callee [arg]) fun _ => True := by
  unfold callExternal
  simp only [hheap]
  split
  · exact (regular_outcome (regular_ofKind _)).bind fun size _ =>
      (regular_malloc size).bind fun addr _ => regular_pure trivial
  · next hne =>
      rw [if_pos (hcallee.resolve_left fun h => hne h.symm).symm]
      exact (regular_outcome (regular_ofKind _)).bind fun addr _ =>
        (regular_free addr).bind fun _ _ => regular_pure trivial

theorem regular_add (a b : Value) : Outcome.Regular (p.add a b) := by
  unfold add
  split <;> first
    | exact regular_ok _
    | exact regular_error id

theorem regular_compare (hframe : frame.Covers size defs) (how : Comparison) {lhs rhs : Operand}
    (hl : lhs.Among defs) (hr : rhs.Among defs) : Outcome.Regular (compare how frame lhs rhs) :=
  (hframe.regular hl).bind fun _ _ => (regular_ofKind _).bind fun _ _ =>
    (hframe.regular hr).bind fun _ _ => (regular_ofKind _).bind fun _ _ => regular_ok _

/-- An instruction with operands that are defined defines its value. -/
theorem regular_runInstr {i : Instr} (hframe : frame.Covers size defs)
    (hops : ∀ op ∈ i.operands, op.Among defs) (hdst : ∀ v ∈ i.dst?, v.index < size)
    (hlinked : i.Linked p.unit) (hcall : p.GlueRegular call n) :
    Exec.Regular n (p.runInstr call frame i) fun frame' =>
      frame'.Covers size (i.dst?.toList ++ defs) := by
  have hdone : ∀ {dst : ValueId} (v : Value), i.dst? = some dst →
      Exec.Regular n (pure (frame.define dst v)) fun frame' =>
        frame'.Covers size (i.dst?.toList ++ defs) := by
    intro dst v hi
    rw [hi] at hdst ⊢
    exact regular_pure (hframe.define (hdst dst rfl) v)
  cases i with
  | alloca dst ty name =>
      exact (regular_outcome (Layouts.regular_value ty)).bind fun layout _ =>
        (regular_pushSlot _).bind fun addr _ => hdone _ rfl
  | load dst ty ptr =>
      have hptr := hframe.regular_addr (hops ptr List.mem_cons_self)
      exact (regular_outcome hptr).bind fun addr _ => regular_get.bind fun m _ =>
        (regular_outcome (Layouts.regular_load _ _ _)).bind fun v _ => hdone _ rfl
  | store ty value ptr =>
      have hptr := hframe.regular_addr (hops ptr (List.mem_cons_of_mem _ List.mem_cons_self))
      have hvalue := hframe.regular (hops value List.mem_cons_self)
      exact (regular_outcome hptr).bind fun addr _ => (regular_outcome hvalue).bind fun v _ =>
        (regular_withHeap fun heap => Layouts.regular_store heap ty addr v).bind fun _ _ =>
          regular_pure hframe
  | fieldAddr dst base record index bytes =>
      have hbase := hframe.regular_addr (hops base List.mem_cons_self)
      exact (regular_outcome hbase).bind fun addr _ => hdone _ rfl
  | offset dst base bytes =>
      have hbase := hframe.regular_addr (hops base List.mem_cons_self)
      exact (regular_outcome hbase).bind fun addr _ => hdone _ rfl
  | cast dst ty value =>
      exact (regular_outcome (hframe.regular (hops value List.mem_cons_self))).bind fun v _ =>
        hdone _ rfl
  | add dst ty lhs rhs =>
      have hlhs := hframe.regular (hops lhs List.mem_cons_self)
      have hrhs := hframe.regular (hops rhs (List.mem_cons_of_mem _ List.mem_cons_self))
      exact (regular_outcome hlhs).bind fun a _ => (regular_outcome hrhs).bind fun b _ =>
        (regular_outcome (regular_add a b)).bind fun sum _ => hdone _ rfl
  | cmp dst how ty lhs rhs =>
      have hcompare := regular_compare hframe how (hops lhs List.mem_cons_self)
        (hops rhs (List.mem_cons_of_mem _ List.mem_cons_self))
      exact (regular_outcome hcompare).bind fun v _ => hdone _ rfl
  | callExternal dst callee args =>
      obtain ⟨⟨heap, hheap, hcallee⟩, hargs⟩ := hlinked
      obtain ⟨xs, hxs, hlen⟩ := hframe.mapM hops
      obtain ⟨arg, rfl⟩ := List.length_eq_one_iff.mp (hlen.trans hargs)
      refine (regular_outcome (hxs ▸ regular_ok _)).bind fun vs hvs => ?_
      obtain rfl := Except.ok.inj (hxs.symm.trans hvs)
      refine (regular_callExternal hheap hcallee arg).bind fun v _ => ?_
      cases dst with
      | none => exact regular_pure hframe
      | some dst => exact hdone v rfl
  | call dst callee args =>
      obtain ⟨hglue, hargs⟩ := hlinked
      obtain ⟨xs, hxs, hlen⟩ := hframe.mapM hops
      refine (regular_outcome (hxs ▸ regular_ok _)).bind fun vs hvs => ?_
      obtain rfl := Except.ok.inj (hxs.symm.trans hvs)
      refine (hcall callee xs hglue (hlen.trans hargs)).bind fun v _ => ?_
      cases dst with
      | none => exact regular_pure hframe
      | some dst => exact hdone _ rfl

/-! ## Functions -/

variable {f : Function}

/-- What is defined at the end of a block is defined in the frame. -/
theorem regular_runInstrs (hf : f.WellFormed) (hlinked : ∀ i ∈ f.instrs, i.Linked p.unit)
    {b : BlockId} {B : BasicBlock} (hB : f.blocks[b.index]? = some B) :
    ∀ {rest done : List Instr} {n : Nat} {defs : List ValueId} {frame : Frame},
      B.body = done ++ rest → f.Arrives ⟨b, done.length⟩ defs →
      frame.Covers f.valueTypes.length defs → (∀ k < n, p.GlueRegular call k) →
      Exec.Regular n (p.runInstrs call rest frame) fun frame' =>
        ∃ defs', f.Arrives ⟨b, B.body.length⟩ defs' ∧ frame'.Covers f.valueTypes.length defs' := by
  intro rest
  induction rest with
  | nil =>
      intro done n defs frame hbody harrives hframe hcall
      rw [List.append_nil] at hbody
      exact regular_pure ⟨defs, hbody ▸ harrives, hframe⟩
  | cons i rest ih =>
      intro done n defs frame hbody harrives hframe hcall
      have hi : B.body[done.length]? = some i := by
        rw [hbody, List.getElem?_append_right (Nat.le_refl _), Nat.sub_self]
        rfl
      have hmem : i ∈ f.instrs := List.mem_flatMap.mpr
        ⟨B, List.mem_of_getElem? hB, List.mem_of_getElem? hi⟩
      have hdst : ∀ v ∈ i.dst?, v.index < f.valueTypes.length := fun v hv =>
        hf.typed v (List.mem_append_right _ (List.mem_filterMap.mpr ⟨i, hmem, hv⟩))
      refine regular_tick fun k hk => ?_
      refine (regular_runInstr hframe (hf.defined harrives hB hi) hdst (hlinked i hmem)
        (hcall k hk)).bind fun frame' hframe' => ?_
      have harrives' : f.Arrives ⟨b, (done ++ [i]).length⟩ (i.dst?.toList ++ defs) := by
        rw [List.length_append]
        exact harrives.step hB hi
      refine ih ?_ harrives' hframe' fun j hj => hcall j (Nat.lt_trans hj hk)
      rw [List.append_assoc]
      exact hbody

/-- Control goes forward, so that there are enough visits if there are enough for the blocks. -/
theorem regular_runBlocks (hf : f.WellFormed) (hlinked : ∀ i ∈ f.instrs, i.Linked p.unit)
    (hcall : ∀ k < n, p.GlueRegular call k) :
    ∀ {visits : Nat} {b : BlockId} {defs : List ValueId} {frame : Frame},
      b.index < f.blocks.length → f.blocks.length ≤ b.index + visits → f.Arrives ⟨b, 0⟩ defs →
      frame.Covers f.valueTypes.length defs →
      Exec.Regular n (p.runBlocks call f visits b frame) fun _ => True := by
  intro visits
  induction visits with
  | zero =>
      intro b defs frame hb hvisits
      omega
  | succ visits ih =>
      intro b defs frame hb hvisits harrives hframe
      obtain ⟨B, hB⟩ : ∃ B, f.blocks[b.index]? = some B := ⟨_, List.getElem?_eq_getElem hb⟩
      obtain ⟨t, ht⟩ := Option.isSome_iff_exists.mp (hf.terminated B (List.mem_of_getElem? hB))
      unfold runBlocks
      rw [Function.block?, hB]
      change Exec.Regular n (p.runInstrs call B.body frame >>= _) _
      have hbody : B.body = [] ++ B.body := rfl
      have hbodyRuns := regular_runInstrs hf hlinked hB hbody harrives hframe hcall
      refine hbodyRuns.bind fun frame' hend => ?_
      obtain ⟨defs', harrives', hframe'⟩ := hend
      have hops := hf.leaving harrives' hB rfl ht
      have hnext : ∀ {s : BlockId}, s ∈ t.successors →
          Exec.Regular n (p.runBlocks call f visits s frame') fun _ => True := by
        intro s hs
        obtain ⟨hlt, hs'⟩ := hf.forward _ _ _ hB ht s hs
        exact ih hs' (by omega) (harrives'.leave hB rfl ht hs) hframe'
      rw [ht]
      cases t with
      | jump target => exact hnext List.mem_cons_self
      | branch cond thenBlock elseBlock =>
          have hcond := hframe'.regular (hops cond List.mem_cons_self)
          refine (regular_outcome hcond).bind fun v _ => ?_
          refine (regular_outcome (regular_ofKind _)).bind fun taken _ => hnext ?_
          cases taken with
          | true => exact List.mem_cons_self
          | false => exact List.mem_cons_of_mem _ List.mem_cons_self
      | ret value =>
          cases value with
          | none => exact regular_pure trivial
          | some op =>
              exact (regular_outcome (hframe'.regular (hops op List.mem_cons_self))).bind fun v _ =>
                regular_pure trivial
      | trap cause => exact regular_throw id

theorem regular_runBody (hf : f.WellFormed) (hlinked : ∀ i ∈ f.instrs, i.Linked p.unit)
    (hcall : ∀ k < n, p.GlueRegular call k) {args : List Value} (hargs : f.arity ≤ args.length) :
    Exec.Regular n (p.runBody call f args) fun _ => True := by
  refine regular_get_bind fun m _ => ?_
  have hblocks : 0 < f.blocks.length := by
    have hentry := hf.entry
    rw [Function.isDeclaration, List.isEmpty_eq_false_iff] at hentry
    exact List.length_pos_iff.mpr hentry
  have hvisits : f.blocks.length ≤ visitLimit f m.budget :=
    Nat.le_trans (Nat.le_succ _) (Nat.le_mul_of_pos_left _ (Nat.succ_pos m.budget))
  exact regular_runBlocks hf hlinked hcall (b := ⟨0⟩) hblocks (by simpa using hvisits) .entry
    (Frame.covers_start hf hargs)

end Program

/-! ## Complete units -/

/-- All functions are well-formed, and what they call is there and takes one argument. -/
structure CodeUnit.Complete (u : CodeUnit) : Prop where
  wellFormed : ∀ {id f}, u.function? id = some f → f.WellFormed
  linked : ∀ {id f}, u.function? id = some f → ∀ i ∈ f.instrs, i.Linked u
  glue : ∀ {ty id}, u.glueFor? ty = some id → ∃ f, u.function? id = some f ∧ f.arity = 1

namespace CodeUnit.Complete

variable {p : Program} {id : FuncId} {f : Function} {args : List Value}

/-- Every call takes a step, so that calls are nested less deep than there are steps. -/
theorem regular_callWithin (hp : p.unit.Complete) : ∀ {depth n : Nat} {id : FuncId} {f : Function}
    {args : List Value}, n < depth → p.unit.function? id = some f → f.arity ≤ args.length →
      Exec.Regular n (p.callWithin depth id args) fun _ => True := by
  intro depth
  induction depth with
  | zero => intro n id f args hn; omega
  | succ depth ih =>
      intro n id f args hn hf hargs
      have hcall : ∀ k < n, p.GlueRegular (p.callWithin depth) k := by
        intro k hk id' args' hglue hlen
        obtain ⟨ty, hty⟩ := hglue
        obtain ⟨g, hg, harity⟩ := hp.glue hty
        exact ih (by omega) hg (by omega)
      have hbody := Program.regular_runBody (hp.wellFormed hf) (hp.linked hf) hcall hargs
      rw [Program.callWithin, hf]
      simp only [Step.ofOption, pure_bind, (hp.wellFormed hf).entry, Bool.false_eq_true, if_false]
      exact hbody.inCall

theorem regular_call {u : CodeUnit} {layouts : Layouts} (hu : u.Complete)
    (hf : u.function? id = some f) (hargs : f.arity ≤ args.length) {m m' : Machine} {r : Stop Fault}
    (h : (Program.call ⟨u, layouts⟩ id args).run m = .error r m') : ¬ r.Internal :=
  (regular_callWithin (p := ⟨u, layouts⟩) hu (Nat.lt_succ_self m.budget) hf hargs).fault
    (Nat.le_refl _) h

end CodeUnit.Complete

/-! ## Work on a unit -/

/-- What was done to a unit, all of it with success: the unit and the drafts of functions that may
be gone on with, each with the values that a client has for it. Several functions may be worked on
at a time, and a draft is never used up. -/
inductive Emitter.Works (e : Emitter) (name : String) :
    CodeUnit → List (Builder × List ValueId) → Prop where
  | new : Works e name (.new name) []
  | external {u : CodeUnit} {drafts : List (Builder × List ValueId)} (symbol : String)
      (params : List TypeId) (ret : TypeId) : Works e name u drafts →
      Works e name (u.declareExternal symbol params ret).2 drafts
  | start {u : CodeUnit} {drafts : List (Builder × List ValueId)} (function : String)
      (params : List TypeId) (ret : TypeId) : Works e name u drafts →
      Works e name u
        ((.new function params ret, (Builder.new function params ret).function.params) :: drafts)
  | call {u : CodeUnit} {drafts : List (Builder × List ValueId)} {b : Builder}
      {vs new : List ValueId} {d : Draft} (op : Operation) : Works e name u drafts →
      (b, vs) ∈ drafts → (∀ o ∈ op.operands, o.Among vs) → (op.emit e).run ⟨u, b⟩ = .ok new d →
      Works e name d.unit ((d.builder, new ++ vs) :: drafts)
  | finish {u : CodeUnit} {drafts : List (Builder × List ValueId)} {b : Builder}
      {vs : List ValueId} (value : Option Operand) : Works e name u drafts → (b, vs) ∈ drafts →
      (∀ op ∈ value, op.Among vs) → Works e name (u.addFunction (b.ret value).function).2 drafts
  | drain {u u' : CodeUnit} {drafts : List (Builder × List ValueId)} {n : Nat} :
      Works e name u drafts → e.emitPendingGlue.run u = .ok n u' → Works e name u' drafts

namespace Emitter

variable {e : Emitter} {name : String} {u u' : CodeUnit}
  {drafts : List (Builder × List ValueId)}

theorem Works.history (h : e.Works name u drafts) : ∃ log, e.History name u log := by
  induction h with
  | new => exact ⟨[], .new⟩
  | external symbol params ret _ ih =>
      obtain ⟨log, hlog⟩ := ih
      exact ⟨log, hlog.external symbol params ret⟩
  | start _ _ _ _ ih => exact ih
  | @call u drafts b vs new d op _ _ _ hrun ih =>
      obtain ⟨log, hlog⟩ := ih
      have hcall := hlog.call op b
      rw [hrun] at hcall
      exact ⟨log, hcall⟩
  | finish value _ _ _ ih =>
      obtain ⟨log, hlog⟩ := ih
      exact ⟨log, hlog.function _⟩
  | drain _ hrun ih =>
      obtain ⟨log, hlog⟩ := ih
      obtain ⟨l, hdrains, -⟩ := drains_drainGlue hrun
      exact ⟨log ++ l, hlog.drain hrun hdrains⟩

/-- What holds of the unit and the drafts all the while. -/
structure Orderly (u : CodeUnit) (drafts : List (Builder × List ValueId)) : Prop where
  drafts : ∀ q ∈ drafts, Draft.Sound ⟨q.2, [], none⟩ ⟨u, q.1⟩
  functions : ∀ {id f}, u.function? id = some f →
    (∃ ty, u.glueFor? ty = some id) ∨ (f.WellFormed ∧ ∀ i ∈ f.instrs, i.Linked u)

/-- A change after which a function is one that was there, or a glue function. -/
theorem Orderly.keeps (h : Orderly u drafts) (hkeeps : u.Keeps u')
    (hold : ∀ {id f}, u'.function? id = some f →
      u.function? id = some f ∨ ∃ ty, u'.glueFor? ty = some id) : Orderly u' drafts := by
  refine ⟨fun q hq => (h.drafts q hq).keeps hkeeps, fun hf => ?_⟩
  rcases hold hf with hf | hglue
  · rcases h.functions hf with ⟨ty, hty⟩ | ⟨hwell, hlinked⟩
    · exact Or.inl ⟨ty, hkeeps.glue hty⟩
    · exact Or.inr ⟨hwell, fun i hi => (hlinked i hi).mono hkeeps⟩
  · exact Or.inl hglue

theorem Orderly.addFunction (h : Orderly u drafts) {f : Function} (hwell : f.WellFormed)
    (hlinked : ∀ i ∈ f.instrs, i.Linked u) : Orderly (u.addFunction f).2 drafts := by
  have hkeeps : u.Keeps (u.addFunction f).2 := ⟨id, id⟩
  refine ⟨fun q hq => (h.drafts q hq).keeps hkeeps, fun {id g} hg => ?_⟩
  change (u.functions ++ [f])[id.index]? = some g at hg
  rw [List.getElem?_append] at hg
  split at hg
  · exact (h.functions hg).imp_right fun hold => ⟨hold.1, fun i hi => (hold.2 i hi).mono hkeeps⟩
  · obtain rfl := List.mem_singleton.mp (List.mem_of_getElem? hg)
    exact Or.inr ⟨hwell, fun i hi => (hlinked i hi).mono hkeeps⟩

theorem Works.orderly (h : e.Works name u drafts) : Orderly u drafts := by
  induction h with
  | new => exact ⟨nofun, nofun⟩
  | @external u drafts symbol params ret hworks ih =>
      obtain ⟨log, hlog⟩ := hworks.history
      obtain ⟨hf, -, -, -⟩ := CodeUnit.declareExternal_spec u symbol params ret
      have hadvances := (Builds.external symbol params ret .refl).advances hlog.logs.1
      refine ih.keeps hadvances.keeps fun hid => Or.inl ?_
      rwa [CodeUnit.function?, hf] at hid
  | start function params ret _ ih =>
      refine ⟨fun q hq => ?_, ih.functions⟩
      rcases List.mem_cons.mp hq with rfl | hq
      · exact .new _ function params ret
      · exact ih.drafts q hq
  | @call u drafts b vs new d op hworks hdraft hops hrun ih =>
      obtain ⟨log, hlog⟩ := (hworks.call op hdraft hops hrun).history
      have hasks := ((op.asksOnly e).asks ⟨u, b⟩).asks
      rw [hrun] at hasks
      have hkept := ih.keeps hasks.keeps fun hid =>
        (hasks.function.2 hid).imp_right fun hnew => hnew.2.imp fun _ => hlog.logs.1.requests
      refine ⟨fun q hq => ?_, hkept.functions⟩
      rcases List.mem_cons.mp hq with rfl | hq
      · exact Operation.writes hops _ _ _ (ih.drafts _ hdraft) hrun
      · exact hkept.drafts q hq
  | finish value _ hdraft hvalue ih =>
      obtain ⟨-, hwell, hlinked⟩ := (ih.drafts _ hdraft).wellFormed_ret rfl hvalue
      exact ih.addFunction hwell hlinked
  | drain hworks hrun ih =>
      obtain ⟨log, hlog⟩ := hworks.history
      obtain ⟨l, hdrains, -⟩ := drains_drainGlue hrun
      obtain ⟨hsettles, hdone⟩ := settles_drains hdrains hlog.logs.1 hlog.logs.2
      refine ih.keeps hsettles.advances.keeps fun hid => (hdrains.function hid).imp And.left ?_
      rintro ⟨ty, hq, -⟩
      refine ⟨ty, hsettles.logs.exact.mp ?_⟩
      rw [hdone, List.append_nil]
      exact List.mem_append_right _ hq

/-- The body of a glue function takes one argument. -/
theorem arity_glueBody {ty : TypeId} {plan : ReleasePlan} {function : String} {d : Draft}
    (h : (e.glueBody ty plan).run ⟨u, .new function [.ptr] .unit⟩ = .ok () d) :
    d.builder.function.arity = 1 := by
  obtain ⟨d₁, rfl, -, hemits⟩ := emits_glueBody h
  have hfirst := (hemits .unit).leads.builder.grows.arity
  have hret := (Builder.leads_ret (hemits .unit).opened none).grows.arity
  exact hret.trans hfirst

/-- When no glue function waits any more, the unit is complete. -/
theorem Works.complete (h : e.Works name u drafts) (hdone : u.pending = []) : u.Complete := by
  obtain ⟨log, hlog⟩ := h.history
  have hglue : ∀ {ty id}, u.glueFor? ty = some id → ∃ f, u.function? id = some f ∧ f.arity = 1
      ∧ f.WellFormed ∧ ∀ i ∈ f.instrs, i.Linked u := by
    intro ty id hty
    obtain ⟨plan, u₀, function, d, -, hrun, hf, hkeeps⟩ := hasGlue_of_done hlog.logs.1 hdone hty
    obtain ⟨-, hwell, hlinked⟩ := sound_glueBody hrun
    exact ⟨_, hf.function, arity_glueBody hrun, hwell, fun i hi => (hlinked i hi).mono hkeeps⟩
  have hall : ∀ {id f}, u.function? id = some f → f.WellFormed ∧ ∀ i ∈ f.instrs, i.Linked u := by
    intro id f hf
    rcases h.orderly.functions hf with ⟨ty, hty⟩ | hfunction
    · obtain ⟨g, hg, -, hfunction⟩ := hglue hty
      obtain rfl := Option.some.inj (hf.symm.trans hg)
      exact hfunction
    · exact hfunction
  refine ⟨fun hf => (hall hf).1, fun hf => (hall hf).2, fun hty => ?_⟩
  obtain ⟨f, hf, harity, -⟩ := hglue hty
  exact ⟨f, hf, harity⟩

end Emitter

/-- Where functions were built by calls of the emitter that succeed, with operands that the client
has, and the bodies of all glue functions were written at the end, no run of one of the functions
has an internal fault, whatever the machine and the layouts are, if there is an argument for every
parameter. -/
theorem completed_no_internal_fault {e : Emitter} {name : String} {u u' : CodeUnit}
    {drafts : List (Builder × List ValueId)} {n : Nat} (hworks : e.Works name u drafts)
    (hdrain : e.emitPendingGlue.run u = .ok n u') (layouts : Layouts) {id : FuncId} {f : Function}
    (hf : u'.function? id = some f) {args : List Value} (hargs : f.arity ≤ args.length)
    (m m' : Machine) (r : Stop Fault) :
    ((Program.call ⟨u', layouts⟩ id args).run m = .error r m' → ¬ r.Internal)
      ∧ ∀ function, u'.functionNamed? function = some id →
        (Program.run ⟨u', layouts⟩ function args).run m = .error r m' → ¬ r.Internal := by
  obtain ⟨log, hlog⟩ := hworks.history
  obtain ⟨l, hdrains, -⟩ := Emitter.drains_drainGlue hdrain
  obtain ⟨-, hdone⟩ := Emitter.settles_drains hdrains hlog.logs.1 hlog.logs.2
  have hcomplete := (hworks.drain hdrain).complete hdone
  refine ⟨hcomplete.regular_call hf hargs, fun function hnamed hrun => ?_⟩
  simp only [Program.run, hnamed] at hrun
  exact hcomplete.regular_call hf hargs hrun

namespace Shared

def twiceDraft : CodeUnit := (twice.unit.addFunction (twice.builder.ret none).function).2

theorem works_twice : ∃ drafts, emitter.Works "twice" twiceDraft drafts := by
  have hnew : emitter.Works "twice" (.new "twice") [] := .new
  have hopened : emitter.Works "twice" opened.unit [(opened.builder, [⟨0⟩])] :=
    hnew.start "twice" [⟨17⟩] .unit
  have hshared := hopened.call share List.mem_cons_self (by decide) run_share
  have hpaired := hshared.call pairUp List.mem_cons_self (by decide) run_pairUp
  have hdropped := hpaired.call drop List.mem_cons_self (by decide) run_drop
  exact ⟨_, hdropped.finish none List.mem_cons_self nofun⟩

def twiceLinked : CodeUnit := Step.after emitter.emitPendingGlue twiceDraft

theorem run_twiceLinked : emitter.emitPendingGlue.run twiceDraft = .ok 1 twiceLinked :=
  Step.run_of_result? (by decide +kernel)

end Shared

theorem completed_no_internal_fault_twice :
    Shared.twiceLinked.functionNamed? "twice" = some ⟨1⟩
      ∧ ∀ v m m' r, (Program.run ⟨Shared.twiceLinked, Shared.emitter.layouts⟩ "twice" [v]).run m
        = .error r m' → ¬ r.Internal := by
  have hnamed : Shared.twiceLinked.functionNamed? "twice" = some ⟨1⟩ := by decide +kernel
  have hfunction : (Shared.twiceLinked.function? ⟨1⟩).map Function.arity = some 1 := by
    decide +kernel
  obtain ⟨f, hf, harity⟩ := Option.map_eq_some_iff.mp hfunction
  obtain ⟨drafts, hworks⟩ := Shared.works_twice
  refine ⟨hnamed, fun v m m' r => ?_⟩
  have hargs : f.arity ≤ [v].length := Nat.le_of_eq harity
  exact (completed_no_internal_fault hworks Shared.run_twiceLinked Shared.emitter.layouts hf hargs
    m m' r).2 "twice" hnamed

end Ownership
