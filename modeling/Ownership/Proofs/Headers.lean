import Mathlib.Data.List.DropRight
import Mathlib.Data.List.Forall2
import Ownership.Code.Printer
import Ownership.Proofs.Labels

/-!
# Headers of printed blocks

A printed block starts with its header: the bare label of the first block,
and for every other block its label, a dot and its number. Labels are any
texts and may come again. Still no two headers of a function are equal:
the number behind the last dot tells the later blocks from each other, and
the header of the first block, `entry`, ends in a letter. This reading
from the end works behind any text (`Function.append_blockLabel_inj`), so
the line of a jump or a branch tells its targets, whatever the labels are.
-/

namespace Ownership

/-! ## Numbers at the end of a text -/

/-- What stands behind the last dot of a text. -/
def lastPart (s : String) : List Char := s.toList.rtakeWhile (· ≠ '.')

theorem toList_toString (i : Nat) : (toString i).toList = Nat.toDigits 10 i := by
  rw [Nat.toString_eq_ofList_toDigits, String.toList_ofList]

theorem isDigit_of_mem_toDigits {c : Char} {i : Nat} (h : c ∈ Nat.toDigits 10 i) :
    c.isDigit = true := Nat.isDigit_of_mem_toDigits (by decide) (by decide) h

theorem lastPart_append_number (s : String) (i : Nat) :
    lastPart (s ++ "." ++ toString i) = Nat.toDigits 10 i := by
  have hdigits : ∀ c ∈ (Nat.toDigits 10 i).reverse, decide (c ≠ '.') = true := by
    intro c hc
    refine decide_eq_true ?_
    rintro rfl
    exact absurd (isDigit_of_mem_toDigits (List.mem_reverse.mp hc)) (by decide)
  simp only [lastPart, List.rtakeWhile, String.toList_append, toList_toString, List.reverse_append]
  rw [List.takeWhile_append_of_pos hdigits]
  simp

/-- The number behind the last dot of a text can be read off. -/
theorem append_number_inj {s t : String} {i j : Nat}
    (h : s ++ "." ++ toString i = t ++ "." ++ toString j) : i = j := by
  have hdigits := congrArg lastPart h
  rw [lastPart_append_number, lastPart_append_number] at hdigits
  rw [← Nat.repr_inj, Nat.repr_eq_ofList_toDigits, Nat.repr_eq_ofList_toDigits, hdigits]

/-- A text that ends in a number does not end in the label of the first block. -/
theorem append_number_ne_append_entry (s t : String) (i : Nat) :
    s ++ toString i ≠ t ++ "entry" := by
  intro h
  have hlast := congrArg (fun u : String => u.toList.getLast?) h
  simp only [String.toList_append, toList_toString] at hlast
  rw [List.getLast?_append_of_ne_nil _ Nat.toDigits_ne_nil,
    List.getLast?_append_of_ne_nil _ (by decide)] at hlast
  exact absurd (isDigit_of_mem_toDigits (List.mem_of_getLast? hlast)) (by decide)

namespace Function

variable {f : Function} {i j : BlockId} {l m s t : String}

/-! ## Labels of blocks as they are printed -/

theorem blockLabel_ok_iff : f.blockLabel i = .ok l ↔ ∃ B, f.blocks[i.index]? = some B
    ∧ l = if i.index = 0 then B.label else B.label ++ "." ++ toString i.index := by
  unfold blockLabel block?
  cases f.blocks[i.index]? with
  | none => simp
  | some B => by_cases hi : i.index = 0 <;> simp [hi, eq_comm]

/-- The blocks that there are have a label. -/
theorem blockLabel_isOk_iff : (∃ l, f.blockLabel i = .ok l) ↔ i.index < f.blocks.length := by
  simp only [blockLabel_ok_iff]
  constructor
  · rintro ⟨l, B, hB, -⟩
    exact (List.getElem?_eq_some_iff.mp hB).1
  · intro hi
    exact ⟨_, _, List.getElem?_eq_getElem hi, rfl⟩

theorem blockLabel_first (hentry : ["entry"] <+: f.labels) (hi : i.index = 0)
    (hl : f.blockLabel i = .ok l) : l = "entry" := by
  obtain ⟨B, hB, rfl⟩ := blockLabel_ok_iff.mp hl
  obtain ⟨rest, hlabels⟩ := hentry
  have hfirst : f.labels[0]? = some B.label := by rw [labels, List.getElem?_map, ← hi, hB]; rfl
  rw [← hlabels] at hfirst
  rw [if_pos hi]
  exact (Option.some.inj hfirst).symm

theorem blockLabel_later (hi : i.index ≠ 0) (hl : f.blockLabel i = .ok l) :
    ∃ label, l = label ++ "." ++ toString i.index := by
  obtain ⟨B, -, rfl⟩ := blockLabel_ok_iff.mp hl
  exact ⟨B.label, if_neg hi⟩

/-- Two texts that end in labels of blocks are equal only if the blocks are the same. -/
theorem append_blockLabel_inj (hentry : ["entry"] <+: f.labels) (hl : f.blockLabel i = .ok l)
    (hm : f.blockLabel j = .ok m) (h : s ++ l = t ++ m) : i = j ∧ s = t := by
  have hindex : i.index = j.index := by
    by_cases hi : i.index = 0 <;> by_cases hj : j.index = 0
    · exact hi.trans hj.symm
    · obtain ⟨label, rfl⟩ := blockLabel_later hj hm
      rw [blockLabel_first hentry hi hl, ← String.append_assoc] at h
      exact absurd h.symm (append_number_ne_append_entry _ _ _)
    · obtain ⟨label, rfl⟩ := blockLabel_later hi hl
      rw [blockLabel_first hentry hj hm, ← String.append_assoc] at h
      exact absurd h (append_number_ne_append_entry _ _ _)
    · obtain ⟨label, rfl⟩ := blockLabel_later hi hl
      obtain ⟨label', rfl⟩ := blockLabel_later hj hm
      simp only [← String.append_assoc] at h
      exact append_number_inj h
  obtain rfl : i = j := by
    cases i
    cases j
    exact congrArg BlockId.mk hindex
  obtain rfl := Except.ok.inj (hl.symm.trans hm)
  exact ⟨rfl, (String.append_left_inj l).mp h⟩

/-- No two blocks are printed under the same label. -/
theorem blockLabel_inj (hentry : ["entry"] <+: f.labels) (hl : f.blockLabel i = .ok l)
    (hl' : f.blockLabel j = .ok l) : i = j :=
  (append_blockLabel_inj (s := "") hentry hl hl' rfl).1

end Function

/-! ## Results of printing -/

section

variable {α β : Type} {g : α → Except Abort β} {xs : List α} {ys : List β}

theorem bind_eq_ok {x : Except Abort α} {y : β} :
    x >>= g = .ok y ↔ ∃ a, x = .ok a ∧ g a = .ok y := by
  cases x with
  | ok a => simp [bind, Except.bind]
  | error r => simp [bind, Except.bind]

theorem pure_eq_ok {y y' : β} : (pure y : Except Abort β) = .ok y' ↔ y' = y := by
  simp [pure, Except.pure, eq_comm]

theorem mapM_eq_ok : xs.mapM g = .ok ys ↔ List.Forall₂ (fun x y => g x = .ok y) xs ys := by
  induction xs generalizing ys with
  | nil => simp [pure_eq_ok]
  | cons x xs ih =>
      simp only [List.mapM_cons, bind_eq_ok, pure_eq_ok, ih, List.forall₂_cons_left_iff]
      simp

theorem mapM_isOk_iff : (∃ ys, xs.mapM g = .ok ys) ↔ ∀ x ∈ xs, ∃ y, g x = .ok y := by
  induction xs with
  | nil => simp [pure_eq_ok]
  | cons x xs ih =>
      rw [List.forall_mem_cons, ← ih]
      simp only [List.mapM_cons, bind_eq_ok, pure_eq_ok]
      simp

end

/-! ## The line at the end of a block -/

namespace Function

variable {f : Function} {line : String} {t : Terminator}

theorem printTerminator_jump {target : BlockId} : f.printTerminator (.jump target) = .ok line ↔
    ∃ l, f.blockLabel target = .ok l ∧ line = "jmp " ++ l := by
  simp only [printTerminator, bind_eq_ok, pure_eq_ok]

theorem printTerminator_branch {cond : Operand} {yes no : BlockId} :
    f.printTerminator (.branch cond yes no) = .ok line ↔
      ∃ l, f.blockLabel yes = .ok l ∧ ∃ m, f.blockLabel no = .ok m
        ∧ line = "br " ++ cond.text ++ ", " ++ l ++ ", " ++ m := by
  simp only [printTerminator, bind_eq_ok, pure_eq_ok, commaList, String.intercalate_cons_cons,
    String.intercalate_singleton, String.append_assoc]

/-- A terminator has a line just when its targets are there. -/
theorem printTerminator_isOk_iff :
    (∃ line, f.printTerminator t = .ok line) ↔ ∀ s ∈ t.successors, s.index < f.blocks.length := by
  simp only [← blockLabel_isOk_iff]
  cases t with
  | jump target => simp [printTerminator_jump, Terminator.successors]
  | branch cond yes no => simp [printTerminator_branch, Terminator.successors]
  | ret value => cases value <;> simp [printTerminator, pure_eq_ok, Terminator.successors]
  | trap cause => simp [printTerminator, pure_eq_ok, Terminator.successors]

end Function

/-- The first letter of the line, which tells the kinds of terminators apart. -/
def Terminator.initial : Terminator → Char
  | .jump _ => 'j'
  | .branch _ _ _ => 'b'
  | .ret _ => 'r'
  | .trap _ => 't'

namespace Function

variable {f : Function} {line : String} {t t' : Terminator}

theorem head_printTerminator (h : f.printTerminator t = .ok line) :
    line.toList.head? = some t.initial := by
  cases t with
  | jump target =>
      obtain ⟨l, -, rfl⟩ := printTerminator_jump.mp h
      simp [Terminator.initial]
  | branch cond yes no =>
      obtain ⟨l, -, m, -, rfl⟩ := printTerminator_branch.mp h
      simp [Terminator.initial]
  | ret value =>
      cases value with
      | none =>
          cases h
          rfl
      | some v =>
          cases h
          simp [Terminator.initial]
  | trap cause =>
      cases h
      simp [Terminator.initial]

/-- The line tells where control may go. Labels may contain commas as well, so the line of a branch
is read from its end. -/
theorem successors_of_line (hentry : ["entry"] <+: f.labels) (h : f.printTerminator t = .ok line)
    (h' : f.printTerminator t' = .ok line) : t.successors = t'.successors := by
  have hinitial : t.initial = t'.initial :=
    Option.some.inj ((head_printTerminator h).symm.trans (head_printTerminator h'))
  cases t with
  | jump target =>
      cases t' with
      | jump target' =>
          obtain ⟨l, hl, rfl⟩ := printTerminator_jump.mp h
          obtain ⟨l', hl', hline⟩ := printTerminator_jump.mp h'
          obtain ⟨rfl, -⟩ := append_blockLabel_inj hentry hl hl' hline
          rfl
      | branch | ret | trap => simp [Terminator.initial] at hinitial
  | branch cond yes no =>
      cases t' with
      | branch cond' yes' no' =>
          obtain ⟨l, hl, m, hm, rfl⟩ := printTerminator_branch.mp h
          obtain ⟨l', hl', m', hm', hline⟩ := printTerminator_branch.mp h'
          obtain ⟨rfl, hrest⟩ := append_blockLabel_inj hentry hm hm' hline
          rw [String.append_left_inj] at hrest
          obtain ⟨rfl, -⟩ := append_blockLabel_inj hentry hl hl' hrest
          rfl
      | jump | ret | trap => simp [Terminator.initial] at hinitial
  | ret value =>
      cases t' with
      | ret value' => rfl
      | jump | branch | trap => simp [Terminator.initial] at hinitial
  | trap cause =>
      cases t' with
      | trap cause' => rfl
      | jump | branch | ret => simp [Terminator.initial] at hinitial

end Function

/-! ## The text of a function -/

/-- The text of a block: its header, the lines of its instructions and its last line. -/
structure BlockText where
  label : String
  body : List String
  last : String

def BlockText.text (part : BlockText) : String :=
  part.label ++ ":\n" ++ String.join ((part.body ++ [part.last]).map ("  " ++ · ++ "\n"))

/-- What the instruction calls is there. -/
def Instr.Resolved (u : CodeUnit) : Instr → Prop
  | .callExternal _ callee _ => callee.index < u.externals.length
  | .call _ callee _ => callee.index < u.functions.length
  | _ => True

instance (u : CodeUnit) : DecidablePred (Instr.Resolved u)
  | .callExternal _ _ _ | .call _ _ _ => inferInstanceAs (Decidable (_ < _))
  | .alloca _ _ _ | .load _ _ _ | .store _ _ _ | .fieldAddr _ _ _ _ _ | .offset _ _ _
  | .cast _ _ _ | .add _ _ _ _ | .cmp _ _ _ _ _ => .isTrue trivial

/-- The type that the line of an instruction shows. -/
def Instr.shown? : Instr → Option TypeId
  | .alloca _ ty _ | .load _ ty _ | .store ty _ _ | .fieldAddr _ _ ty _ _ | .cast _ ty _
  | .add _ ty _ _ | .cmp _ _ ty _ _ => some ty
  | .offset _ _ _ | .callExternal _ _ _ | .call _ _ _ => none

/-- An instruction has a line just when what it calls is there and the type in it can be shown. -/
theorem Instr.print_isOk_iff {u : CodeUnit} {pool : Pool} {i : Instr} :
    (∃ line, i.print u pool = .ok line) ↔ i.Resolved u ∧ ∀ ty ∈ i.shown?, pool.Ends ty := by
  have haction : (∃ line, i.print u pool = .ok line) ↔ ∃ line, i.action u pool = .ok line := by
    simp only [Instr.print, bind_eq_ok]
    cases i.dst? <;> simp [pure_eq_ok]
  rw [haction]
  cases i with
  | callExternal dst callee args =>
      rw [Resolved, action, CodeUnit.external?]
      cases hcallee : u.externals[callee.index]? with
      | none => simp [List.getElem?_eq_none_iff.mp hcallee]
      | some x => simp [(List.getElem?_eq_some_iff.mp hcallee).1, shown?]
  | call dst callee args =>
      rw [Resolved, action, CodeUnit.function?]
      cases hcallee : u.functions[callee.index]? with
      | none => simp [List.getElem?_eq_none_iff.mp hcallee]
      | some g => simp [(List.getElem?_eq_some_iff.mp hcallee).1, shown?]
  | offset => simp [Resolved, action, shown?]
  | alloca | load | store | fieldAddr | cast | add | cmp =>
      simp only [Resolved, action, shown?, bind_eq_ok, pure_eq_ok, ← Pool.display_isOk_iff]
      simp

namespace Function

variable {f : Function} {u : CodeUnit} {pool : Pool} {text : String}

/-- The last line of a block. -/
def lastLine (f : Function) (B : BasicBlock) : Printed :=
  match B.terminator with
  | some t => f.printTerminator t
  | none => .ok "<unterminated>"

/-- The block with this number is printed as this part. -/
structure PrintsBlock (f : Function) (u : CodeUnit) (pool : Pool) (entry : BasicBlock × Nat)
    (part : BlockText) : Prop where
  label : f.blockLabel ⟨entry.2⟩ = .ok part.label
  body : List.Forall₂ (fun i line => i.print u pool = .ok line) entry.1.body part.body
  last : f.lastLine entry.1 = .ok part.last

/-- The text consists of a head and of the parts for the blocks, in order. -/
structure PrintedAs (f : Function) (u : CodeUnit) (pool : Pool) (parts : List BlockText)
    (text : String) : Prop where
  text : ∃ head, text = head ++ " \x7b\n" ++ String.join (parts.map BlockText.text) ++ "\x7d\n"
  blocks : List.Forall₂ (f.PrintsBlock u pool) f.blocks.zipIdx parts

/-- The types that the text of the function shows. -/
def shown (f : Function) : List TypeId :=
  f.params.map f.valueType ++ f.returnType :: f.instrs.filterMap Instr.shown?

/-- All that the function refers to is there. -/
structure Resolved (f : Function) (u : CodeUnit) : Prop where
  calls : ∀ i ∈ f.instrs, i.Resolved u
  targets : ∀ B ∈ f.blocks, ∀ t ∈ B.terminator, ∀ s ∈ t.successors, s.index < f.blocks.length

theorem printBody_eq_ok {B : BasicBlock} {lines : List String} :
    f.printBody u pool B = .ok lines ↔
      ∃ body, List.Forall₂ (fun i line => i.print u pool = .ok line) B.body body
        ∧ ∃ last, f.lastLine B = .ok last
          ∧ lines = (body ++ [last]).map ("  " ++ · ++ "\n") := by
  simp only [printBody, bind_eq_ok, mapM_eq_ok, lastLine]
  cases B.terminator with
  | none => simp [pure_eq_ok]
  | some t => simp only [bind_eq_ok, pure_eq_ok]

theorem printBlock_eq_ok {entry : BasicBlock × Nat} :
    f.printBlock u pool entry = .ok text ↔
      ∃ part, f.PrintsBlock u pool entry part ∧ text = part.text := by
  simp only [printBlock, bind_eq_ok, printBody_eq_ok, pure_eq_ok]
  constructor
  · rintro ⟨label, hlabel, lines, ⟨body, hbody, last, hlast, rfl⟩, rfl⟩
    exact ⟨⟨label, body, last⟩, ⟨hlabel, hbody, hlast⟩, rfl⟩
  · rintro ⟨part, hpart, rfl⟩
    exact ⟨_, hpart.label, _, ⟨_, hpart.body, _, hpart.last, rfl⟩, rfl⟩

theorem print_ok (hbody : f.isDeclaration = false) (h : f.print u pool = .ok text) :
    ∃ parts, f.PrintedAs u pool parts text := by
  simp only [print, hbody, Bool.false_eq_true, if_false, bind_eq_ok, mapM_eq_ok, pure_eq_ok] at h
  obtain ⟨params, -, returned, -, texts, htexts, rfl⟩ := h
  have hparts : ∃ parts, List.Forall₂ (f.PrintsBlock u pool) f.blocks.zipIdx parts
      ∧ texts = parts.map BlockText.text := by
    generalize f.blocks.zipIdx = entries at htexts
    induction htexts with
    | nil => exact ⟨[], .nil, rfl⟩
    | cons hfirst _ ih =>
        obtain ⟨part, hpart, rfl⟩ := printBlock_eq_ok.mp hfirst
        obtain ⟨parts, hparts, rfl⟩ := ih
        exact ⟨part :: parts, .cons hpart hparts, rfl⟩
  obtain ⟨parts, hparts, rfl⟩ := hparts
  exact ⟨parts, ⟨_, rfl⟩, hparts⟩

theorem lastLine_isOk_iff {B : BasicBlock} : (∃ last, f.lastLine B = .ok last) ↔
    ∀ t ∈ B.terminator, ∀ s ∈ t.successors, s.index < f.blocks.length := by
  unfold lastLine
  cases B.terminator with
  | none => simp
  | some t => simp [printTerminator_isOk_iff]

theorem printBlock_isOk_iff {B : BasicBlock} {k : Nat} (hk : k < f.blocks.length) :
    (∃ text, f.printBlock u pool (B, k) = .ok text) ↔
      (∀ i ∈ B.body, i.Resolved u ∧ ∀ ty ∈ i.shown?, pool.Ends ty)
      ∧ ∀ t ∈ B.terminator, ∀ s ∈ t.successors, s.index < f.blocks.length := by
  constructor
  · rintro ⟨text, htext⟩
    obtain ⟨part, hpart, -⟩ := printBlock_eq_ok.mp htext
    refine ⟨fun i hi => ?_, lastLine_isOk_iff.mp ⟨_, hpart.last⟩⟩
    exact Instr.print_isOk_iff.mp (mapM_isOk_iff.mp ⟨_, mapM_eq_ok.mpr hpart.body⟩ i hi)
  · rintro ⟨hcalls, htargets⟩
    obtain ⟨label, hlabel⟩ := blockLabel_isOk_iff.mpr hk
    obtain ⟨body, hbody⟩ := mapM_isOk_iff.mpr fun i hi =>
      (@Instr.print_isOk_iff u pool i).mpr (hcalls i hi)
    obtain ⟨last, hlast⟩ := lastLine_isOk_iff.mpr htargets
    exact ⟨_, printBlock_eq_ok.mpr
      ⟨⟨label, body, last⟩, ⟨hlabel, mapM_eq_ok.mp hbody, hlast⟩, rfl⟩⟩

theorem printBlocks_isOk_iff : (∃ texts, f.blocks.zipIdx.mapM (f.printBlock u pool) = .ok texts)
    ↔ f.Resolved u ∧ ∀ ty ∈ f.instrs.filterMap Instr.shown?, pool.Ends ty := by
  rw [mapM_isOk_iff]
  constructor
  · intro h
    have hblock : ∀ B ∈ f.blocks, (∀ i ∈ B.body, i.Resolved u ∧ ∀ ty ∈ i.shown?, pool.Ends ty)
        ∧ ∀ t ∈ B.terminator, ∀ s ∈ t.successors, s.index < f.blocks.length := by
      intro B hB
      obtain ⟨k, hk⟩ := List.mem_iff_getElem?.mp hB
      exact (printBlock_isOk_iff (List.getElem?_eq_some_iff.mp hk).1).mp
        (h (B, k) (List.mk_mem_zipIdx_iff_getElem?.mpr hk))
    have hinstr : ∀ i ∈ f.instrs, i.Resolved u ∧ ∀ ty ∈ i.shown?, pool.Ends ty := by
      intro i hi
      obtain ⟨B, hB, hi⟩ := List.mem_flatMap.mp hi
      exact (hblock B hB).1 i hi
    refine ⟨⟨fun i hi => (hinstr i hi).1, fun B hB => (hblock B hB).2⟩, fun ty hty => ?_⟩
    obtain ⟨i, hi, hty⟩ := List.mem_filterMap.mp hty
    exact (hinstr i hi).2 ty hty
  · rintro ⟨h, hshown⟩ ⟨B, k⟩ hentry
    have hk := List.mk_mem_zipIdx_iff_getElem?.mp hentry
    have hB := List.mem_of_getElem? hk
    refine (printBlock_isOk_iff (List.getElem?_eq_some_iff.mp hk).1).mpr ⟨fun i hi => ?_, ?_⟩
    · have hmem : i ∈ f.instrs := List.mem_flatMap.mpr ⟨B, hB, hi⟩
      exact ⟨h.calls i hmem, fun ty hty => hshown ty (List.mem_filterMap.mpr ⟨i, hmem, hty⟩)⟩
    · exact h.targets B hB

theorem printParam_isOk_iff {p : ValueId} :
    (∃ text, f.printParam pool p = .ok text) ↔ pool.Ends (f.valueType p) := by
  rw [← Pool.display_isOk_iff]
  simp only [printParam, bind_eq_ok, pure_eq_ok]
  simp

/-- A function with a body has a text just when all that it refers to is there and the types in it
can be shown. -/
theorem print_isOk_iff (hbody : f.isDeclaration = false) :
    (∃ text, f.print u pool = .ok text) ↔ f.Resolved u ∧ ∀ ty ∈ f.shown, pool.Ends ty := by
  have hparts : (∃ text, f.print u pool = .ok text)
      ↔ (∃ params, f.params.mapM (f.printParam pool) = .ok params)
        ∧ (∃ returned, pool.display f.returnType = .ok returned)
        ∧ ∃ texts, f.blocks.zipIdx.mapM (f.printBlock u pool) = .ok texts := by
    simp only [print, hbody, Bool.false_eq_true, if_false, bind_eq_ok, pure_eq_ok]
    simp
  rw [hparts, mapM_isOk_iff, Pool.display_isOk_iff, printBlocks_isOk_iff]
  simp only [printParam_isOk_iff, shown, List.forall_mem_append, List.forall_mem_cons,
    List.forall_mem_map]
  constructor
  · rintro ⟨hparams, hreturn, hresolved, hinstrs⟩
    exact ⟨hresolved, hparams, hreturn, hinstrs⟩
  · rintro ⟨hresolved, hparams, hreturn, hinstrs⟩
    exact ⟨hparams, hreturn, hresolved, hinstrs⟩

/-! ## Headers and targets -/

variable {parts : List BlockText}

theorem PrintedAs.block (h : f.PrintedAs u pool parts text) {i : Nat} {B : BasicBlock}
    {part : BlockText} (hB : f.blocks[i]? = some B) (hpart : parts[i]? = some part) :
    f.PrintsBlock u pool (B, i) part := by
  obtain ⟨hi, rfl⟩ := List.getElem?_eq_some_iff.mp hpart
  obtain ⟨hi', rfl⟩ := List.getElem?_eq_some_iff.mp hB
  have hprints := h.blocks.get (i := i) (by simpa using hi') hi
  simpa using hprints

theorem PrintedAs.length (h : f.PrintedAs u pool parts text) :
    parts.length = f.blocks.length := by
  rw [← h.blocks.length_eq, List.length_zipIdx]

/-- The headers are the labels of the blocks. -/
theorem PrintedAs.header_iff (h : f.PrintedAs u pool parts text) {i : Nat} {l : String} :
    (parts.map BlockText.label)[i]? = some l ↔ f.blockLabel ⟨i⟩ = .ok l := by
  rw [List.getElem?_map, Option.map_eq_some_iff]
  constructor
  · rintro ⟨part, hpart, rfl⟩
    have hi := (List.getElem?_eq_some_iff.mp hpart).1
    rw [h.length] at hi
    exact (h.block (List.getElem?_eq_getElem hi) hpart).label
  · intro hl
    obtain ⟨B, hB, -⟩ := blockLabel_ok_iff.mp hl
    have hi := (List.getElem?_eq_some_iff.mp hB).1
    rw [← h.length] at hi
    have hpart : parts[i]? = some parts[i] := List.getElem?_eq_getElem hi
    exact ⟨_, hpart, Except.ok.inj ((h.block hB hpart).label.symm.trans hl)⟩

theorem PrintedAs.nodup (h : f.PrintedAs u pool parts text) (hentry : ["entry"] <+: f.labels) :
    (parts.map BlockText.label).Nodup := by
  refine List.nodup_iff_getElem?_ne_getElem?.mpr fun i j hij hj heq => ?_
  have hheader := List.getElem?_eq_getElem hj
  have hsame :=
    blockLabel_inj hentry (h.header_iff.mp (heq.trans hheader)) (h.header_iff.mp hheader)
  exact hij.ne (congrArg BlockId.index hsame)

end Function

/-- `l` is the header of the block `id`, and of no other. -/
def Heads (headers : List String) (id : BlockId) (l : String) : Prop :=
  ∀ j, headers[j]? = some l ↔ j = id.index

/-- The line names the blocks that control may go to, each by a header that only this block has. -/
def Terminator.NamedBy (headers : List String) : Terminator → String → Prop
  | .jump target, line => ∃ l, Heads headers target l ∧ line = "jmp " ++ l
  | .branch cond yes no, line => ∃ l m, Heads headers yes l ∧ Heads headers no m
      ∧ line = "br " ++ cond.text ++ ", " ++ l ++ ", " ++ m
  | .ret _, _ | .trap _, _ => True

namespace Function

variable {f : Function} {u : CodeUnit} {pool : Pool} {text : String} {parts : List BlockText}

theorem PrintedAs.heads (h : f.PrintedAs u pool parts text) (hentry : ["entry"] <+: f.labels)
    {id : BlockId} {l : String} (hl : f.blockLabel id = .ok l) :
    Heads (parts.map BlockText.label) id l := by
  intro j
  rw [h.header_iff]
  constructor
  · intro hj
    exact congrArg BlockId.index (blockLabel_inj hentry hj hl)
  · rintro rfl
    exact hl

theorem PrintedAs.namedBy (h : f.PrintedAs u pool parts text) (hentry : ["entry"] <+: f.labels)
    {t : Terminator} {line : String} (hline : f.printTerminator t = .ok line) :
    t.NamedBy (parts.map BlockText.label) line := by
  cases t with
  | jump target =>
      obtain ⟨l, hl, rfl⟩ := printTerminator_jump.mp hline
      exact ⟨l, h.heads hentry hl, rfl⟩
  | branch cond yes no =>
      obtain ⟨l, hl, m, hm, rfl⟩ := printTerminator_branch.mp hline
      exact ⟨l, m, h.heads hentry hl, h.heads hentry hm, rfl⟩
  | ret value => trivial
  | trap cause => trivial

end Function

/-- Printed labels are unambiguous, whatever labels the blocks of a function are given. Two blocks
are never printed under the same label. A jump or a branch has a line just when its targets are
there, and the line tells them. The function has a text just when all that it refers to is there and
the chains of pointees of the types in it end. The text consists of a head and one part for each
block, under headers that are all different, and a jump or a branch at the end of a part names each
of its targets by the header of that block, which no other block has. -/
theorem labels_unambiguous {b : Builder} (hb : b.Made) :
    (∀ i j, i < b.function.blocks.length → j < b.function.blocks.length → i ≠ j →
      ∃ l m, b.function.blockLabel ⟨i⟩ = .ok l ∧ b.function.blockLabel ⟨j⟩ = .ok m ∧ l ≠ m)
    ∧ (∀ t, (∃ line, b.function.printTerminator t = .ok line) ↔
      ∀ s ∈ t.successors, s.index < b.function.blocks.length)
    ∧ (∀ t t' line, b.function.printTerminator t = .ok line →
      b.function.printTerminator t' = .ok line → t.successors = t'.successors)
    ∧ ∀ u pool, ((∃ text, b.function.print u pool = .ok text)
        ↔ b.function.Resolved u ∧ ∀ ty ∈ b.function.shown, pool.Ends ty)
      ∧ ∀ text, b.function.print u pool = .ok text → ∃ parts, b.function.PrintedAs u pool parts text
        ∧ (parts.map BlockText.label).Nodup
        ∧ ∀ (i : Nat) (part : BlockText) (B : BasicBlock) (t : Terminator),
          parts[i]? = some part → b.function.blocks[i]? = some B → B.terminator = some t →
          t.NamedBy (parts.map BlockText.label) part.last := by
  have hentry := hb.entry
  have hbody := hb.isDeclaration_eq
  refine ⟨fun i j hi hj hij => ?_, fun t => Function.printTerminator_isOk_iff,
    fun t t' line => Function.successors_of_line hentry,
    fun u pool => ⟨Function.print_isOk_iff hbody, fun text htext => ?_⟩⟩
  · obtain ⟨l, hl⟩ := (Function.blockLabel_isOk_iff (f := b.function) (i := ⟨i⟩)).mpr hi
    obtain ⟨m, hm⟩ := (Function.blockLabel_isOk_iff (f := b.function) (i := ⟨j⟩)).mpr hj
    refine ⟨l, m, hl, hm, ?_⟩
    rintro rfl
    exact hij (congrArg BlockId.index (Function.blockLabel_inj hentry hl hm))
  · obtain ⟨parts, hparts⟩ := Function.print_ok hbody htext
    refine ⟨parts, hparts, hparts.nodup hentry, fun i part B t hpart hB ht => ?_⟩
    have hlast := (hparts.block hB hpart).last
    simp only [Function.lastLine, ht] at hlast
    exact hparts.namedBy hentry hlast

namespace Relabelled

/-- A shared reference to a number. -/
def pool : Pool := .ofItems .new [.reference .counted .int]

def emitter : Emitter := ⟨⟨pool, .w64⟩, {}⟩

/-- Two more blocks are called like the first one, the second of them as if it had a number. -/
def opened : Builder :=
  let b := Builder.new "f" [⟨16⟩, ⟨16⟩, .bool] .unit
  (((b.appendBlock "entry").2.appendBlock "entry.1").2.branch (.value ⟨2⟩) ⟨1⟩ ⟨2⟩).moveTo ⟨1⟩
    (by decide +kernel)

def releaseFirst : Emit (List ValueId) := (Operation.release (.value ⟨0⟩) ⟨16⟩).emit emitter

def releaseSecond : Emit (List ValueId) := (Operation.release (.value ⟨1⟩) ⟨16⟩).emit emitter

/-- The unit with the symbols of the heap. -/
def linked : CodeUnit := Draft.unitAfter (releaseFirst.run ⟨.new "unit", opened⟩)

/-- Both references are let go of. -/
def released : Builder :=
  Draft.builderAfter (releaseSecond.run
    ⟨linked, Draft.builderAfter (releaseFirst.run ⟨.new "unit", opened⟩)⟩)

theorem made : released.Made :=
  .emit _ _ _ (.emit _ _ _ (.moveTo _ (by decide +kernel) (.terminate _ (.appendBlock _
    (.appendBlock _ (.new "f" [⟨16⟩, ⟨16⟩, .bool] .unit))))))

end Relabelled

/-- Each release has a block `rc.free`. -/
theorem labels_unambiguous_relabelled :
    (Relabelled.released.function.labels[5]? = some "rc.free"
      ∧ Relabelled.released.function.labels[9]? = some "rc.free")
    ∧ (∃ l m, Relabelled.released.function.blockLabel ⟨5⟩ = .ok l
      ∧ Relabelled.released.function.blockLabel ⟨9⟩ = .ok m ∧ l ≠ m)
    ∧ ∃ text parts, Relabelled.released.function.print Relabelled.linked Relabelled.pool = .ok text
      ∧ Relabelled.released.function.PrintedAs Relabelled.linked Relabelled.pool parts text
      ∧ (parts.map BlockText.label).Nodup := by
  obtain ⟨hlabels, -, -, htexts⟩ := labels_unambiguous Relabelled.made
  obtain ⟨hresolved, hparts⟩ := htexts Relabelled.linked Relabelled.pool
  obtain ⟨text, htext⟩ := hresolved.mpr
    ⟨⟨by decide +kernel, by decide +kernel⟩, by decide +kernel⟩
  obtain ⟨parts, hprinted, hnodup, -⟩ := hparts text htext
  refine ⟨⟨by decide +kernel, by decide +kernel⟩, ?_, text, parts, htext, hprinted, hnodup⟩
  exact hlabels 5 9 (by decide +kernel) (by decide +kernel) (by decide)

end Ownership
