import Ownership.Code.CodeUnit
import Ownership.Decimal.Shortest
import Ownership.Pool
import Ownership.Stop

/-!
# Text of code

How units, functions and instructions are written. The first block of a
function is written under its bare label, every other one under its label
and its number, so that labels may repeat. Code that refers to a block,
function or symbol that does not exist has no text, nor has code that
names a type without one.
-/

namespace Ownership

/-! ## Floats -/

/-- A decimal whose first digit counts `10 ^ exp`: positional from
`0.0001` to below `10 ^ 16`, with at least one digit behind the point, and
with an exponent outside. -/
def digitsText (digits : List Char) (exp : Int) : String :=
  if -4 ≤ exp ∧ exp < 0 then
    "0." ++ String.ofList (List.replicate (-exp - 1).toNat '0' ++ digits)
  else if 0 ≤ exp ∧ exp < 16 then
    let point := exp.toNat + 1
    if digits.length ≤ point then
      String.ofList (digits ++ List.replicate (point - digits.length) '0') ++ ".0"
    else String.ofList (digits.take point) ++ "." ++ String.ofList (digits.drop point)
  else
    let rest := digits.drop 1
    let fraction := if rest.isEmpty then "" else "." ++ String.ofList rest
    String.ofList (digits.take 1) ++ fraction ++ "e" ++ toString exp

/-- The text of a decimal; trailing zeros do not count as digits. -/
def scientificText (d : Decimal.Scientific) : String :=
  let all := Nat.toDigits 10 d.coeff
  let digits := (all.reverse.dropWhile (· = '0')).reverse
  digitsText digits (d.exp + all.length - 1)

/-- The text of a float, from its bits. -/
def floatText (bits : UInt64) : String :=
  let magnitude := bits &&& 0x7FFFFFFFFFFFFFFF
  let sign := if bits = magnitude then "" else "-"
  if 0x7FF0000000000000 < magnitude then "NaN"
  else if magnitude = 0x7FF0000000000000 then sign ++ "inf"
  else if magnitude = 0 then sign ++ "0.0"
  else sign ++ scientificText (Decimal.Binary.ofBits magnitude).shortest

/-! ## Operands -/

def ValueId.text (id : ValueId) : String := "%" ++ toString id.index

def Literal.text : Literal → String
  | .int v => toString v.toInt
  | .i32 v => toString v.toInt ++ "i32"
  | .float bits => floatText bits
  | .bool v => if v then "true" else "false"
  | .byte v => toString v.toNat ++ "u8"
  | .usize v => toString v.toNat ++ "usize"
  | .unit => "()"

def Const.text : Const → String
  | .literal l => l.text
  | .null => "null"

def Operand.text : Operand → String
  | .value id => id.text
  | .const c => c.text

def commaList (texts : List String) : String := ", ".intercalate texts

def argsText (args : List Operand) : String := commaList (args.map Operand.text)

/-! ## Instructions -/

/-- A text, or the abort that stands for it. -/
abbrev Printed := Except Abort String

/-- The label under which a block is written. -/
def Function.blockLabel (f : Function) (id : BlockId) : Printed :=
  match f.block? id with
  | none => .error .dangling
  | some block =>
    if id.index = 0 then .ok block.label else .ok (block.label ++ "." ++ toString id.index)

/-- The name of a field of a record. -/
def Pool.fieldText (pool : Pool) (record : TypeId) (index : Nat) : String :=
  match (pool.fields record)[index]? with
  | some field => pool.text field.name
  | none => "?"

/-- The text of an instruction without the value it defines. -/
def Instr.action (u : CodeUnit) (pool : Pool) : Instr → Printed
  | .alloca _ ty name => do
    return "alloca " ++ (← pool.display ty) ++ " \"" ++ pool.text name ++ "\""
  | .load _ ty ptr => do return "load " ++ (← pool.display ty) ++ ", " ++ ptr.text
  | .store ty value ptr => do
    return "store " ++ (← pool.display ty) ++ " " ++ value.text ++ ", " ++ ptr.text
  | .fieldAddr _ base record index bytes => do
    return "fieldaddr " ++ base.text ++ ", " ++ (← pool.display record) ++ "."
      ++ pool.fieldText record index ++ " (+" ++ toString bytes.toNat ++ ")"
  | .offset _ base bytes => .ok ("offset " ++ base.text ++ ", " ++ toString bytes.toInt)
  | .cast _ ty value => do return "cast " ++ value.text ++ " to " ++ (← pool.display ty)
  | .add _ ty lhs rhs => do return "add " ++ (← pool.display ty) ++ " " ++ argsText [lhs, rhs]
  | .cmp _ how ty lhs rhs => do
    return "cmp " ++ how.keyword ++ " " ++ (← pool.display ty) ++ " " ++ argsText [lhs, rhs]
  | .callExternal _ callee args =>
    match u.external? callee with
    | some e => .ok ("call @" ++ e.name ++ "(" ++ argsText args ++ ")")
    | none => .error .dangling
  | .call _ callee args =>
    match u.function? callee with
    | some f => .ok ("call " ++ f.name ++ "(" ++ argsText args ++ ")")
    | none => .error .dangling

def Instr.print (u : CodeUnit) (pool : Pool) (i : Instr) : Printed := do
  let action ← i.action u pool
  match i.dst? with
  | some dst => return dst.text ++ " = " ++ action
  | none => return action

def Function.printTerminator (f : Function) : Terminator → Printed
  | .jump target => do return "jmp " ++ (← f.blockLabel target)
  | .branch cond thenBlock elseBlock => do
    return "br " ++ commaList [cond.text, ← f.blockLabel thenBlock, ← f.blockLabel elseBlock]
  | .ret none => return "ret"
  | .ret (some value) => return "ret " ++ value.text
  | .trap cause => return "trap " ++ cause.keyword

/-! ## Functions and units -/

/-- The lines inside a block. -/
def Function.printBody (f : Function) (u : CodeUnit) (pool : Pool) (block : BasicBlock) :
    Except Abort (List String) := do
  let body ← block.body.mapM (Instr.print u pool)
  let last ← match block.terminator with
    | some t => f.printTerminator t
    | none => pure "<unterminated>"
  return (body ++ [last]).map ("  " ++ · ++ "\n")

def Function.printBlock (f : Function) (u : CodeUnit) (pool : Pool) (entry : BasicBlock × Nat) :
    Printed := do
  let label ← f.blockLabel ⟨entry.2⟩
  return label ++ ":\n" ++ String.join (← f.printBody u pool entry.1)

/-- The text of a parameter. -/
def Function.printParam (f : Function) (pool : Pool) (p : ValueId) : Printed := do
  return p.text ++ ": " ++ (← pool.display (f.valueType p))

/-- The text of a function that belongs to the unit `u`. -/
def Function.print (f : Function) (u : CodeUnit) (pool : Pool) : Printed := do
  let params ← f.params.mapM (f.printParam pool)
  let head := "fn " ++ f.name ++ "(" ++ commaList params ++ ") -> " ++ (← pool.display f.returnType)
  if f.isDeclaration then return head ++ ";\n"
  else
    let blocks ← f.blocks.zipIdx.mapM (f.printBlock u pool)
    return head ++ " \x7b\n" ++ String.join blocks ++ "\x7d\n"

def External.print (pool : Pool) (e : External) : Printed := do
  let params ← e.params.mapM pool.display
  let ret ← pool.display e.returnType
  return "declare @" ++ e.name ++ "(" ++ commaList params ++ ") -> " ++ ret
    ++ "\n"

/-- The text of a whole unit. -/
def CodeUnit.print (u : CodeUnit) (pool : Pool) : Printed := do
  let externals ← u.externals.mapM (External.print pool)
  let functions ← u.functions.mapM fun f => f.print u pool
  return "; module " ++ u.name ++ "\n" ++ String.join externals
    ++ String.join (functions.map ("\n" ++ ·))

end Ownership
