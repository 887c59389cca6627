import Scripting.Fault
import Scripting.Value

/-!
Arithmetic and comparison. Results of arithmetic are reduced to 32 bits, two's complement; operands
are numbers, and nothing is converted to one.
-/

set_option autoImplicit false

namespace Scripting

namespace Number

/-- The number in the signed 32-bit range that is congruent to `n`. -/
def wrap (n : Int) : Int :=
  n.bmod 4294967296

theorem le_wrap (n : Int) : -2147483648 ≤ wrap n := by
  have h := Int.le_bmod (x := n) (m := 4294967296) (by decide)
  unfold wrap
  omega

theorem wrap_lt (n : Int) : wrap n < 2147483648 := by
  have h := Int.bmod_lt (x := n) (m := 4294967296) (by decide)
  unfold wrap
  omega

theorem wrap_emod (n : Int) : wrap n % 4294967296 = n % 4294967296 :=
  Int.bmod_emod

end Number

inductive Operation where
  | add | subtract | multiply
  | equal | notEqual | less | lessEqual | greater | greaterEqual
deriving DecidableEq, Repr

namespace Operation

def ofSymbol? : String → Option Operation
  | "+" => some add
  | "-" => some subtract
  | "*" => some multiply
  | "==" => some equal
  | "!=" => some notEqual
  | "<" => some less
  | "<=" => some lessEqual
  | ">" => some greater
  | ">=" => some greaterEqual
  | _ => none

def apply : Operation → Int → Int → Value
  | add, a, b => .number (Number.wrap (a + b))
  | subtract, a, b => .number (Number.wrap (a - b))
  | multiply, a, b => .number (Number.wrap (a * b))
  | equal, a, b => .boolean (a = b)
  | notEqual, a, b => .boolean (a ≠ b)
  | less, a, b => .boolean (a < b)
  | lessEqual, a, b => .boolean (a ≤ b)
  | greater, a, b => .boolean (a > b)
  | greaterEqual, a, b => .boolean (a ≥ b)

end Operation

namespace Value

def toNumber (symbol : String) : Value → Except Fault Int
  | .number n => .ok n
  | v => .error (.operandType symbol v.typeName)

/-- The operands are checked from left to right, and the operator after them. -/
def operate (symbol : String) (left right : Value) : Except Fault Value := do
  let a ← left.toNumber symbol
  let b ← right.toNumber symbol
  match Operation.ofSymbol? symbol with
  | some operation => return operation.apply a b
  | none => throw (.unknownOperator symbol)

def negate (v : Value) : Except Fault Value := do
  return .number (Number.wrap (-(← v.toNumber "-")))

end Value

end Scripting
