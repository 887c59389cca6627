import Scripting.Grammar.Stream

/-!
The rules of expressions. A rule that goes into another one spends a unit of the nesting allowance, so
that a program nested more deeply than the allowance is refused; lists and chains of operators are read
in rounds and spend none.

Operators bind, from the loosest: `=`, `== !=`, `< <= > >=`, `+ -`, `*`, unary `-`, and calls, indices
and members.
-/

set_option autoImplicit false

namespace Scripting.Grammar

inductive Level where
  | equality | comparison | sum | product

namespace Level

def operators : Level → List Token.Kind
  | equality => [.equal, .notEqual]
  | comparison => [.less, .lessEqual, .greater, .greaterEqual]
  | sum => [.plus, .minus]
  | product => [.star]

def tighter? : Level → Option Level
  | equality => some comparison
  | comparison => some sum
  | sum => some product
  | product => none

end Level

def operatorChain (level : Level) (operand : Parse Node) (place : Option Place) :
    Nat → Node → Parse Node
  | 0, _ => tooDeep
  | rounds + 1, left => do
    let t ← peek
    if t.kind ∈ level.operators then
      let _ ← take
      let right ← operand
      operatorChain level operand place rounds (.binary ⟨t.text, some t.kind⟩ left right place)
    else
      return left

def suffixChain (arguments : Parse (List Node × Option Place)) (index : Parse Node)
    (place : Option Place) : Nat → Node → Parse Node
  | 0, _ => tooDeep
  | rounds + 1, base => do
    match (← peek).kind with
    | .leftParen =>
      let (args, q) ← arguments
      suffixChain arguments index place rounds (.call base args q place)
    | .leftSquare =>
      let _ ← take
      let key ← index
      let _ ← need .rightSquare .indexClose
      suffixChain arguments index place rounds (.item base key place)
    | .dot =>
      let _ ← take
      let name ← need .ident .propertyName
      let key := Node.string (word name)
      if (← peek).kind = .leftParen then
        let (args, q) ← arguments
        suffixChain arguments index place rounds (.methodCall base key args q place)
      else
        suffixChain arguments index place rounds (.item base key place)
    | _ => return base

def recordField (value : Parse Node) : Parse (Field Node) := do
  let t ← peek
  if t.kind = .ident || t.kind = .string then
    let _ ← take
    let _ ← need .colon .recordColon
    return ⟨word t, ← value, t.place⟩
  else
    throw (.expected .recordKey t.position)

variable (rounds : Nat)

mutual

def expression : Nat → Parse Node
  | 0 => tooDeep
  | depth + 1 => assignment depth
termination_by structural depth => depth

/-- Only a name or an indexed place can be assigned to; parentheses around it do not matter. -/
def assignment : Nat → Parse Node
  | 0 => tooDeep
  | depth + 1 => do
    let t ← peek
    let target ← binary .equality depth
    let sign ← peek
    if sign.kind = .assign then
      let _ ← take
      let value ← assignment depth
      match target with
      | .name w => return .assign w value t.place
      | .item base key _ => return .setItem base key value t.place
      | _ => throw (.invalidTarget sign.position)
    else
      return target
termination_by structural depth => depth

/-- A level of binary operators spends two units. -/
def binary (level : Level) : Nat → Parse Node
  | 0 | 1 => tooDeep
  | depth + 2 => do
    let t ← peek
    let operand := match level.tighter? with
      | some tighter => binary tighter depth
      | none => unary depth
    let left ← operand
    operatorChain level operand t.place rounds left
termination_by structural depth => depth

def unary : Nat → Parse Node
  | 0 => tooDeep
  | depth + 1 => do
    let t ← peek
    if t.kind = .minus then
      let _ ← take
      let operand ← unary depth
      return .negate operand t.place
    else
      suffixed depth
termination_by structural depth => depth

def suffixed : Nat → Parse Node
  | 0 => tooDeep
  | depth + 1 => do
    let t ← peek
    let base ← primary depth
    suffixChain (arguments depth) (expression depth) t.place rounds base
termination_by structural depth => depth

def arguments : Nat → Parse (List Node × Option Place)
  | 0 => tooDeep
  | depth + 1 => do
    let t ← take
    let args ←
      if (← peek).kind = .rightParen then pure [] else commaList (expression depth) rounds
    let _ ← need .rightParen .argumentsClose
    return (args, t.place)
termination_by structural depth => depth

def primary : Nat → Parse Node
  | 0 => tooDeep
  | depth + 1 => do
    let t ← peek
    match t.kind with
    | .number => let _ ← take; return .number (word t)
    | .string => let _ ← take; return .string (word t)
    | .trueWord => let _ ← take; return .boolean true (word t)
    | .falseWord => let _ ← take; return .boolean false (word t)
    | .ident => let _ ← take; return .name (word t)
    | .leftParen =>
      let _ ← take
      let inner ← expression depth
      let _ ← need .rightParen .groupClose
      return inner
    | .leftSquare =>
      let _ ← take
      let items ← closedList .rightSquare (expression depth) rounds
      let _ ← need .rightSquare .arrayClose
      return .array items t.place
    | .leftBrace =>
      let _ ← take
      let fields ← recordFields depth
      return .record fields t.place
    | kind => throw (.unexpected kind t.position)
termination_by structural depth => depth

def recordFields : Nat → Parse (List (Field Node))
  | 0 => tooDeep
  | depth + 1 => do
    let fields ← closedList .rightBrace (recordField (expression depth)) rounds
    let _ ← need .rightBrace .recordClose
    return fields
termination_by structural depth => depth

end

end Scripting.Grammar
