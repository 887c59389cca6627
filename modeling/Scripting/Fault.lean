import Scripting.Node.Basic

/-!
Runtime failures, by cause. A failure carries the place of the innermost node that was being evaluated
and has one.
-/

set_option autoImplicit false

namespace Scripting

inductive Fault where
  | unknownName (name : String)
  | operandType (symbol type : String)
  | conditionType (keyword type : String)
  | typeNameArity (count : Nat)
  | pushReceiver (type : Option String)
  | notCallable (type : String)
  | indexOutOfRange (index : Int) (length : Nat)
  | negativeIndex (index : Int)
  | noSuchProperty (key : String)
  | invalidAccess (base key : String)
  | noArrayMember (name : String)
  | callDepth (limit : Nat) (name : String)
  | evaluationDepth
  /-- A value was to be printed that has more levels of arrays and records than the host can write. -/
  | textDepth (levels : Option Nat)
  | unknownOperator (symbol : String)
  | unknownLabel (label : String)
  | unknownToken (kind text : String)
  | notIdentifier (role : String)
  | malformedFunction
  | foreignResult (name type : String)
deriving DecidableEq, Repr

inductive FaultKind where
  | unknownName | typeMismatch | notCallable | indexOutOfRange | invalidIndex | noSuchProperty
  | invalidAccess | resourceExhausted
  /-- A failure that no program read from a source runs into. -/
  | other
deriving DecidableEq, Repr

namespace Fault

def kind : Fault → FaultKind
  | unknownName _ => .unknownName
  | operandType _ _ | conditionType _ _ | typeNameArity _ | pushReceiver _ => .typeMismatch
  | notCallable _ => .notCallable
  | indexOutOfRange _ _ => .indexOutOfRange
  | negativeIndex _ => .invalidIndex
  | noSuchProperty _ => .noSuchProperty
  | invalidAccess _ _ | noArrayMember _ => .invalidAccess
  | callDepth _ _ | evaluationDepth | textDepth _ => .resourceExhausted
  | unknownOperator _ | unknownLabel _ | unknownToken _ _ | notIdentifier _ | malformedFunction
  | foreignResult _ _ => .other

def message : Fault → String
  | unknownName name => s!"Name '{name}' not found"
  | operandType symbol type => s!"Operator '{symbol}' expects number operands, got {type}"
  | conditionType keyword type => s!"{keyword} expects a boolean condition, got {type}"
  | typeNameArity count => s!"typeof expects exactly one argument; got {count}"
  | pushReceiver none => "push expects an array receiver, got none"
  | pushReceiver (some type) => s!"push expects an array receiver, got {type}"
  | notCallable type => s!"{type} value is not callable"
  | indexOutOfRange index length => s!"Array index {index} out of range for length {length}"
  | negativeIndex index => s!"Negative array index {index}"
  | noSuchProperty key => s!"No property named '{key}'"
  | invalidAccess base key => s!"Cannot access {base} with {key} key"
  | noArrayMember name => s!"Array has no member '{name}'"
  | callDepth limit name => s!"Call depth limit of {limit} exceeded calling '{name}'"
  | evaluationDepth | textDepth _ => "Evaluation recursion limit exceeded"
  | unknownOperator symbol => s!"Unknown operator '{symbol}'"
  | unknownLabel label => s!"Unknown node: {label}"
  | unknownToken kind text => s!"Unhandled token {kind}:{text}"
  | notIdentifier role => s!"{role} must be an identifier"
  | malformedFunction => "Malformed function definition"
  | foreignResult name type => s!"Host function '{name}' returned non-Skiff value {type}"

end Fault

structure Failure where
  fault : Fault
  place : Option Place
deriving DecidableEq, Repr

namespace Failure

def message (f : Failure) : String :=
  match f.place with
  | none => f.fault.message
  | some ⟨line, none⟩ => s!"{f.fault.message} (line {line})"
  | some ⟨line, some column⟩ => s!"{f.fault.message} (line {line}, col {column})"

def locate (f : Failure) (place : Option Place) : Failure :=
  { f with place := f.place <|> place }

end Failure

end Scripting
