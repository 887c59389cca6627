import Scripting.Grammar.Error
import Scripting.Node.Basic

/-!
The tokens ahead of the parser, and the steps by which it takes them.
-/

set_option autoImplicit false

namespace Scripting.Grammar

structure Stream where
  current : Token
  later : List Token

namespace Stream

/-- An empty list is an end mark at line and column zero. -/
def ofTokens : List Token → Stream
  | [] => ⟨.endMark ⟨0, 0⟩, []⟩
  | t :: ts => ⟨t, ts⟩

/-- What is left after the current token. Behind the last token of a list there is always one more end
    mark, which stands where that token stands. -/
def rest (s : Stream) : Stream :=
  match s.later with
  | [] => ⟨.endMark s.current.position, []⟩
  | t :: ts => ⟨t, ts⟩

end Stream

abbrev Parse (α : Type) := StateT Stream (Except SyntaxError) α

def peek : Parse Token := return (← get).current

def take : Parse Token := do
  let s ← get
  set s.rest
  return s.current

def takeIf (kind : Token.Kind) : Parse Bool := do
  if (← peek).kind = kind then
    let _ ← take
    return true
  else
    return false

def need (kind : Token.Kind) (what : Expected) : Parse Token := do
  let t ← peek
  if t.kind = kind then take else throw (.expected what t.position)

def tooDeep {α : Type} : Parse α := do throw (.nestingTooDeep (← peek).position)

def word (t : Token) : Word := ⟨t.text, t.place⟩

/-! Repetition. Each list is read in at most as many rounds as there are tokens. -/

def commaList {α : Type} (item : Parse α) : Nat → Parse (List α)
  | 0 => tooDeep
  | rounds + 1 => do
    let x ← item
    if ← takeIf .comma then return x :: (← commaList item rounds) else return [x]

/-- Items up to a closing sign, which is not taken; a comma may follow the last one. -/
def closedList {α : Type} (close : Token.Kind) (item : Parse α) : Nat → Parse (List α)
  | 0 => tooDeep
  | rounds + 1 => do
    if (← peek).kind = close then return []
    else
      let x ← item
      if ← takeIf .comma then return x :: (← closedList close item rounds) else return [x]

def bracedList (item : Parse Node) : Nat → Parse (List Node)
  | 0 => tooDeep
  | rounds + 1 => do
    let t ← peek
    if t.kind = .rightBrace then
      let _ ← take
      return []
    else if t.kind = .eof then throw (.unclosedBlock t.position)
    else
      let n ← item
      return n :: (← bracedList item rounds)

def wholeList (item : Parse Node) : Nat → Parse (List Node)
  | 0 => tooDeep
  | rounds + 1 => do
    if (← peek).kind = .eof then return []
    else
      let n ← item
      return n :: (← wholeList item rounds)

def parameterNames (seen : List String) : Nat → Parse (List Word)
  | 0 => tooDeep
  | rounds + 1 => do
    let t ← need .ident .parameterName
    if t.text ∈ seen then throw (.duplicateParameter t.text t.position)
    else if ← takeIf .comma then return word t :: (← parameterNames (t.text :: seen) rounds)
    else return [word t]

end Scripting.Grammar
