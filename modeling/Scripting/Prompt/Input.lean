import Scripting.Token.Scan

/-!
A line of input at the prompt before it is handed in: what is removed from it, whether more has to
follow, and what can complete it.
-/

set_option autoImplicit false

namespace Scripting.Prompt

def invisible : List Char :=
  ['\u200b', '\u200c', '\u200d', '\ufeff', '\u00a0', '\r']

def normalize (text : String) : String :=
  String.ofList (text.toList.filter fun c => c ∉ invisible)

/-- The change of bracket depth at a token; the depth never falls below zero. -/
def bracketDepth (depth : Nat) : Token.Kind → Nat
  | .leftParen | .leftSquare | .leftBrace => depth + 1
  | .rightParen | .rightSquare | .rightBrace => depth - 1
  | _ => depth

def unfinished (kinds : List Token.Kind) : Bool :=
  kinds.foldl bracketDepth 0 > 0 ||
    match kinds.getLast? with
    | none | some .semicolon | some .rightBrace => false
    | some _ => true

/-- More input has to follow: a bracket or a string is open, or the last statement has no end. -/
def isIncomplete (text : String) : Except ScanError Bool :=
  match Token.scan text with
  | .ok tokens => .ok (unfinished ((tokens.map (·.kind)).takeWhile (· ≠ .eof)))
  | .error (.unterminatedString _) => .ok true
  | .error .tooManyDigits => .error .tooManyDigits
  | .error _ => .ok false

def isCommand (text : String) : Bool :=
  (Text.trim text.toList).head? = some '/'

inductive Enter where
  | submit
  | insert (text : String)
deriving DecidableEq, Repr

/-- A command is handed in as it is; other input when it is complete. -/
def enter (text : String) : Except ScanError Enter :=
  if isCommand text then .ok .submit
  else (isIncomplete text).map fun more => if more then .insert "\n    " else .submit

def commands : List (String × String) :=
  [("/clear", "Clear the terminal screen"),
   ("/py-traceback", "Toggle Python traceback on errors"),
   ("/reset", "Reset the REPL environment")]

def completions (text : String) : List (String × String) :=
  if text.toList.head? = some '/' then
    commands.filter fun c => text.toList.isPrefixOf c.1.toList
  else []

end Scripting.Prompt
