import Scripting.Evaluation.Rules
import Scripting.Grammar.Statement
import Scripting.Token.Scan

/-!
Programs from source text to result.
-/

set_option autoImplicit false

namespace Scripting

/-- What ends the host itself, without a report. -/
inductive Crash where
  | unreadable
  | limit
  /-- A name or the text of a value was asked for outside a program, and the host cannot follow. -/
  | recursion
  | overflow
deriving DecidableEq, Repr

/-- What a program ends with instead of a value. -/
inductive Error where
  | lexical (error : ScanError)
  | syntactic (error : SyntaxError)
  | runtime (failure : Failure)
  | crash (cause : Crash)
deriving DecidableEq, Repr

namespace Error

def ofScan : ScanError → Error
  | .tooManyDigits => .crash .unreadable
  | error => .lexical error

def message? : Error → Option String
  | lexical error => error.message?
  | syntactic error => some error.message
  | runtime failure => some failure.message
  | crash _ => none

def isRuntime : Error → Bool
  | runtime _ => true
  | _ => false

/-- How an error ends the host, if it does. -/
def crash? [Host] : Error → Option Crash
  | crash cause => some cause
  | runtime ⟨.textDepth (some levels), _⟩ => if Host.notices levels then none else some .overflow
  | _ => none

end Error

namespace Program

def parse [Host] (source : String) : Except Error Node := do
  let tokens ← (Token.scan source).mapError .ofScan
  (Grammar.program Host.grammar tokens).mapError .syntactic

/-- A return statement outside all calls ends the program with its value. -/
def result : Outcome → Except Error Value
  | .value v | .returned v => .ok v
  | .failed failure => .error (.runtime failure)
  | .aborted .stack => .error (.runtime ⟨.evaluationDepth, none⟩)
  | .aborted (.text levels) => .error (.runtime ⟨.textDepth levels, none⟩)
  | .aborted .unreadable => .error (.crash .unreadable)

def execute [Host] (calls steps : Nat) (program : Node) (scope : FrameId) (s : Store) :
    Option (Except Error Value × Store) :=
  if maxNesting < nesting calls then some (.error (.crash .limit), s)
  else (Machine.evaluate (limits calls) steps program scope s).map fun r => (result r.1, r.2)

def run [Host] (calls steps : Nat) (source : String) (scope : FrameId) (s : Store) :
    Option (Except Error Value × Store) :=
  match parse source with
  | .error e => some (.error e, s)
  | .ok program => execute calls steps program scope s

end Program

def standardNatives : List Native :=
  [⟨"println", .printLine, none⟩, ⟨"typeof", .typeName, none⟩]

namespace Store

def install (s : Store) (f : FrameId) (natives : List Native) : Store :=
  natives.foldl (fun s fn => s.define f fn.name (.native fn)) s

def newRoot (s : Store) (source : Option String) : FrameId × Store :=
  let (f, s) := s.newFrame none source none
  (f, s.install f standardNatives)

/-- What comes of a look-up from outside programs that finds something or nothing. -/
def answer [Host] {α : Type} (s : Store) (f : FrameId) (name : String) (found : Option α) : Except Error α :=
  if Host.costs.search s f name ≤ Host.followed then
    match found with
    | some a => .ok a
    | none => .error (.runtime ⟨.unknownName name, none⟩)
  else .error (.crash .recursion)

def fetch [Host] (s : Store) (f : FrameId) (name : String) : Except Error Value :=
  s.answer f name (s.get? f name)

def assign [Host] (s : Store) (f : FrameId) (name : String) (v : Value) : Except Error Store :=
  s.answer f name (s.set? f name v)

section Answers

variable [Host] {α : Type} {s : Store} {f : FrameId} {name : String} {found : Option α} {a : α}

theorem answer_eq_ok_iff :
    s.answer f name found = .ok a ↔ Host.costs.search s f name ≤ Host.followed ∧ found = some a := by
  unfold answer
  by_cases near : Host.costs.search s f name ≤ Host.followed
  · cases found <;> simp [near]
  · simp [near]

theorem answer_eq_unknown_iff : s.answer f name found = .error (.runtime ⟨.unknownName name, none⟩) ↔
    Host.costs.search s f name ≤ Host.followed ∧ found = none := by
  unfold answer
  by_cases near : Host.costs.search s f name ≤ Host.followed
  · cases found <;> simp [near]
  · simp [near]

theorem answer_eq_recursion_iff :
    s.answer f name found = .error (.crash .recursion) ↔ Host.followed < Host.costs.search s f name := by
  unfold answer
  by_cases near : Host.costs.search s f name ≤ Host.followed
  · cases found <;> simp [near, Nat.not_lt.2 near]
  · simp [near, Nat.lt_of_not_le near]

end Answers

end Store

end Scripting
