import Scripting.Store.Basic

/-!
The text of a value. A value that contains itself has none, nor has one with more levels of arrays and
records than the host can write.
-/

set_option autoImplicit false

namespace Scripting

namespace Store

/-- The text of a value whose arrays and records are nested to less than the given depth. -/
def renderWithin (s : Store) : Nat → Value → Option String
  | _, .nothing => some "nothing"
  | _, .number n => some (toString n)
  | _, .string text => some s!"\"{text}\""
  | _, .boolean b => some (if b then "true" else "false")
  | _, .function c => some s!"<fn {c.name}>"
  | _, .native f => some s!"<native fn {f.name}>"
  | 0, .array _ | 0, .record _ => none
  | depth + 1, .array a => do
    let texts ← (s.items a).toList.mapM (s.renderWithin depth)
    return "[" ++ ", ".intercalate texts ++ "]"
  | depth + 1, .record r => do
    let texts ← (s.fields r).entries.mapM fun e => do
      return e.1 ++ ": " ++ (← s.renderWithin depth e.2)
    return "\x7b" ++ ", ".intercalate texts ++ "\x7d"

/-- No value without a cycle is nested more deeply than there are arrays and records. -/
def deepest (s : Store) : Nat :=
  s.arrays.size + s.records.size + 1

def render (s : Store) (levels : Option Nat) (v : Value) : Option String :=
  match levels with
  | none => s.renderWithin s.deepest v
  | some levels => s.renderWithin (min s.deepest levels) v

def display (s : Store) (levels : Option Nat) : Value → Option String
  | .string text => some text
  | v => s.render levels v

end Store

end Scripting
