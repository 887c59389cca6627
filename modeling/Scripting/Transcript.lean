import Scripting.Program
import Scripting.Settings

/-!
What a program that talks to a user writes, on its two channels.
-/

set_option autoImplicit false

namespace Scripting

structure Transcript where
  out : String
  err : String
deriving DecidableEq, Repr, Inhabited

namespace Transcript

def silent : Transcript := ⟨"", ""⟩

def append (a b : Transcript) : Transcript :=
  ⟨a.out ++ b.out, a.err ++ b.err⟩

instance : Append Transcript := ⟨append⟩

def line (text : String) : Transcript := ⟨text ++ "\n", ""⟩

def complaint (text : String) : Transcript := ⟨"", text ++ "\n"⟩

def log (module text : String) : Transcript :=
  complaint s!"DEBUG skiff_ref.{module}: {text}"

def logParsed (count : Nat) : Transcript :=
  log "runner" s!"Parsed {count} top-level statements"

def logInstalled : Transcript :=
  log "runtime" s!"Installed {standardNatives.length} host bindings"

def logExecuting (calls : Nat) : Transcript :=
  log "evaluator" s!"Executing program (max call depth {calls})"

def onlyIf (wanted : Bool) (t : Transcript) : Transcript :=
  if wanted then t else silent

/-- The report of an error; a runtime failure may be followed by where in the host it arose. -/
def report (traceback : Bool) (e : Error) : Transcript :=
  match e.message? with
  | none => silent
  | some message =>
    complaint s!"Error: {message}" ++
      onlyIf (traceback && e.isRuntime) ⟨"", "\nPython traceback:\n<traceback>\n"⟩

end Transcript

end Scripting
