import Scripting.Directory

/-!
The program itself: it reads the environment, files and standard input, and writes what a run leaves to
be written.
-/

set_option autoImplicit false

namespace Scripting.Console

/-- More steps than a run takes in a lifetime. -/
def steps : Nat := 1000000000000000

def environment : IO Environment :=
  return ⟨← IO.getEnv Environment.callDepthVariable, ← IO.getEnv Environment.tracebackVariable,
    ← IO.getEnv Environment.logLevelVariable⟩

def lookup (path : String) : IO CommandLine.Lookup := do
  if path.toList.contains '\x00' then return .missing
  else if Directory.components path = [] then return .directory
  else
    try return .file (← IO.FS.readFile path)
    catch
      | .inappropriateType .. => return .directory
      | .invalidArgument .. => return .nameTooLong
      | _ => return .missing

def write (t : Transcript) : IO Unit := do
  let out ← IO.getStdout
  out.putStr t.out
  out.flush
  (← IO.getStderr).putStr t.err

def finish (ending : CommandLine.Ending) : IO UInt32 :=
  match ending with
  | .exit code => return code.toUInt32
  | .refused message => do IO.eprintln message; return 1
  | .crash .unreadable => do IO.eprintln "unreadable numeral"; return 1
  | .crash .limit => do IO.eprintln "call depth limit too large"; return 1
  | .crash .recursion => do IO.eprintln "value nested too deeply"; return 1
  | .crash .overflow => do IO.eprintln "stack overflow"; return 1
  | .isDirectory => do IO.eprintln "is a directory"; return 1
  | .nameTooLong => do IO.eprintln "file name too long"; return 1

partial def converse (session : Prompt.Session) : IO UInt32 := do
  write ⟨">>> ", ""⟩
  let line ← (← IO.getStdin).getLine
  if line = "" then
    write Prompt.Session.farewell
    return 0
  else
    match session.submit steps line with
    | none => return 1
    | some reply =>
      write reply.transcript
      match reply.crash with
      | some cause => finish (.crash cause)
      | none => converse reply.session

def runWords (words : List String) (o : CommandLine.Options) (e : Environment) : IO UInt32 := do
  let fromInput := o.source = none || o.source = some "-"
  let input ← if fromInput then (← IO.getStdin).readToEnd else pure ""
  let found ← match o.source with
    | some path => if fromInput then pure .missing else lookup path
    | none => pure .missing
  match CommandLine.run ⟨e, input, fun _ => found, []⟩ steps words with
  | none => return 1
  | some (ending, t) =>
    write t
    finish ending

end Scripting.Console

open Scripting in
def main (words : List String) : IO UInt32 := do
  let e ← Console.environment
  match CommandLine.Options.parse words with
  | .error word => Console.finish (.refused s!"Unexpected argument: {word}")
  | .ok o =>
    if o.interactive then
      let (session, opening) := Prompt.Session.start e (o.logging e)
      Console.write opening
      Console.converse session
    else Console.runWords words o e
