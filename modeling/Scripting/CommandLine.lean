import Scripting.Prompt.Session

/-!
The command line: its flags, where the source text comes from, and what a run writes and ends with.
-/

set_option autoImplicit false

namespace Scripting.CommandLine

structure Options where
  verbose : Bool
  showResult : Bool
  interactive : Bool
  source : Option String

/-- Flags may stand anywhere; all other words but the first are refused. -/
def Options.ofWords : List String → Options → Except String Options
  | [], o => .ok o
  | word :: words, o =>
    match word with
    | "-v" | "--verbose" => ofWords words { o with verbose := true }
    | "--show-result" => ofWords words { o with showResult := true }
    | "--repl" => ofWords words { o with interactive := true }
    | word =>
      if o.source.isSome then .error word else ofWords words { o with source := some word }

def Options.parse (words : List String) : Except String Options :=
  Options.ofWords words ⟨false, false, false, none⟩

inductive Lookup where
  | file (text : String)
  | directory
  | nameTooLong
  | missing

inductive Ending where
  | exit (code : Nat)
  | refused (message : String)
  | crash (cause : Crash)
  | isDirectory
  | nameTooLong
deriving DecidableEq, Repr

/-- The source text: standard input if no word or a dash is given, the text of a file if the word names
    one, else the word itself. -/
def loadSource (word : Option String) (input : String) (lookup : String → Lookup) :
    Except Ending String :=
  let fromInput := if input = "" then .error (.refused "No input provided on stdin")
    else .ok (Text.withLineFeeds input)
  match word with
  | none | some "-" => fromInput
  | some word =>
    match lookup word with
    | .file text => .ok (Text.withLineFeeds text)
    | .directory => .error .isDirectory
    | .nameTooLong => .error .nameTooLong
    | .missing => .ok word

def Options.logging (o : Options) (environment : Environment) : Bool :=
  o.verbose || environment.logsDetails

def complain [Host] (environment : Environment) (t : Transcript) (e : Error) : Ending × Transcript :=
  match e.crash? with
  | some cause => (.crash cause, t)
  | none => (.exit 1, t ++ .report environment.showsTraceback e)

/-- The result is shown on demand; nothing is never shown. -/
def conclude [Host] (o : Options) (t : Transcript) (s : Store) (v : Value) : Ending × Transcript :=
  match v with
  | .nothing => (.exit 0, t)
  | v =>
    if o.showResult then
      match s.render (some Host.shown) v with
      | some text => (.exit 0, t ++ .line text)
      | none => (.crash .recursion, t)
    else (.exit 0, t)

def runSource [Host] (o : Options) (environment : Environment) (steps : Nat) (source : String) :
    Option (Ending × Transcript) :=
  match Program.parse source with
  | .error e => some (complain environment .silent e)
  | .ok program => do
    let calls := environment.maxCallDepth
    let log := .onlyIf (o.logging environment)
      (.logParsed program.statements.length ++ .logInstalled ++ .logExecuting calls)
    let (root, s) := Store.empty.newRoot (some source)
    let (result, s) ← Program.execute calls steps program root s
    let t := log ++ ⟨s.output, ""⟩
    match result with
    | .ok v => return conclude o t s v
    | .error e => return complain environment t e

def runPrompt [Host] (o : Options) (environment : Environment) (steps : Nat)
    (lines : List (Option String)) : Option (Ending × Transcript) := do
  let (session, opening) := Prompt.Session.start environment (o.logging environment)
  let replies ← session.answers steps lines
  let t := replies.foldl (fun t r => t ++ r.transcript) opening
  match replies.findSome? (·.crash) with
  | some cause => return (.crash cause, t)
  | none => return (.exit 0, t)

structure World where
  environment : Environment
  input : String
  lookup : String → Lookup
  lines : List (Option String)

def run [Host] (world : World) (steps : Nat) (words : List String) : Option (Ending × Transcript) :=
  match Options.parse words with
  | .error word => some (.refused s!"Unexpected argument: {word}", .silent)
  | .ok o =>
    if o.interactive then runPrompt o world.environment steps world.lines
    else
      match loadSource o.source world.input world.lookup with
      | .error ending => some (ending, .silent)
      | .ok source => runSource o world.environment steps source

end Scripting.CommandLine
