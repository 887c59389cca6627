import Scripting.Prompt.Input
import Scripting.Transcript

/-!
The prompt as a session: each line is a command, or a program that runs in one root frame.
-/

set_option autoImplicit false

namespace Scripting.Prompt

structure Session where
  environment : Environment
  logging : Bool
  root : FrameId
  store : Store

namespace Session

def reset (p : Session) : Session × Transcript :=
  let (root, store) := p.store.newRoot (some "")
  ({ p with root, store }, .onlyIf p.logging .logInstalled)

def banner : Transcript := .line "skiff repl: Ctrl-D to exit, / for commands"

def start (environment : Environment) (logging : Bool) : Session × Transcript :=
  let (p, log) := reset ⟨environment, logging, ⟨0⟩, .empty⟩
  (p, log ++ banner)

def setTraceback (p : Session) (on : Bool) : Session :=
  { p with environment.traceback := if on then some "1" else none }

/-- Sets the traceback flag by a word; without one it is turned over. -/
def traceback (p : Session) (argument : String) : Session × Transcript :=
  let word := Environment.lowerFlag argument
  let choice :=
    if word ∈ ["on", "1", "true", "yes"] then some true
    else if word ∈ ["off", "0", "false", "no"] then some false
    else if word = "" then some !p.environment.showsTraceback
    else none
  match choice with
  | none => (p, .complaint "Usage: /py-traceback [on|off]")
  | some true => (p.setTraceback true, .line "Python traceback: on")
  | some false => (p.setTraceback false, .line "Python traceback: off")

def command? (p : Session) (text : String) : Option (Session × Transcript) :=
  if isCommand text then
    let (name, argument) := Text.firstWord (Text.trim text.toList)
    match String.ofList name with
    | "/clear" => some (p, .line "<clear>")
    | "/py-traceback" => some (p.traceback (String.ofList argument))
    | "/reset" =>
      let (p, log) := p.reset
      some (p, log ++ .line "Environment reset.")
    | name => some (p, .complaint s!"Unknown command: {name}")
  else none

/-- What a line leads to; after a crash the session is over. -/
structure Reply where
  session : Session
  transcript : Transcript
  crash : Option Crash

def complain [Host] (p : Session) (t : Transcript) (e : Error) : Reply :=
  match e.crash? with
  | some cause => ⟨p, t, some cause⟩
  | none => ⟨p, t ++ .report p.environment.showsTraceback e, none⟩

/-- Only a value of an expression statement at the end is echoed, and nothing is not. -/
def echoed (program : Node) (v : Value) : Bool :=
  match program.statements.getLast?, v with
  | _, .nothing => false
  | some (.expression _ _), _ => true
  | _, _ => false

def echo [Host] (p : Session) (t : Transcript) (program : Node) (v : Value) : Reply :=
  if echoed program v then
    match p.store.render (some Host.shown) v with
    | some text => ⟨p, t ++ .line text, none⟩
    | none => ⟨p, t, some .recursion⟩
  else ⟨p, t, none⟩

def runProgram [Host] (p : Session) (steps : Nat) (text : String) (program : Node) : Option Reply := do
  let calls := p.environment.maxCallDepth
  let store := p.store.modifyFrame p.root fun f => { f with source := some text }
  let (result, store) ← Program.execute calls steps program p.root store
  let t := .onlyIf p.logging (.logExecuting calls) ++ ⟨store.output, ""⟩
  let p := { p with store := { store with output := "" } }
  match result with
  | .ok v => return p.echo t program v
  | .error e => return p.complain t e

def submit [Host] (p : Session) (steps : Nat) (line : String) : Option Reply :=
  let text := normalize line
  if Text.strip text = "" then some ⟨p, .silent, none⟩
  else
    match p.command? text with
    | some (p, t) => some ⟨p, t, none⟩
    | none =>
      match Program.parse text with
      | .ok program => p.runProgram steps text program
      | .error e => some (p.complain .silent e)

def answer [Host] (p : Session) (steps : Nat) : Option String → Option Reply
  | some line => p.submit steps line
  | none => some ⟨p, .line "KeyboardInterrupt", none⟩

def farewell : Transcript := .line ""

def answers [Host] (p : Session) (steps : Nat) : List (Option String) → Option (List Reply)
  | [] => some [⟨p, farewell, none⟩]
  | line :: lines => do
    let reply ← p.answer steps line
    match reply.crash with
    | some _ => return [reply]
    | none => return reply :: (← reply.session.answers steps lines)

end Session

end Scripting.Prompt
