import Scripting.Prompt.Session

/-!
What the prompt answers, in one equation for each kind of line.
-/

set_option autoImplicit false

namespace Scripting

namespace Transcript

theorem out_append (t u : Transcript) : (t ++ u).out = t.out ++ u.out := rfl

theorem out_onlyIf_logExecuting (wanted : Bool) (calls : Nat) :
    (onlyIf wanted (logExecuting calls)).out = "" := by
  cases wanted <;> rfl

theorem out_report (traceback : Bool) (e : Error) : (report traceback e).out = "" := by
  unfold report
  split
  · rfl
  · rw [out_append]
    cases traceback && e.isRuntime <;> rfl

end Transcript

namespace Program

variable [Host]

theorem run_of_parse {calls steps : Nat} {source : String} {program : Node} (h : parse source = .ok program)
    (scope : FrameId) (s : Store) :
    run calls steps source scope s = execute calls steps program scope s := by
  rw [run, h]

theorem exists_scan_of_parse {source : String} {program : Node} (h : parse source = .ok program) :
    ∃ tokens, Token.scan source = .ok tokens := by
  unfold parse at h
  cases hscan : Token.scan source with
  | ok tokens => exact ⟨tokens, rfl⟩
  | error e =>
    rw [hscan] at h
    cases h

end Program

def Prompt.isProgramText (text : String) : Bool :=
  Text.strip text ≠ "" && !isCommand text

namespace Prompt.Session

def finish [Host] (p : Session) (t : Transcript) (program : Node) : Except Error Value → Reply
  | .ok v => p.echo t program v
  | .error e => p.complain t e

/-- What is written of a result behind what the program printed. -/
def echoText [Host] (s : Store) (program : Node) : Except Error Value → String
  | .ok v =>
    if echoed program v then ((s.render (some Host.shown) v).map (· ++ "\n")).getD "" else ""
  | .error _ => ""

def entered (p : Session) (text : String) : Store :=
  p.store.modifyFrame p.root fun f => { f with source := some text }

def left (p : Session) (s : Store) : Session :=
  { p with store := { s with output := "" } }

def written (p : Session) (s : Store) : Transcript :=
  .onlyIf p.logging (.logExecuting p.environment.maxCallDepth) ++ ⟨s.output, ""⟩

section Answers

variable [Host] (p : Session) (t : Transcript) (program : Node) (result : Except Error Value)

theorem runProgram_eq (steps : Nat) (text : String) :
    p.runProgram steps text program =
      (Program.execute p.environment.maxCallDepth steps program p.root (p.entered text)).map fun r =>
        (p.left r.2).finish (p.written r.2) program r.1 := by
  unfold runProgram
  cases h : Program.execute p.environment.maxCallDepth steps program p.root (p.entered text) with
  | none =>
    rw [entered] at h
    simp only [h]
    rfl
  | some r =>
    rw [entered] at h
    simp only [h]
    obtain ⟨result, s⟩ := r
    cases result <;> rfl

theorem session_finish : (p.finish t program result).session = p := by
  cases result with
  | ok v =>
    simp only [finish, echo]
    repeat' split
    all_goals rfl
  | error e =>
    simp only [finish, complain]
    split <;> rfl

theorem out_finish : (p.finish t program result).transcript.out = t.out ++ echoText p.store program result := by
  cases result with
  | ok v =>
    simp only [finish, echo, echoText]
    split
    · split
      · rename_i text hrender
        rw [hrender]
        rfl
      · rename_i hrender
        rw [hrender]
        exact String.append_empty.symm
    · exact String.append_empty.symm
  | error e =>
    simp only [finish, complain, echoText]
    split
    · exact String.append_empty.symm
    · rw [Transcript.out_append, Transcript.out_report]

omit [Host] in
theorem out_written (s : Store) : (p.written s).out = s.output := by
  rw [written, Transcript.out_append, Transcript.out_onlyIf_logExecuting, String.empty_append]

end Answers

/-! The texts that the prompt hands to the interpreter. -/

section Texts

variable {p : Session} {steps : Nat} {line : String}

theorem command?_eq_none_iff {text : String} : p.command? text = none ↔ isCommand text = false := by
  unfold command?
  split
  · rename_i hcommand
    dsimp only
    split <;> simp [hcommand]
  · rename_i hcommand
    simpa using hcommand

theorem isProgramText_iff {text : String} :
    isProgramText text ↔ Text.strip text ≠ "" ∧ p.command? text = none := by
  rw [command?_eq_none_iff]
  simp [isProgramText]

variable [Host]

theorem submit_of_parse {program : Node} (h : isProgramText (normalize line))
    (hparse : Program.parse (normalize line) = .ok program) :
    p.submit steps line = p.runProgram steps (normalize line) program := by
  obtain ⟨hblank, hcommand⟩ := (isProgramText_iff (p := p)).1 h
  simp only [submit, if_neg hblank, hcommand, hparse]

theorem submit_of_parse_error {e : Error} (h : isProgramText (normalize line))
    (hparse : Program.parse (normalize line) = .error e) :
    p.submit steps line = some (p.complain .silent e) := by
  obtain ⟨hblank, hcommand⟩ := (isProgramText_iff (p := p)).1 h
  simp only [submit, if_neg hblank, hcommand, hparse]

end Texts

/-! One line before others. -/

section Lines

variable [Host] {p : Session} {steps : Nat} {line : Option String} {r : Reply}

theorem answers_of_crash {cause : Crash} (h : p.answer steps line = some r) (hcrash : r.crash = some cause)
    (lines : List (Option String)) : p.answers steps (line :: lines) = some [r] := by
  simp only [answers, h, Option.bind_eq_bind, Option.bind_some, hcrash]
  rfl

theorem answers_of_reply (h : p.answer steps line = some r) (hcrash : r.crash = none)
    (lines : List (Option String)) :
    p.answers steps (line :: lines) = (r.session.answers steps lines).map (r :: ·) := by
  simp only [answers, h, Option.bind_eq_bind, Option.bind_some, hcrash]
  cases r.session.answers steps lines <;> rfl

end Lines

end Prompt.Session

end Scripting
