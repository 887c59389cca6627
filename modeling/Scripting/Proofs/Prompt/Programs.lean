import Mathlib
import Scripting.Proofs.Evaluation.Sources
import Scripting.Proofs.Prompt.Commands
import Scripting.Proofs.Prompt.Replies

/-!
The prompt as a session of programs. It keeps one root frame, runs each text in it, and writes what the
program printed; only a text that starts with a comment is not run, since the prompt takes it for a command.
-/

set_option autoImplicit false

namespace Scripting

namespace Program

/-- Runs source texts in one frame, each on what the one before it left, whatever its result was. -/
def runAll [Host] (calls steps : Nat) (scope : FrameId) : List String → Store → Option Store
  | [], s => some s
  | source :: sources, s =>
    (run calls steps source scope s).bind fun r => runAll calls steps scope sources r.2

theorem runAll_append [Host] {calls steps : Nat} {scope : FrameId} (sources more : List String) (s : Store) :
    runAll calls steps scope (sources ++ more) s =
      (runAll calls steps scope sources s).bind (runAll calls steps scope more) := by
  induction sources generalizing s with
  | nil => rfl
  | cons source sources ih =>
    rw [List.cons_append, runAll, runAll, Option.bind_assoc]
    simp only [ih]

end Program

namespace Prompt

def programTexts (lines : List String) : List String :=
  (lines.map normalize).filter fun text => !Token.startsWithComment text.toList

theorem programTexts_append (lines more : List String) :
    programTexts (lines ++ more) = programTexts lines ++ programTexts more := by
  rw [programTexts, List.map_append, List.filter_append, programTexts, programTexts]

theorem runAll_programTexts_cons [Host] (calls steps : Nat) (root : FrameId) (line : String) (lines : List String)
    (s : Store) :
    Program.runAll calls steps root (programTexts (line :: lines)) s =
      (Program.runAll calls steps root (programTexts [line]) s).bind
        (Program.runAll calls steps root (programTexts lines)) := by
  rw [← List.singleton_append, programTexts_append, Program.runAll_append]

namespace Session

variable {p : Session} {root : FrameId} {s t : Store} {steps : Nat}

/-- The session has in its root frame what the store has in `root`, and all else is the same as well but
    for sources and what was printed. -/
structure InStep (p : Session) (root : FrameId) (s : Store) : Prop where
  root : p.root = root
  silent : p.store.output = ""
  contents : p.store.contents = s.contents

section Lines

variable [Host]

theorem echoText_of_contents_eq (h : s.contents = t.contents) (program : Node)
    (result : Except Error Value) : echoText s program result = echoText t program result := by
  cases result with
  | ok v => rw [echoText, echoText, Store.render_of_contents_eq h]
  | error e => rfl

theorem InStep.runProgram {program : Node} {result : Except Error Value} (h : p.InStep root s)
    (hrun : Program.execute p.environment.maxCallDepth steps program root s = some (result, t))
    (text : String) :
    ∃ r printed, p.runProgram steps text program = some r ∧ r.session.environment = p.environment ∧
      r.session.InStep root t ∧ t.output = s.output ++ printed ∧
      r.transcript.out = printed ++ echoText t program result := by
  obtain ⟨rfl, hsilent, hcontents⟩ := h
  have hentered : s.contents = (p.entered text).contents :=
    hcontents.symm.trans (Store.contents_modifyFrame_source _ _ _).symm
  obtain ⟨u, printed, hu, hsame, hprinted, hwritten⟩ := Program.execute_of_contents_eq hentered hrun
  have hout : u.output = printed := by
    rw [hwritten]
    exact (congrArg (· ++ printed) hsilent).trans String.empty_append
  refine ⟨_, printed, by rw [runProgram_eq, hu]; rfl, ?_, ?_, hprinted, ?_⟩
  · rw [session_finish]
    rfl
  · rw [session_finish]
    exact ⟨rfl, rfl, hsame.symm⟩
  · have hleft : (p.left u).store.contents = t.contents := hsame.symm
    rw [out_finish, out_written, hout, echoText_of_contents_eq hleft]

/-- The prompt takes the text for a program: it is not blank, and it is accepted. -/
def Accepts (line : String) : Prop :=
  Text.strip (normalize line) ≠ "" ∧ ∃ program, Program.parse (normalize line) = .ok program

/-- How the prompt answers a line that takes a store from `s` to `t`. -/
structure Answers (calls steps : Nat) (root : FrameId) (s t : Store) (line : String) (r : Reply) : Prop where
  comment : Token.startsWithComment (normalize line).toList →
    t = s ∧ r.transcript = .complaint s!"Unknown command: {commandWord (normalize line)}"
  program : ¬Token.startsWithComment (normalize line).toList → ∃ program result printed,
    Program.parse (normalize line) = .ok program ∧
    Program.run calls steps (normalize line) root s = some (result, t) ∧
    t.output = s.output ++ printed ∧ r.transcript.out = printed ++ echoText t program result

theorem submit_of_comment {line : String} (hline : Text.strip (normalize line) ≠ "")
    (h : Token.startsWithComment (normalize line).toList) :
    p.submit steps line =
      some ⟨p, .complaint s!"Unknown command: {commandWord (normalize line)}", none⟩ := by
  simp only [submit, if_neg hline, command?_of_comment p h]

theorem isProgramText_of_accepts {line : String} (hline : Accepts line)
    (h : ¬Token.startsWithComment (normalize line).toList) : isProgramText (normalize line) := by
  obtain ⟨hblank, program, hparse⟩ := hline
  obtain ⟨tokens, hscan⟩ := Program.exists_scan_of_parse hparse
  simp [isProgramText, hblank, isCommand_of_scan hscan, h]

theorem InStep.submit {line : String} (h : p.InStep root s) (hline : Accepts line)
    (hrun : Program.runAll p.environment.maxCallDepth steps root (programTexts [line]) s = some t) :
    ∃ r, p.submit steps line = some r ∧ r.session.environment = p.environment ∧
      r.session.InStep root t ∧ Answers p.environment.maxCallDepth steps root s t line r := by
  by_cases hcomment : Token.startsWithComment (normalize line).toList
  · have htexts : programTexts [line] = [] := by simp [programTexts, hcomment]
    rw [htexts] at hrun
    cases hrun
    exact ⟨_, submit_of_comment hline.1 hcomment, rfl, h, fun _ => ⟨rfl, rfl⟩, fun hnot => absurd hcomment hnot⟩
  · have htext := isProgramText_of_accepts hline hcomment
    obtain ⟨-, program, hparse⟩ := hline
    have htexts : programTexts [line] = [normalize line] := by simp [programTexts, hcomment]
    rw [htexts] at hrun
    obtain ⟨⟨result, u⟩, hresult, hlast⟩ := Option.bind_eq_some_iff.1 hrun
    cases hlast
    have hexecute := hresult
    rw [Program.run_of_parse hparse] at hexecute
    obtain ⟨r, printed, hr, henvironment, hstep, hprinted, hout⟩ := h.runProgram hexecute (normalize line)
    refine ⟨r, (submit_of_parse htext hparse).trans hr, henvironment, hstep, ?_, ?_⟩
    · exact fun hyes => absurd hyes hcomment
    · exact fun _ => ⟨program, result, printed, hparse, hresult, hprinted, hout⟩

theorem InStep.answers {lines : List String} {last : Store} (h : p.InStep root s)
    (hlines : ∀ line ∈ lines, Accepts line)
    (hrun : Program.runAll p.environment.maxCallDepth steps root (programTexts lines) s = some last) :
    ∃ replies, p.answers steps (lines.map some) = some replies ∧
      ((∀ r ∈ replies, r.crash = none) → ∀ earlier line later, lines = earlier ++ line :: later →
        ∃ r u t, replies[earlier.length]? = some r ∧
          Program.runAll p.environment.maxCallDepth steps root (programTexts earlier) s = some u ∧
          Program.runAll p.environment.maxCallDepth steps root (programTexts (earlier ++ [line])) s = some t ∧
          r.session.InStep root t ∧ Answers p.environment.maxCallDepth steps root u t line r) := by
  induction lines generalizing p s with
  | nil =>
    refine ⟨_, rfl, fun _ earlier line later hsplit => ?_⟩
    simp at hsplit
  | cons first lines ih =>
    rw [List.forall_mem_cons] at hlines
    rw [runAll_programTexts_cons] at hrun
    obtain ⟨t, hfirst, hrest⟩ := Option.bind_eq_some_iff.1 hrun
    obtain ⟨r, hr, henvironment, hstep, hanswers⟩ := h.submit hlines.1 hfirst
    rw [← henvironment] at hrest
    have hanswer : p.answer steps (some first) = some r := hr
    -- The other lines are answered only if the first one does not end the session.
    cases hcrash : r.crash with
    | some cause =>
      refine ⟨[r], answers_of_crash hanswer hcrash _, fun hnone => ?_⟩
      rw [hnone r List.mem_cons_self] at hcrash
      cases hcrash
    | none =>
      obtain ⟨replies, hreplies, hmore⟩ := ih hstep hlines.2 hrest
      refine ⟨r :: replies, by rw [List.map_cons, answers_of_reply hanswer hcrash, hreplies]; rfl, ?_⟩
      intro hnone earlier line later hsplit
      rw [List.forall_mem_cons] at hnone
      cases earlier with
      | nil =>
        cases hsplit
        exact ⟨r, s, t, rfl, rfl, hfirst, hstep, hanswers⟩
      | cons _ earlier =>
        cases hsplit
        obtain ⟨r', u, v, hget, hu, hv, hstep', hanswers'⟩ := hmore hnone.2 earlier line later rfl
        rw [henvironment] at hu hv hanswers'
        refine ⟨r', u, v, hget, ?_, ?_, hstep', hanswers'⟩
        · rw [runAll_programTexts_cons, hfirst]
          exact hu
        · rw [List.cons_append, runAll_programTexts_cons, hfirst]
          exact hv

end Lines

theorem InStep.start (environment : Environment) (logging : Bool) (file : Option String) :
    (start environment logging).1.InStep (Store.empty.newRoot file).1 (Store.empty.newRoot file).2 where
  root := rfl
  silent := rfl
  contents := Store.empty.contents_newRoot (some "") file

/-- The prompt runs accepted lines one after the other on what those before them left, failed or not, as they
    would run in a root frame elsewhere. A line that starts with a comment is taken for an unknown command
    instead. -/
theorem prompt_runs_programs [Host] (environment : Environment) (logging : Bool) (file : Option String)
    {steps : Nat} {lines : List String} {last : Store}
    (hlines : ∀ line ∈ lines, Text.strip (normalize line) ≠ "" ∧
      ∃ program, Program.parse (normalize line) = .ok program)
    (hruns : Program.runAll environment.maxCallDepth steps (Store.empty.newRoot file).1
      (programTexts lines) (Store.empty.newRoot file).2 = some last) :
    ∃ replies, (start environment logging).1.answers steps (lines.map some) = some replies ∧
      ((∀ r ∈ replies, r.crash = none) → ∀ earlier line later, lines = earlier ++ line :: later →
        ∃ r s t, replies[earlier.length]? = some r ∧
          Program.runAll environment.maxCallDepth steps (Store.empty.newRoot file).1
            (programTexts earlier) (Store.empty.newRoot file).2 = some s ∧
          Program.runAll environment.maxCallDepth steps (Store.empty.newRoot file).1
            (programTexts (earlier ++ [line])) (Store.empty.newRoot file).2 = some t ∧
          r.session.root = (Store.empty.newRoot file).1 ∧
          (r.session.store.frame r.session.root).vars = (t.frame (Store.empty.newRoot file).1).vars ∧
          r.session.store.contents = t.contents ∧
          (∀ result u, Program.run environment.maxCallDepth steps (normalize line)
              (Store.empty.newRoot file).1 s = some (result, u) →
            (r.session.store.contents = u.contents ↔
              ¬Token.startsWithComment (normalize line).toList ∨ s.contents = u.contents)) ∧
          (Token.startsWithComment (normalize line).toList →
            t = s ∧ r.transcript = .complaint s!"Unknown command: {commandWord (normalize line)}") ∧
          (¬Token.startsWithComment (normalize line).toList → ∃ program result printed,
            Program.parse (normalize line) = .ok program ∧
            Program.run environment.maxCallDepth steps (normalize line) (Store.empty.newRoot file).1 s =
              some (result, t) ∧
            t.output = s.output ++ printed ∧ r.transcript.out = printed ++ echoText t program result)) := by
  obtain ⟨replies, hreplies, hmore⟩ := (InStep.start environment logging file).answers hlines hruns
  refine ⟨replies, hreplies, fun hnone earlier line later hsplit => ?_⟩
  obtain ⟨r, s, t, hget, hs, ht, hstep, hanswers⟩ := hmore hnone earlier line later hsplit
  refine ⟨r, s, t, hget, hs, ht, hstep.root, ?_, hstep.contents, fun result u hrun => ?_,
    hanswers.comment, hanswers.program⟩
  · rw [hstep.root]
    exact Store.vars_of_contents_eq hstep.contents _
  · rw [hstep.contents]
    by_cases hcomment : Token.startsWithComment (normalize line).toList
    · rw [(hanswers.comment hcomment).1]
      simp [hcomment]
    · obtain ⟨program, result', printed, -, hrun', -⟩ := hanswers.program hcomment
      cases hrun.symm.trans hrun'
      exact iff_of_true rfl (.inl hcomment)

theorem prompt_runs_programs_after_failure :
    ∃ replies r s t,
      (start ⟨none, none, none⟩ false).1.answers 300
        [some "var a = [1]; a.push(2); a[9];", some "// c\nvar a = 3;", some "a;"] = some replies ∧
      replies[2]? = some r ∧
      Program.runAll 10000 300 (Store.empty.newRoot none).1
        (programTexts ["var a = [1]; a.push(2); a[9];", "// c\nvar a = 3;"]) (Store.empty.newRoot none).2 =
          some s ∧
      Program.runAll 10000 300 (Store.empty.newRoot none).1
        (programTexts ["var a = [1]; a.push(2); a[9];", "// c\nvar a = 3;", "a;"])
        (Store.empty.newRoot none).2 = some t ∧
      (r.session.store.frame r.session.root).vars = (t.frame (Store.empty.newRoot none).1).vars ∧
      ∃ program result printed, Program.parse "a;" = .ok program ∧
        t.output = s.output ++ printed ∧ r.transcript.out = printed ++ echoText t program result := by
  obtain ⟨last, hruns⟩ :
      ∃ last, Program.runAll (Environment.mk none none none).maxCallDepth 300 (Store.empty.newRoot none).1
        (programTexts ["var a = [1]; a.push(2); a[9];", "// c\nvar a = 3;", "a;"])
        (Store.empty.newRoot none).2 = some last := ⟨_, by cbv⟩
  have hlines : ∀ line ∈ ["var a = [1]; a.push(2); a[9];", "// c\nvar a = 3;", "a;"],
      Text.strip (normalize line) ≠ "" ∧ ∃ program, Program.parse (normalize line) = .ok program := by
    simp only [List.forall_mem_cons]
    exact ⟨⟨by decide, _, by cbv⟩, ⟨by decide, _, by cbv⟩, ⟨by decide, _, by cbv⟩, List.forall_mem_nil _⟩
  have hkept : ((start ⟨none, none, none⟩ false).1.answers 300
      (["var a = [1]; a.push(2); a[9];", "// c\nvar a = 3;", "a;"].map some)).any
      (fun replies => replies.all fun r => r.crash = none) = true := by decide +kernel
  obtain ⟨replies, hreplies, hmore⟩ := prompt_runs_programs ⟨none, none, none⟩ false none hlines hruns
  have hnone : ∀ r ∈ replies, r.crash = none := by
    rw [hreplies] at hkept
    simpa using hkept
  obtain ⟨r, s, t, hr, hs, ht, -, hvars, -, -, -, hprogram⟩ :=
    hmore hnone ["var a = [1]; a.push(2); a[9];", "// c\nvar a = 3;"] "a;" [] rfl
  obtain ⟨program, result, printed, hparse, -, hprinted, hout⟩ := hprogram (by decide)
  exact ⟨_, r, s, t, hreplies, hr, hs, ht, hvars, program, result, printed, hparse, hprinted, hout⟩

/-- A program that binds a name behind a comment binds it where it is run, but not at the prompt. -/
theorem prompt_skips_commented_program :
    ∃ v s r farewell, Text.strip (normalize "// c\nvar x = 1;") ≠ "" ∧
      Program.run 10000 100 (normalize "// c\nvar x = 1;") (Store.empty.newRoot none).1
        (Store.empty.newRoot none).2 = some (.ok v, s) ∧
      (s.frame (Store.empty.newRoot none).1).vars.get? "x" = some (.number 1) ∧
      (start ⟨none, none, none⟩ false).1.answers 100 [some "// c\nvar x = 1;"] = some [r, farewell] ∧
      r.crash = none ∧ (r.session.store.frame r.session.root).vars.get? "x" = none :=
  ⟨_, _, _, _, by decide, by cbv, by cbv, by cbv, by cbv, by cbv⟩

end Session

end Prompt

end Scripting
