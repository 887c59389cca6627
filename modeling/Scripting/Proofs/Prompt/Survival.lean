import Scripting.Proofs.Evaluation.Legible
import Scripting.Proofs.Evaluation.Sources
import Scripting.Proofs.Prompt.Replies
import Scripting.Proofs.Store.Nesting
import Scripting.Proofs.Token.Tiling

/-!
What ends a session at the prompt. A program that was read does not while it runs, whatever was run before
it, unless it prints a value for which the host's stack runs over; what is left are numerals that are too
long to be read, and values that are to be shown but are nested too deeply. All other errors are reported,
and the prompt goes on with what the program has left.
-/

set_option autoImplicit false

namespace Scripting

/-! Soundness does not depend on sources and printed text. -/

namespace Store

variable {P : Policy} {s t : Store}

theorem holds_contents {v : Value} : s.contents.Holds v ↔ s.Holds v := by
  constructor
  · intro h
    cases h with
    | binding h =>
      rw [frame_contents] at h
      exact .binding h
    | item h => exact .item h
    | field h => exact .field h
  · intro h
    cases h with
    | @binding f e h =>
      refine .binding (f := f) ?_
      rw [frame_contents]
      exact h
    | @item a v h => exact .item (a := a) h
    | @field r e h => exact .field (r := r) h

theorem size_frames_contents (s : Store) : s.contents.frames.size = s.frames.size :=
  Array.size_map

theorem in_contents {ref : Ref} : ref.In s.contents ↔ ref.In s := by
  cases ref with
  | frame f => rw [Ref.In, size_frames_contents, Ref.In]
  | array a => rfl
  | record r => rfl

theorem sound_contents : s.contents.Sound P ↔ s.Sound P := by
  constructor
  · intro h
    refine ⟨fun f p hp => h.parent_lt f p ?_, fun v hv => ?_⟩
    · rw [frame_contents]
      exact hp
    · have hfits := h.fits v (holds_contents.2 hv)
      exact ⟨fun ref hr => in_contents.1 (hfits.refs ref hr), hfits.obeys⟩
  · intro h
    refine ⟨fun f p hp => h.parent_lt f p ?_, fun v hv => ?_⟩
    · rw [frame_contents] at hp
      exact hp
    · have hfits := h.fits v (holds_contents.1 hv)
      exact ⟨fun ref hr => in_contents.2 (hfits.refs ref hr), hfits.obeys⟩

theorem Sound.of_contents_eq (h : s.Sound P) (heq : s.contents = t.contents) : t.Sound P :=
  sound_contents.1 (heq ▸ sound_contents.2 h)

theorem size_frames_of_contents_eq (heq : s.contents = t.contents) : s.frames.size = t.frames.size := by
  rw [← size_frames_contents, heq, size_frames_contents]

end Store

namespace Token

/-- Where the reading of the text comes to a numeral, it has more digits than can be read. -/
def HasLongNumeral (source : String) : Prop :=
  ∃ read digits rest tiles, source.toList = read ++ (digits ++ rest) ∧ Tiled read (digits ++ rest) tiles ∧
    (∀ d ∈ digits, d.isDigit) ∧ Text.maxDigits < digits.length

theorem scan_eq_tooManyDigits_iff {source : String} :
    scan source = .error .tooManyDigits ↔ HasLongNumeral source := by
  rw [scan_eq_error_iff]
  constructor
  · rintro ⟨read, _, tiles, hsource, ht, hfaulty⟩
    cases hfaulty with
    | @numeral digits rest hdigits hlength stop =>
      exact ⟨read, digits, rest, tiles, hsource, ht, hdigits, hlength⟩
  · rintro ⟨read, digits, rest, tiles, hsource, ht, hdigits, hlength⟩
    -- the numeral goes on as long as there are digits
    obtain ⟨more, rest, rfl, hmore, hstop⟩ := exists_run Char.isDigit rest
    rw [← List.append_assoc digits] at hsource ht
    refine ⟨read, digits ++ more ++ rest, tiles, hsource, ht, .numeral ?_ ?_ hstop⟩
    · exact List.forall_mem_append.2 ⟨hdigits, hmore⟩
    · rw [List.length_append]
      omega

end Token

theorem Error.crash?_eq_some_iff [Host] {e : Error} {cause : Crash} :
    e.crash? = some cause ↔ e = .crash cause ∨ cause = .overflow ∧
      ∃ levels place, e = .runtime ⟨.textDepth (some levels), place⟩ ∧ Host.notices levels = false := by
  unfold crash?
  split
  · simp
  · rename_i levels place
    cases hnotices : Host.notices levels with
    | true => simp [hnotices]
    | false =>
      constructor
      · intro h
        obtain rfl := Option.some.inj h
        exact .inr ⟨rfl, levels, place, rfl, hnotices⟩
      · rintro (h | ⟨rfl, -⟩)
        · cases h
        · rfl
  · rename_i hcrash hdepth
    refine iff_of_false nofun ?_
    rintro (rfl | ⟨-, levels, place, rfl, -⟩)
    · exact hcrash cause rfl
    · exact hdepth levels place rfl

namespace Program

variable [Host]

theorem parse_of_scan {source : String} {tokens : List Token} (h : Token.scan source = .ok tokens) :
    parse source = (Grammar.program Host.grammar tokens).mapError .syntactic := by
  rw [parse, h]
  rfl

theorem parse_of_scan_error {source : String} {e : ScanError} (h : Token.scan source = .error e) :
    parse source = .error (.ofScan e) := by
  rw [parse, h]
  rfl

theorem parse_error_cases {source : String} {e : Error} (h : parse source = .error e) :
    e = .crash .unreadable ∧ Token.HasLongNumeral source ∨
      ∃ message, e.message? = some message := by
  cases hscan : Token.scan source with
  | ok tokens =>
    rw [parse_of_scan hscan] at h
    cases hprogram : Grammar.program Host.grammar tokens with
    | ok program =>
      rw [hprogram] at h
      cases h
    | error e' =>
      rw [hprogram] at h
      cases h
      exact .inr ⟨_, rfl⟩
  | error e' =>
    rw [parse_of_scan_error hscan] at h
    cases h
    cases e' with
    | tooManyDigits => exact .inl ⟨rfl, Token.scan_eq_tooManyDigits_iff.1 hscan⟩
    | _ => exact .inr ⟨_, rfl⟩

theorem execute_keeps_legible {calls steps : Nat} {program : Node} {scope : FrameId} {s t : Store}
    {result : Except Error Value} (hlimit : nesting calls ≤ maxNesting) (hp : Accepted program)
    (hs : s.Sound .legible) (hscope : scope.index < s.frames.size)
    (h : execute calls steps program scope s = some (result, t)) :
    t.Sound .legible ∧ scope.index < t.frames.size ∧ IsOrdinary result := by
  rw [execute, if_neg (Nat.not_lt.2 hlimit)] at h
  obtain ⟨⟨out, u⟩, hrun, heq⟩ := Option.map_eq_some_iff.1 h
  cases heq
  obtain ⟨fuel, heval⟩ := Machine.evaluate_iff.1 ⟨steps, hrun⟩
  obtain ⟨source, hparse⟩ := hp
  obtain ⟨he, hsound, hout⟩ :=
    Activation.eval_keeps hs ⟨hscope, legible_of_parse hparse⟩ heval
  exact ⟨hsound, Nat.lt_of_lt_of_le hscope he.frames_size, isOrdinary_result hout.isOrdinary⟩

section Run

variable {calls steps : Nat} {source : String} {scope : FrameId} {s t : Store} {result : Except Error Value}

theorem run_of_parse_error {e : Error} (h : parse source = .error e) (calls steps : Nat) (scope : FrameId)
    (s : Store) : run calls steps source scope s = some (.error e, s) := by
  rw [run, h]

theorem run_of_long_numeral (h : Token.HasLongNumeral source) (calls steps : Nat) (scope : FrameId)
    (s : Store) : run calls steps source scope s = some (.error (.crash .unreadable), s) :=
  run_of_parse_error (parse_of_scan_error (Token.scan_eq_tooManyDigits_iff.2 h)) calls steps scope s

theorem run_keeps_legible (hlimit : nesting calls ≤ maxNesting) (hs : s.Sound .legible)
    (hscope : scope.index < s.frames.size) (h : run calls steps source scope s = some (result, t)) :
    t.Sound .legible ∧ scope.index < t.frames.size := by
  cases hparse : parse source with
  | error e =>
    rw [run_of_parse_error hparse] at h
    cases h
    exact ⟨hs, hscope⟩
  | ok program =>
    rw [run_of_parse hparse] at h
    obtain ⟨ht, hlt, -⟩ := execute_keeps_legible hlimit (.of_parse hparse) hs hscope h
    exact ⟨ht, hlt⟩

theorem run_error_cases {e : Error} (hlimit : nesting calls ≤ maxNesting) (hs : s.Sound .legible)
    (hscope : scope.index < s.frames.size) (h : run calls steps source scope s = some (.error e, t)) :
    e = .crash .unreadable ∧ Token.HasLongNumeral source ∨
      ∃ message, e.message? = some message := by
  cases hparse : parse source with
  | error e' =>
    rw [run_of_parse_error hparse] at h
    cases h
    exact parse_error_cases hparse
  | ok program =>
    rw [run_of_parse hparse] at h
    obtain ⟨-, -, hordinary⟩ := execute_keeps_legible hlimit (.of_parse hparse) hs hscope h
    cases e with
    | runtime failure => exact .inr ⟨_, rfl⟩
    | _ => exact hordinary.elim

/-- A source with the result ends the host: a numeral is too long, or a value is printed for which the stack
    runs over. -/
inductive Breaks (source : String) : Except Error Value → Crash → Prop where
  | numeral {result : Except Error Value} (h : Token.HasLongNumeral source) : Breaks source result .unreadable
  | printed {levels : Nat} {place : Option Place} (h : Host.notices levels = false) :
      Breaks source (.error (.runtime ⟨.textDepth (some levels), place⟩)) .overflow

theorem breaks_iff (hlimit : nesting calls ≤ maxNesting) (hs : s.Sound .legible)
    (hscope : scope.index < s.frames.size) (h : run calls steps source scope s = some (result, t))
    (cause : Crash) : Breaks source result cause ↔ ∃ e, result = .error e ∧ e.crash? = some cause := by
  constructor
  · intro hbreaks
    cases hbreaks with
    | numeral hlong =>
      rw [run_of_long_numeral hlong] at h
      cases h
      exact ⟨_, rfl, rfl⟩
    | printed hnotices => exact ⟨_, rfl, Error.crash?_eq_some_iff.2 (.inr ⟨rfl, _, _, rfl, hnotices⟩)⟩
  · rintro ⟨e, rfl, hcrash⟩
    rcases Error.crash?_eq_some_iff.1 hcrash with rfl | ⟨rfl, levels, place, rfl, hnotices⟩
    · rcases run_error_cases hlimit hs hscope h with ⟨heq, hlong⟩ | ⟨_, hmessage⟩
      · cases heq
        exact .numeral hlong
      · cases hmessage
    · exact .printed hnotices

theorem exists_message {e : Error} (hlimit : nesting calls ≤ maxNesting) (hs : s.Sound .legible)
    (hscope : scope.index < s.frames.size) (h : run calls steps source scope s = some (.error e, t))
    (hcrash : e.crash? = none) : ∃ message, e.message? = some message := by
  rcases run_error_cases hlimit hs hscope h with ⟨rfl, -⟩ | hmessage
  · cases hcrash
  · exact hmessage

end Run

end Program

namespace Transcript

/-- The message of an error stands on standard error, perhaps between other texts. -/
def Reports (t : Transcript) (message : String) : Prop :=
  ∃ log more, t.err = log ++ ("Error: " ++ message ++ "\n") ++ more

theorem Reports.append (t : Transcript) {u : Transcript} {message : String} (h : u.Reports message) :
    (t ++ u).Reports message := by
  obtain ⟨log, more, hu⟩ := h
  refine ⟨t.err ++ log, more, ?_⟩
  change t.err ++ u.err = _
  rw [hu]
  simp only [String.append_assoc]

theorem Reports.report (traceback : Bool) {e : Error} {message : String} (h : e.message? = some message) :
    (Transcript.report traceback e).Reports message := by
  refine ⟨"", (onlyIf (traceback && e.isRuntime) ⟨"", "\nPython traceback:\n<traceback>\n"⟩).err, ?_⟩
  simp only [Transcript.report, h]
  rw [String.empty_append]
  rfl

end Transcript

namespace Prompt

namespace Session

variable {p : Session}

theorem traceback_cases (p : Session) (argument : String) :
    (p.traceback argument).1 = p ∨ ∃ on, (p.traceback argument).1 = p.setTraceback on := by
  unfold traceback
  dsimp only
  split
  · exact .inl rfl
  · exact .inr ⟨true, rfl⟩
  · exact .inr ⟨false, rfl⟩

theorem command?_cases {text : String} {q : Session} {t : Transcript} (h : p.command? text = some (q, t)) :
    q = p ∨ (∃ on, q = p.setTraceback on) ∨ q = p.reset.1 := by
  unfold command? at h
  split at h
  · dsimp only at h
    split at h
    · cases h
      exact .inl rfl
    · obtain rfl := congrArg Prod.fst (Option.some.inj h)
      exact (traceback_cases p _).imp_right .inl
    · cases h
      exact .inr (.inr rfl)
    · cases h
      exact .inl rfl
  · cases h

/-- Every program that the prompt has read so far kept to the rules, and the host grants what it asks for. -/
structure Orderly (p : Session) : Prop where
  sound : p.store.Sound .legible
  root_lt : p.root.index < p.store.frames.size
  limit : Program.nesting p.environment.maxCallDepth ≤ Program.maxNesting

theorem Orderly.reset (hsound : p.store.Sound .legible)
    (hlimit : Program.nesting p.environment.maxCallDepth ≤ Program.maxNesting) : p.reset.1.Orderly := by
  refine ⟨?_, Store.newRoot_lt _ _, hlimit⟩
  exact (hsound.newFrame (by simp)).install _ Policy.legible_hosts

theorem Orderly.start {environment : Environment}
    (hlimit : Program.nesting environment.maxCallDepth ≤ Program.maxNesting) (logging : Bool) :
    (start environment logging).1.Orderly :=
  Orderly.reset (p := ⟨environment, logging, ⟨0⟩, .empty⟩) Store.Sound.empty hlimit

variable [Host]

def runLine (p : Session) (steps : Nat) (line : String) : Option (Except Error Value × Store) :=
  Program.run p.environment.maxCallDepth steps (normalize line) p.root p.store

/-- The session is over with the line: its text ends the host, or its value is to be shown and is nested too
    deeply. -/
inductive Fatal (p : Session) (steps : Nat) (line : String) : Crash → Prop where
  | text {result : Except Error Value} {s : Store} {cause : Crash}
      (hrun : p.runLine steps line = some (result, s)) (h : Program.Breaks (normalize line) result cause) :
      Fatal p steps line cause
  | value {program : Node} {v : Value} {s : Store} (hparse : Program.parse (normalize line) = .ok program)
      (hrun : p.runLine steps line = some (.ok v, s)) (hecho : echoed program v)
      (hdeep : s.Deep Host.shown v) : Fatal p steps line .recursion

variable {steps : Nat} {line : String} {result : Except Error Value} {s : Store}

theorem submit_of_runLine (h : isProgramText (normalize line))
    (hrun : p.runLine steps line = some (result, s)) :
    ∃ q t program, p.submit steps line = some (finish q t program result) ∧
      q.environment = p.environment ∧ q.root = p.root ∧ q.store.contents = s.contents ∧
      ∀ v, result = .ok v → Program.parse (normalize line) = .ok program := by
  unfold runLine at hrun
  cases hparse : Program.parse (normalize line) with
  | error e =>
    rw [Program.run_of_parse_error hparse] at hrun
    cases hrun
    refine ⟨p, .silent, .sequence [] none, submit_of_parse_error h hparse, rfl, rfl, rfl, ?_⟩
    rintro v ⟨⟩
  | ok program =>
    rw [Program.run_of_parse hparse] at hrun
    have hentered : p.store.contents = (p.entered (normalize line)).contents :=
      (Store.contents_modifyFrame_source _ _ _).symm
    obtain ⟨u, printed, hu, hsame, -, -⟩ := Program.execute_of_contents_eq hentered hrun
    refine ⟨p.left u, p.written u, program, ?_, rfl, rfl, hsame.symm, fun _ _ => rfl⟩
    rw [submit_of_parse h hparse, runProgram_eq, hu]
    rfl

theorem crash_finish (q : Session) (t : Transcript) (program : Node) {cause : Crash} :
    (q.finish t program result).crash = some cause ↔ (∃ e, result = .error e ∧ e.crash? = some cause) ∨
      cause = .recursion ∧ ∃ v, result = .ok v ∧ echoed program v ∧
        q.store.render (some Host.shown) v = none := by
  cases result with
  | error e =>
    unfold finish complain
    cases hcrash : e.crash? with
    | some other => simp [hcrash]
    | none => simp [hcrash]
  | ok v =>
    unfold finish echo
    dsimp only
    split
    · rename_i hecho
      cases hrender : q.store.render (some Host.shown) v with
      | some text =>
        refine iff_of_false (by simp) ?_
        rintro (⟨e, heq, -⟩ | ⟨-, w, heq, -, hnone⟩)
        · cases heq
        · cases heq
          rw [hrender] at hnone
          cases hnone
      | none =>
        constructor
        · rintro ⟨⟩
          exact .inr ⟨rfl, v, rfl, hecho, hrender⟩
        · rintro (⟨e, heq, -⟩ | ⟨rfl, -⟩)
          · cases heq
          · rfl
    · rename_i hecho
      refine iff_of_false (by simp) ?_
      rintro (⟨e, heq, -⟩ | ⟨-, w, heq, hecho', -⟩)
      · cases heq
      · cases heq
        exact hecho hecho'

theorem reports_finish (q : Session) (t : Transcript) (program : Node) {e : Error} {message : String}
    (hcrash : e.crash? = none) (h : e.message? = some message) :
    (q.finish t program (.error e)).transcript.Reports message := by
  have hreport : (q.finish t program (.error e)).transcript = t ++ .report q.environment.showsTraceback e := by
    simp only [finish, complain, hcrash]
  rw [hreport]
  exact .append t (.report _ h)

theorem Orderly.crash_iff (hp : p.Orderly) (h : isProgramText (normalize line))
    (hrun : p.runLine steps line = some (result, s)) {r : Reply} (hr : p.submit steps line = some r)
    (cause : Crash) : r.crash = some cause ↔ p.Fatal steps line cause := by
  obtain ⟨q, t, program, hq, henvironment, hroot, hcontents, hparse⟩ := submit_of_runLine h hrun
  obtain rfl := Option.some.inj (hr.symm.trans hq)
  rw [crash_finish, ← Program.breaks_iff hp.limit hp.sound hp.root_lt hrun]
  constructor
  · rintro (hbreaks | ⟨rfl, v, rfl, hecho, hrender⟩)
    · exact .text hrun hbreaks
    · rw [Store.render_of_contents_eq hcontents, Store.render_eq_none_iff] at hrender
      exact .value (hparse v rfl) hrun hecho hrender
  · intro hfatal
    cases hfatal with
    | text hrun' hbreaks =>
      obtain ⟨rfl, rfl⟩ := Prod.mk.inj (Option.some.inj (hrun.symm.trans hrun'))
      exact .inl hbreaks
    | @value program' v u hparse' hrun' hecho hdeep =>
      obtain ⟨rfl, rfl⟩ := Prod.mk.inj (Option.some.inj (hrun.symm.trans hrun'))
      obtain rfl := Except.ok.inj ((hparse v rfl).symm.trans hparse')
      refine .inr ⟨rfl, v, rfl, hecho, ?_⟩
      rwa [Store.render_of_contents_eq hcontents, Store.render_eq_none_iff]

theorem exists_runLine {program : Node} {r : Reply} (hparse : Program.parse (normalize line) = .ok program)
    (hr : p.runProgram steps (normalize line) program = some r) :
    ∃ result s, p.runLine steps line = some (result, s) := by
  rw [runProgram_eq] at hr
  obtain ⟨⟨result, u⟩, hu, -⟩ := Option.map_eq_some_iff.1 hr
  obtain ⟨s, printed, hs, -⟩ :=
    Program.execute_of_contents_eq (Store.contents_modifyFrame_source _ _ _) hu
  exact ⟨result, s, (Program.run_of_parse hparse _ _).trans hs⟩

theorem submit_of_not_isProgramText (steps : Nat) (h : ¬isProgramText (normalize line)) :
    ∃ r, p.submit steps line = some r ∧ r.crash = none ∧
      (r.session = p ∨ (∃ on, r.session = p.setTraceback on) ∨ r.session = p.reset.1) := by
  unfold submit
  dsimp only
  split
  · exact ⟨_, rfl, rfl, .inl rfl⟩
  · rename_i hblank
    cases hcommand : p.command? (normalize line) with
    | some reply => exact ⟨_, rfl, rfl, command?_cases hcommand⟩
    | none => exact absurd (isProgramText_iff.2 ⟨hblank, hcommand⟩) h

theorem submit_cases {r : Reply} (hr : p.submit steps line = some r) :
    (isProgramText (normalize line) ∧ ∃ result s, p.runLine steps line = some (result, s)) ∨
      r.crash = none ∧ (r.session = p ∨ (∃ on, r.session = p.setTraceback on) ∨ r.session = p.reset.1) := by
  by_cases htext : isProgramText (normalize line)
  · refine .inl ⟨htext, ?_⟩
    cases hparse : Program.parse (normalize line) with
    | error e => exact ⟨.error e, p.store, Program.run_of_parse_error hparse _ _ _ _⟩
    | ok program => exact exists_runLine hparse ((submit_of_parse htext hparse).symm.trans hr)
  · obtain ⟨r', hr', hcases⟩ := submit_of_not_isProgramText (p := p) steps htext
    obtain rfl := Option.some.inj (hr.symm.trans hr')
    exact .inr hcases

theorem unfinished_of_submit (hr : p.submit steps line = none) :
    isProgramText (normalize line) ∧ p.runLine steps line = none := by
  by_cases htext : isProgramText (normalize line)
  · refine ⟨htext, ?_⟩
    cases hrun : p.runLine steps line with
    | none => rfl
    | some r =>
      obtain ⟨q, t, program, hq, -⟩ := submit_of_runLine htext hrun
      rw [hr] at hq
      cases hq
  · obtain ⟨r, hr', -⟩ := submit_of_not_isProgramText (p := p) steps htext
    rw [hr] at hr'
    cases hr'

theorem Orderly.submit (hp : p.Orderly) {r : Reply} (hr : p.submit steps line = some r) :
    r.session.Orderly := by
  rcases submit_cases hr with ⟨h, result, s, hrun⟩ | ⟨-, heq | ⟨on, heq⟩ | heq⟩
  · obtain ⟨q, t, program, hq, henvironment, hroot, hcontents, -⟩ := submit_of_runLine h hrun
    obtain rfl := Option.some.inj (hr.symm.trans hq)
    obtain ⟨hsound, hlt⟩ := Program.run_keeps_legible hp.limit hp.sound hp.root_lt hrun
    rw [session_finish]
    refine ⟨hsound.of_contents_eq hcontents.symm, ?_, ?_⟩
    · rw [hroot, Store.size_frames_of_contents_eq hcontents]
      exact hlt
    · rw [henvironment]
      exact hp.limit
  · rw [heq]
    exact hp
  · rw [heq]
    exact ⟨hp.sound, hp.root_lt, hp.limit⟩
  · rw [heq]
    exact Orderly.reset hp.sound hp.limit

/-- The second session comes after lines and interrupts that the first one has answered, and none of them
    has ended it. -/
inductive Reaches : Session → Session → Prop where
  | refl (p : Session) : Reaches p p
  | answer {p q : Session} {steps : Nat} {input : Option String} {r : Reply}
      (hr : p.answer steps input = some r) (hcrash : r.crash = none) (h : Reaches r.session q) : Reaches p q

theorem Orderly.answer (hp : p.Orderly) {input : Option String} {r : Reply}
    (hr : p.answer steps input = some r) : r.session.Orderly := by
  cases input with
  | none =>
    cases hr
    exact hp
  | some line =>
    have hsubmit : p.submit steps line = some r := hr
    exact hp.submit hsubmit

theorem Orderly.reaches {q : Session} (hp : p.Orderly) (h : p.Reaches q) : q.Orderly := by
  induction h with
  | refl => exact hp
  | answer hr _ _ ih => exact ih (hp.answer hr)

theorem Orderly.fatal_of_crash (hp : p.Orderly) {input : Option String} {r : Reply} {cause : Crash}
    (hr : p.answer steps input = some r) (hcrash : r.crash = some cause) :
    ∃ line, input = some line ∧ isProgramText (normalize line) ∧ p.Fatal steps line cause := by
  cases input with
  | none =>
    cases hr
    cases hcrash
  | some line =>
    have hsubmit : p.submit steps line = some r := hr
    rcases submit_cases hsubmit with ⟨htext, result, s, hrun⟩ | ⟨hnone, -⟩
    · exact ⟨line, rfl, htext, (hp.crash_iff htext hrun hsubmit cause).1 hcrash⟩
    · rw [hnone] at hcrash
      cases hcrash

theorem Orderly.answers (hp : p.Orderly) {lines : List (Option String)} {replies : List Reply}
    (h : p.answers steps lines = some replies) :
    (replies.length = lines.length + 1 ∧ ∀ r ∈ replies, r.crash = none) ∨
      ∃ earlier line later q cause, lines = earlier ++ some line :: later ∧
        replies.length = earlier.length + 1 ∧ p.Reaches q ∧ isProgramText (normalize line) ∧
        q.Fatal steps line cause := by
  induction lines generalizing p replies with
  | nil =>
    cases h
    exact .inl ⟨rfl, by simp⟩
  | cons input lines ih =>
    cases hanswer : p.answer steps input with
    | none =>
      rw [Session.answers, hanswer] at h
      cases h
    | some r =>
      cases hcrash : r.crash with
      | some cause =>
        rw [answers_of_crash hanswer hcrash] at h
        cases h
        obtain ⟨line, rfl, htext, hfatal⟩ := hp.fatal_of_crash hanswer hcrash
        exact .inr ⟨[], line, lines, p, cause, rfl, rfl, .refl p, htext, hfatal⟩
      | none =>
        rw [answers_of_reply hanswer hcrash] at h
        obtain ⟨rest, hrest, rfl⟩ := Option.map_eq_some_iff.1 h
        rcases ih (hp.answer hanswer) hrest with
          ⟨hlength, hnone⟩ | ⟨earlier, line, later, q, cause, rfl, hlength, hreach, hfatal⟩
        · exact .inl ⟨congrArg (· + 1) hlength, List.forall_mem_cons.2 ⟨hcrash, hnone⟩⟩
        · exact .inr ⟨input :: earlier, line, later, q, cause, rfl, congrArg (· + 1) hlength,
            .answer hanswer hcrash hreach, hfatal⟩

theorem unfinished_of_answers {lines : List (Option String)} (h : p.answers steps lines = none) :
    ∃ earlier line later q, lines = earlier ++ some line :: later ∧ p.Reaches q ∧
      isProgramText (normalize line) ∧ q.runLine steps line = none := by
  induction lines generalizing p with
  | nil => cases h
  | cons input lines ih =>
    cases hanswer : p.answer steps input with
    | none =>
      cases input with
      | none => cases hanswer
      | some line =>
        have hsubmit : p.submit steps line = none := hanswer
        exact ⟨[], line, lines, p, rfl, .refl p, unfinished_of_submit hsubmit⟩
    | some r =>
      cases hcrash : r.crash with
      | some cause =>
        rw [answers_of_crash hanswer hcrash] at h
        cases h
      | none =>
        rw [answers_of_reply hanswer hcrash, Option.map_eq_none_iff] at h
        obtain ⟨earlier, line, later, q, rfl, hreach, hline⟩ := ih h
        exact ⟨input :: earlier, line, later, q, rfl, .answer hanswer hcrash hreach, hline⟩

/-- The reply to a line whose program ends with the result and leaves the store. -/
structure Replied (q : Session) (steps : Nat) (line : String) (result : Except Error Value) (s : Store)
    (r : Reply) : Prop where
  root : r.session.root = q.root
  contents : r.session.store.contents = s.contents
  crash_iff (cause : Crash) : r.crash = some cause ↔ q.Fatal steps line cause
  reports {e : Error} : result = .error e → r.crash = none →
    ∃ message, e.message? = some message ∧ r.transcript.Reports message

/-- How a session goes on from its start: all lines are answered and then the end of input, or the last answer
    is to a fatal line. -/
structure Survives (p : Session) (steps : Nat) : Prop where
  answered {lines : List (Option String)} {replies : List Reply} : p.answers steps lines = some replies →
    (replies.length = lines.length + 1 ∧ ∀ r ∈ replies, r.crash = none) ∨
    ∃ earlier line later q cause, lines = earlier ++ some line :: later ∧
      replies.length = earlier.length + 1 ∧ p.Reaches q ∧ isProgramText (normalize line) ∧
      q.Fatal steps line cause
  unfinished {lines : List (Option String)} : p.answers steps lines = none →
    ∃ earlier line later q, lines = earlier ++ some line :: later ∧ p.Reaches q ∧
      isProgramText (normalize line) ∧ q.runLine steps line = none
  replied {q : Session} {line : String} {result : Except Error Value} {s : Store} : p.Reaches q →
    isProgramText (normalize line) → q.runLine steps line = some (result, s) →
    ∃ r, q.submit steps line = some r ∧ q.Replied steps line result s r

theorem Orderly.survives {p : Session} (hp : p.Orderly) (steps : Nat) : p.Survives steps where
  answered := hp.answers
  unfinished := unfinished_of_answers
  replied := by
    intro q line result s hreach htext hrun
    have hq := hp.reaches hreach
    obtain ⟨q', t, program, hsubmit, -, hroot, hcontents, -⟩ := submit_of_runLine htext hrun
    refine ⟨_, hsubmit, ?_, ?_, hq.crash_iff htext hrun hsubmit, ?_⟩
    · rw [session_finish, hroot]
    · rw [session_finish, hcontents]
    · rintro e rfl hnone
      have hcrash : e.crash? = none := by
        refine Option.eq_none_iff_forall_ne_some.2 fun cause hcause => ?_
        rw [(crash_finish q' t program).2 (.inl ⟨e, rfl, hcause⟩)] at hnone
        cases hnone
      obtain ⟨message, hmessage⟩ := Program.exists_message hq.limit hq.sound hq.root_lt hrun hcrash
      exact ⟨message, hmessage, reports_finish q' t program hcrash hmessage⟩

end Session

end Prompt

end Scripting
