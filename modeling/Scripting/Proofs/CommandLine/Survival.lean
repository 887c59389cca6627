import Mathlib
import Scripting.CommandLine
import Scripting.Proofs.Prompt.Survival

/-!
How the command line ends. A source that it can fetch ends with zero, or with one and the message of an
error, unless it ends the host or its result is to be shown and is nested too deeply. The main statement says
the same of the prompt.
-/

set_option autoImplicit false

namespace Scripting

namespace CommandLine

theorem loadSource_error {word : Option String} {input : String} {lookup : String → Lookup} {ending : Ending}
    (h : loadSource word input lookup = .error ending) (code : Nat) : ending ≠ .exit code := by
  rintro rfl
  unfold loadSource at h
  dsimp only at h
  repeat' split at h
  all_goals cases h

variable [Host]

/-- The command line cannot end in order with the source: its text ends the host, or its result is to be shown
    and is nested too deeply. -/
inductive Fatal (o : Options) (environment : Environment) (steps : Nat) (source : String) : Crash → Prop where
  | text {result : Except Error Value} {s : Store} {cause : Crash}
      (hrun : Program.run environment.maxCallDepth steps source (Store.empty.newRoot (some source)).1
        (Store.empty.newRoot (some source)).2 = some (result, s))
      (h : Program.Breaks source result cause) : Fatal o environment steps source cause
  | result {v : Value} {s : Store} (hshow : o.showResult) (hv : v ≠ .nothing)
      (hrun : Program.run environment.maxCallDepth steps source (Store.empty.newRoot (some source)).1
        (Store.empty.newRoot (some source)).2 = some (.ok v, s))
      (hdeep : s.Deep Host.shown v) : Fatal o environment steps source .recursion

def finish (o : Options) (environment : Environment) (t : Transcript) (s : Store) :
    Except Error Value → Ending × Transcript
  | .ok v => conclude o t s v
  | .error e => complain environment t e

variable {o : Options} {environment : Environment} {steps : Nat} {source : String} {s : Store}
  {result : Except Error Value}

theorem runSource_of_run (h : Program.run environment.maxCallDepth steps source
      (Store.empty.newRoot (some source)).1 (Store.empty.newRoot (some source)).2 = some (result, s)) :
    ∃ t, runSource o environment steps source = some (finish o environment t s result) := by
  unfold runSource
  cases hparse : Program.parse source with
  | error e =>
    rw [Program.run_of_parse_error hparse] at h
    cases h
    exact ⟨.silent, rfl⟩
  | ok program =>
    rw [Program.run_of_parse hparse] at h
    refine ⟨.onlyIf (o.logging environment) (.logParsed program.statements.length ++ .logInstalled ++
      .logExecuting environment.maxCallDepth) ++ ⟨s.output, ""⟩, ?_⟩
    refine (Option.bind_eq_some_iff.2 ⟨(result, s), h, ?_⟩)
    cases result <;> rfl

theorem conclude_cases (o : Options) (t : Transcript) (s : Store) (v : Value) :
    (conclude o t s v).1 = .crash .recursion ∧ o.showResult ∧ v ≠ .nothing ∧
        s.render (some Host.shown) v = none ∨
      (conclude o t s v).1 = .exit 0 ∧
        ¬(o.showResult ∧ v ≠ .nothing ∧ s.render (some Host.shown) v = none) := by
  unfold conclude
  split
  · exact .inr ⟨rfl, by simp⟩
  · rename_i hv
    split
    · rename_i hshow
      cases hrender : s.render (some Host.shown) v with
      | some text => exact .inr ⟨rfl, by simp⟩
      | none => exact .inl ⟨rfl, hshow, hv, rfl⟩
    · rename_i hshow
      exact .inr ⟨rfl, fun h => hshow h.1⟩

theorem crash_finish (o : Options) (environment : Environment) (t : Transcript) (s : Store) {cause : Crash} :
    (finish o environment t s result).1 = .crash cause ↔ (∃ e, result = .error e ∧ e.crash? = some cause) ∨
      cause = .recursion ∧ ∃ v, result = .ok v ∧ o.showResult ∧ v ≠ .nothing ∧
        s.render (some Host.shown) v = none := by
  cases result with
  | error e =>
    unfold finish complain
    cases hcrash : e.crash? with
    | some other => simp [hcrash]
    | none => simp [hcrash]
  | ok v =>
    rcases conclude_cases o t s v with ⟨hending, hhidden⟩ | ⟨hending, hshown⟩
    · rw [finish, hending]
      constructor
      · rintro ⟨⟩
        exact .inr ⟨rfl, v, rfl, hhidden⟩
      · rintro (⟨e, heq, -⟩ | ⟨rfl, -⟩)
        · cases heq
        · rfl
    · rw [finish, hending]
      refine iff_of_false (by simp) ?_
      rintro (⟨e, heq, -⟩ | ⟨-, w, heq, hhidden⟩)
      · cases heq
      · cases heq
        exact hshown hhidden

theorem exit_finish (t : Transcript) (s : Store) {v : Value}
    (h : ∀ cause, (finish o environment t s (.ok v)).1 ≠ .crash cause) :
    (finish o environment t s (.ok v)).1 = .exit 0 := by
  rcases conclude_cases o t s v with ⟨hending, -⟩ | ⟨hending, -⟩
  · exact absurd hending (h _)
  · exact hending

theorem reports_finish (t : Transcript) (s : Store) {e : Error} {message : String}
    (hcrash : e.crash? = none) (h : e.message? = some message) :
    (finish o environment t s (.error e)).1 = .exit 1 ∧
      (finish o environment t s (.error e)).2.Reports message := by
  have hreport : finish o environment t s (.error e) =
      (.exit 1, t ++ .report environment.showsTraceback e) := by
    simp only [finish, complain, hcrash]
  rw [hreport]
  exact ⟨rfl, .append t (.report _ h)⟩

theorem crash_iff (hlimit : Program.nesting environment.maxCallDepth ≤ Program.maxNesting)
    (hrun : Program.run environment.maxCallDepth steps source (Store.empty.newRoot (some source)).1
      (Store.empty.newRoot (some source)).2 = some (result, s)) (t : Transcript) (cause : Crash) :
    (finish o environment t s result).1 = .crash cause ↔ Fatal o environment steps source cause := by
  rw [crash_finish, ← Program.breaks_iff hlimit (.newRoot _) (Store.newRoot_lt _ _) hrun]
  constructor
  · rintro (hbreaks | ⟨rfl, v, rfl, hshow, hv, hrender⟩)
    · exact .text hrun hbreaks
    · exact .result hshow hv hrun (Store.render_eq_none_iff.1 hrender)
  · intro hfatal
    cases hfatal with
    | text hrun' hbreaks =>
      obtain ⟨rfl, rfl⟩ := Prod.mk.inj (Option.some.inj (hrun.symm.trans hrun'))
      exact .inl hbreaks
    | @result v u hshow hv hrun' hdeep =>
      obtain ⟨rfl, rfl⟩ := Prod.mk.inj (Option.some.inj (hrun.symm.trans hrun'))
      exact .inr ⟨rfl, v, rfl, hshow, hv, Store.render_eq_none_iff.2 hdeep⟩

/-- The end of a source with the given result. -/
structure Concluded (o : Options) (environment : Environment) (steps : Nat) (source : String)
    (result : Except Error Value) (ending : Ending) (t : Transcript) : Prop where
  crash_iff (cause : Crash) : ending = .crash cause ↔ Fatal o environment steps source cause
  value {v : Value} : (∀ cause, ending ≠ .crash cause) → result = .ok v → ending = .exit 0
  error {e : Error} : (∀ cause, ending ≠ .crash cause) → result = .error e →
    ending = .exit 1 ∧ ∃ message, e.message? = some message ∧ t.Reports message

/-- How a run with these options ends. -/
structure Survives (world : World) (steps : Nat) (words : List String) (o : Options) : Prop where
  unloaded {ending : Ending} : loadSource o.source world.input world.lookup = .error ending →
    run world steps words = some (ending, .silent) ∧ ∀ code, ending ≠ .exit code
  loaded {source : String} {result : Except Error Value} {s : Store} :
    loadSource o.source world.input world.lookup = .ok source →
    Program.run world.environment.maxCallDepth steps source (Store.empty.newRoot (some source)).1
      (Store.empty.newRoot (some source)).2 = some (result, s) →
    ∃ ending t, run world steps words = some (ending, t) ∧
      Concluded o world.environment steps source result ending t

theorem concluded_finish (hlimit : Program.nesting environment.maxCallDepth ≤ Program.maxNesting)
    (hrun : Program.run environment.maxCallDepth steps source (Store.empty.newRoot (some source)).1
      (Store.empty.newRoot (some source)).2 = some (result, s)) (t : Transcript) :
    Concluded o environment steps source result (finish o environment t s result).1
      (finish o environment t s result).2 := by
  refine ⟨crash_iff hlimit hrun t, ?_, ?_⟩
  · rintro v hnone rfl
    exact exit_finish t s hnone
  · rintro e hnone rfl
    have hcrash : e.crash? = none := by
      refine Option.eq_none_iff_forall_ne_some.2 fun cause hcause => ?_
      exact hnone cause ((crash_finish o environment t s).2 (.inl ⟨e, rfl, hcause⟩))
    obtain ⟨message, hmessage⟩ :=
      Program.exists_message hlimit (.newRoot _) (Store.newRoot_lt _ _) hrun hcrash
    obtain ⟨hexit, hreports⟩ := reports_finish t s hcrash hmessage
    exact ⟨hexit, message, hmessage, hreports⟩

theorem survives {world : World} {words : List String} (hwords : Options.parse words = .ok o)
    (ho : o.interactive = false)
    (hlimit : Program.nesting world.environment.maxCallDepth ≤ Program.maxNesting) (steps : Nat) :
    Survives world steps words o where
  unloaded := by
    intro ending hload
    refine ⟨?_, loadSource_error hload⟩
    simp only [run, hwords, ho, hload]
    rfl
  loaded := by
    intro source result s hload hrun
    obtain ⟨t, ht⟩ := runSource_of_run (o := o) hrun
    refine ⟨_, _, ?_, concluded_finish hlimit hrun t⟩
    simp only [run, hwords, ho, hload]
    exact ht

end CommandLine

end Scripting
