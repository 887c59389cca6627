import Mathlib
import Scripting.Proofs.Evaluation.Joining
import Scripting.Proofs.Evaluation.Returns
import Scripting.Proofs.Prompt.Programs
import Scripting.Proofs.Prompt.Survival

/-!
What the prompt echoes. Whether a value is written is decided by the shape of the last statement, while the
value is what the program ended with. The two belong together unless a return statement outside all
functions ends the program: then the value of the return is echoed in place of that of the last statement,
which was never evaluated.
-/

set_option autoImplicit false

namespace Scripting

def Node.EndsInExpression (program : Node) : Prop :=
  ∃ front e place, program.statements = front ++ [.expression e place]

namespace Program

section LastStatement

variable (limits : Limits) (program : Node) (scope : FrameId) (s : Store) (v : Value) (t : Store)

/-- The last statement is an expression, those before it ran to their end, and it was then evaluated to the
    value. -/
def LastEvaluated : Prop :=
  ∃ front e place w u, program.statements = front ++ [.expression e place] ∧
    (∃ steps, Machine.evaluate limits steps (.sequence front none) scope s = some (.value w, u)) ∧
    ∃ steps, Machine.evaluate limits steps (.sequence [.expression e place] none) scope u = some (.value v, t)

/-- The last statement is an expression, but one before it has returned the value, outside all calls. -/
def CutShort : Prop :=
  ∃ front e place, program.statements = front ++ [.expression e place] ∧
    ∃ steps, Machine.evaluate limits steps (.sequence front none) scope s = some (.returned v, t)

end LastStatement

variable [Host] {limits : Limits} {source : String} {program : Node} {scope : FrameId} {s t : Store} {v : Value}

theorem evaluate_iff_of_statements_eq (hparse : parse source = .ok program) {front : List Node} {last : Node}
    (hlast : program.statements = front ++ [last]) {r : Outcome × Store} :
    (∃ steps, Machine.evaluate limits steps program scope s = some r) ↔
      ∃ out u, (∃ steps, Machine.evaluate limits steps (.sequence front none) scope s = some (out, u)) ∧
        ((∀ w, out ≠ .value w) ∧ r = (out, u) ∨ (∃ w, out = .value w) ∧
          ∃ steps, Machine.evaluate limits steps (.sequence [last] none) scope u = some r) := by
  obtain ⟨ns, place, rfl, hplaced⟩ := exists_sequence_of_parse hparse
  obtain rfl : ns = front ++ [last] := hlast
  obtain ⟨hfront, hrest⟩ := List.forall_mem_append.1 hplaced
  have hsplit {steps : Nat} {out : Outcome} {u : Store}
      (h : Machine.evaluate limits steps (.sequence front none) scope s = some (out, u)) :=
    Machine.evaluate_sequence_append_iff (p := place) (o := none) hfront hrest h (r := r)
  simp only [List.cons_ne_nil, or_false, ne_eq, not_false_eq_true, true_and] at hsplit
  constructor
  · rintro ⟨steps, h⟩
    obtain ⟨fuel, heval⟩ := Machine.evaluate_iff.1 ⟨steps, h⟩
    have hmore := Activation.eval_mono (Nat.le_succ fuel) _ _ _ heval
    rw [Activation.eval_sequence_append (q := none) (o := none) hfront hrest] at hmore
    obtain ⟨⟨out, u⟩, hfirst, -⟩ := Option.bind_eq_some_iff.1 hmore
    obtain ⟨steps', hsteps'⟩ := Machine.evaluate_iff.2 ⟨_, hfirst⟩
    exact ⟨out, u, ⟨steps', hsteps'⟩, (hsplit hsteps').1 ⟨steps, h⟩⟩
  · rintro ⟨out, u, ⟨steps, h⟩, hmore⟩
    exact (hsplit h).2 hmore

theorem evaluate_last_ne_returned (hparse : parse source = .ok program) {front : List Node} {e : Node}
    {place : Option Place} (hlast : program.statements = front ++ [.expression e place]) {steps : Nat} :
    Machine.evaluate limits steps (.sequence [.expression e place] none) scope s ≠ some (.returned v, t) := by
  intro h
  have hstatement : (Node.expression e place).Within program := by
    obtain ⟨ns, place', rfl, -⟩ := exists_sequence_of_parse hparse
    obtain rfl : ns = front ++ [Node.expression e place] := hlast
    exact .child (List.mem_append_right front List.mem_cons_self) (.refl _)
  have hexpression : e.isExpression :=
    Node.isExpression_input (Node.isParsed_of_within hstatement (Accepted.isParsed ⟨source, hparse⟩))
      List.mem_cons_self
  have hquiet : (Node.sequence [.expression e place] none).returns = false := by
    simp [Node.returns, Node.anyReturns, Node.returns_of_isExpression hexpression]
  obtain ⟨fuel, heval⟩ := Machine.evaluate_iff.1 ⟨steps, h⟩
  cases Activation.eval_quiet hquiet heval

theorem lastEvaluated_iff (hparse : parse source = .ok program) :
    LastEvaluated limits program scope s v t ↔ program.EndsInExpression ∧
      ∃ steps, Machine.evaluate limits steps program scope s = some (.value v, t) := by
  constructor
  · rintro ⟨front, e, place, w, u, hlast, hfront, hrest⟩
    exact ⟨⟨front, e, place, hlast⟩, (evaluate_iff_of_statements_eq hparse hlast).2
      ⟨_, u, hfront, .inr ⟨⟨w, rfl⟩, hrest⟩⟩⟩
  · rintro ⟨⟨front, e, place, hlast⟩, hrun⟩
    obtain ⟨out, u, hfront, ⟨hend, heq⟩ | ⟨⟨w, rfl⟩, hrest⟩⟩ :=
      (evaluate_iff_of_statements_eq hparse hlast).1 hrun
    · cases heq
      exact absurd rfl (hend v)
    · exact ⟨front, e, place, w, u, hlast, hfront, hrest⟩

theorem cutShort_iff (hparse : parse source = .ok program) :
    CutShort limits program scope s v t ↔ program.EndsInExpression ∧
      ∃ steps, Machine.evaluate limits steps program scope s = some (.returned v, t) := by
  constructor
  · rintro ⟨front, e, place, hlast, hfront⟩
    exact ⟨⟨front, e, place, hlast⟩, (evaluate_iff_of_statements_eq hparse hlast).2
      ⟨_, t, hfront, .inl ⟨fun w hw => (by cases hw), rfl⟩⟩⟩
  · rintro ⟨⟨front, e, place, hlast⟩, hrun⟩
    obtain ⟨out, u, hfront, ⟨-, heq⟩ | ⟨-, steps, hrest⟩⟩ :=
      (evaluate_iff_of_statements_eq hparse hlast).1 hrun
    · cases heq
      exact ⟨front, e, place, hlast, hfront⟩
    · exact absurd hrest (evaluate_last_ne_returned hparse hlast)

theorem CutShort.not_lastEvaluated {w : Value} {u : Store} (hcut : CutShort limits program scope s v t)
    (hparse : parse source = .ok program) : ¬LastEvaluated limits program scope s w u := by
  intro hlast
  obtain ⟨-, steps, hcut⟩ := (cutShort_iff hparse).1 hcut
  obtain ⟨-, steps', hlast⟩ := (lastEvaluated_iff hparse).1 hlast
  cases Machine.evaluate_unique hcut hlast

/-- Where a program has succeeded that ends in an expression, its value is that of the expression or of a
    return before it. -/
theorem lastEvaluated_or_cutShort_iff {calls steps : Nat} (hparse : parse source = .ok program)
    (hrun : execute calls steps program scope s = some (.ok v, t)) {w : Value} :
    LastEvaluated (Program.limits calls) program scope s w t ∨
      CutShort (Program.limits calls) program scope s w t ↔ program.EndsInExpression ∧ w = v := by
  rw [lastEvaluated_iff hparse, cutShort_iff hparse, ← and_or_left]
  refine and_congr_right fun _ => ⟨?_, ?_⟩
  · rintro (⟨steps', h⟩ | ⟨steps', h⟩) <;> rcases (execute_eq_ok_iff.1 hrun).2 with h' | h' <;>
      cases Machine.evaluate_unique h h' <;> rfl
  · rintro rfl
    exact (execute_eq_ok_iff.1 hrun).2.imp (⟨steps, ·⟩) (⟨steps, ·⟩)

end Program

namespace Prompt.Session

theorem echoed_iff {program : Node} {v : Value} :
    echoed program v ↔ program.EndsInExpression ∧ v ≠ .nothing := by
  have hends : program.EndsInExpression ↔ ∃ e place, program.statements.getLast? = some (.expression e place) := by
    simp only [List.getLast?_eq_some_iff, Node.EndsInExpression]
    constructor
    · rintro ⟨front, e, place, h⟩
      exact ⟨e, place, front, h⟩
    · rintro ⟨e, place, front, h⟩
      exact ⟨front, e, place, h⟩
  rw [hends]
  unfold echoed
  split <;> simp_all

theorem echoText_cases [Host] (s : Store) (program : Node) (v : Value) :
    (∃ text, echoed program v ∧ s.render (some Host.shown) v = some text ∧
      echoText s program (.ok v) = text ++ "\n") ∨
    (∀ text, ¬(echoed program v ∧ s.render (some Host.shown) v = some text)) ∧
      echoText s program (.ok v) = "" := by
  unfold echoText
  dsimp only
  split
  · cases s.render (some Host.shown) v with
    | none => simp
    | some text => simp [*]
  · simp [*]

theorem echoText_eq_line_iff [Host] {s : Store} {program : Node} {v : Value} {text : String} :
    echoText s program (.ok v) = text ++ "\n" ↔
      echoed program v ∧ s.render (some Host.shown) v = some text := by
  rcases echoText_cases s program v with ⟨text', hecho, hrender, heq⟩ | ⟨hnot, heq⟩
  · rw [heq, String.append_left_inj]
    simp [hecho, hrender]
  · rw [heq]
    refine iff_of_false (fun h => ?_) (hnot text)
    exact absurd (String.append_eq_empty_iff.1 h.symm).2 (by decide)

theorem echoText_ne_empty_iff [Host] {s : Store} {program : Node} {v : Value} :
    echoText s program (.ok v) ≠ "" ↔ ∃ text, echoText s program (.ok v) = text ++ "\n" := by
  constructor
  · intro hne
    rcases echoText_cases s program v with ⟨text, -, -, heq⟩ | ⟨-, heq⟩
    · exact ⟨text, heq⟩
    · exact absurd heq hne
  · rintro ⟨text, heq⟩ hempty
    exact absurd (String.append_eq_empty_iff.1 (heq.symm.trans hempty)).2 (by decide)

section Execution

variable [Host] {calls steps : Nat} {source : String} {program : Node} {scope : FrameId} {s t : Store} {v : Value}

theorem echoText_eq_line_iff_of_execute (hparse : Program.parse source = .ok program)
    (hrun : Program.execute calls steps program scope s = some (.ok v, t)) {text : String} :
    echoText t program (.ok v) = text ++ "\n" ↔
      ∃ w, (Program.LastEvaluated (Program.limits calls) program scope s w t ∨
          Program.CutShort (Program.limits calls) program scope s w t) ∧
        w ≠ .nothing ∧ t.render (some Host.shown) w = some text := by
  simp only [echoText_eq_line_iff, echoed_iff, Program.lastEvaluated_or_cutShort_iff hparse hrun]
  constructor
  · rintro ⟨⟨hends, hsome⟩, hrender⟩
    exact ⟨v, ⟨hends, rfl⟩, hsome, hrender⟩
  · rintro ⟨w, ⟨hends, rfl⟩, hsome, hrender⟩
    exact ⟨⟨hends, hsome⟩, hrender⟩

theorem echoText_ne_empty_iff_of_execute (hparse : Program.parse source = .ok program)
    (hrun : Program.execute calls steps program scope s = some (.ok v, t)) {w : Value}
    (hw : Program.LastEvaluated (Program.limits calls) program scope s w t ∨
      Program.CutShort (Program.limits calls) program scope s w t) (hsome : w ≠ .nothing) :
    echoText t program (.ok v) ≠ "" ↔ t.render (some Host.shown) w ≠ none := by
  obtain ⟨hends, rfl⟩ := (Program.lastEvaluated_or_cutShort_iff hparse hrun).1 hw
  rw [echoText_ne_empty_iff, Option.ne_none_iff_exists']
  refine exists_congr fun text => echoText_eq_line_iff.trans (and_iff_right ?_)
  exact echoed_iff.2 ⟨hends, hsome⟩

end Execution

theorem submit_of_execute [Host] {p : Session} {steps : Nat} {line : String} {program : Node} {v : Value} {t : Store}
    (htext : isProgramText (normalize line)) (hparse : Program.parse (normalize line) = .ok program)
    (hrun : Program.execute p.environment.maxCallDepth steps program p.root (p.entered (normalize line)) =
      some (.ok v, t)) :
    ∃ reply, p.submit steps line = some reply ∧
      reply.transcript.out = t.output ++ echoText t program (.ok v) ∧
      (reply.crash = none ↔ (echoed program v → t.render (some Host.shown) v ≠ none)) := by
  have hsame : (p.left t).store.contents = t.contents := rfl
  refine ⟨(p.left t).finish (p.written t) program (.ok v), ?_, ?_, ?_⟩
  · rw [submit_of_parse htext hparse, runProgram_eq, hrun]
    rfl
  · rw [out_finish, out_written, echoText_of_contents_eq hsame]
  · rw [Option.eq_none_iff_forall_ne_some]
    simp [crash_finish, Store.render_of_contents_eq hsame]

/-- A line is echoed just if the program ends in an expression whose value is not nothing, and it is the text
    of that value, or of a value returned before the expression was reached. A value without a text ends the
    session. -/
theorem prompt_echoes_last_expression [Host] (p : Session) {steps : Nat} {line : String} {program : Node} {v : Value}
    {t : Store} (htext : isProgramText (normalize line)) (hparse : Program.parse (normalize line) = .ok program)
    (hrun : Program.execute p.environment.maxCallDepth steps program p.root (p.entered (normalize line)) =
      some (.ok v, t)) :
    let evaluated (w : Value) : Prop := Program.LastEvaluated (Program.limits p.environment.maxCallDepth)
      program p.root (p.entered (normalize line)) w t
    let cutShort (w : Value) : Prop := Program.CutShort (Program.limits p.environment.maxCallDepth)
      program p.root (p.entered (normalize line)) w t
    ∃ reply echo, p.submit steps line = some reply ∧ reply.transcript.out = t.output ++ echo ∧
      (echo ≠ "" ↔ ∃ text, echo = text ++ "\n") ∧
      (∀ text, echo = text ++ "\n" ↔ ∃ w, (evaluated w ∨ cutShort w) ∧ w ≠ .nothing ∧
        t.render (some Host.shown) w = some text) ∧
      (reply.crash = none ↔ ∀ w, evaluated w ∨ cutShort w → w ≠ .nothing →
        t.render (some Host.shown) w ≠ none) ∧
      ((echo ≠ "" ↔ ∃ w, evaluated w ∧ w ≠ .nothing) ↔ ∀ w, w ≠ .nothing →
        (evaluated w → t.render (some Host.shown) w ≠ none) ∧
        (cutShort w → t.render (some Host.shown) w = none)) := by
  intro evaluated cutShort
  obtain ⟨reply, hsubmit, hout, hcrash⟩ := submit_of_execute htext hparse hrun
  have hline {text : String} : echoText t program (.ok v) = text ++ "\n" ↔
      ∃ w, (evaluated w ∨ cutShort w) ∧ w ≠ .nothing ∧ t.render (some Host.shown) w = some text :=
    echoText_eq_line_iff_of_execute hparse hrun
  have hshown {w : Value} (hw : evaluated w ∨ cutShort w) (hsome : w ≠ .nothing) :
      echoText t program (.ok v) ≠ "" ↔ t.render (some Host.shown) w ≠ none :=
    echoText_ne_empty_iff_of_execute hparse hrun hw hsome
  refine ⟨reply, echoText t program (.ok v), hsubmit, hout, echoText_ne_empty_iff, fun _ => hline, ?_, ?_⟩
  · have hends (w : Value) : evaluated w ∨ cutShort w ↔ program.EndsInExpression ∧ w = v :=
      Program.lastEvaluated_or_cutShort_iff hparse hrun
    rw [hcrash, echoed_iff]
    constructor
    · intro hshows w hw hsome
      obtain ⟨hexpression, rfl⟩ := (hends w).1 hw
      exact hshows ⟨hexpression, hsome⟩
    · rintro hshows ⟨hexpression, hsome⟩
      exact hshows v ((hends v).2 ⟨hexpression, rfl⟩) hsome
  · constructor
    · refine fun hshows w hsome => ⟨fun hw => ?_, fun hw => ?_⟩
      · exact (hshown (.inl hw) hsome).1 (hshows.2 ⟨w, hw, hsome⟩)
      · -- What is echoed of a run that was cut short is not the value of the last expression.
        by_contra hrender
        obtain ⟨w', hw', -⟩ := hshows.1 ((hshown (.inr hw) hsome).2 hrender)
        exact hw.not_lastEvaluated hparse hw'
    · refine fun hrule => ⟨fun hne => ?_, ?_⟩
      · obtain ⟨text, heq⟩ := echoText_ne_empty_iff.1 hne
        obtain ⟨w, hw | hw, hsome, hrender⟩ := hline.1 heq
        · exact ⟨w, hw, hsome⟩
        · rw [(hrule w hsome).2 hw] at hrender
          cases hrender
      · rintro ⟨w, hw, hsome⟩
        exact (hshown (.inl hw) hsome).2 ((hrule w hsome).1 hw)

theorem prompt_echoes_last_expression_of_call :
    ∃ f shown e place q v t reply,
      isProgramText (normalize "fun f() \x7b return [3]; \x7d print 2; f();") ∧
      Program.parse (normalize "fun f() \x7b return [3]; \x7d print 2; f();") =
        .ok (.sequence [f, shown, .expression e place] q) ∧
      Program.execute 10000 200 (.sequence [f, shown, .expression e place] q)
        (start ⟨none, none, none⟩ false).1.root ((start ⟨none, none, none⟩ false).1.entered
          (normalize "fun f() \x7b return [3]; \x7d print 2; f();")) = some (.ok v, t) ∧
      (start ⟨none, none, none⟩ false).1.submit 200 "fun f() \x7b return [3]; \x7d print 2; f();" = some reply ∧
      reply.transcript.out = "2\n" ++ ("[3]" ++ "\n") := by
  let p := (start ⟨none, none, none⟩ false).1
  obtain ⟨f, shown, e, place, q, v, t, w, u, hparse, hrun, hfront, hlast, hsome, hrender, houtput⟩ :
      ∃ f shown e place q v t w u,
        Program.parse (normalize "fun f() \x7b return [3]; \x7d print 2; f();") =
          .ok (.sequence [f, shown, .expression e place] q) ∧
        Program.execute p.environment.maxCallDepth 200 (.sequence [f, shown, .expression e place] q) p.root
          (p.entered (normalize "fun f() \x7b return [3]; \x7d print 2; f();")) = some (.ok v, t) ∧
        Machine.evaluate (Program.limits p.environment.maxCallDepth) 200 (.sequence [f, shown] none) p.root
          (p.entered (normalize "fun f() \x7b return [3]; \x7d print 2; f();")) = some (.value w, u) ∧
        Machine.evaluate (Program.limits p.environment.maxCallDepth) 200 (.sequence [.expression e place] none)
          p.root u = some (.value v, t) ∧
        v ≠ .nothing ∧ t.render (some Host.shown) v = some "[3]" ∧ t.output = "2\n" :=
    ⟨_, _, _, _, _, _, _, _, _, by cbv, by cbv, by cbv, by cbv, by simp, by cbv, by cbv⟩
  have htext : isProgramText (normalize "fun f() \x7b return [3]; \x7d print 2; f();") := by decide
  obtain ⟨reply, echo, hsubmit, hout, -, hline, -, -⟩ := prompt_echoes_last_expression p htext hparse hrun
  obtain rfl : echo = "[3]" ++ "\n" := (hline "[3]").2
    ⟨v, .inl ⟨[f, shown], e, place, w, u, rfl, ⟨200, hfront⟩, 200, hlast⟩, hsome, hrender⟩
  rw [houtput] at hout
  exact ⟨f, shown, e, place, q, v, t, reply, htext, hparse, hrun, hsubmit, hout⟩

/-- The value of a return is echoed, though the statement at the end was not evaluated to anything. -/
theorem prompt_echoes_returned_value :
    ∃ first e place q v t reply,
      isProgramText (normalize "return 5; 1;") ∧
      Program.parse (normalize "return 5; 1;") = .ok (.sequence [first, .expression e place] q) ∧
      Program.execute 10000 100 (.sequence [first, .expression e place] q)
        (start ⟨none, none, none⟩ false).1.root
        ((start ⟨none, none, none⟩ false).1.entered (normalize "return 5; 1;")) = some (.ok v, t) ∧
      (∀ w u, ¬Program.LastEvaluated (Program.limits 10000) (.sequence [first, .expression e place] q)
        (start ⟨none, none, none⟩ false).1.root
        ((start ⟨none, none, none⟩ false).1.entered (normalize "return 5; 1;")) w u) ∧
      (start ⟨none, none, none⟩ false).1.submit 100 "return 5; 1;" = some reply ∧
      reply.transcript.out = t.output ++ ("5" ++ "\n") := by
  let p := (start ⟨none, none, none⟩ false).1
  obtain ⟨first, e, place, q, v, t, hparse, hrun, hfront, hsome, hrender⟩ :
      ∃ first e place q v t,
        Program.parse (normalize "return 5; 1;") = .ok (.sequence [first, .expression e place] q) ∧
        Program.execute p.environment.maxCallDepth 100 (.sequence [first, .expression e place] q) p.root
          (p.entered (normalize "return 5; 1;")) = some (.ok v, t) ∧
        Machine.evaluate (Program.limits 10000) 100 (.sequence [first] none) p.root
          (p.entered (normalize "return 5; 1;")) = some (.returned v, t) ∧
        v ≠ .nothing ∧ t.render (some Host.shown) v = some "5" :=
    ⟨_, _, _, _, _, _, by cbv, by cbv, by cbv, by simp, by cbv⟩
  have hcut : Program.CutShort (Program.limits 10000) (.sequence [first, .expression e place] q) p.root
      (p.entered (normalize "return 5; 1;")) v t :=
    ⟨[first], e, place, rfl, 100, hfront⟩
  have htext : isProgramText (normalize "return 5; 1;") := by decide
  obtain ⟨reply, hsubmit, hout, -⟩ := submit_of_execute htext hparse hrun
  have hecho : echoText t (.sequence [first, .expression e place] q) (.ok v) = "5" ++ "\n" :=
    (echoText_eq_line_iff_of_execute hparse hrun).2 ⟨v, .inr hcut, hsome, hrender⟩
  rw [hecho] at hout
  exact ⟨first, e, place, q, v, t, reply, htext, hparse, hrun, fun w u => hcut.not_lastEvaluated hparse,
    hsubmit, hout⟩

end Prompt.Session

end Scripting
