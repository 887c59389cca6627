import Mathlib
import Scripting.Program
import Scripting.Proofs.Evaluation.Matching
import Scripting.Proofs.Grammar.Relocation

/-!
What a program means does not depend on its layout. Texts with the same tokens are read to trees that
differ in their places only, and those places end up in function bodies and in failures, nowhere else.
-/

set_option autoImplicit false

namespace Scripting

/-! What is left without places. A position is replaced by line and column zero, which no text has. -/

def Value.unplaced : Value → Value
  | .function c => .function ⟨c.name, c.params, c.body.unplaced, c.scope⟩
  | v => v

def Store.unplaced (s : Store) : Store := s.view id Value.unplaced

def ScanError.unplaced : ScanError → ScanError
  | .unknownEscape c _ => .unknownEscape c ⟨0, 0⟩
  | .unterminatedString _ => .unterminatedString 0
  | .numberOutOfRange digits _ => .numberOutOfRange digits ⟨0, 0⟩
  | .unexpectedCharacter c _ => .unexpectedCharacter c ⟨0, 0⟩
  | .tooManyDigits => .tooManyDigits

def SyntaxError.unplaced (e : SyntaxError) : SyntaxError := e.relocate fun _ => ⟨0, 0⟩

def Error.unplaced : Error → Error
  | .lexical e => .lexical e.unplaced
  | .syntactic e => .syntactic e.unplaced
  | .runtime failure => .runtime ⟨failure.fault, none⟩
  | .crash cause => .crash cause

def Program.unplaced (r : Except Error Value × Store) : Except Error Value × Store :=
  ((r.1.map Value.unplaced).mapError Error.unplaced, r.2.unplaced)

/-! Reading. -/

def Relocation.nowhere : Relocation where
  position _ := ⟨0, 0⟩
  place _ := some ⟨0, some 0⟩
  place_eq _ := rfl

theorem Token.map_relocate_nowhere_eq {ts us : List Token}
    (h : us.map (fun t => (t.kind, t.text)) = ts.map fun t => (t.kind, t.text)) :
    us.map (relocate Relocation.nowhere.position) = ts.map (relocate Relocation.nowhere.position) := by
  have hface (ts : List Token) : ts.map (relocate Relocation.nowhere.position) =
      (ts.map fun t => (t.kind, t.text)).map fun face => ⟨face.1, face.2, ⟨0, 0⟩⟩ := by
    rw [List.map_map]
    rfl
  rw [hface, hface, h]

theorem Grammar.program_unplaced_eq {ts us : List Token}
    (h : us.map (fun t => (t.kind, t.text)) = ts.map fun t => (t.kind, t.text)) (depth : Nat) :
    ((program depth us).map Node.unplaced).mapError SyntaxError.unplaced =
      ((program depth ts).map Node.unplaced).mapError SyntaxError.unplaced := by
  have hunplaced (ts : List Token) : ((program depth ts).map Node.unplaced).mapError SyntaxError.unplaced =
      (program depth (ts.map (Token.relocate Relocation.nowhere.position))).map Node.unplaced := by
    rw [program_relocate .nowhere depth fun _ => rfl]
    cases program depth ts with
    | error e => rfl
    | ok n => exact congrArg Except.ok (n.unplaced_relocate _).symm
  rw [hunplaced, hunplaced, Token.map_relocate_nowhere_eq h]

theorem Program.parse_unplaced_eq [Host] {a b : String} {ts us : List Token} (ha : Token.scan a = .ok ts)
    (hb : Token.scan b = .ok us)
    (h : us.map (fun t => (t.kind, t.text)) = ts.map fun t => (t.kind, t.text)) :
    ((parse b).map Node.unplaced).mapError Error.unplaced =
      ((parse a).map Node.unplaced).mapError Error.unplaced := by
  have hparse {source : String} {ts : List Token} (hs : Token.scan source = .ok ts) :
      ((parse source).map Node.unplaced).mapError Error.unplaced =
        (((Grammar.program Host.grammar ts).map Node.unplaced).mapError
          SyntaxError.unplaced).mapError Error.syntactic := by
    rw [parse, hs]
    change ((Except.mapError _ (Grammar.program Host.grammar ts)).map _).mapError _ = _
    cases Grammar.program Host.grammar ts <;> rfl
  rw [hparse ha, hparse hb, Grammar.program_unplaced_eq h]

/-! Running. -/

/-- Nodes correspond if they differ in their places only. -/
def Pairing.layout : Pairing :=
  .matching (fun _ _ => True) (fun n n' => n'.unplaced = n.unplaced) Eq

theorem Pairing.layout_lawful (limits : Limits) : Pairing.layout.Lawful limits :=
  matching_lawful ⟨trivial, fun _ _ => trivial, fun _ => rfl, Node.parallel_of_unplaced_eq⟩ limits

theorem Value.unplaced_cases (v : Value) :
    (∃ c, v = .function c) ∨ (∀ c, v ≠ .function c) ∧ v.unplaced = v := by
  cases v with
  | function c => exact .inl ⟨c, rfl⟩
  | _ => exact .inr ⟨nofun, rfl⟩

theorem Value.alike_iff_unplaced_eq (v v' : Value) :
    Pairing.layout.Values () v v' ↔ v'.unplaced = v.unplaced := by
  constructor
  · intro h
    cases h with
    | same => rfl
    | function h => rw [unplaced, unplaced, h.name, h.params, h.body, h.scope]
  · intro h
    obtain ⟨c, rfl⟩ | ⟨hv, hu⟩ := v.unplaced_cases <;> obtain ⟨c', rfl⟩ | ⟨hv', hu'⟩ := v'.unplaced_cases
    · obtain ⟨hname, hparams, hbody, hscope⟩ := Closure.mk.inj (Value.function.inj h)
      exact .function ⟨hname, hparams, hscope, hbody⟩
    · exact absurd (hu'.symm.trans h) (hv' _)
    · exact absurd (hu.symm.trans h.symm) (hv _)
    · rw [hu, hu'] at h
      exact h ▸ .same hv'

theorem Store.alike_iff_unplaced_eq {s s' : Store} :
    Pairing.layout.Stores () s s' ↔ s'.unplaced = s.unplaced := by
  have hdepth (d d' : Int) : d = d' ↔ id d' = id d := eq_comm
  refine Iff.trans ⟨fun h => ?_, fun h => ?_⟩ (view_eq_iff hdepth Value.alike_iff_unplaced_eq).symm
  · exact ⟨h.contents, h.frames⟩
  · exact ⟨h.1, h.2⟩

theorem Program.result_unplaced_eq {out out' : Outcome} (h : Pairing.layout.Outcomes () out out') :
    ((result out').map Value.unplaced).mapError Error.unplaced =
      ((result out).map Value.unplaced).mapError Error.unplaced := by
  cases h with
  | value h => exact congrArg Except.ok ((Value.alike_iff_unplaced_eq _ _).1 h)
  | returned h => exact congrArg Except.ok ((Value.alike_iff_unplaced_eq _ _).1 h)
  | failed | aborted => rfl

theorem Program.execute_unplaced [Host] {n n' : Node} (hn : n'.unplaced = n.unplaced) {s s' : Store}
    (hs : s'.unplaced = s.unplaced) {scope : FrameId} (hscope : scope.index < s.frames.size)
    {calls steps : Nat} {r : Except Error Value × Store} (hr : execute calls steps n scope s = some r) :
    ∃ steps' r', execute calls steps' n' scope s' = some r' ∧ unplaced r' = unplaced r := by
  unfold execute at hr ⊢
  by_cases hlimit : maxNesting < nesting calls
  · simp only [if_pos hlimit, Option.some.injEq] at hr ⊢
    subst hr
    exact ⟨0, _, rfl, congrArg (Prod.mk _) hs⟩
  · simp only [if_neg hlimit, Option.map_eq_some_iff] at hr ⊢
    obtain ⟨⟨out, t⟩, hrun, rfl⟩ := hr
    have hactive : Pairing.layout.Active () s s' ⟨n, scope, 0⟩ n' :=
      ⟨Store.alike_iff_unplaced_eq.2 hs, hscope, hn⟩
    obtain ⟨steps', ⟨out', t'⟩, hrun', W, -, hstores, hout⟩ := Machine.evaluate_of_rel
      (fun fuel => Activation.eval_mirrors (Pairing.layout_lawful (limits calls))
        Pairing.matching_sameDepths fuel hactive) hrun
    refine ⟨steps', _, ⟨_, hrun', rfl⟩, ?_⟩
    exact Prod.ext (result_unplaced_eq hout) (Store.alike_iff_unplaced_eq.1 hstores)

theorem Program.run_unplaced [Host] {a b : String}
    (h : ((parse b).map Node.unplaced).mapError Error.unplaced =
      ((parse a).map Node.unplaced).mapError Error.unplaced)
    {s s' : Store} (hs : s'.unplaced = s.unplaced) {scope : FrameId}
    (hscope : scope.index < s.frames.size) {calls steps : Nat} {r : Except Error Value × Store}
    (hr : (run calls steps a scope s).map unplaced = some r) :
    ∃ steps', (run calls steps' b scope s').map unplaced = some r := by
  obtain ⟨end₁, hrun, rfl⟩ := Option.map_eq_some_iff.1 hr
  unfold run at hrun ⊢
  cases hb : parse b with
  | error e' =>
    cases ha : parse a with
    | error e =>
      rw [ha] at hrun
      cases hrun
      rw [ha, hb] at h
      have he : e'.unplaced = e.unplaced := Except.error.inj h
      exact ⟨0, congrArg some (Prod.ext (congrArg Except.error he) hs)⟩
    | ok n =>
      rw [ha, hb] at h
      cases h
  | ok n' =>
    cases ha : parse a with
    | error e =>
      rw [ha, hb] at h
      cases h
    | ok n =>
      rw [ha, hb] at h
      rw [ha] at hrun
      obtain ⟨steps', r', hrun', hr'⟩ := execute_unplaced (Except.ok.inj h) hs hscope hrun
      exact ⟨steps', Option.map_eq_some_iff.2 ⟨r', hrun', hr'⟩⟩

/-- Texts whose tokens have the same kinds and texts are refused for the same cause, or have the same ends:
    the same value or error, output and variables, up to places. -/
theorem layout_keeps_meaning [Host] {a b : String} {ts us : List Token} (ha : Token.scan a = .ok ts)
    (hb : Token.scan b = .ok us)
    (h : us.map (fun t => (t.kind, t.text)) = ts.map fun t => (t.kind, t.text)) :
    ((Program.parse b).map Node.unplaced).mapError Error.unplaced =
        ((Program.parse a).map Node.unplaced).mapError Error.unplaced ∧
      ∀ (calls : Nat) (scope : FrameId) (s s' : Store), scope.index < s.frames.size →
        s'.unplaced = s.unplaced → ∀ r,
          (∃ steps, (Program.run calls steps b scope s').map Program.unplaced = some r) ↔
            ∃ steps, (Program.run calls steps a scope s).map Program.unplaced = some r := by
  have hparse := Program.parse_unplaced_eq ha hb h
  refine ⟨hparse, fun calls scope s s' hscope hs r => ⟨?_, ?_⟩⟩
  · rintro ⟨steps, hr⟩
    have hsize : s'.frames.size = s.frames.size := (Store.alike_iff_unplaced_eq.2 hs).frames.size
    exact Program.run_unplaced hparse.symm hs.symm (hsize ▸ hscope) hr
  · rintro ⟨steps, hr⟩
    exact Program.run_unplaced hparse hs hscope hr

theorem layout_keeps_meaning_of_failure :
    ∃ ts us failure t steps,
      Token.scan "fun f(x) \x7b return x + y; \x7d print f; f(2);" = .ok ts ∧
      Token.scan "fun f(x)\n\x7b // adds\n  return x +\n    y;\n\x7d\nprint f;\nf(2);" = .ok us ∧
      us.map (fun t => (t.kind, t.text)) = ts.map (fun t => (t.kind, t.text)) ∧ us ≠ ts ∧
      Program.run 50 400 "fun f(x) \x7b return x + y; \x7d print f; f(2);" (Store.empty.newRoot none).1
        (Store.empty.newRoot none).2 = some (.error (.runtime failure), t) ∧
      failure.place = some ⟨1, some 23⟩ ∧ t.output = "<fn f>\n" ∧
      (Program.run 50 steps "fun f(x)\n\x7b // adds\n  return x +\n    y;\n\x7d\nprint f;\nf(2);"
        (Store.empty.newRoot none).1 (Store.empty.newRoot none).2).map Program.unplaced =
          some (.error (.runtime ⟨failure.fault, none⟩), t.unplaced) := by
  obtain ⟨ts, us, hts, hus, hface, hne⟩ : ∃ ts us,
      Token.scan "fun f(x) \x7b return x + y; \x7d print f; f(2);" = .ok ts ∧
      Token.scan "fun f(x)\n\x7b // adds\n  return x +\n    y;\n\x7d\nprint f;\nf(2);" = .ok us ∧
      us.map (fun t => (t.kind, t.text)) = ts.map (fun t => (t.kind, t.text)) ∧ us ≠ ts :=
    ⟨_, _, by cbv, by cbv, by decide, by decide⟩
  obtain ⟨failure, t, hrun, hplace, houtput⟩ : ∃ failure t,
      Program.run 50 400 "fun f(x) \x7b return x + y; \x7d print f; f(2);" (Store.empty.newRoot none).1
        (Store.empty.newRoot none).2 = some (.error (.runtime failure), t) ∧
      failure.place = some ⟨1, some 23⟩ ∧ t.output = "<fn f>\n" :=
    ⟨_, _, by cbv, by cbv, by cbv⟩
  have hsame := (layout_keeps_meaning hts hus hface).2 50 (Store.empty.newRoot none).1
    (Store.empty.newRoot none).2 (Store.empty.newRoot none).2 (by decide) rfl
    (.error (.runtime ⟨failure.fault, none⟩), t.unplaced)
  obtain ⟨steps, hsteps⟩ := hsame.2 ⟨400, by rw [hrun]; rfl⟩
  exact ⟨ts, us, failure, t, steps, hts, hus, hface, hne, hrun, hplace, houtput, hsteps⟩

end Scripting
