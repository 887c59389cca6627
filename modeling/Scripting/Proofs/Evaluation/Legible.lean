import Mathlib
import Scripting.Proofs.Evaluation.Session
import Scripting.Proofs.Grammar.Soundness
import Scripting.Proofs.Token.Legible

/-!
Programs that were read from a source do not fail for reasons that only a program put together by hand
can have. Their numerals can be read, their operators are known, and no node lacks what its rule calls
for; and of the host functions they find, `push` is always bound to an array.
-/

set_option autoImplicit false

namespace Scripting

/-- The rule of the node finds what it calls for. -/
def Node.Legible : Node → Prop
  | .number w => (Text.integer? w.text).isSome
  | .binary op _ _ _ => (Operation.ofSymbol? op.symbol).isSome
  | .malformed _ _ => False
  | _ => True

def Node.Readable : Node → Prop
  | .number w => ∃ n ≤ Token.maxNumber, Text.integer? w.text = some (n : Int)
  | n => n.Legible

theorem Node.Readable.legible {n : Node} (h : n.Readable) : n.Legible := by
  cases n with
  | number w =>
    obtain ⟨n, -, hn⟩ := h
    change (Text.integer? w.text).isSome
    rw [hn]
    rfl
  | _ => exact h

namespace Grammar

def Category.All (p : Node → Prop) : (c : Category) → c.Tree → Prop
  | .statements, ns | .arguments, ns | .expressions, ns | .items, ns => ∀ n ∈ ns, n.Everywhere p
  | .parameters, _ | .names, _ => True
  | .loopStart, n? | .loopStep, n? => ∀ n ∈ n?, n.Everywhere p
  | .field, f => f.value.Everywhere p
  | .fields, fs | .fieldItems, fs => ∀ f ∈ fs, f.value.Everywhere p
  | .program, n | .statement _, n | .declaration, n | .expressionStatement, n | .loopTest, n
  | .expression, n | .assignment, n | .binary _, n | .operand _, n | .unary, n | .suffixed _, n
  | .primary, n => n.Everywhere p

open Node

theorem Derivation.readable {c : Category} {ts : List Token} {n : c.Tree} (d : Derivation c ts n)
    (ht : ∀ t ∈ ts, Token.Legible t.kind t.text) : c.All Node.Readable n := by
  induction d with
  | program body mark ih => exact .intro trivial (ih fun t h => ht t (by simp [h]))
  | noStatements | noItems | noFields | noArguments => exact List.forall_mem_nil _
  | moreStatements first others ih ih' =>
    rw [List.forall_mem_append] at ht
    exact List.forall_mem_cons.2 ⟨ih ht.1, ih' ht.2⟩
  -- statements
  | declaring d ih | evaluating d _ ih => exact ih ht
  | function mark name params left body right ih ih' =>
    exact .one trivial rfl (.intro trivial (ih' fun t h => ht t (by simp [h])))
  | print mark value stop ih | giveBackValue mark value stop ih =>
    exact .one trivial rfl (ih fun t h => ht t (by simp [h]))
  | giveBack mark stop => exact .leaf trivial rfl
  | loop mark left condition right body ih ih' =>
    exact .two trivial rfl (ih fun t h => ht t (by simp [h])) (ih' fun t h => ht t (by simp [h]))
  | @counted _ _ _ test _ step _ _ b mark left first condition after body hfirst hcondition hafter hbody =>
    -- the step stands behind the body, in a block of the loop
    have hround : (Node.block (b :: step.toList) mark.1.place).Everywhere Node.Readable :=
      .intro trivial (List.forall_mem_cons.2 ⟨hbody fun t h => ht t (by simp [h]), fun n hn =>
        hafter (fun t h => ht t (by simp [h])) n (by simpa using hn)⟩)
    have hloop : (Node.loop test _ mark.1.place).Everywhere Node.Readable :=
      .two trivial rfl (hcondition fun t h => ht t (by simp [h])) hround
    refine .intro trivial (List.forall_mem_append.2 ⟨fun n hn => ?_, ?_⟩)
    · exact hfirst (fun t h => ht t (by simp [h])) n (by simpa using hn)
    · exact List.forall_mem_singleton.2 hloop
  | branch mark left condition right body ih ih' =>
    exact .three trivial rfl (ih fun t h => ht t (by simp [h])) (ih' fun t h => ht t (by simp [h]))
      (.leaf trivial rfl)
  | branches mark left condition right body other otherBody ih ih' ih'' =>
    exact .three trivial rfl (ih fun t h => ht t (by simp [h])) (ih' fun t h => ht t (by simp [h]))
      (ih'' fun t h => ht t (by simp [h]))
  | block left body right ih => exact .intro trivial (ih fun t h => ht t (by simp [h]))
  | declare mark name stop => exact .leaf trivial rfl
  | declareAs mark name sign init stop ih =>
    exact .one trivial rfl (ih fun t h => ht t (by simp [h]))
  | evaluate value stop ih => exact .one trivial rfl (ih fun t h => ht t (by simp [h]))
  | noParameters | parameters | lastName | moreNames => trivial
  -- the clauses of a counting loop
  | startDeclaring d ih | startEvaluating d ih =>
    rintro _ ⟨⟩
    exact ih ht
  | noStart stop | noStep right => exact fun n hn => absurd hn (Option.not_mem_none n)
  | test d stop ih => exact ih fun t h => ht t (by simp [h])
  | noTest stop => exact .leaf trivial rfl
  | step d right ih =>
    rintro _ ⟨⟩
    exact .one trivial rfl (ih fun t h => ht t (by simp [h]))
  -- expressions
  | expression d ih | unassigned d ih | single d ih | tighter h d ih | factor d ih | positive d ih
  | bare d ih => exact ih ht
  | assign target sign value ih ih' =>
    exact .one trivial rfl (ih' fun t h => ht t (by simp [h]))
  | assignItem target sign value ih ih' =>
    have hitem := ih fun t h => ht t (by simp [h])
    exact .three trivial rfl (hitem.child (by simp [children])) (hitem.child (by simp [children]))
      (ih' fun t h => ht t (by simp [h]))
  | operate left sign known right ih ih' =>
    exact .two ((ht sign (by simp)).operator _ known) rfl (ih fun t h => ht t (by simp [h]))
      (ih' fun t h => ht t (by simp [h]))
  | negate sign d ih => exact .one trivial rfl (ih fun t h => ht t (by simp [h]))
  | call callee args ih ih' =>
    exact .intro trivial (List.forall_mem_cons.2 ⟨ih fun t h => ht t (by simp [h]),
      ih' fun t h => ht t (by simp [h])⟩)
  | index base left key right ih ih' =>
    exact .two trivial rfl (ih fun t h => ht t (by simp [h])) (ih' fun t h => ht t (by simp [h]))
  | member base dot name ih =>
    exact .two trivial rfl (ih fun t h => ht t (by simp [h])) (.leaf trivial rfl)
  | methodCall base dot name args ih ih' =>
    exact .intro trivial (List.forall_mem_cons.2 ⟨ih fun t h => ht t (by simp [h]),
      List.forall_mem_cons.2 ⟨.leaf trivial rfl, ih' fun t h => ht t (by simp [h])⟩⟩)
  | number t => exact .leaf ((ht t.1 (by simp)).number t.2) rfl
  | string t | yes t | no t | name t => exact .leaf trivial rfl
  | group left d right ih => exact ih fun t h => ht t (by simp [h])
  | array left d right ih => exact .intro trivial (ih fun t h => ht t (by simp [h]))
  | record left d right ih =>
    refine .intro trivial fun n hn => ?_
    obtain ⟨f, hf, rfl⟩ := List.mem_map.1 hn
    exact ih (fun t h => ht t (by simp [h])) f hf
  -- lists
  | arguments left d right ih | itemsComma d comma ih | fieldsComma d comma ih =>
    exact ih fun t h => ht t (by simp [h])
  | items d ih | fieldItems d ih => exact ih ht
  | lastExpression d ih => exact List.forall_mem_singleton.2 (ih ht)
  | moreExpressions first comma others ih ih' | moreFields first comma others ih ih' =>
    exact List.forall_mem_cons.2 ⟨ih fun t h => ht t (by simp [h]),
      ih' fun t h => ht t (by simp [h])⟩
  | field key known colon value ih => exact ih fun t h => ht t (by simp [h])
  | lastField d ih => exact List.forall_mem_singleton.2 (ih ht)

end Grammar

theorem Program.readable_of_parse [Host] {source : String} {program : Node}
    (h : Program.parse source = .ok program) : program.Everywhere Node.Readable := by
  unfold Program.parse at h
  cases hscan : Token.scan source with
  | error e => rw [hscan] at h; cases h
  | ok tokens =>
    rw [hscan] at h
    change (Grammar.program Host.grammar tokens).mapError Error.syntactic = .ok program at h
    cases hparse : Grammar.program Host.grammar tokens with
    | error e => rw [hparse] at h; cases h
    | ok n =>
      rw [hparse] at h
      cases h
      obtain ⟨d, -⟩ := Grammar.program_sound hparse
      refine d.readable (List.forall_mem_append.2 ⟨fun t ht => ?_, ?_⟩)
      · exact Token.legible_of_scan hscan t ((List.takeWhile_sublist _).subset ht)
      · refine List.forall_mem_singleton.2 (.of_isFree ?_)
        rw [Grammar.Stream.endOf_kind]
        rfl

theorem Program.legible_of_parse [Host] {source : String} {program : Node}
    (h : Program.parse source = .ok program) : program.Everywhere Node.Legible :=
  (Program.readable_of_parse h).imp fun _ => Node.Readable.legible

/-- Programs of legible nodes, with the host functions that every program finds. -/
def Policy.legible : Policy where
  admits := Node.Legible
  hosts fn := fn.host = .printLine ∨ fn.host = .typeName ∨ fn.host = .push ∧ fn.bound.isSome
  fails fault := fault.isOrdinary
  stops cause := cause.isStack
  ordinary _ h := h
  stack _ h := h
  push _ := .inr (.inr ⟨rfl, rfl⟩)
  numeral w h hn := by
    simp only [Node.Legible, hn] at h
    cases h
  operator op l r p h ho := by
    simp only [Node.Legible, ho] at h
    cases h
  malformed _ _ h := h.elim
  receiver fn h hpush hbound := by
    simp [hpush, hbound] at h
  foreign fn type h hforeign := by
    simp [hforeign] at h

theorem Policy.legible_hosts : ∀ fn ∈ standardNatives, Policy.legible.hosts fn ∧ fn.bound = none := by
  simp [standardNatives, Policy.legible]

theorem Store.Sound.newRoot (file : Option String) : (Store.empty.newRoot file).2.Sound .legible :=
  Store.Sound.rootWith file Policy.legible_hosts

def Program.Accepted [Host] (program : Node) : Prop :=
  ∃ source, Program.parse source = .ok program

theorem Program.Accepted.of_parse [Host] {source : String} {program : Node}
    (h : Program.parse source = .ok program) : Program.Accepted program :=
  ⟨source, h⟩

open Machine (Config)

theorem Session.keeps_legible [Host] {file : Option String} {c : Config}
    (h : Session Program.Accepted (Store.empty.newRoot file).1
      (.idle (Store.empty.newRoot file).1 (Store.empty.newRoot file).2) c) : c.Keeps .legible := by
  have hroot := Store.rootWith_lt file standardNatives
  have hstart := Config.Keeps.idle (Store.Sound.newRoot file) hroot trivial
  exact (h.keeps (fun n ⟨_, hn⟩ => Program.legible_of_parse hn) hstart hroot).1

/-- The outcome is a value, or a failure of one of the kinds that the language knows. -/
def Outcome.IsOrdinary : Outcome → Prop
  | .value _ | .returned _ => True
  | .failed failure =>
    failure.fault.kind ≠ .other ∧ ∀ type, failure.fault ≠ .pushReceiver type
  | .aborted cause => cause.isStack

def Program.IsOrdinary : Except Error Value → Prop
  | .ok _ => True
  | .error (.runtime failure) =>
    failure.fault.kind ≠ .other ∧ ∀ type, failure.fault ≠ .pushReceiver type
  | .error _ => False

theorem Fault.isOrdinary_iff {fault : Fault} :
    fault.isOrdinary ↔ fault.kind ≠ .other ∧ ∀ type, fault ≠ .pushReceiver type := by
  cases fault <;> simp [isOrdinary, kind]

theorem Outcome.Fits.isOrdinary {s : Store} {out : Outcome} (h : out.Fits .legible s) :
    out.IsOrdinary := by
  cases out with
  | value v | returned v => trivial
  | failed failure => exact Fault.isOrdinary_iff.1 h
  | aborted cause => exact h

theorem Outcome.IsOrdinary.locate {out : Outcome} (h : out.IsOrdinary) (place : Option Place) :
    (out.locate place).IsOrdinary := by
  cases out with
  | failed failure => exact h
  | _ => exact h

theorem Program.isOrdinary_result {out : Outcome} (h : out.IsOrdinary) :
    Program.IsOrdinary (Program.result out) := by
  cases out with
  | value v | returned v => trivial
  | failed failure => exact h
  | aborted cause =>
    cases cause with
    | stack | text => exact ⟨nofun, nofun⟩
    | unreadable => cases h

theorem Machine.Config.Keeps.isOrdinary {c : Config} (h : c.Keeps .legible) {out : Outcome}
    {s : Store} (hc : c.task = .done out s) : out.IsOrdinary := by
  have htask := h.task
  rw [hc] at htask
  exact htask.2.2.isOrdinary

/-- In any session of accepted sources in a root frame with the standard host functions, only legible
    nodes are evaluated and no evaluation ends in a failure outside the kinds of the language; nor does
    a program that is run next. -/
theorem accepted_session_ordinary [Host] {file : Option String} {c : Config}
    (h : Session Program.Accepted (Store.empty.newRoot file).1
      (.idle (Store.empty.newRoot file).1 (Store.empty.newRoot file).2) c) :
    c.active.node.Everywhere Node.Legible ∧
    (∀ out s, c.task = .done out s → out.IsOrdinary) ∧
    ∀ calls steps source program result u, Program.nesting calls ≤ Program.maxNesting →
      Program.parse source = .ok program →
      Program.run calls steps source (Store.empty.newRoot file).1 c.store = some (result, u) →
        Program.IsOrdinary result := by
  refine ⟨h.keeps_legible.active.node, fun out s hc => h.keeps_legible.isOrdinary hc, ?_⟩
  intro calls steps source program result u hlimit hp hr
  simp only [Program.run, hp, Program.execute, Nat.not_lt.2 hlimit, if_false] at hr
  obtain ⟨⟨out, v⟩, hrun, heq⟩ := Option.map_eq_some_iff.1 hr
  cases heq
  obtain ⟨e, last, he, htask, rfl⟩ := h.evaluate (.of_parse hp) hrun
  exact Program.isOrdinary_result ((he.keeps_legible.isOrdinary htask).locate _)

theorem accepted_session_ordinary_after_failure :
    ∃ failure t program,
      Program.run 50 400 "fun f(x) \x7b return [x][x]; \x7d f(7);" (Store.empty.newRoot none).1
        (Store.empty.newRoot none).2 = some (.error (.runtime failure), t) ∧
      Program.parse "var a = [f]; a.push(a[0](0)); a[1](-2);" = .ok program ∧
      ∀ steps result u,
        Program.run 50 steps "var a = [f]; a.push(a[0](0)); a[1](-2);"
          (Store.empty.newRoot none).1 t = some (result, u) → Program.IsOrdinary result := by
  obtain ⟨failure, t, program, hfirst, hsecond⟩ : ∃ failure t program,
      Program.run 50 400 "fun f(x) \x7b return [x][x]; \x7d f(7);" (Store.empty.newRoot none).1
        (Store.empty.newRoot none).2 = some (.error (.runtime failure), t) ∧
      Program.parse "var a = [f]; a.push(a[0](0)); a[1](-2);" = .ok program :=
    ⟨_, _, _, by cbv, by cbv⟩
  obtain ⟨c, hc, rfl⟩ := Session.run_source (.refl (.idle _ _)) (fun _ => Program.Accepted.of_parse) hfirst
  refine ⟨failure, _, program, hfirst, hsecond, fun steps result u hr => ?_⟩
  exact (accepted_session_ordinary hc).2.2 50 steps _ program result u (by decide) hsecond hr

end Scripting
