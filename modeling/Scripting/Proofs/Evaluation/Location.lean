import Mathlib
import Scripting.Proofs.Evaluation.Legible
import Scripting.Proofs.Evaluation.Strictness
import Scripting.Proofs.Grammar.Places

/-!
Where failures happen. A rule that fails leaves the place open; on its way out the failure takes that of
the first node that has one and keeps it. So it ends up with the place of the innermost of the nodes that
were under evaluation when the rule failed, of those that have a place. In a program that was read from a
text all nodes have one, and it is that of a token.
-/

set_option autoImplicit false

namespace Scripting

namespace Machine

/-- The waiting node passes failures on and goes on plainly with anything else. -/
structure Waiting.Plain (w : Waiting) : Prop where
  passes : ∀ out s, out.isFailure → w.resume out s = .done out s
  resumes : ∀ out s, out.isFailure = false → (w.resume out s).Plain

namespace Config

def nodes (c : Config) : List Node := c.active.node :: c.stack.map (·.activation.node)

def after (limits : Limits) : Nat → Config → Option Config
  | 0, c => some c
  | k + 1, c => (c.next limits).bind (after limits k)

def HasFailed (c : Config) : Prop := ∃ failure s, c.task = .done (.failed failure) s

structure Plain (c : Config) : Prop where
  task : c.task.Plain
  stack : ∀ w ∈ c.stack, w.Plain

variable {limits : Limits} {c d : Config}

theorem Plain.start (node : Node) (scope : FrameId) (s : Store) : (start limits node scope s).Plain :=
  ⟨node.start_plain limits 0 scope s, List.forall_mem_nil _⟩

theorem Plain.next (h : c.Plain) (hc : ¬c.HasFailed) (hd : c.next limits = some d) : d.Plain := by
  obtain ⟨task, active, stack⟩ := c
  cases task with
  | done out s =>
    cases stack with
    | nil => cases hd
    | cons w stack =>
      cases hd
      obtain ⟨hw, hstack⟩ := List.forall_mem_cons.1 h.stack
      refine ⟨?_, hstack⟩
      cases out with
      | value v => exact hw.resumes (.value v) s rfl
      | returned v => exact hw.resumes (.returned v) s rfl
      | failed failure => exact absurd ⟨failure, s, rfl⟩ hc
      | aborted cause =>
        change (w.resume (.aborted cause) s).Plain
        rw [hw.passes (.aborted cause) s rfl]
        trivial
  | visit cost node scope s resume =>
    obtain ⟨hpasses, hresumes⟩ := h.task
    rw [Config.next] at hd
    split at hd
    · cases hd
      exact ⟨node.start_plain limits _ scope s, List.forall_mem_cons.2 ⟨⟨hpasses, hresumes⟩, h.stack⟩⟩
    · cases hd
      refine ⟨?_, h.stack⟩
      change (resume (.aborted .stack) s).Plain
      rw [hpasses (.aborted .stack) s rfl]
      trivial
  | again s =>
    cases hd
    exact ⟨active.node.start_plain limits active.depth active.scope s, h.stack⟩

theorem run_of_next (hd : c.next limits = some d) (steps : Nat) :
    run limits (steps + 1) c.task c.active c.stack = run limits steps d.task d.active d.stack := by
  obtain ⟨task, active, stack⟩ := c
  cases task with
  | done out s =>
    cases stack with
    | nil => cases hd
    | cons w stack =>
      cases hd
      rfl
  | visit cost node scope s resume =>
    rw [Config.next] at hd
    rw [run]
    split at hd
    · cases hd
      simp only [if_pos ‹_›]
    · cases hd
      simp only [if_neg ‹_›]
  | again s =>
    cases hd
    rfl

theorem exists_done_of_next_eq_none (h : c.next limits = none) :
    ∃ out s, c.task = .done out s ∧
      ∀ steps, run limits (steps + 1) c.task c.active c.stack = some (out.locate c.active.node.place, s) := by
  obtain ⟨task, active, stack⟩ := c
  cases task with
  | done out s =>
    cases stack with
    | nil => exact ⟨out, s, rfl, fun _ => rfl⟩
    | cons w stack => cases h
  | visit cost node scope s resume =>
    rw [Config.next] at h
    split at h <;> cases h
  | again s => cases h

/-! The way out. -/

theorem next_of_failure {fault : Fault} {p : Option Place} {t : Store} {active : Activation} {w : Waiting}
    {stack : List Waiting} (hw : w.Plain) :
    next limits ⟨.done (.failed ⟨fault, p⟩) t, active, w :: stack⟩ =
      some ⟨.done (.failed ⟨fault, p <|> active.node.place⟩) t, w.activation, stack⟩ := by
  rw [next, hw.passes _ t rfl]
  rfl

theorem or_findSome?_cons (p : Option Place) (n : Node) (ns : List Node) :
    (p <|> (n :: ns).findSome? Node.place) = ((p <|> n.place) <|> ns.findSome? Node.place) := by
  rw [List.findSome?_cons]
  cases p <;> cases n.place <;> rfl

/-- After each step the failure has left one more node, and it has the place of the first of those left that
    has one. -/
theorem after_failure {fault : Fault} {t : Store} (j : Nat) {p : Option Place} {active : Activation}
    {stack : List Waiting} (hstack : ∀ w ∈ stack, w.Plain) :
    let c : Config := ⟨.done (.failed ⟨fault, p⟩) t, active, stack⟩
    j < c.nodes.length → ∃ d, c.after limits j = some d ∧ d.nodes = c.nodes.drop j ∧
      d.task = .done (.failed ⟨fault, p <|> (c.nodes.take j).findSome? Node.place⟩) t := by
  intro c hj
  induction j generalizing p active stack with
  | zero => exact ⟨c, rfl, rfl, by cases p <;> rfl⟩
  | succ j ih =>
    cases stack with
    | nil => simp [c, nodes] at hj
    | cons w stack =>
      obtain ⟨hw, hstack⟩ := List.forall_mem_cons.1 hstack
      obtain ⟨d, hd, hnodes, htask⟩ := @ih (p <|> active.node.place) w.activation stack hstack
        (Nat.lt_of_succ_lt_succ hj)
      refine ⟨d, ?_, hnodes, ?_⟩
      · rw [after, next_of_failure hw]
        exact hd
      · rw [htask]
        exact congrArg (fun q => Task.done (.failed ⟨fault, q⟩) t) (or_findSome?_cons p active.node _).symm

theorem run_failure {fault : Fault} {t : Store} {steps : Nat} {p : Option Place} {active : Activation}
    {stack : List Waiting} {r : Outcome × Store} (hstack : ∀ w ∈ stack, w.Plain)
    (hr : run limits steps (.done (.failed ⟨fault, p⟩) t) active stack = some r) :
    r = (.failed ⟨fault,
      p <|> (active.node :: stack.map (·.activation.node)).findSome? Node.place⟩, t) := by
  induction steps generalizing p active stack with
  | zero => cases hr
  | succ steps ih =>
    rw [or_findSome?_cons]
    cases stack with
    | nil =>
      have hnone : ((p <|> active.node.place) <|> none) = (p <|> active.node.place) := by
        cases p <|> active.node.place <;> rfl
      cases hr
      exact congrArg (fun q => (Outcome.failed ⟨fault, q⟩, t)) hnone.symm
    | cons w stack =>
      obtain ⟨hw, hstack⟩ := List.forall_mem_cons.1 hstack
      rw [run_of_next (c := ⟨_, active, w :: stack⟩) (next_of_failure hw)] at hr
      exact ih hstack hr

theorem exists_first_failure (hc : c.Plain) {steps : Nat} {failure : Failure} {t : Store}
    (hr : run limits steps c.task c.active c.stack = some (.failed failure, t)) :
    ∃ k d, c.after limits k = some d ∧ (∀ j < k, ∀ e, c.after limits j = some e → ¬e.HasFailed) ∧
      d.Plain ∧ d.task = .fail failure.fault t ∧ failure.place = d.nodes.findSome? Node.place := by
  induction steps generalizing c with
  | zero => cases hr
  | succ steps ih =>
    -- Either this is the first configuration that has failed, or it comes after the next one.
    by_cases hfailed : c.HasFailed
    · obtain ⟨⟨fault, p⟩, u, htask⟩ := hfailed
      have hplace := hc.task
      rw [htask] at hplace
      obtain rfl : p = none := hplace
      rw [htask] at hr
      obtain ⟨hfailure, rfl⟩ := Prod.mk.inj (run_failure hc.stack hr)
      obtain rfl := Outcome.failed.inj hfailure
      exact ⟨0, c, rfl, fun j hj => absurd hj (Nat.not_lt_zero j), hc, htask, Option.none_or⟩
    · cases hnext : c.next limits with
      | none =>
        obtain ⟨out, u, htask, hlast⟩ := exists_done_of_next_eq_none hnext
        rw [hlast] at hr
        cases out with
        | failed f => exact absurd ⟨f, u, htask⟩ hfailed
        | _ => cases hr
      | some d =>
        rw [run_of_next hnext] at hr
        obtain ⟨k, e, he, hearlier, rest⟩ := ih (hc.next hfailed hnext) hr
        refine ⟨k + 1, e, by rw [after, hnext]; exact he, fun j hj e' he' => ?_, rest⟩
        cases j with
        | zero =>
          cases he'
          exact hfailed
        | succ j =>
          rw [after, hnext] at he'
          exact hearlier j (by omega) e' he'

theorem Keeps.after {P : Policy} {k : Nat} (h : c.Keeps P) (hd : c.after limits k = some d) : d.Keeps P := by
  induction k generalizing c with
  | zero =>
    cases hd
    exact h
  | succ k ih =>
    obtain ⟨e, he, hd⟩ := Option.bind_eq_some_iff.1 hd
    exact ih (h.next he).1 hd

theorem Keeps.admits {P : Policy} (h : c.Keeps P) : ∀ n ∈ c.nodes, P.admits n := by
  refine List.forall_mem_cons.2 ⟨h.active.node.here, List.forall_mem_map.2 fun w hw => ?_⟩
  exact (h.stack w hw).activation.node.here

end Config

end Machine

/-- The same policy for nodes that have a further property. -/
def Policy.restrict (P : Policy) (q : Node → Prop) : Policy where
  admits n := P.admits n ∧ q n
  hosts := P.hosts
  fails := P.fails
  stops := P.stops
  ordinary := P.ordinary
  stack := P.stack
  push := P.push
  numeral w h := P.numeral w h.1
  operator op l r p h := P.operator op l r p h.1
  malformed defect p h := P.malformed defect p h.1
  receiver := P.receiver
  foreign := P.foreign

namespace Program

open Machine (Config)

variable [Host] {source : String} {n : Node} {file : Option String} {limits : Limits} {steps : Nat} {t : Store}

theorem isOrdinary_of_evaluate (hparse : parse source = .ok n) {out : Outcome}
    (hr : Machine.evaluate limits steps n (Store.empty.newRoot file).1 (Store.empty.newRoot file).2 =
      some (out, t)) : out.IsOrdinary := by
  have hsession : Session Program.Accepted (Store.empty.newRoot file).1
      (.idle (Store.empty.newRoot file).1 (Store.empty.newRoot file).2)
      (.idle (Store.empty.newRoot file).1 (Store.empty.newRoot file).2) := .refl _
  obtain ⟨c, last, hc, htask, rfl⟩ := hsession.evaluate (.of_parse hparse) hr
  exact (hc.keeps_legible.isOrdinary htask).locate _

theorem statements_ne_nil_of_failure (hparse : parse source = .ok n) {scope : FrameId} {s : Store}
    {failure : Failure} (hr : Machine.evaluate limits steps n scope s = some (.failed failure, t)) :
    n.statements ≠ [] := by
  obtain ⟨tiles, ns, -, -, rfl⟩ := parse_eq_ok_iff.1 hparse
  rintro rfl
  cases steps <;> cases hr

theorem exists_token_of_failure (hparse : parse source = .ok n) {failure : Failure}
    (hr : Machine.evaluate limits steps n (Store.empty.newRoot file).1 (Store.empty.newRoot file).2 =
      some (.failed failure, t)) :
    ∃ tokens token, Token.scan source = .ok tokens ∧ token ∈ tokens ∧ token.kind ≠ .eof ∧
      failure.place = token.place := by
  -- In a new root frame nothing but nodes of the program is evaluated, and they all stand at tokens.
  obtain ⟨tokens, hscan, hplaced⟩ := placed_of_parse hparse (statements_ne_nil_of_failure hparse hr)
  let P := Policy.legible.restrict fun m => ∃ token ∈ tokens, token.kind ≠ .eof ∧ m.place = token.place
  have hnatives : ∀ fn ∈ standardNatives, P.hosts fn ∧ fn.bound = none := by
    simp [standardNatives, P, Policy.legible, Policy.restrict]
  have hstart : (Config.start limits n (Store.empty.newRoot file).1 (Store.empty.newRoot file).2).Keeps P :=
    (Config.Keeps.start limits (Store.Sound.rootWith file hnatives) (Store.rootWith_lt file standardNatives)
      fun m hm => ⟨legible_of_parse hparse m hm, hplaced m hm⟩).1
  obtain ⟨k, c, hc, -, -, -, hplace⟩ := Config.exists_first_failure (.start n _ _) hr
  obtain ⟨-, token, hmem, hne, hactive⟩ := (hstart.after hc).admits c.active.node List.mem_cons_self
  -- the active node has a place, so no other one counts
  rw [Config.nodes, List.findSome?_cons, hactive] at hplace
  exact ⟨tokens, token, hscan, hmem, hne, hplace⟩

end Program

open Machine (Config)

/-- A failure has the place of the innermost node under evaluation that has one. A text that is accepted and
    fails in a new root frame names the line and the column of one of its tokens, unless the host ran out of
    resources. -/
theorem failure_at_innermost_node [Host] :
    (∀ (limits : Limits) (steps : Nat) (node : Node) (scope : FrameId) (s t : Store) (failure : Failure),
      Machine.evaluate limits steps node scope s = some (.failed failure, t) →
        ∃ k c, (Config.start limits node scope s).after limits k = some c ∧
          (∀ j < k, ∀ d, (Config.start limits node scope s).after limits j = some d → ¬d.HasFailed) ∧
          c.task = .fail failure.fault t ∧
          (∀ j < c.nodes.length, ∃ d, c.after limits j = some d ∧ d.nodes = c.nodes.drop j ∧
            d.task = .done (.failed ⟨failure.fault, (c.nodes.take j).findSome? Node.place⟩) t) ∧
          failure.place = c.nodes.findSome? Node.place) ∧
    ∀ (source : String) (n : Node) (file : Option String) (calls steps : Nat) (e : Error) (t : Store),
      Program.parse source = .ok n →
      Program.run calls steps source (Store.empty.newRoot file).1 (Store.empty.newRoot file).2 =
        some (.error e, t) →
      Program.maxNesting < Program.nesting calls ∧ e = .crash .limit ∨
        (e = .runtime ⟨.evaluationDepth, none⟩ ∨ ∃ levels, e = .runtime ⟨.textDepth levels, none⟩) ∨
        ∃ tokens token fault, Token.scan source = .ok tokens ∧ token ∈ tokens ∧ token.kind ≠ .eof ∧
          e = .runtime ⟨fault, token.place⟩ ∧
          e.message? =
            some s!"{fault.message} (line {token.position.line}, col {token.position.column})" := by
  refine ⟨fun limits steps node scope s t failure hr => ?_, ?_⟩
  · obtain ⟨k, c, hc, hfirst, hplain, htask, hplace⟩ :=
      Config.exists_first_failure (.start node scope s) hr
    refine ⟨k, c, hc, hfirst, htask, fun j hj => ?_, hplace⟩
    obtain ⟨task, active, stack⟩ := c
    subst htask
    exact Config.after_failure j hplain.stack hj
  · intro source n file calls steps e t hparse hr
    simp only [Program.run, hparse, Program.execute] at hr
    split at hr
    · cases hr
      exact .inl ⟨‹_›, rfl⟩
    · obtain ⟨⟨out, u⟩, hrun, heq⟩ := Option.map_eq_some_iff.1 hr
      obtain ⟨hresult, rfl⟩ := Prod.mk.inj heq
      refine .inr ?_
      cases out with
      | value | returned => cases hresult
      | failed failure =>
        obtain ⟨tokens, token, hscan, hmem, hne, hplace⟩ := Program.exists_token_of_failure hparse hrun
        obtain ⟨fault, place⟩ := failure
        subst hplace
        cases hresult
        exact .inr ⟨tokens, token, fault, hscan, hmem, hne, rfl, rfl⟩
      | aborted cause =>
        have hstack : cause.isStack := Program.isOrdinary_of_evaluate hparse hrun
        cases cause with
        | stack =>
          cases hresult
          exact .inl (.inl rfl)
        | text levels =>
          cases hresult
          exact .inl (.inr ⟨levels, rfl⟩)
        | unreadable => cases hstack

theorem failure_at_innermost_node_in_argument :
    let node := Node.expression (.call (.name ⟨"println", none⟩) [.negate (.string ⟨"x", none⟩) none] none
      (some ⟨3, none⟩)) (some ⟨2, some 1⟩)
    let source := "fun f(x) \x7b return x + y; \x7d\nprint [1, f(2)];"
    let root := Store.empty.newRoot none
    ∃ failure t k c n failure' u tokens token,
      Machine.evaluate ⟨50, none, Host.costs⟩ 400 node root.1 root.2 = some (.failed failure, t) ∧
      failure.place = some ⟨3, none⟩ ∧
      (Config.start ⟨50, none, Host.costs⟩ node root.1 root.2).after ⟨50, none, Host.costs⟩ k = some c ∧
      c.nodes.findSome? Node.place = some ⟨3, none⟩ ∧
      Program.parse source = .ok n ∧
      Program.run 50 400 source root.1 root.2 = some (.error (.runtime failure'), u) ∧
      failure'.place = some ⟨1, some 23⟩ ∧ Token.scan source = .ok tokens ∧ token ∈ tokens ∧
      token.place = failure'.place := by
  intro node source root
  obtain ⟨failure, t, hrun, hplace⟩ : ∃ failure t,
      Machine.evaluate ⟨50, none, Host.costs⟩ 400 node root.1 root.2 = some (.failed failure, t) ∧
      failure.place = some ⟨3, none⟩ := ⟨_, _, by cbv, by cbv⟩
  obtain ⟨n, failure', u, hparse, hrun', hplace'⟩ : ∃ n failure' u, Program.parse source = .ok n ∧
      Program.run 50 400 source root.1 root.2 = some (.error (.runtime failure'), u) ∧
      failure'.place = some ⟨1, some 23⟩ := ⟨_, _, _, by cbv, by cbv, by cbv⟩
  obtain ⟨k, c, hc, -, -, -, hnodes⟩ :=
    failure_at_innermost_node.1 ⟨50, none, Host.costs⟩ 400 node root.1 root.2 t failure hrun
  obtain ⟨-, hcrash⟩ | hdepth | ⟨tokens, token, fault, hscan, hmem, -, hfailure, -⟩ :=
    failure_at_innermost_node.2 source n none 50 400 _ u hparse hrun'
  · cases hcrash
  · obtain hdepth | ⟨levels, hdepth⟩ := hdepth
    · rw [Error.runtime.inj hdepth] at hplace'
      cases hplace'
    · rw [Error.runtime.inj hdepth] at hplace'
      cases hplace'
  · refine ⟨failure, t, k, c, n, failure', u, tokens, token, hrun, hplace, hc, hnodes ▸ hplace, hparse, hrun',
      hplace', hscan, hmem, ?_⟩
    rw [Error.runtime.inj hfailure]

end Scripting
