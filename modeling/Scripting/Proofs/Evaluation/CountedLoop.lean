import Mathlib
import Scripting.Proofs.Evaluation.Limits
import Scripting.Proofs.Evaluation.Transparency
import Scripting.Proofs.Grammar.Places
import Scripting.Proofs.Grammar.Shape

/-!
The meaning of counting loops. A loop with a start, a test and a step is a block around an ordinary loop,
and its step is evaluated in the frame of each round, after the body. Its meaning is stated here on its
own: one frame for the whole loop, in which the start, every test and every step are evaluated, and a
fresh frame inside it for the body in each round. Both agree on every run, because a body that binds
nothing leaves the frame of its round without names, and there the step does what it does in the frame
around. From there a look-up has one more link to follow, and a test that is left out is a literal: where the
stack of the host has room for that much less, a loop may be cut off although its parts are not.
-/

set_option autoImplicit false

namespace Scripting

/-- The machine, started on the node, stops with an outcome and a store. -/
def Activation.Ends (limits : Limits) (a : Activation) (s : Store) (out : Outcome) (t : Store) : Prop :=
  ∃ steps, Machine.run limits steps (a.node.start limits a.depth a.scope s) a [] = some (out, t)

/-- What a part of a loop gives that is evaluated in a frame at a depth of host activations; a part that
    is left out is a value, and none is begun beyond the allowance. -/
inductive Limits.Gives (limits : Limits) (f : FrameId) (depth : Nat) (s : Store) (absent : Value) :
    Option Node → Outcome → Store → Prop where
  | node {n : Node} {out : Outcome} {t : Store} (room : limits.allows depth)
      (ends : Activation.Ends limits ⟨n, f, depth⟩ s out t) : Gives limits f depth s absent (some n) out t
  | absent (room : limits.allows depth) : Gives limits f depth s absent none (.value absent) s
  | stopped {part : Option Node} (room : limits.allows depth = false) :
      Gives limits f depth s absent part (.aborted .stack) s

def Outcome.isValue : Outcome → Bool
  | .value _ => true
  | _ => false

structure CountingLoop where
  start : Option Node
  test : Option Node
  step : Option Node
  body : Node

namespace CountingLoop

/-- A round in the frame `l` of a loop: the body in a fresh frame inside `l`, and then the step in `l`
    itself. -/
inductive Round (limits : Limits) (loop : CountingLoop) (l : FrameId) (depth : Nat) (s : Store) :
    Outcome → Store → Prop where
  | bodyLeaves {out : Outcome} {t : Store}
      (body : limits.Gives (s.newFrame (some l) none none).1 (depth + 9) (s.newFrame (some l) none none).2
        .nothing (some loop.body) out t)
      (leaves : out.isValue = false) : Round limits loop l depth s out t
  | step {v : Value} {u t : Store} {out : Outcome}
      (body : limits.Gives (s.newFrame (some l) none none).1 (depth + 9) (s.newFrame (some l) none none).2
        .nothing (some loop.body) (.value v) u)
      (step : limits.Gives l (depth + 9) u v loop.step out t) : Round limits loop l depth s out t

/-- Tests and rounds in the frame `l`, until a test is false or something leaves the loop. -/
inductive Rounds (limits : Limits) (loop : CountingLoop) (l : FrameId) (depth : Nat) :
    Store → Outcome → Store → Prop where
  | testLeaves {s t : Store} {out : Outcome}
      (test : limits.Gives l (depth + 5) s (.boolean true) loop.test out t) (leaves : out.isValue = false) :
      Rounds limits loop l depth s out t
  | mismatch {s t : Store} {v : Value}
      (test : limits.Gives l (depth + 5) s (.boolean true) loop.test (.value v) t)
      (type : ∀ b, v ≠ .boolean b) :
      Rounds limits loop l depth s (.failed ⟨.conditionType "while" v.typeName, none⟩) t
  | finished {s t : Store}
      (test : limits.Gives l (depth + 5) s (.boolean true) loop.test (.value (.boolean false)) t) :
      Rounds limits loop l depth s (.value .nothing) t
  | roundLeaves {s t u : Store} {out : Outcome}
      (test : limits.Gives l (depth + 5) s (.boolean true) loop.test (.value (.boolean true)) t)
      (round : Round limits loop l depth t out u) (leaves : out.isValue = false) :
      Rounds limits loop l depth s out u
  | again {s t u w : Store} {v : Value} {out : Outcome}
      (test : limits.Gives l (depth + 5) s (.boolean true) loop.test (.value (.boolean true)) t)
      (round : Round limits loop l depth t (.value v) u) (rounds : Rounds limits loop l depth u out w) :
      Rounds limits loop l depth s out w

/-- The whole loop in the frame `f`: the start in a new frame inside `f`, and then the rounds there. -/
inductive Runs (limits : Limits) (loop : CountingLoop) (f : FrameId) (depth : Nat) (s : Store) :
    Outcome → Store → Prop where
  | startLeaves {out : Outcome} {t : Store}
      (start : limits.Gives (s.newFrame (some f) none none).1 (depth + 5) (s.newFrame (some f) none none).2
        .nothing loop.start out t)
      (leaves : out.isValue = false) : Runs limits loop f depth s out t
  | rounds {v : Value} {u t : Store} {out : Outcome}
      (start : limits.Gives (s.newFrame (some f) none none).1 (depth + 5) (s.newFrame (some f) none none).2
        .nothing loop.start (.value v) u)
      (rounds : Rounds limits loop (s.newFrame (some f) none none).1 (depth + 5) u out t) :
      Runs limits loop f depth s out t

end CountingLoop

/-! Ends without fuel. -/

section Ends

variable {limits : Limits} {a : Activation} {s t : Store} {out : Outcome}

theorem Activation.ends_iff : a.Ends limits s out t ↔ ∃ fuel, a.eval limits fuel s = some (out, t) := by
  constructor
  · rintro ⟨steps, h⟩
    obtain ⟨fuel, m, r, hr, -, hd⟩ := Machine.carryOut_of_run _ _ _ _ _ h
    cases hd
    exact ⟨fuel + 1, hr⟩
  · rintro ⟨fuel, h⟩
    obtain ⟨k, hk⟩ := Machine.run_of_eval _ _ _ _ h
    exact ⟨0 + k, hk 0 []⟩

def Task.Ends (limits : Limits) (a : Activation) (task : Task) (out : Outcome) (t : Store) : Prop :=
  ∃ fuel, task.carryOut limits (Activation.eval limits fuel) a = some (out, t)

theorem Activation.ends_iff_start :
    a.Ends limits s out t ↔ (a.node.start limits a.depth a.scope s).Ends limits a out t := by
  rw [Activation.ends_iff]
  constructor
  · rintro ⟨fuel, h⟩
    cases fuel with
    | zero => cases h
    | succ fuel => exact ⟨fuel, h⟩
  · rintro ⟨fuel, h⟩
    exact ⟨fuel + 1, h⟩

theorem Task.ends_done {o : Outcome} :
    (Task.done o s).Ends limits a out t ↔ out = o.locate a.node.place ∧ t = s := by
  constructor
  · rintro ⟨_, h⟩
    cases h
    exact ⟨rfl, rfl⟩
  · rintro ⟨rfl, rfl⟩
    exact ⟨0, rfl⟩

theorem Task.ends_again : (Task.again s).Ends limits a out t ↔ a.Ends limits s out t :=
  Activation.ends_iff.symm

variable {cost : Nat} {n : Node} {f : FrameId}

theorem Task.ends_visit_of_ends {k : Outcome → Store → Task} {o : Outcome} {u : Store}
    (room : limits.allows (a.depth + cost)) (hn : Activation.Ends limits ⟨n, f, a.depth + cost⟩ s o u)
    (hk : (k o u).Ends limits a out t) : (Task.visit cost n f s k).Ends limits a out t := by
  obtain ⟨fuel, heval⟩ := Activation.ends_iff.1 hn
  obtain ⟨fuel', hend⟩ := hk
  have heval := Activation.eval_mono (Nat.le_max_left fuel fuel') _ _ _ heval
  refine ⟨max fuel fuel', ?_⟩
  simp only [Task.carryOut, if_pos room, heval]
  exact Task.carryOut_mono (fun _ _ _ => Activation.eval_mono (Nat.le_max_right fuel fuel') _ _ _) _ _ _ hend

theorem Task.ends_value_of_ends {k : Value → Store → Task} {v : Value} {u : Store}
    (room : limits.allows (a.depth + cost)) (hn : Activation.Ends limits ⟨n, f, a.depth + cost⟩ s (.value v) u)
    (hk : (k v u).Ends limits a out t) : (Task.value cost n f s k).Ends limits a out t :=
  Task.ends_visit_of_ends room hn hk

theorem Program.execute_of_aborted [Host] {calls : Nat} {cause : Abort} (hcalls : nesting calls ≤ maxNesting)
    (h : Activation.Ends (Program.limits calls) ⟨n, f, 4⟩ s (.aborted cause) t) (rest : List Node)
    (p : Option Place) :
    ∃ steps, execute calls steps (.sequence (n :: rest) p) f s = some (result (.aborted cause), t) := by
  have hroom : (Program.limits calls).allows 4 := Limits.allows_mono (by decide) (Program.allows_limits calls)
  have hprogram : Activation.Ends (Program.limits calls) ⟨.sequence (n :: rest) p, f, 0⟩ s (.aborted cause) t :=
    Activation.ends_iff_start.2 (Task.ends_visit_of_ends hroom h (Task.ends_done.2 ⟨rfl, rfl⟩))
  obtain ⟨steps, hsteps⟩ := hprogram
  refine ⟨steps, ?_⟩
  rw [execute, if_neg (Nat.not_lt.2 hcalls), Machine.evaluate, hsteps]
  rfl

variable (absent : Value)

theorem Task.exists_gives {fuel : Nat} {k : Outcome → Store → Task}
    (h : (Task.visit cost n f s k).carryOut limits (Activation.eval limits fuel) a = some (out, t)) :
    ∃ o u, limits.Gives f (a.depth + cost) s absent (some n) o u ∧
      (k o u).carryOut limits (Activation.eval limits fuel) a = some (out, t) := by
  simp only [Task.carryOut] at h
  split at h
  · rename_i room
    split at h
    · cases h
    · rename_i o u heval
      exact ⟨o, u, .node room (Activation.ends_iff.2 ⟨fuel, heval⟩), h⟩
  · rename_i room
    exact ⟨_, s, .stopped (by simpa using room), h⟩

theorem Task.ends_visit {k : Outcome → Store → Task} :
    (Task.visit cost n f s k).Ends limits a out t ↔
      ∃ o u, limits.Gives f (a.depth + cost) s absent (some n) o u ∧ (k o u).Ends limits a out t := by
  constructor
  · rintro ⟨fuel, h⟩
    obtain ⟨o, u, hgives, h⟩ := Task.exists_gives absent h
    exact ⟨o, u, hgives, fuel, h⟩
  · rintro ⟨o, u, hgives, hk⟩
    cases hgives with
    | node room ends => exact Task.ends_visit_of_ends room ends hk
    | stopped room =>
      obtain ⟨fuel, h⟩ := hk
      refine ⟨fuel, ?_⟩
      simp only [Task.carryOut, room]
      exact h

theorem Task.ends_value {k : Value → Store → Task} :
    (Task.value cost n f s k).Ends limits a out t ↔
      (∃ o, limits.Gives f (a.depth + cost) s absent (some n) o t ∧ o.isValue = false ∧
        out = o.locate a.node.place) ∨
      ∃ v u, limits.Gives f (a.depth + cost) s absent (some n) (.value v) u ∧
        (k v u).Ends limits a out t := by
  rw [Task.value, Task.ends_visit absent]
  constructor
  · rintro ⟨o, u, hgives, h⟩
    cases o with
    | value v => exact .inr ⟨v, u, hgives, h⟩
    | _ =>
      obtain ⟨rfl, rfl⟩ := Task.ends_done.1 h
      exact .inl ⟨_, hgives, rfl, rfl⟩
  · rintro (⟨o, hgives, hvalue, rfl⟩ | ⟨v, u, hgives, h⟩)
    · refine ⟨o, t, hgives, ?_⟩
      cases o with
      | value v => cases hvalue
      | _ => exact Task.ends_done.2 ⟨rfl, rfl⟩
    · exact ⟨.value v, u, hgives, h⟩

end Ends

namespace Outcome

@[simp]
theorem locate_locate (out : Outcome) (p : Option Place) : (out.locate p).locate p = out.locate p := by
  cases out with
  | failed failure =>
    obtain ⟨fault, q⟩ := failure
    cases q <;> cases p <;> rfl
  | _ => rfl

@[simp]
theorem isValue_locate (out : Outcome) (p : Option Place) : (out.locate p).isValue = out.isValue := by
  cases out <;> rfl

theorem locate_eq_value_iff {out : Outcome} {p : Option Place} {v : Value} :
    out.locate p = .value v ↔ out = .value v := by
  cases out <;> simp [locate]

end Outcome

namespace Limits.Gives

variable {limits : Limits} {f l : FrameId} {depth : Nat} {s t : Store} {absent : Value} {part : Option Node}
  {out : Outcome}

theorem room_of_value {v : Value} (h : limits.Gives f depth s absent part (.value v) t) :
    limits.allows depth := by
  cases h with
  | node room | absent room => exact room

theorem some_iff {n : Node} (room : limits.allows depth) :
    limits.Gives f depth s absent (some n) out t ↔ Activation.Ends limits ⟨n, f, depth⟩ s out t := by
  constructor
  · intro h
    cases h with
    | node _ ends => exact ends
    | stopped hstopped => exact absurd (room.symm.trans hstopped) (by decide)
  · exact .node room

theorem none_iff (room : limits.allows depth) :
    limits.Gives f depth s absent none out t ↔ out = .value absent ∧ t = s := by
  constructor
  · intro h
    cases h with
    | absent => exact ⟨rfl, rfl⟩
    | stopped hstopped => exact absurd (room.symm.trans hstopped) (by decide)
  · rintro ⟨rfl, rfl⟩
    exact .absent room

theorem store_extends (h : limits.Gives f depth s absent part out t) (hf : f.index < s.frames.size) :
    s.Extends t := by
  cases h with
  | node _ ends =>
    obtain ⟨fuel, heval⟩ := Activation.ends_iff.1 ends
    exact Activation.eval_extends hf heval
  | absent | stopped => exact .refl s

theorem transparent {n : Node} (h : limits.Gives f depth s absent (some n) out t) (hs : s.Transparent f l)
    (hn : n.Bindless) : t.Transparent f l := by
  cases h with
  | node _ ends =>
    obtain ⟨fuel, heval⟩ := Activation.ends_iff.1 ends
    exact hs.eval hs.lt_size (fun _ => hn) heval
  | stopped => exact hs

/-! From limits to limits that spare something. -/

section Spare

variable {low high : Limits} {slack : Nat} {cut : Outcome → Prop} {g h : FrameId}
  (hspare : low.Spares high slack cut) (hout : ¬cut out)

include hspare hout

theorem room (hgives : low.Gives f depth s absent part out t) : low.allows depth := by
  cases hgives with
  | node room | absent room => exact room
  | stopped hstopped => exact (hout (hspare.stop hstopped)).elim

theorem mono (hgives : low.Gives f depth s absent part out t) : high.Gives f depth s absent part out t := by
  have room := hspare.atMost.allows (hgives.room hspare hout)
  cases hgives with
  | node _ ends =>
    obtain ⟨fuel, heval⟩ := Activation.ends_iff.1 ends
    exact .node room (Activation.ends_iff.2 ⟨fuel, Activation.eval_uncut hspare.toCuts _ _ _ _ _ heval hout⟩)
  | absent => exact .absent room
  | stopped hstopped => exact (hout (hspare.stop hstopped)).elim

theorem of_boolean {b : Bool} {w : Word}
    (hgives : low.Gives f depth s (.boolean b) (some (part.getD (.boolean b w))) out t) :
    high.Gives f depth s (.boolean b) part out t := by
  have room := hgives.room hspare hout
  cases part with
  | some n => exact hgives.mono hspare hout
  | none =>
    rw [Option.getD_none, some_iff room, Activation.ends_iff_start] at hgives
    simp only [Node.start] at hgives
    cases hliteral : low.allows (depth + low.costs.literal) with
    | true =>
      rw [Task.within_of_allows hliteral] at hgives
      exact (none_iff (hspare.atMost.allows room)).2 (Task.ends_done.1 hgives)
    | false =>
      rw [Task.within_of_not_allows hliteral] at hgives
      obtain ⟨rfl, -⟩ := Task.ends_done.1 hgives
      exact (hout (hspare.stop hliteral)).elim

theorem boolean {b : Bool} {w : Word} (hliteral : high.costs.literal ≤ slack)
    (hgives : low.Gives f depth s (.boolean b) part out t) :
    high.Gives f depth s (.boolean b) (some (part.getD (.boolean b w))) out t := by
  have room := hgives.room hspare hout
  cases part with
  | some n => exact hgives.mono hspare hout
  | none =>
    have fits : high.allows (depth + high.costs.literal) :=
      Limits.allows_mono (Nat.add_le_add_left hliteral depth) (hspare.spare room)
    rw [Option.getD_none, some_iff (hspare.atMost.allows room), Activation.ends_iff_start]
    simp only [Node.start, Task.within_of_allows fits]
    exact Task.ends_done.2 ((none_iff room).1 hgives)

theorem shift (hlink : g.index < h.index → high.costs.link ≤ slack)
    (hpart : ∀ n ∈ part, ∃ e p, n = .expression e p ∧ e.isExpression) (hs : s.Twins g h)
    (hgives : low.Gives g depth s absent part out t) : high.Gives h depth s absent part out t := by
  have room := hgives.room hspare hout
  have room' := hspare.atMost.allows room
  cases part with
  | none => exact (none_iff room').2 ((none_iff room).1 hgives)
  | some n =>
    obtain ⟨e, p, rfl, he⟩ := hpart n rfl
    obtain ⟨fuel, heval⟩ := Activation.ends_iff.1 ((some_iff room).1 hgives)
    refine (some_iff room').2 (Activation.ends_iff.2 ⟨fuel, ?_⟩)
    exact Activation.eval_expression_shifts hspare hlink he hs heval hout

end Spare

end Limits.Gives

section Sequence

variable {limits : Limits} {a : Activation} {s t : Store} {out : Outcome} {cost : Nat} {f : FrameId}
  {part : Option Node} {v : Value}

theorem Task.ends_sequence_optional {nodes : List Node} (room : limits.allows (a.depth + cost)) :
    (Task.sequence cost f (part.toList ++ nodes) v s).Ends limits a out t ↔
      (∃ o, limits.Gives f (a.depth + cost) s v part o t ∧ o.isValue = false ∧
        out = o.locate a.node.place) ∨
      ∃ w u, limits.Gives f (a.depth + cost) s v part (.value w) u ∧
        (Task.sequence cost f nodes w u).Ends limits a out t := by
  cases part with
  | some n => exact Task.ends_value v
  | none =>
    simp only [Limits.Gives.none_iff room]
    constructor
    · intro hends
      exact .inr ⟨v, s, ⟨rfl, rfl⟩, hends⟩
    · rintro (⟨o, ⟨rfl, rfl⟩, hvalue, -⟩ | ⟨w, u, ⟨heq, rfl⟩, hends⟩)
      · cases hvalue
      · cases heq
        exact hends

theorem Task.ends_sequence_last (room : limits.allows (a.depth + cost)) :
    (Task.sequence cost f part.toList v s).Ends limits a out t ↔
      ∃ o, limits.Gives f (a.depth + cost) s v part o t ∧ out = o.locate a.node.place := by
  rw [← List.append_nil part.toList, Task.ends_sequence_optional room]
  constructor
  · rintro (⟨o, hgives, -, rfl⟩ | ⟨w, u, hgives, hends⟩)
    · exact ⟨o, hgives, rfl⟩
    · obtain ⟨rfl, rfl⟩ := Task.ends_done.1 hends
      exact ⟨_, hgives, rfl⟩
  · rintro ⟨o, hgives, rfl⟩
    cases o with
    | value w => exact .inr ⟨w, t, hgives, Task.ends_done.2 ⟨rfl, rfl⟩⟩
    | _ => exact .inl ⟨_, hgives, rfl, rfl⟩

theorem Task.room_of_ends_sequence {high : Limits} {slack : Nat} {cut : Outcome → Prop} {nodes : List Node}
    (hspare : limits.Spares high slack cut) (hout : ¬cut out) (hnodes : nodes ≠ [])
    (hends : (Task.sequence cost f nodes v s).Ends limits a out t) : limits.allows (a.depth + cost) := by
  cases nodes with
  | nil => exact absurd rfl hnodes
  | cons n nodes =>
    obtain ⟨o, hgives, -, rfl⟩ | ⟨w, u, hgives, -⟩ := (Task.ends_value .nothing).1 hends
    · exact hgives.room hspare fun ho => hout (hspare.locate.2 ho)
    · exact hgives.room_of_value

end Sequence

namespace CountingLoop

variable {limits : Limits} {loop : CountingLoop} {f l : FrameId} {depth : Nat} {s t : Store} {out : Outcome}
  {p : Option Place}

/-- The step is an expression, and nothing is bound in the frame of a round. -/
structure Regular (loop : CountingLoop) : Prop where
  step : ∀ n ∈ loop.step, ∃ e p, n = .expression e p ∧ e.isExpression
  body : loop.body.Bindless

def roundNode (loop : CountingLoop) (p : Option Place) : Node :=
  .block (loop.body :: loop.step.toList) p

def loopNode (loop : CountingLoop) (w : Word) (p : Option Place) : Node :=
  .loop (loop.test.getD (.boolean true w)) (loop.roundNode p) p

theorem Round.store_extends (h : Round limits loop l depth s out t) (hl : l.index < s.frames.size) :
    s.Extends t := by
  have hnew := Store.Extends.newFrame s (some l) none none
  cases h with
  | bodyLeaves body => exact hnew.trans (body.store_extends (s.newFrame_lt _ _ _))
  | step body step =>
    have hbody := hnew.trans (body.store_extends (s.newFrame_lt _ _ _))
    exact hbody.trans (step.store_extends (Nat.lt_of_lt_of_le hl hbody.frames_size))

section Spare

variable {low high : Limits} {slack : Nat} {cut : Outcome → Prop} (hspare : low.Spares high slack cut)
  (hregular : loop.Regular)

include hspare hregular

/-! What the nodes of the loop do, its parts do. -/

theorem round_of_gives (hl : l.index < s.frames.size)
    (hgives : low.Gives l (depth + 4) s .nothing (some (loop.roundNode p)) out t) (hout : ¬cut out) :
    ∃ o, Round high loop l depth s o t ∧ out = o.locate p := by
  have hnew := Store.Transparent.newFrame hl
  rw [Limits.Gives.some_iff (hgives.room hspare hout), Activation.ends_iff_start] at hgives
  obtain ⟨o, body, leaves, rfl⟩ | ⟨v, u, body, hends⟩ := (Task.ends_value .nothing).1 hgives
  · exact ⟨o, .bodyLeaves (body.mono hspare fun ho => hout (hspare.locate.2 ho)) leaves, rfl⟩
  · have hu := body.transparent hnew hregular.body
    obtain ⟨o, step, rfl⟩ := (Task.ends_sequence_last body.room_of_value).1 hends
    refine ⟨o, .step (body.mono hspare (hspare.not_value v)) ?_, rfl⟩
    -- the step is evaluated further out, where look-ups are shorter
    exact step.shift hspare (fun ho => hout (hspare.locate.2 ho)) (fun hlt => absurd hlt hu.older.asymm)
      hregular.step (.inl hu)

theorem rounds_of_eval {w : Word} {fuel : Nat} (hl : l.index < s.frames.size)
    (heval : Activation.eval low fuel ⟨loop.loopNode w p, l, depth⟩ s = some (out, t)) (hout : ¬cut out) :
    ∃ o, Rounds high loop l depth s o t ∧ out = o.locate p := by
  -- By induction on the fuel: each evaluation of the loop node is one test and at most one round.
  induction fuel generalizing s with
  | zero => cases heval
  | succ fuel ih =>
    obtain ⟨o, u, htest, hrest⟩ := Task.exists_gives (.boolean true) heval
    have hu := Nat.lt_of_lt_of_le hl (htest.store_extends hl).frames_size
    cases o with
    | value v =>
      have htest := htest.of_boolean hspare (hspare.not_value v)
      cases v with
      | boolean b =>
        cases b with
        | false =>
          cases hrest
          exact ⟨_, .finished htest, rfl⟩
        | true =>
          obtain ⟨o, u', hgives, hrest⟩ := Task.exists_gives .nothing hrest
          cases o with
          | value v =>
            obtain ⟨o, hround, heq⟩ := round_of_gives hspare hregular hu hgives (hspare.not_value v)
            rw [Outcome.locate_eq_value_iff.1 heq.symm] at hround
            have hu' := Nat.lt_of_lt_of_le hu (hround.store_extends hu).frames_size
            obtain ⟨o, hrounds, rfl⟩ := ih hu' hrest
            exact ⟨o, .again htest hround hrounds, rfl⟩
          | _ =>
            cases hrest
            obtain ⟨o, hround, heq⟩ :=
              round_of_gives hspare hregular hu hgives fun ho => hout (hspare.locate.2 ho)
            refine ⟨o, .roundLeaves htest hround ?_, ?_⟩
            · rw [← Outcome.isValue_locate o p, ← heq]
              rfl
            · rw [heq]
              exact Outcome.locate_locate o p
      | _ =>
        cases hrest
        exact ⟨_, .mismatch htest (by simp), rfl⟩
    | _ =>
      cases hrest
      exact ⟨_, .testLeaves (htest.of_boolean hspare fun ho => hout (hspare.locate.2 ho)) rfl, rfl⟩

theorem runs_of_ends {w : Word}
    (hends : Activation.Ends low
      ⟨.counted loop.start (loop.test.getD (.boolean true w)) loop.step loop.body p, f, depth⟩ s out t)
    (hout : ¬cut out) : ∃ o, Runs high loop f depth s o t ∧ out = o.locate p := by
  have hnew := s.newFrame_lt (some f) none none
  rw [Activation.ends_iff_start] at hends
  have room : low.allows (depth + 5) := Task.room_of_ends_sequence hspare hout (by simp) hends
  obtain ⟨o, start, leaves, rfl⟩ | ⟨v, u, start, hends⟩ := (Task.ends_sequence_optional room).1 hends
  · exact ⟨o, .startLeaves (start.mono hspare fun ho => hout (hspare.locate.2 ho)) leaves, rfl⟩
  · have hu := Nat.lt_of_lt_of_le hnew (start.store_extends hnew).frames_size
    -- the loop is the last statement of the block
    have hlast : [loop.loopNode w p] = (some (loop.loopNode w p)).toList := rfl
    obtain ⟨o, hgives, rfl⟩ := (Task.ends_sequence_last room).1 (hlast ▸ hends)
    have ho : ¬cut o := fun ho => hout (hspare.locate.2 ho)
    obtain ⟨fuel, heval⟩ := Activation.ends_iff.1 ((Limits.Gives.some_iff room).1 hgives)
    obtain ⟨o, hrounds, rfl⟩ := rounds_of_eval hspare hregular hu heval ho
    exact ⟨o, .rounds (start.mono hspare (hspare.not_value v)) hrounds, Outcome.locate_locate o p⟩

/-! What the parts of the loop do, its nodes do with the room of a link and of a literal more. -/

variable (hlink : high.costs.link ≤ slack)

include hlink

theorem gives_of_round (hl : l.index < s.frames.size) (hround : Round low loop l depth s out t)
    (hout : ¬cut out) : high.Gives l (depth + 4) s .nothing (some (loop.roundNode p)) (out.locate p) t := by
  have hnew := Store.Transparent.newFrame hl
  have room {o : Outcome} {u v : Store} {g : FrameId} {part : Option Node} {absent : Value}
      (hgives : low.Gives g (depth + 9) u absent part o v) (ho : ¬cut o) : high.allows (depth + 4) :=
    Limits.allows_mono (by omega) (hspare.atMost.allows (hgives.room hspare ho))
  cases hround with
  | bodyLeaves body leaves =>
    refine .node (room body hout) (Activation.ends_iff_start.2 ?_)
    exact (Task.ends_value .nothing).2 (.inl ⟨out, body.mono hspare hout, leaves, rfl⟩)
  | @step v _ _ _ body step =>
    have hu := body.transparent hnew hregular.body
    have body' := body.mono hspare (hspare.not_value v)
    have step' := step.shift hspare hout (fun _ => hlink) hregular.step (.inr hu)
    refine .node (room step hout) (Activation.ends_iff_start.2 ((Task.ends_value .nothing).2 (.inr ?_)))
    exact ⟨_, _, body', (Task.ends_sequence_last body'.room_of_value).2 ⟨out, step', rfl⟩⟩

variable (hliteral : high.costs.literal ≤ slack)

include hliteral

theorem ends_of_rounds {w : Word} (hl : l.index < s.frames.size) (hrounds : Rounds low loop l depth s out t)
    (hout : ¬cut out) : Activation.Ends high ⟨loop.loopNode w p, l, depth⟩ s (out.locate p) t := by
  induction hrounds with
  | testLeaves test leaves =>
    rw [Activation.ends_iff_start]
    exact (Task.ends_value _).2 (.inl ⟨_, test.boolean hspare hout hliteral, leaves, rfl⟩)
  | @mismatch s t v test type =>
    rw [Activation.ends_iff_start]
    refine (Task.ends_value _).2 (.inr ⟨_, _, test.boolean hspare (hspare.not_value v) hliteral, ?_⟩)
    cases v with
    | boolean b => exact absurd rfl (type b)
    | _ => exact Task.ends_done.2 ⟨rfl, rfl⟩
  | finished test =>
    rw [Activation.ends_iff_start]
    refine (Task.ends_value _).2 (.inr ⟨_, _, test.boolean hspare (hspare.not_value _) hliteral, ?_⟩)
    exact Task.ends_done.2 ⟨rfl, rfl⟩
  | @roundLeaves s t u o test round leaves =>
    have hu := Nat.lt_of_lt_of_le hl (test.store_extends hl).frames_size
    rw [Activation.ends_iff_start]
    refine (Task.ends_value _).2 (.inr ⟨_, _, test.boolean hspare (hspare.not_value _) hliteral, ?_⟩)
    refine (Task.ends_value .nothing).2 (.inl ⟨o.locate p, ?_, ?_, ?_⟩)
    · exact gives_of_round hspare hregular hlink hu round hout
    · rw [Outcome.isValue_locate, leaves]
    · exact (Outcome.locate_locate o p).symm
  | @again s t u t' v o test round rounds ih =>
    have hu := Nat.lt_of_lt_of_le hl (test.store_extends hl).frames_size
    have hu' := Nat.lt_of_lt_of_le hu (round.store_extends hu).frames_size
    rw [Activation.ends_iff_start]
    refine (Task.ends_value _).2 (.inr ⟨_, _, test.boolean hspare (hspare.not_value _) hliteral, ?_⟩)
    refine (Task.ends_value .nothing).2 (.inr ⟨v, u, ?_, Task.ends_again.2 (ih hu' hout)⟩)
    exact gives_of_round hspare hregular hlink hu round (hspare.not_value v)

theorem ends_of_runs {w : Word} (hruns : Runs low loop f depth s out t) (hout : ¬cut out) :
    Activation.Ends high
      ⟨.counted loop.start (loop.test.getD (.boolean true w)) loop.step loop.body p, f, depth⟩ s
      (out.locate p) t := by
  have hnew := s.newFrame_lt (some f) none none
  rw [Activation.ends_iff_start]
  cases hruns with
  | startLeaves start leaves =>
    have room := hspare.atMost.allows (start.room hspare hout)
    exact (Task.ends_sequence_optional room).2 (.inl ⟨out, start.mono hspare hout, leaves, rfl⟩)
  | @rounds v u _ _ start rounds =>
    have hu := Nat.lt_of_lt_of_le hnew (start.store_extends hnew).frames_size
    have start := start.mono hspare (hspare.not_value v)
    have hlast : [loop.loopNode w p] = (some (loop.loopNode w p)).toList := rfl
    have hends : Activation.Ends high ⟨loop.loopNode w p, _, depth + 5⟩ u (out.locate p) t :=
      ends_of_rounds hspare hregular hlink hliteral hu rounds hout
    refine (Task.ends_sequence_optional start.room_of_value).2 (.inr ⟨v, u, start, ?_⟩)
    refine hlast ▸ (Task.ends_sequence_last start.room_of_value).2 ⟨_, .node start.room_of_value hends, ?_⟩
    exact (Outcome.locate_locate out p).symm

end Spare

theorem Rounds.value_eq {v : Value} (h : Rounds limits loop l depth s (.value v) t) : v = .nothing := by
  generalize hout : Outcome.value v = out at h
  induction h with
  | testLeaves _ leaves | roundLeaves _ _ leaves =>
    subst hout
    cases leaves
  | mismatch => cases hout
  | finished =>
    cases hout
    rfl
  | again _ _ _ ih => exact ih hout

theorem Runs.value_eq {v : Value} (h : Runs limits loop f depth s (.value v) t) : v = .nothing := by
  cases h with
  | startLeaves _ leaves => cases leaves
  | rounds _ rounds => exact rounds.value_eq

/-- What the evaluation of an active node has to do with the loop. With all the room that is asked for it ends
    as the parts make it end. With less, it is cut off or ends in that way, and it is not cut off if the parts
    are not when there is still less room, by what a link or a literal takes. -/
structure Describes (loop : CountingLoop) (limits : Limits) (a : Activation) (s : Store) : Prop where
  ends_iff {out : Outcome} {t : Store} : a.Ends limits.unbounded s out t ↔
    ∃ e, loop.Runs limits.unbounded a.scope a.depth s e t ∧ out = e.locate a.node.place
  runs {out : Outcome} {t : Store} : a.Ends limits s out t → out.isCutOff = false →
    ∃ e, loop.Runs limits a.scope a.depth s e t ∧ out = e.locate a.node.place
  ends {e : Outcome} {t : Store} :
    loop.Runs (limits.less (max limits.costs.link limits.costs.literal)) a.scope a.depth s e t →
    e.isCutOff = false → a.Ends limits s (e.locate a.node.place) t
  exists_ends {e : Outcome} {t : Store} : loop.Runs limits.unbounded a.scope a.depth s e t →
    ∃ out u, a.Ends limits s out u ∧ (out.isCutOff ∨ out = e.locate a.node.place ∧ u = t)
  names {out : Outcome} {t : Store} : a.Ends limits s out t → t.names a.scope = s.names a.scope
  value {v : Value} {t : Store} : a.Ends limits s (.value v) t → v = .nothing

theorem describes_counted {w : Word} (h : loop.Regular) (hf : f.index < s.frames.size) :
    loop.Describes limits
      ⟨.counted loop.start (loop.test.getD (.boolean true w)) loop.step loop.body p, f, depth⟩ s := by
  let a : Activation :=
    ⟨.counted loop.start (loop.test.getD (.boolean true w)) loop.step loop.body p, f, depth⟩
  have hiff {out : Outcome} {t : Store} : a.Ends limits.unbounded s out t ↔
      ∃ e, loop.Runs limits.unbounded f depth s e t ∧ out = e.locate p := by
    have hspare := limits.spares_unbounded (max limits.costs.link limits.costs.literal)
    refine ⟨fun hends => runs_of_ends hspare h hends not_false, ?_⟩
    rintro ⟨e, hruns, rfl⟩
    exact ends_of_runs hspare h (Nat.le_max_left _ _) (Nat.le_max_right _ _) hruns not_false
  have hof {out : Outcome} {t : Store} (hends : a.Ends limits s out t) (hout : out.isCutOff = false) :
      ∃ e, loop.Runs limits f depth s e t ∧ out = e.locate p :=
    runs_of_ends limits.spares_self h hends (by simp [hout])
  refine ⟨hiff, hof, fun hruns hout => ?_, fun hruns => ?_, fun hends => ?_, fun hends => ?_⟩
  · exact ends_of_runs (limits.spares_less _) h (Nat.le_max_left _ _) (Nat.le_max_right _ _) hruns
      (by simp [hout])
  · obtain ⟨fuel, heval⟩ := Activation.ends_iff.1 (hiff.2 ⟨_, hruns, rfl⟩)
    obtain ⟨⟨out, u⟩, hlow, hcase⟩ := Activation.eval_low limits.cuts_unbounded fuel _ s _ heval
    exact ⟨out, u, Activation.ends_iff.2 ⟨fuel, hlow⟩, hcase.imp_right Prod.mk.inj⟩
  · obtain ⟨fuel, heval⟩ := Activation.ends_iff.1 hends
    exact Activation.eval_names hf hf (fun _ => .block _ p) heval
  · obtain ⟨e, hruns, he⟩ := hof hends rfl
    rw [Outcome.locate_eq_value_iff.1 he.symm] at hruns
    exact hruns.value_eq

end CountingLoop

namespace Grammar

def Derivation.condition? : {us : List Token} → {n : Node} → Derivation .loopTest us n → Option Node
  | _, n, .test _ _ => some n
  | _, _, .noTest _ => none

theorem Derivation.condition?_getD {us : List Token} {test : Node} (d : Derivation .loopTest us test) :
    ∃ w, test = d.condition?.getD (.boolean true w) := by
  cases d with
  | test d stop => exact ⟨⟨"", none⟩, rfl⟩
  | noTest stop => exact ⟨_, rfl⟩

theorem Derivation.isExpression_step {vs : List Token} {step : Option Node} (d : Derivation .loopStep vs step) :
    ∀ n ∈ step, ∃ e p, n = .expression e p ∧ e.isExpression := by
  cases d with
  | step d right =>
    rintro _ ⟨⟩
    exact ⟨_, _, rfl, d.hasShape⟩
  | noStep right => simp

def Derivation.countingLoop? : {o : Bool} → {ts : List Token} → {n : Node} →
    Derivation (.statement o) ts n → Option CountingLoop
  | _, _, _, @Derivation.counted _ start? _ _ _ step? _ _ n _ _ _ condition _ _ =>
    some ⟨start?, condition.condition?, step?, n⟩
  | _, _, _, _ => none

theorem Derivation.eq_counted {o : Bool} {ts : List Token} {n : Node} (d : Derivation (.statement o) ts n)
    {loop : CountingLoop} (h : d.countingLoop? = some loop) :
    (∀ m ∈ loop.step, ∃ e p, m = .expression e p ∧ e.isExpression) ∧
      ∃ w p, n = .counted loop.start (loop.test.getD (.boolean true w)) loop.step loop.body p := by
  cases d with
  | counted mark left first condition after body =>
    cases h
    obtain ⟨w, hw⟩ := condition.condition?_getD
    refine ⟨after.isExpression_step, w, mark.1.place, ?_⟩
    rw [← hw]
  | _ => cases h

theorem Derivation.exists_countingLoop {o : Bool} {mark : Token} {ts : List Token} {n : Node}
    (d : Derivation (.statement o) (mark :: ts) n) (hmark : mark.kind = .forWord) :
    ∃ loop, d.countingLoop? = some loop := by
  generalize hts : mark :: ts = us at d
  -- a phrase of any other kind starts with another token
  have starts {c : Category} {m : c.Tree} {kinds : List Token.Kind} (d : Derivation c us m)
      (h : c.starts? = some kinds) : .forWord ∈ kinds := by
    obtain ⟨t, vs, heq, ht⟩ := d.starts h
    rw [← hts] at heq
    cases heq
    rwa [hmark] at ht
  cases d with
  | counted mark left first condition after body => exact ⟨_, rfl⟩
  | declaring d => exact absurd (starts d rfl) (by decide)
  | evaluating d => exact absurd (starts d rfl) (by decide)
  | function m | print m | giveBack m | giveBackValue m | loop m | branch m | branches m | block m =>
    cases hts
    exact absurd (hmark.symm.trans m.2) (by decide)

end Grammar

open Grammar

end Scripting
