import Scripting.Program
import Scripting.Proofs.Evaluation.Keeping

/-!
Runs and sessions. The machine goes from configuration to configuration; a session runs programs in one
frame after each other, and any of them may end in any way or be broken off anywhere. In all the states
of a session the store is sound and extends those before it, if it was sound at the start.
-/

set_option autoImplicit false

namespace Scripting

theorem Outcome.Fits.locate {P : Policy} {s : Store} {out : Outcome} (h : out.Fits P s)
    (place : Option Place) : (out.locate place).Fits P s := by
  cases out with
  | failed failure => exact h
  | _ => exact h

structure Activation.Fits (P : Policy) (s : Store) (a : Activation) : Prop where
  scope : a.scope.index < s.frames.size
  node : a.node.Everywhere P.admits

theorem Activation.Fits.mono {P : Policy} {s t : Store} {a : Activation} (he : s.Extends t)
    (h : a.Fits P s) : a.Fits P t :=
  ⟨Nat.lt_of_lt_of_le h.scope he.frames_size, h.node⟩

theorem Activation.eval_keeps {P : Policy} {limits : Limits} {fuel : Nat} {a : Activation}
    {s t : Store} {out : Outcome} (hs : s.Sound P) (ha : a.Fits P s)
    (hr : a.eval limits fuel s = some (out, t)) : s.Extends t ∧ t.Sound P ∧ out.Fits P t := by
  obtain ⟨he, ht, hout⟩ := Activation.eval_obeys (C := P.contract) ⟨hs, ha.scope, ha.node⟩ hr
  exact ⟨he, ht, Policy.outcome_contract.1 hout⟩

def Task.store : Task → Store
  | .done _ s | .visit _ _ _ s _ | .again s => s

namespace Task.Keeps

variable {P : Policy} {s : Store} {task : Task}

theorem store_extends (h : task.Keeps P s) : s.Extends task.store := by
  cases task with
  | done out u => exact h.1
  | visit cost node scope u resume => exact h.1
  | again u => exact h.1

theorem self (h : task.Keeps P s) : task.Keeps P task.store := by
  cases task with
  | done out u => exact ⟨.refl u, h.2⟩
  | visit cost node scope u resume => exact ⟨.refl u, h.2⟩
  | again u => exact ⟨.refl u, h.2⟩

end Task.Keeps

namespace Machine

structure Config where
  task : Task
  active : Activation
  stack : List Waiting

namespace Config

def start (limits : Limits) (node : Node) (scope : FrameId) (s : Store) : Config :=
  ⟨node.start limits 0 scope s, ⟨node, scope, 0⟩, []⟩

def store (c : Config) : Store := c.task.store

def next (limits : Limits) : Config → Option Config
  | ⟨.done _ _, _, []⟩ => none
  | ⟨.done out s, active, waiting :: stack⟩ =>
    some ⟨waiting.resume (out.locate active.node.place) s, waiting.activation, stack⟩
  | ⟨.visit cost node scope s resume, active, stack⟩ =>
    if limits.allows (active.depth + cost) then
      some ⟨node.start limits (active.depth + cost) scope s, ⟨node, scope, active.depth + cost⟩,
        ⟨active, resume⟩ :: stack⟩
    else some ⟨resume (.aborted .stack) s, active, stack⟩
  | ⟨.again s, active, stack⟩ =>
    some ⟨active.node.start limits active.depth active.scope s, active, stack⟩

inductive Reaches (limits : Limits) : Config → Config → Prop where
  | refl (c : Config) : Reaches limits c c
  | next {c d e : Config} (h : Reaches limits c d) (he : d.next limits = some e) :
      Reaches limits c e

theorem Reaches.head {limits : Limits} {c d e : Config} (hd : c.next limits = some d)
    (h : Reaches limits d e) : Reaches limits c e := by
  induction h with
  | refl => exact .next (.refl c) hd
  | next _ he ih => exact .next ih he

theorem reaches_of_run {limits : Limits} {steps : Nat} {c : Config} {r : Outcome × Store}
    (h : run limits steps c.task c.active c.stack = some r) :
    ∃ d out, Reaches limits c d ∧ d.task = .done out r.2 ∧ d.stack = [] ∧
      r.1 = out.locate d.active.node.place := by
  induction steps generalizing c with
  | zero => cases h
  | succ steps ih =>
    obtain ⟨task, active, stack⟩ := c
    cases task with
    | done out s =>
      cases stack with
      | nil =>
        cases h
        exact ⟨_, out, .refl _, rfl, rfl, rfl⟩
      | cons waiting stack =>
        obtain ⟨d, out', hd, rest⟩ := ih (c := ⟨_, _, _⟩) h
        exact ⟨d, out', .head rfl hd, rest⟩
    | visit cost node scope s resume =>
      rw [run] at h
      by_cases ha : limits.allows (active.depth + cost) = true
      · simp only [ha, if_true] at h
        obtain ⟨d, out', hd, rest⟩ := ih (c := ⟨_, _, _⟩) h
        exact ⟨d, out', .head (if_pos ha) hd, rest⟩
      · simp only [ha] at h
        obtain ⟨d, out', hd, rest⟩ := ih (c := ⟨_, _, _⟩) h
        exact ⟨d, out', .head (if_neg ha) hd, rest⟩
    | again s =>
      obtain ⟨d, out', hd, rest⟩ := ih (c := ⟨_, _, _⟩) h
      exact ⟨d, out', .head rfl hd, rest⟩

end Config

/-- The waiting node goes on well, whatever fitting outcome it gets in a later store. -/
structure Waiting.Keeps (P : Policy) (s : Store) (w : Waiting) : Prop where
  activation : w.activation.Fits P s
  resume : ∀ out t, s.Extends t → t.Sound P → out.Fits P t → (w.resume out t).Keeps P t

theorem Waiting.Keeps.mono {P : Policy} {s t : Store} {w : Waiting} (he : s.Extends t)
    (h : w.Keeps P s) : w.Keeps P t :=
  ⟨h.activation.mono he, fun out u hu => h.resume out u (he.trans hu)⟩

namespace Config

structure Keeps (P : Policy) (c : Config) : Prop where
  task : c.task.Keeps P c.store
  active : c.active.Fits P c.store
  stack : ∀ w ∈ c.stack, w.Keeps P c.store

variable {P : Policy} {limits : Limits}

theorem Keeps.of_task {s : Store} {task : Task} {active : Activation} {stack : List Waiting}
    (h : task.Keeps P s) (ha : active.Fits P s) (hw : ∀ w ∈ stack, w.Keeps P s) :
    Keeps P ⟨task, active, stack⟩ ∧ s.Extends task.store :=
  ⟨⟨h.self, ha.mono h.store_extends, fun w hm => (hw w hm).mono h.store_extends⟩, h.store_extends⟩

theorem Keeps.start (limits : Limits) {node : Node} {scope : FrameId} {s : Store}
    (hs : s.Sound P) (hscope : scope.index < s.frames.size) (hn : node.Everywhere P.admits) :
    Keeps P (start limits node scope s) ∧ s.Extends (start limits node scope s).store :=
  Keeps.of_task (Node.start_keeps hs hscope hn) ⟨hscope, hn⟩ nofun

theorem Keeps.sound {c : Config} (h : c.Keeps P) : c.store.Sound P := by
  obtain ⟨task, active, stack⟩ := c
  cases task with
  | done out s => exact h.task.2.1
  | visit cost node scope s resume => exact h.task.2.1
  | again s => exact h.task.2

theorem Keeps.next {c d : Config} (h : c.Keeps P) (hd : c.next limits = some d) :
    d.Keeps P ∧ c.store.Extends d.store := by
  obtain ⟨task, active, stack⟩ := c
  cases task with
  | done out s =>
    cases stack with
    | nil => cases hd
    | cons waiting stack =>
      cases hd
      have hw := List.forall_mem_cons.1 h.stack
      exact Keeps.of_task (hw.1.resume _ s (.refl s) h.sound (h.task.2.2.locate _)) hw.1.activation hw.2
  | visit cost node scope s resume =>
    obtain ⟨-, hs, hscope, hnode, hresume⟩ := h.task
    rw [Config.next] at hd
    split at hd
    · cases hd
      refine Keeps.of_task (Node.start_keeps hs hscope hnode) ⟨hscope, hnode⟩ ?_
      exact List.forall_mem_cons.2 ⟨⟨h.active, hresume⟩, h.stack⟩
    · cases hd
      exact Keeps.of_task (hresume (.aborted .stack) s (.refl s) hs (P.stack _ rfl)) h.active h.stack
  | again s =>
    cases hd
    exact Keeps.of_task (Node.start_keeps h.sound h.active.scope h.active.node) h.active h.stack

end Config

end Machine

/-- Nothing is under way, and programs are to be run in the frame `root`. -/
def Machine.Config.idle (root : FrameId) (s : Store) : Config :=
  ⟨.done (.value .nothing) s, ⟨.sequence [] none, root, 0⟩, []⟩

open Machine (Config)

/-- In a session the machine goes on, or a program is started in the frame `root`, whether or not the one
    before it has come to its end. -/
inductive Session.Move (programs : Node → Prop) (root : FrameId) : Config → Config → Prop where
  | step {limits : Limits} {c d : Config} (h : c.next limits = some d) : Move programs root c d
  | start {limits : Limits} {program : Node} {c : Config} (hp : programs program) :
      Move programs root c (.start limits program root c.store)

inductive Session (programs : Node → Prop) (root : FrameId) : Config → Config → Prop where
  | refl (c : Config) : Session programs root c c
  | move {c d e : Config} (h : Session programs root c d) (he : Session.Move programs root d e) :
      Session programs root c e

namespace Session

variable {P : Policy} {programs : Node → Prop} {root : FrameId} {c d e : Config}

theorem Move.keeps (hp : ∀ n, programs n → n.Everywhere P.admits) (hc : c.Keeps P)
    (hroot : root.index < c.store.frames.size) (h : Move programs root c d) :
    d.Keeps P ∧ c.store.Extends d.store := by
  cases h with
  | step h => exact hc.next h
  | start hprogram => exact Config.Keeps.start _ hc.sound hroot (hp _ hprogram)

theorem keeps (hp : ∀ n, programs n → n.Everywhere P.admits) (hc : c.Keeps P)
    (hroot : root.index < c.store.frames.size) (h : Session programs root c d) :
    d.Keeps P ∧ c.store.Extends d.store := by
  induction h with
  | refl => exact ⟨hc, .refl _⟩
  | move _ he ih =>
    obtain ⟨hd, hcd⟩ := ih
    obtain ⟨he, hde⟩ := he.keeps hp hd (Nat.lt_of_lt_of_le hroot hcd.frames_size)
    exact ⟨he, hcd.trans hde⟩

theorem trans (h : Session programs root c d) (hd : Session programs root d e) :
    Session programs root c e := by
  induction hd with
  | refl => exact h
  | move _ he ih => exact .move ih he

theorem reaches {limits : Limits} (h : Session programs root c d) (hd : d.Reaches limits e) :
    Session programs root c e := by
  induction hd with
  | refl => exact h
  | next _ he ih => exact .move ih (.step he)

theorem evaluate {limits : Limits} {steps : Nat} {program : Node} {out : Outcome} {u : Store}
    (h : Session programs root c d) (hp : programs program)
    (hr : Machine.evaluate limits steps program root d.store = some (out, u)) :
    ∃ e last, Session programs root c e ∧ e.task = .done last u ∧
      out = last.locate e.active.node.place := by
  obtain ⟨e, last, he, htask, -, hout⟩ :=
    Config.reaches_of_run (c := .start limits program root d.store) hr
  exact ⟨e, last, (h.move (.start hp)).reaches he, htask, hout⟩

theorem run_source [Host] {calls steps : Nat} {source : String} {result : Except Error Value} {u : Store}
    (h : Session programs root c d)
    (hp : ∀ program, Program.parse source = .ok program → programs program)
    (hr : Program.run calls steps source root d.store = some (result, u)) :
    ∃ e, Session programs root c e ∧ e.store = u := by
  unfold Program.run at hr
  split at hr
  · cases hr
    exact ⟨d, h, rfl⟩
  · rename_i program hparse
    unfold Program.execute at hr
    split at hr
    · cases hr
      exact ⟨d, h, rfl⟩
    · obtain ⟨⟨out, v⟩, hrun, heq⟩ := Option.map_eq_some_iff.1 hr
      cases heq
      obtain ⟨e, last, he, htask, -⟩ := h.evaluate (hp program hparse) hrun
      exact ⟨e, he, by rw [Config.store, htask]; rfl⟩

end Session

namespace Store

variable {P : Policy}

theorem Sound.empty : Store.empty.Sound P where
  parent_lt f p hp := by
    rw [frame_of_size_le (Nat.zero_le _)] at hp
    cases hp
  fits _ hv := (not_holds_empty hv).elim

theorem Extends.install (s : Store) (f : FrameId) (natives : List Native) :
    s.Extends (s.install f natives) := by
  induction natives generalizing s with
  | nil => exact .refl s
  | cons fn natives ih => exact (Extends.define s f fn.name (.native fn)).trans (ih _)

theorem AllHold.install {p : Value → Prop} {s : Store} (h : s.AllHold p) (f : FrameId)
    {natives : List Native} (hn : ∀ fn ∈ natives, p (.native fn)) : (s.install f natives).AllHold p := by
  induction natives generalizing s with
  | nil => exact h
  | cons fn natives ih =>
    rw [List.forall_mem_cons] at hn
    exact ih (h.define f fn.name hn.1) hn.2

theorem newRoot_lt (s : Store) (source : Option String) :
    (s.newRoot source).1.index < (s.newRoot source).2.frames.size :=
  Nat.lt_of_lt_of_le (s.newFrame_lt none source none) (Extends.install _ _ _).frames_size

theorem Sound.install {s : Store} (h : s.Sound P) (f : FrameId) {natives : List Native}
    (hn : ∀ fn ∈ natives, P.hosts fn ∧ fn.bound = none) : (s.install f natives).Sound P := by
  induction natives generalizing s with
  | nil => exact h
  | cons fn natives ih =>
    rw [List.forall_mem_cons] at hn
    refine ih (h.define f fn.name ⟨?_, hn.1.1⟩) hn.2
    simp [Value.refs, hn.1.2]

def rootWith (file : Option String) (natives : List Native) : FrameId × Store :=
  let root := Store.empty.newFrame none file none
  (root.1, root.2.install root.1 natives)

theorem rootWith_lt (file : Option String) (natives : List Native) :
    (rootWith file natives).1.index < (rootWith file natives).2.frames.size :=
  Nat.lt_of_lt_of_le (Store.empty.newFrame_lt none file none) (Extends.install _ _ _).frames_size

theorem Sound.rootWith (file : Option String) {natives : List Native}
    (hn : ∀ fn ∈ natives, P.hosts fn ∧ fn.bound = none) : (rootWith file natives).2.Sound P :=
  (Sound.empty.newFrame (by simp)).install _ hn

end Store

theorem Machine.Config.Keeps.idle {P : Policy} {root : FrameId} {s : Store} (hs : s.Sound P)
    (hroot : root.index < s.frames.size) (hn : P.admits (.sequence [] none)) :
    (idle root s).Keeps P where
  task := ⟨.refl s, hs, .nothing⟩
  active := ⟨hroot, .leaf hn rfl⟩
  stack := nofun

end Scripting
