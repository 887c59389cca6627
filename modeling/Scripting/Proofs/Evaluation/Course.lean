import Scripting.Proofs.Evaluation.Session

/-!
Contracts in the course of a run. What the machine works on keeps a contract from configuration to
configuration: the task of the active node does, and so do the nodes that wait. Each node under
evaluation was asked for by the one that waits for it, in a frame that exists.
-/

set_option autoImplicit false

namespace Scripting

theorem Node.Asks.mono {n c : Node} {scope f : FrameId} {s : Store} {calls more : Nat}
    (hle : calls ≤ more) (h : n.Asks calls scope s f c) : n.Asks more scope s f c := by
  cases h with
  | operand hc => exact .operand hc
  | statement hn hc hd => exact .statement hn hc hd
  | body hn hd hbound =>
    have hmore : (calls : Int) ≤ more := Int.ofNat_le.2 hle
    exact .body hn hd (Int.le_trans hbound hmore)

theorem Node.Asks.later {n c : Node} {scope f : FrameId} {s t : Store} {calls : Nat}
    (h : n.Asks calls scope s f c) (hscope : scope.index < s.frames.size)
    (hf : f.index < s.frames.size) (he : s.Extends t) : n.Asks calls scope t f c := by
  have hdepth := (he.frame scope hscope).depth
  have hdepth' := (he.frame f hf).depth
  cases h with
  | operand hc => exact .operand hc
  | statement hn hc hd =>
    refine .statement hn hc ?_
    rw [hdepth, hdepth', hd]
  | body hn hd hbound =>
    refine .body hn ?_ ?_
    · rw [hdepth, hdepth', hd]
    · rwa [hdepth']

namespace Task.Obeys

variable {C : Contract} {calls more : Nat} {a : Activation} {s : Store} {task : Task}

theorem store_extends (h : task.Obeys C calls a s) : s.Extends task.store := by
  cases task with
  | done out t => exact h.1
  | visit cost node f t resume => exact h.1
  | again t => exact h.1

theorem store_obeys (h : task.Obeys C calls a s) : C.store task.store := by
  cases task with
  | done out t => exact h.2.1
  | visit cost node f t resume => exact h.2.1.store
  | again t => exact h.2.1

theorem self (h : task.Obeys C calls a s) : task.Obeys C calls a task.store := by
  cases task with
  | done out t => exact ⟨.refl t, h.2⟩
  | visit cost node f t resume => exact ⟨.refl t, h.2⟩
  | again t => exact ⟨.refl t, h.2⟩

theorem mono_calls (hle : calls ≤ more) (h : task.Obeys C calls a s) : task.Obeys C more a s := by
  induction task generalizing s with
  | done out t => exact h
  | visit cost node f t resume ih =>
    obtain ⟨he, hnode, hask, hresume⟩ := h
    refine ⟨he, hnode, hask.mono hle, fun out u hu hstore hout => ?_⟩
    exact ih out u (hresume out u hu hstore hout)
  | again t => exact h

end Task.Obeys

namespace Machine

structure Waiting.Obeys (C : Contract) (calls : Nat) (s : Store) (w : Waiting) : Prop where
  scope : w.activation.scope.index < s.frames.size
  node : C.node s w.activation.scope w.activation.node
  resume : ∀ out t, s.Extends t → C.store t → C.outcome t out →
    (w.resume out t).Obeys C calls w.activation t

namespace Waiting.Obeys

variable {C : Contract} {calls more : Nat} {s t : Store} {w : Waiting}

theorem mono (he : s.Extends t) (h : w.Obeys C calls s) : w.Obeys C calls t where
  scope := Nat.lt_of_lt_of_le h.scope he.frames_size
  node := C.node_mono he h.node
  resume out u hu := h.resume out u (he.trans hu)

theorem mono_calls (hle : calls ≤ more) (h : w.Obeys C calls s) : w.Obeys C more s where
  scope := h.scope
  node := h.node
  resume out t ht hstore hout := (h.resume out t ht hstore hout).mono_calls hle

end Waiting.Obeys

/-- The node was asked for by the first of those that wait, that one by the next, and so on. -/
def Asked (calls : Nat) (s : Store) : Activation → List Waiting → Prop
  | _, [] => True
  | a, w :: stack =>
    w.activation.node.Asks calls w.activation.scope s a.scope a.node ∧
      Asked calls s w.activation stack

theorem Asked.mono {calls more : Nat} (hle : calls ≤ more) {s : Store} {a : Activation}
    {stack : List Waiting} (h : Asked calls s a stack) : Asked more s a stack := by
  induction stack generalizing a with
  | nil => trivial
  | cons w stack ih => exact ⟨h.1.mono hle, ih h.2⟩

theorem Asked.later {calls : Nat} {s t : Store} {a : Activation} {stack : List Waiting}
    (h : Asked calls s a stack) (ha : a.scope.index < s.frames.size)
    (hstack : ∀ w ∈ stack, w.activation.scope.index < s.frames.size) (he : s.Extends t) :
    Asked calls t a stack := by
  induction stack generalizing a with
  | nil => trivial
  | cons w stack ih =>
    rw [List.forall_mem_cons] at hstack
    exact ⟨h.1.later hstack.1 ha he, ih h.2 hstack.1 hstack.2⟩

namespace Config

structure Obeys (C : Contract) (calls : Nat) (c : Config) : Prop where
  task : c.task.Obeys C calls c.active c.store
  active : C.Active c.store c.active
  stack : ∀ w ∈ c.stack, w.Obeys C calls c.store
  asked : Asked calls c.store c.active c.stack

namespace Obeys

variable {C : Contract} {calls more : Nat} {limits : Limits} {c d : Config}

theorem mono_calls (hle : calls ≤ more) (h : c.Obeys C calls) : c.Obeys C more where
  task := h.task.mono_calls hle
  active := h.active
  stack w hw := (h.stack w hw).mono_calls hle
  asked := h.asked.mono hle

theorem of_task {s : Store} {task : Task} {a : Activation} {stack : List Waiting}
    (h : task.Obeys C calls a s) (ha : a.scope.index < s.frames.size) (hn : C.node s a.scope a.node)
    (hw : ∀ w ∈ stack, w.Obeys C calls s) (hasked : Asked calls s a stack) :
    Obeys C calls ⟨task, a, stack⟩ ∧ s.Extends task.store := by
  have he := h.store_extends
  refine ⟨⟨h.self, ⟨h.store_obeys, Nat.lt_of_lt_of_le ha he.frames_size, C.node_mono he hn⟩, ?_, ?_⟩, he⟩
  · exact fun w hm => (hw w hm).mono he
  · exact hasked.later ha (fun w hm => (hw w hm).scope) he

theorem start (limits : Limits) {node : Node} {scope : FrameId} {s : Store} (hs : C.store s)
    (hscope : scope.index < s.frames.size) (hn : C.node s scope node) :
    Obeys C limits.calls (start limits node scope s) ∧ s.Extends (start limits node scope s).store :=
  of_task (Node.start_obeys ⟨hs, hscope, hn⟩) hscope hn nofun trivial

theorem idle {root : FrameId} {s : Store} (hs : C.store s) (hroot : root.index < s.frames.size)
    (hn : C.node s root (.sequence [] none)) : Obeys C 0 (idle root s) where
  task := ⟨.refl s, hs, C.nothing⟩
  active := ⟨hs, hroot, hn⟩
  stack := nofun
  asked := trivial

theorem next (h : c.Obeys C calls) (hle : limits.calls ≤ calls) (hd : c.next limits = some d) :
    d.Obeys C calls ∧ c.store.Extends d.store := by
  obtain ⟨task, active, stack⟩ := c
  cases task with
  | done out s =>
    cases stack with
    | nil => cases hd
    | cons waiting stack =>
      cases hd
      have hw := List.forall_mem_cons.1 h.stack
      have hout := C.outcome_locate h.task.2.2 active.node.place
      exact of_task (hw.1.resume _ s (.refl s) h.active.store hout) hw.1.scope hw.1.node hw.2 h.asked.2
  | visit cost node f s resume =>
    obtain ⟨-, hnode, hask, hresume⟩ := h.task
    rw [Config.next] at hd
    split at hd
    · cases hd
      refine of_task ((Node.start_obeys hnode).mono_calls hle) hnode.scope hnode.node ?_ ⟨hask, h.asked⟩
      exact List.forall_mem_cons.2 ⟨⟨h.active.scope, h.active.node, hresume⟩, h.stack⟩
    · cases hd
      exact of_task (hresume (.aborted .stack) s (.refl s) hnode.store (C.stack rfl)) h.active.scope
        h.active.node h.stack h.asked
  | again s =>
    cases hd
    exact of_task ((Node.start_obeys h.active).mono_calls hle) h.active.scope h.active.node h.stack
      h.asked

theorem reaches (h : c.Obeys C limits.calls) (hd : c.Reaches limits d) :
    d.Obeys C limits.calls ∧ c.store.Extends d.store := by
  induction hd with
  | refl => exact ⟨h, .refl _⟩
  | next _ he ih =>
    obtain ⟨hnext, hextends⟩ := ih.1.next (Nat.le_refl _) he
    exact ⟨hnext, ih.2.trans hextends⟩

end Obeys

end Config

end Machine

open Machine (Config)

theorem Session.obeys {C : Contract} {programs : Node → Prop} {root : FrameId} {c d : Config}
    {calls : Nat} (hp : ∀ n s, programs n → C.store s → C.node s root n) (hc : c.Obeys C calls)
    (hroot : root.index < c.store.frames.size) (h : Session programs root c d) :
    (∃ most, d.Obeys C most) ∧ c.store.Extends d.store := by
  induction h with
  | refl => exact ⟨⟨calls, hc⟩, .refl _⟩
  | move _ hmove ih =>
    obtain ⟨⟨most, hd⟩, hextends⟩ := ih
    cases hmove with
    | @step limits _ _ hstep =>
      obtain ⟨he, hde⟩ := (hd.mono_calls (Nat.le_max_left most limits.calls)).next
        (Nat.le_max_right most limits.calls) hstep
      exact ⟨⟨_, he⟩, hextends.trans hde⟩
    | @start limits program _ hprogram =>
      have hlt := Nat.lt_of_lt_of_le hroot hextends.frames_size
      obtain ⟨he, hde⟩ := Config.Obeys.start limits hd.active.store hlt
        (hp program _ hprogram hd.active.store)
      exact ⟨⟨_, he⟩, hextends.trans hde⟩

end Scripting
