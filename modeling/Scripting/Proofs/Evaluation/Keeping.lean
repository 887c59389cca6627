import Scripting.Proofs.Evaluation.Contract

/-!
Evaluation keeps stores sound. A task keeps a policy if it leads from sound stores to sound ones that
extend them, whatever the nodes it asks for do, provided that they keep the policy themselves. What a
policy asks for is a contract, so the rules of all nodes give such tasks.
-/

set_option autoImplicit false

namespace Scripting

def Task.Keeps (P : Policy) : Store → Task → Prop
  | start, .done out s => start.Extends s ∧ s.Sound P ∧ out.Fits P s
  | start, .visit _ node scope s resume =>
    start.Extends s ∧ s.Sound P ∧ scope.index < s.frames.size ∧ node.Everywhere P.admits ∧
      ∀ out t, s.Extends t → t.Sound P → out.Fits P t → (resume out t).Keeps P t
  | start, .again s => start.Extends s ∧ s.Sound P

/-- What a policy asks for, as a contract: sound stores, values that fit, and nodes of admitted parts. -/
def Policy.contract (P : Policy) : Contract where
  store s := s.Sound P
  value s v := v.Fits P s
  node _ _ n := n.Everywhere P.admits
  fault := P.fails
  abort := P.stops
  value_mono he hv := hv.mono he
  node_mono _ hn := hn
  operand hn hc := hn.child (Node.mem_children_of_operands hc)
  block hs hf hn := ⟨hs.newFrame (by simpa using hf), fun _ hc => hn.child hc⟩
  call := by
    intro s fn args depth hs hfn hargs new
    obtain ⟨hscope, hbody⟩ := Value.Fits.function_iff.1 hfn
    have he := Store.Extends.newFrame s (some fn.scope) none (some depth)
    have hnew : new.2.Sound P := hs.newFrame (by simpa using hscope)
    exact ⟨hnew.bind _ _ fun v hv => (hargs v hv).mono he, hbody⟩
  write hs := hs.write _
  newArray hs hv := ⟨hs.newArray hv, Store.newArray_fits _ _⟩
  newRecord hs hv := ⟨hs.newRecord hv, Store.newRecord_fits _ _⟩
  append hs _ hv := hs.append _ hv
  fill hs _ _ hv := hs.fill _ hv
  assign hs _ _ hv := hs.define _ _ hv
  declare hs _ hv := hs.define _ _ hv
  function hs hf hn :=
    hs.define _ _ (Value.Fits.function_iff.2 ⟨hf, hn.child (List.mem_singleton_self _)⟩)
  nothing := .nothing
  string := .string
  boolean := .boolean
  numeral _ _ := .number _
  wrapped _ := .number _
  name hs _ hv := hs.get? hv
  item hs hb hv := hs.getItem hb hv
  bound := by
    intro s fn a hfn hb
    exact Value.Fits.array_iff.2 (hfn.refs (.array a) (by simp [Value.refs, hb]))
  count _ _ _ := .number _
  ordinary := P.ordinary
  stack := P.stack _
  unreadable hn h := P.numeral _ hn.here h
  operator hn h := P.operator _ _ _ _ hn.here h
  malformed hn := P.malformed _ _ hn.here
  receiver type hfn hh hb := P.receiver _ hfn.obeys hh hb type
  foreign hfn hh := P.foreign _ _ hfn.obeys hh

section Rules

variable {P : Policy} {limits : Limits} {s : Store}

theorem Policy.outcome_contract {out : Outcome} : P.contract.outcome s out ↔ out.Fits P s := by
  cases out <;> exact Iff.rfl

theorem Task.Obeys.keeps {calls : Nat} {a : Activation} {task : Task}
    (h : task.Obeys P.contract calls a s) : task.Keeps P s := by
  induction task generalizing s with
  | done out t => exact ⟨h.1, h.2.1, Policy.outcome_contract.1 h.2.2⟩
  | visit cost node scope t resume ih =>
    obtain ⟨he, hnode, -, hresume⟩ := h
    refine ⟨he, hnode.store, hnode.scope, hnode.node, fun out u hu hsound hout => ?_⟩
    exact ih out u (hresume out u hu hsound (Policy.outcome_contract.2 hout))
  | again t => exact ⟨h.1, h.2.1⟩

theorem Node.start_keeps {depth : Nat} {scope : FrameId} {n : Node} (hs : s.Sound P)
    (hscope : scope.index < s.frames.size) (hn : n.Everywhere P.admits) :
    (n.start limits depth scope s).Keeps P s :=
  (Node.start_obeys ⟨hs, hscope, hn⟩).keeps

end Rules

end Scripting
