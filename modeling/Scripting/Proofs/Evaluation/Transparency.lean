import Scripting.Proofs.Evaluation.Limits
import Scripting.Proofs.Evaluation.Names

/-!
Frames without names. An expression binds nothing in the frame it is evaluated in, and all it takes from
that frame is where a name is held and how many calls are active. In a frame that has no names it
therefore does exactly what it does in the frame around, as long as the host has room: from inside, a look-up
has one more link to follow.
-/

set_option autoImplicit false

namespace Scripting

/-- The frame `b` stands inside the frame `l`, at the same depth of calls, and has no names. -/
structure Store.Transparent (s : Store) (b l : FrameId) : Prop where
  lt_size : b.index < s.frames.size
  older : l.index < b.index
  parent : (s.frame b).parent = some l
  names : s.names b = []
  depth : (s.frame b).depth = (s.frame l).depth

namespace Store.Transparent

variable {s t : Store} {b l : FrameId}

theorem outer_lt_size (h : s.Transparent b l) : l.index < s.frames.size :=
  Nat.lt_trans h.older h.lt_size

theorem not_contains (h : s.Transparent b l) (name : String) : ¬(s.frame b).vars.contains name := by
  rw [Table.contains_iff]
  change name ∉ s.names b
  rw [h.names]
  exact List.not_mem_nil

theorem holder?_eq (h : s.Transparent b l) (name : String) : s.holder? b name = s.holder? l name :=
  Store.holder?_of_not_contains (h.not_contains name) h.parent h.older

theorem search_eq (h : s.Transparent b l) (costs : Costs) (name : String) :
    costs.search s b name = costs.search s l name + costs.link := by
  have hname : ¬(s.frame b).vars.contains name := h.not_contains name
  rw [Costs.search, Costs.search, h.holder?_eq, Store.reach_of_not_contains hname h.parent h.older]
  ring

theorem mono (h : s.Transparent b l) (he : s.Extends t) (hnames : t.names b = s.names b) :
    t.Transparent b l := by
  have hb := he.frame b h.lt_size
  have hl := he.frame l h.outer_lt_size
  refine ⟨Nat.lt_of_lt_of_le h.lt_size he.frames_size, h.older, ?_, ?_, ?_⟩
  · rw [hb.parent, h.parent]
  · rw [hnames, h.names]
  · rw [hb.depth, hl.depth, h.depth]

theorem newFrame (hl : l.index < s.frames.size) :
    (s.newFrame (some l) none none).2.Transparent (s.newFrame (some l) none none).1 l := by
  have hself := s.frame_newFrame_self (some l) none none
  refine ⟨s.newFrame_lt _ _ _, hl, ?_, ?_, ?_⟩
  · rw [hself]
  · rw [Store.names, hself]
    rfl
  · rw [hself, s.frame_newFrame, if_neg (Nat.ne_of_lt hl)]
    rfl

theorem eval {limits : Limits} {fuel : Nat} {a : Activation} {out : Outcome} (h : s.Transparent b l)
    (hscope : a.scope.index < s.frames.size) (hn : a.scope = b → a.node.Bindless)
    (hr : a.eval limits fuel s = some (out, t)) : t.Transparent b l :=
  h.mono (Activation.eval_extends hscope hr) (Activation.eval_names hscope h.lt_size hn hr)

end Store.Transparent

/-- One of the frames is transparent, and the other one is around it. -/
def Store.Twins (s : Store) (g h : FrameId) : Prop :=
  s.Transparent g h ∨ s.Transparent h g

namespace Store.Twins

variable {s t : Store} {g h : FrameId}

theorem lt_size (hs : s.Twins g h) : g.index < s.frames.size ∧ h.index < s.frames.size := by
  rcases hs with hs | hs
  · exact ⟨hs.lt_size, hs.outer_lt_size⟩
  · exact ⟨hs.outer_lt_size, hs.lt_size⟩

theorem holder?_eq (hs : s.Twins g h) (name : String) : s.holder? g name = s.holder? h name :=
  hs.elim (fun hs => hs.holder?_eq name) fun hs => (hs.holder?_eq name).symm

theorem get?_eq (hs : s.Twins g h) (name : String) : s.get? g name = s.get? h name := by
  rw [Store.get?, Store.get?, hs.holder?_eq]

theorem search_le (hs : s.Twins g h) {costs : Costs} {slack : Nat}
    (hlink : g.index < h.index → costs.link ≤ slack) (name : String) :
    costs.search s h name ≤ costs.search s g name + slack := by
  rcases hs with hs | hs
  · rw [hs.search_eq]
    omega
  · rw [hs.search_eq]
    exact Nat.add_le_add_left (hlink hs.older) _

theorem depth_eq (hs : s.Twins g h) : (s.frame g).depth = (s.frame h).depth :=
  hs.elim (fun hs => hs.depth) fun hs => hs.depth.symm

theorem mono (hs : s.Twins g h) (he : s.Extends t) (hg : t.names g = s.names g) (hh : t.names h = s.names h) :
    t.Twins g h :=
  hs.imp (fun hs => hs.mono he hg) fun hs => hs.mono he hh

theorem eval {limits : Limits} {fuel : Nat} {a : Activation} {out : Outcome} (hs : s.Twins g h)
    (hscope : a.scope.index < s.frames.size) (hn : a.scope = g ∨ a.scope = h → a.node.Bindless)
    (hr : a.eval limits fuel s = some (out, t)) : t.Twins g h :=
  hs.mono (Activation.eval_extends hscope hr)
    (Activation.eval_names hscope hs.lt_size.1 (fun heq => hn (.inl heq)) hr)
    (Activation.eval_names hscope hs.lt_size.2 (fun heq => hn (.inr heq)) hr)

theorem enter (hs : s.Twins g h) (parent : Option FrameId) (depth : Int) (params : List String)
    (args : List Value) :
    let new := s.newFrame parent none (some depth)
    ¬(new.1 = g ∨ new.1 = h) ∧ new.1.index < (new.2.bind new.1 params args).frames.size ∧
      (new.2.bind new.1 params args).Twins g h := by
  intro new
  have hne {f : FrameId} (hf : f.index < s.frames.size) : new.1 ≠ f := s.newFrame_ne hf parent none (some depth)
  have hbind : new.2.Extends (new.2.bind new.1 params args) := .bind _ _ _ _
  have hnames {f : FrameId} (hf : f.index < s.frames.size) :
      (new.2.bind new.1 params args).names f = s.names f := by
    rw [new.2.names_bind_of_ne (hne hf), s.names_newFrame hf]
  refine ⟨not_or.2 ⟨hne hs.lt_size.1, hne hs.lt_size.2⟩,
    Nat.lt_of_lt_of_le (s.newFrame_lt _ _ _) hbind.frames_size, ?_⟩
  exact hs.mono ((Store.Extends.newFrame s _ _ _).trans hbind) (hnames hs.lt_size.1) (hnames hs.lt_size.2)

end Store.Twins

/-- Two tasks that ask for the same nodes, but for expressions the one in `g` and the other one in `h`; the
    first one may end in a way of which `cut` holds. -/
inductive Task.Shifts (cut : Outcome → Prop) (g h : FrameId) : Task → Task → Prop where
  | done (out : Outcome) (s : Store) : Shifts cut g h (.done out s) (.done out s)
  | stopped {out : Outcome} {s : Store} {task : Task} (isCut : cut out) : Shifts cut g h (.done out s) task
  | operand {cost : Nat} {n : Node} {s : Store} {k k' : Outcome → Store → Task}
      (expression : n.isExpression) (twins : s.Twins g h)
      (resume : ∀ out t, t.Twins g h → Shifts cut g h (k out t) (k' out t)) :
      Shifts cut g h (.visit cost n g s k) (.visit cost n h s k')
  | elsewhere {cost : Nat} {n : Node} {f : FrameId} {s : Store} {k : Outcome → Store → Task}
      (ne : ¬(f = g ∨ f = h)) (lt_size : f.index < s.frames.size) (twins : s.Twins g h)
      (resume : ∀ out t, t.Twins g h → Shifts cut g h (k out t) (k out t)) :
      Shifts cut g h (.visit cost n f s k) (.visit cost n f s k)

namespace Task

variable {cut : Outcome → Prop} {low high : Limits} {slack depth cost : Nat} {g h : FrameId} {s : Store}

theorem shifts_value {n : Node} {k k' : Value → Store → Task} (hn : n.isExpression) (hs : s.Twins g h)
    (hk : ∀ v t, t.Twins g h → (k v t).Shifts cut g h (k' v t)) :
    (value cost n g s k).Shifts cut g h (value cost n h s k') := by
  refine .operand hn hs fun out t ht => ?_
  cases out with
  | value v => exact hk v t ht
  | _ => exact .done _ t

theorem shifts_within (hspare : low.Spares high slack cut) {more more' : Nat} {task : Task}
    (hmore : more' ≤ more + slack) (hself : task.Shifts cut g h task) :
    (within low depth more s task).Shifts cut g h (within high depth more' s task) := by
  unfold within
  cases hlow : low.allows (depth + more) with
  | true =>
    have hhigh : high.allows (depth + more') := Limits.allows_mono (by omega) (hspare.spare hlow)
    rw [if_pos rfl, if_pos hhigh]
    exact hself
  | false => exact .stopped (hspare.stop hlow)

theorem shifts_ofExcept (r : Except Fault Value) : (ofExcept s r).Shifts cut g h (ofExcept s r) := by
  cases r <;> exact .done _ s

theorem shifts_collect {k k' : List Value → Store → Task}
    (hk : ∀ vs t, t.Twins g h → (k vs t).Shifts cut g h (k' vs t)) {nodes : List Node}
    (hnodes : ∀ n ∈ nodes, n.isExpression) (seen : List Value) (hs : s.Twins g h) :
    (collect cost g k nodes seen s).Shifts cut g h (collect cost h k' nodes seen s) := by
  induction nodes generalizing seen s with
  | nil => exact hk _ s hs
  | cons n nodes ih =>
    rw [List.forall_mem_cons] at hnodes
    exact shifts_value hnodes.1 hs fun v t ht => ih hnodes.2 (v :: seen) ht

theorem shifts_collectFields {fields : List (Field Node)} (hfields : ∀ f ∈ fields, f.value.isExpression)
    (seen : Table Value) (hs : s.Twins g h) :
    (collectFields g fields seen s).Shifts cut g h (collectFields h fields seen s) := by
  induction fields generalizing seen s with
  | nil => exact .done _ _
  | cons f fields ih =>
    rw [List.forall_mem_cons] at hfields
    exact shifts_value hfields.1 hs fun v t ht => ih hfields.2 _ ht

theorem shifts_leave (out : Outcome) (t : Store) : (leave out t).Shifts cut g h (leave out t) := by
  cases out <;> exact .done _ t

end Task

section Rules

variable {cut : Outcome → Prop} {low high : Limits} {slack depth : Nat} {g h : FrameId} {s t : Store}
  {out : Outcome}

theorem Task.shifts_of_below {task : Task} (hbelow : (Task.done out t).Below cut task) :
    (Task.done out t).Shifts cut g h task := by
  rcases hbelow with hout | rfl
  · exact .stopped hout
  · exact .done out t

theorem Value.call_shifts (hcut : low.Cuts high cut) (callee : Value) (receiver : Option Value)
    (args : List Value) (hs : s.Twins g h) :
    (callee.call low depth g receiver args s).Shifts cut g h (callee.call high depth h receiver args s) := by
  cases callee with
  | native fn =>
    have hsame : fn.call (low.levels depth) g receiver args s =
        fn.call (low.levels depth) h receiver args s := by
      unfold Native.call
      rw [hs.depth_eq]
    have hbelow : (fn.call (low.levels depth) h receiver args s).Below cut
        (fn.call (high.levels depth) h receiver args s) := Task.below_native hcut fn h receiver args
    obtain ⟨out, t, hdone⟩ := Task.exists_done_of_native fn (low.levels depth) h receiver args s
    rw [Value.call, Value.call, hsame, hdone]
    exact Task.shifts_of_below (hdone ▸ hbelow)
  | function fn =>
    have hsame : fn.call low g args s = fn.call low h args s := by
      simp only [Closure.call, hs.depth_eq]
    have hbelow : (fn.call low h args s).Below cut (fn.call high h args s) := Task.below_function hcut fn h args
    rw [Value.call, Value.call, hsame]
    by_cases hlow : (low.calls : Int) < (s.frame h).depth + 1
    · simp only [Closure.call, if_pos hlow] at hbelow ⊢
      exact Task.shifts_of_below hbelow
    · have hcalls : (low.calls : Int) ≤ high.calls := Int.ofNat_le.2 hcut.atMost.calls
      have hhigh : ¬(high.calls : Int) < (s.frame h).depth + 1 := by omega
      obtain ⟨hne, hlt, hentered⟩ := hs.enter (some fn.scope) ((s.frame h).depth + 1) fn.params args
      simp only [Closure.call, if_neg hlow, if_neg hhigh]
      exact .elsewhere hne hlt hentered fun out t _ => Task.shifts_leave out t
  | _ => exact .done _ s

theorem Task.shifts_apply (hcut : low.Cuts high cut) (callee : Value) (receiver : Option Value)
    {args : List Node} (hargs : ∀ n ∈ args, n.isExpression) (hs : s.Twins g h) :
    (apply low depth callee receiver args g s).Shifts cut g h
      (apply high depth callee receiver args h s) := by
  unfold apply
  rw [hcut.atMost.costs]
  split
  · exact shifts_collect (fun vs t ht => callee.call_shifts hcut receiver vs ht) hargs [] hs
  · exact .done _ s

section Room

variable (hspare : low.Spares high slack cut) (hlink : g.index < h.index → high.costs.link ≤ slack)

include hspare hlink

theorem Node.start_shifts {n : Node} (hn : n.isExpression) (hs : s.Twins g h) :
    (n.start low depth g s).Shifts cut g h (n.start high depth h s) := by
  have hcut := hspare.toCuts
  have operand {c : Node} (hc : c ∈ n.operands) : c.isExpression := Node.isExpression_operand hn hc
  cases n with
  | number w =>
    rw [Node.start, Node.start, hcut.atMost.costs]
    refine Task.shifts_within hspare (Nat.le_add_right _ _) ?_
    split <;> exact .done _ s
  | string | boolean =>
    rw [Node.start, Node.start, hcut.atMost.costs]
    exact Task.shifts_within hspare (Nat.le_add_right _ _) (.done _ s)
  | name w =>
    rw [Node.start, Node.start, hcut.atMost.costs, hs.get?_eq]
    refine Task.shifts_within hspare (hs.search_le hlink _) ?_
    split <;> exact .done _ s
  | binary op left right p =>
    refine Task.shifts_value (operand (by simp [operands, children])) hs fun _ t ht => ?_
    exact Task.shifts_value (operand (by simp [operands, children])) ht fun _ _ _ => Task.shifts_ofExcept _
  | negate e p =>
    exact Task.shifts_value (operand (by simp [operands, children])) hs fun _ _ _ => Task.shifts_ofExcept _
  | array items p =>
    rw [Node.start, Node.start, hcut.atMost.costs]
    exact Task.shifts_collect (fun vs t _ => .done _ _) (fun c hc => operand hc) [] hs
  | record fields p =>
    exact Task.shifts_collectFields (fun f hf => operand (List.mem_map_of_mem hf)) .empty hs
  | item base key p =>
    refine Task.shifts_value (operand (by simp [operands, children])) hs fun _ t ht => ?_
    exact Task.shifts_value (operand (by simp [operands, children])) ht fun _ _ _ => Task.shifts_ofExcept _
  | setItem base key value p =>
    refine Task.shifts_value (operand (by simp [operands, children])) hs fun _ t ht => ?_
    refine Task.shifts_value (operand (by simp [operands, children])) ht fun _ t ht => ?_
    refine Task.shifts_value (operand (by simp [operands, children])) ht fun _ t ht => ?_
    split <;> exact .done _ _
  | call callee args q p =>
    refine Task.shifts_value (operand (by simp [operands, children])) hs fun c t ht => ?_
    exact Task.shifts_apply hcut c none (fun a ha => operand (by simp [operands, children, ha])) ht
  | methodCall receiver key args q p =>
    refine Task.shifts_value (operand (by simp [operands, children])) hs fun r t ht => ?_
    refine Task.shifts_value (operand (by simp [operands, children])) ht fun _ t ht => ?_
    split
    · exact Task.shifts_apply hcut _ (some r) (fun a ha => operand (by simp [operands, children, ha])) ht
    · exact .done _ t
  | assign target value p =>
    refine Task.shifts_value (operand (by simp [operands, children])) hs fun v t ht => ?_
    rw [hcut.atMost.costs, ht.holder?_eq]
    refine Task.shifts_within hspare ?_ ?_
    · rw [Nat.add_assoc]
      exact Nat.add_le_add_left (ht.search_le hlink _) 1
    · split <;> exact .done _ _
  | _ => cases hn

omit hlink in
theorem Task.Shifts.carryOut {fuel : Nat}
    (heval : ∀ (n : Node) (d : Nat) (s : Store) (out : Outcome) (t : Store), n.isExpression → s.Twins g h →
      Activation.eval low fuel ⟨n, g, d⟩ s = some (out, t) → ¬cut out →
      Activation.eval high fuel ⟨n, h, d⟩ s = some (out, t))
    {task task' : Task} (hshifts : task.Shifts cut g h task') (hstrict : task.Strict) (n : Node)
    (hr : task.carryOut low (Activation.eval low fuel) ⟨n, g, depth⟩ = some (out, t)) (hout : ¬cut out) :
    task'.carryOut high (Activation.eval high fuel) ⟨n, h, depth⟩ = some (out, t) := by
  have hcut := hspare.toCuts
  induction hshifts with
  | done => exact hr
  | stopped isCut =>
    cases hr
    exact (hout (hcut.locate.2 isCut)).elim
  | operand expression twins resume ih =>
    refine Task.carryOut_visit_uncut hcut hstrict hr hout rfl
      (fun last u => heval _ _ _ _ _ expression twins) fun last u hu hr => ?_
    refine ih last u ?_ (hstrict.2 last u) hr
    rcases hu with hu | rfl
    · exact twins.eval twins.lt_size.1 (fun _ => Node.bindless_of_isExpression expression) hu
    · exact twins
  | elsewhere ne lt_size twins resume ih =>
    refine Task.carryOut_visit_uncut hcut hstrict hr hout rfl
      (fun last u => Activation.eval_uncut hcut fuel _ _ _ _) fun last u hu hr => ?_
    refine ih last u ?_ (hstrict.2 last u) hr
    rcases hu with hu | rfl
    · exact twins.eval lt_size (fun heq => (ne heq).elim) hu
    · exact twins

theorem Activation.eval_shifts {fuel : Nat} {n : Node} (hn : n.isExpression) (hs : s.Twins g h)
    (hr : Activation.eval low fuel ⟨n, g, depth⟩ s = some (out, t)) (hout : ¬cut out) :
    Activation.eval high fuel ⟨n, h, depth⟩ s = some (out, t) := by
  induction fuel generalizing n depth s out t with
  | zero => cases hr
  | succ fuel ih =>
    exact (Node.start_shifts hspare hlink hn hs).carryOut hspare
      (fun n d s out t hn hs hr hout => ih hn hs hr hout) (Node.start_strict low depth g s n) n hr hout

theorem Activation.eval_expression_shifts {fuel : Nat} {e : Node} {p : Option Place} (he : e.isExpression)
    (hs : s.Twins g h) (hr : Activation.eval low fuel ⟨.expression e p, g, depth⟩ s = some (out, t))
    (hout : ¬cut out) : Activation.eval high fuel ⟨.expression e p, h, depth⟩ s = some (out, t) := by
  cases fuel with
  | zero => cases hr
  | succ fuel =>
    have hstart : (Node.start low depth g s (.expression e p)).Shifts cut g h
        (Node.start high depth h s (.expression e p)) :=
      Task.shifts_value he hs fun v t _ => .done _ t
    exact hstart.carryOut hspare
      (fun n d s out t hn hs hr hout => Activation.eval_shifts hspare hlink hn hs hr hout)
      (Node.start_strict low depth g s _) _ hr hout

end Room

end Rules

end Scripting
