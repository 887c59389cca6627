import Scripting.Evaluation.BigStep
import Scripting.Proofs.Evaluation.Policy

/-!
What the rules of evaluation do, said once for all invariants. A contract says what holds of a store at
all times, of the values at hand, and of the nodes that are evaluated in a frame; it lists what each
operation of a rule has to keep. Then every rule keeps the contract, and asks only for its operands, for
the statements of a block in a new frame, and for the body of a called function in a new frame.
-/

set_option autoImplicit false

namespace Scripting

namespace Node

/-- The nodes under a node that are evaluated in the same frame as the node itself. -/
def operands : Node → List Node
  | .block _ _ | .function _ _ _ _ => []
  | n => n.children

theorem mem_children_of_operands {n c : Node} (h : c ∈ n.operands) : c ∈ n.children := by
  cases n with
  | block | function => cases h
  | _ => exact h

def isLoop : Node → Bool
  | .loop _ _ _ => true
  | _ => false

def isCall : Node → Bool
  | .call _ _ _ _ | .methodCall _ _ _ _ _ => true
  | _ => false

/-- How a node comes to be evaluated for another one, which is evaluated in the frame `scope`. -/
inductive Asks (calls : Nat) (n : Node) (scope : FrameId) (s : Store) : FrameId → Node → Prop where
  | operand {c : Node} (h : c ∈ n.operands) : Asks calls n scope s scope c
  | statement {body : List Node} {p : Option Place} {f : FrameId} {c : Node}
      (hn : n = .block body p) (hc : c ∈ body) (hd : (s.frame f).depth = (s.frame scope).depth) :
      Asks calls n scope s f c
  | body {f : FrameId} {c : Node} (hn : n.isCall) (hd : (s.frame f).depth = (s.frame scope).depth + 1)
      (hle : (s.frame f).depth ≤ calls) : Asks calls n scope s f c

end Node

structure Contract where
  store : Store → Prop
  value : Store → Value → Prop
  node : Store → FrameId → Node → Prop
  fault : Fault → Prop := fun _ => True
  abort : Abort → Prop := fun _ => True
  value_mono {s t : Store} {v : Value} : s.Extends t → value s v → value t v
  node_mono {s t : Store} {f : FrameId} {n : Node} : s.Extends t → node s f n → node t f n
  -- nodes that a rule asks for
  operand {s : Store} {f : FrameId} {n c : Node} : node s f n → c ∈ n.operands → node s f c
  block {s : Store} {f : FrameId} {body : List Node} {p : Option Place} :
    store s → f.index < s.frames.size → node s f (.block body p) →
      store (s.newFrame (some f) none none).2 ∧
        ∀ c ∈ body, node (s.newFrame (some f) none none).2 (s.newFrame (some f) none none).1 c
  call {s : Store} {fn : Closure} {args : List Value} (depth : Int) :
    store s → value s (.function fn) → (∀ v ∈ args, value s v) →
      let new := s.newFrame (some fn.scope) none (some depth)
      store (new.2.bind new.1 fn.params args) ∧ node (new.2.bind new.1 fn.params args) new.1 fn.body
  -- writing
  write {s : Store} {text : String} : store s → store (s.write text)
  newArray {s : Store} {items : Array Value} : store s → (∀ v ∈ items, value s v) →
    store (s.newArray items).2 ∧ value (s.newArray items).2 (.array (s.newArray items).1)
  newRecord {s : Store} {fields : Table Value} : store s → (∀ e ∈ fields.entries, value s e.2) →
    store (s.newRecord fields).2 ∧ value (s.newRecord fields).2 (.record (s.newRecord fields).1)
  append {s : Store} {a : ArrayId} {args : List Value} : store s → value s (.array a) →
    (∀ v ∈ args, value s v) → store (s.modifyArray a (· ++ args.toArray))
  fill {s : Store} {base key v : Value} {slot : Store.Slot} : store s → value s base →
    s.slot base key = .ok slot → value s v → store (s.fill v slot)
  assign {s : Store} {f holder : FrameId} {w : Word} {e : Node} {p : Option Place} {v : Value} :
    store s → node s f (.assign w e p) → s.holder? f w.text = some holder → value s v →
      store (s.define holder w.text v)
  declare {s : Store} {f : FrameId} {w : Word} {init : Option Node} {p : Option Place} {v : Value} :
    store s → node s f (.declare w init p) → value s v → store (s.define f w.text v)
  function {s : Store} {f : FrameId} {w : Word} {params : Parameters} {body : Node}
      {p : Option Place} :
    store s → f.index < s.frames.size → node s f (.function w params body p) →
      store (s.define f w.text (.function ⟨w.text, params.names.map (·.text), body, f⟩))
  -- values
  nothing {s : Store} : value s .nothing
  string {s : Store} (text : String) : value s (.string text)
  boolean {s : Store} (b : Bool) : value s (.boolean b)
  numeral {s : Store} {f : FrameId} {w : Word} {n : Int} : node s f (.number w) →
    Text.integer? w.text = some n → value s (.number n)
  wrapped {s : Store} (n : Int) : value s (.number (Number.wrap n))
  name {s : Store} {f : FrameId} {w : Word} {v : Value} : store s → node s f (.name w) →
    s.get? f w.text = some v → value s v
  item {s : Store} {base key v : Value} : store s → value s base → s.getItem base key = .ok v →
    value s v
  bound {s : Store} {fn : Native} {a : ArrayId} : value s (.native fn) → fn.bound = some a →
    value s (.array a)
  count {s : Store} {fn : Native} (n : Int) : value s (.native fn) →
    fn.host = .argumentCount ∨ fn.host = .callDepth → value s (.number n)
  -- failures
  ordinary (f : Fault) : f.isOrdinary → fault f := by intros; trivial
  stack {cause : Abort} : cause.isStack → abort cause := by intros; trivial
  unreadable {s : Store} {f : FrameId} {w : Word} : node s f (.number w) →
    Text.integer? w.text = none → abort .unreadable := by intros; trivial
  operator {s : Store} {f : FrameId} {op : Operator} {l r : Node} {p : Option Place} :
    node s f (.binary op l r p) → Operation.ofSymbol? op.symbol = none →
      fault (.unknownOperator op.symbol) := by intros; trivial
  malformed {s : Store} {f : FrameId} {defect : Defect} {p : Option Place} :
    node s f (.malformed defect p) → (∀ x, fault x) ∧ ∀ cause, abort cause := by
      intros; exact ⟨fun _ => trivial, fun _ => trivial⟩
  receiver {s : Store} {fn : Native} (type : Option String) : value s (.native fn) →
    fn.host = .push → fn.bound = none → fault (.pushReceiver type) := by intros; trivial
  foreign {s : Store} {fn : Native} {type : String} : value s (.native fn) →
    fn.host = .foreign type → fault (.foreignResult fn.name type) := by intros; trivial

namespace Contract

def outcome (C : Contract) (s : Store) : Outcome → Prop
  | .value v | .returned v => C.value s v
  | .failed failure => C.fault failure.fault
  | .aborted cause => C.abort cause

structure Active (C : Contract) (s : Store) (a : Activation) : Prop where
  store : C.store s
  scope : a.scope.index < s.frames.size
  node : C.node s a.scope a.node

theorem Active.mono {C : Contract} {s t : Store} {a : Activation} (ha : C.Active s a)
    (he : s.Extends t) (ht : C.store t) : C.Active t a :=
  ⟨ht, Nat.lt_of_lt_of_le ha.scope he.frames_size, C.node_mono he ha.node⟩

theorem outcome_locate {C : Contract} {s : Store} {out : Outcome} (h : C.outcome s out)
    (place : Option Place) : C.outcome s (out.locate place) := by
  cases out with
  | failed failure => exact h
  | _ => exact h

end Contract

/-- The task of the activation keeps the contract from the given store on, if the nodes it asks for do. -/
def Task.Obeys (C : Contract) (calls : Nat) (a : Activation) : Store → Task → Prop
  | start, .done out s => start.Extends s ∧ C.store s ∧ C.outcome s out
  | start, .visit cost node f s resume =>
    start.Extends s ∧ C.Active s ⟨node, f, a.depth + cost⟩ ∧ a.node.Asks calls a.scope s f node ∧
      ∀ out t, s.Extends t → C.store t → C.outcome t out → (resume out t).Obeys C calls a t
  | start, .again s => start.Extends s ∧ C.store s ∧ a.node.isLoop

namespace Task

variable {C : Contract} {calls cost : Nat} {a : Activation} {start s : Store}

theorem Obeys.mono {t : Store} {task : Task} (he : start.Extends t) (h : task.Obeys C calls a t) :
    task.Obeys C calls a start := by
  cases task with
  | done out s => exact ⟨he.trans h.1, h.2⟩
  | visit cost node f s resume => exact ⟨he.trans h.1, h.2⟩
  | again s => exact ⟨he.trans h.1, h.2⟩

theorem obeys_yield {v : Value} (he : start.Extends s) (hs : C.store s) (hv : C.value s v) :
    (yield v s).Obeys C calls a start :=
  ⟨he, hs, hv⟩

theorem obeys_fail {fault : Fault} (hs : C.store s) (hf : C.fault fault) :
    (fail fault s).Obeys C calls a s :=
  ⟨.refl s, hs, hf⟩

theorem obeys_within {limits : Limits} {depth more : Nat} {task : Task} (hs : C.store s)
    (h : task.Obeys C calls a s) : (within limits depth more s task).Obeys C calls a s :=
  within_cases h ⟨.refl s, hs, C.stack rfl⟩

theorem obeys_ofExcept {r : Except Fault Value} (hs : C.store s)
    (hok : ∀ v, r = .ok v → C.value s v) (herror : ∀ fault, r = .error fault → C.fault fault) :
    (ofExcept s r).Obeys C calls a s := by
  cases r with
  | ok v => exact obeys_yield (.refl s) hs (hok v rfl)
  | error fault => exact obeys_fail hs (herror fault rfl)

theorem obeys_visit {node : Node} {f : FrameId} {k : Value → Store → Task}
    (hn : C.Active s ⟨node, f, a.depth + cost⟩) (hask : a.node.Asks calls a.scope s f node)
    (hk : ∀ v t, s.Extends t → C.store t → C.value t v → (k v t).Obeys C calls a t) :
    (value cost node f s k).Obeys C calls a s := by
  refine ⟨.refl s, hn, hask, fun out t het ht hout => ?_⟩
  cases out with
  | value v => exact hk v t het ht hout
  | returned v => exact ⟨.refl t, ht, hout⟩
  | failed failure => exact ⟨.refl t, ht, hout⟩
  | aborted cause => exact ⟨.refl t, ht, hout⟩

theorem obeys_value {c : Node} {k : Value → Store → Task} (ha : C.Active s a)
    (hc : c ∈ a.node.operands)
    (hk : ∀ v t, s.Extends t → C.Active t a → C.value t v → (k v t).Obeys C calls a t) :
    (value cost c a.scope s k).Obeys C calls a s :=
  obeys_visit ⟨ha.store, ha.scope, C.operand ha.node hc⟩ (.operand hc) fun v t het ht hv =>
    hk v t het (ha.mono het ht) hv

theorem obeys_sequence {nodes : List Node} {f : FrameId} {last : Value} (hs : C.store s)
    (hf : f.index < s.frames.size) (hn : ∀ c ∈ nodes, C.node s f c)
    (hask : ∀ t, s.Extends t → ∀ c ∈ nodes, a.node.Asks calls a.scope t f c)
    (hv : C.value s last) : (sequence cost f nodes last s).Obeys C calls a s := by
  induction nodes generalizing s last with
  | nil => exact obeys_yield (.refl s) hs hv
  | cons n nodes ih =>
    rw [List.forall_mem_cons] at hn
    refine obeys_visit ⟨hs, hf, hn.1⟩ (hask s (.refl s) n List.mem_cons_self) fun v t het ht hv => ?_
    refine ih ht (Nat.lt_of_lt_of_le hf het.frames_size) (fun c hc => C.node_mono het (hn.2 c hc)) ?_ hv
    exact fun u heu c hc => hask u (het.trans heu) c (List.mem_cons_of_mem _ hc)

theorem obeys_collect {nodes : List Node} {k : List Value → Store → Task} {seen : List Value}
    (ha : C.Active s a) (hn : ∀ c ∈ nodes, c ∈ a.node.operands) (hseen : ∀ v ∈ seen, C.value s v)
    (hk : ∀ vs t, s.Extends t → C.Active t a → (∀ v ∈ vs, C.value t v) → (k vs t).Obeys C calls a t) :
    (collect cost a.scope k nodes seen s).Obeys C calls a s := by
  induction nodes generalizing s seen with
  | nil => exact hk _ s (.refl s) ha (by simpa using hseen)
  | cons n nodes ih =>
    rw [List.forall_mem_cons] at hn
    refine obeys_value ha hn.1 fun v t het ht hv => ih ht hn.2 ?_ ?_
    · exact List.forall_mem_cons.2 ⟨hv, fun w hw => C.value_mono het (hseen w hw)⟩
    · exact fun vs u heu hu hvs => hk vs u (het.trans heu) hu hvs

theorem obeys_collectFields {fields : List (Field Node)} {seen : Table Value} (ha : C.Active s a)
    (hn : ∀ f ∈ fields, f.value ∈ a.node.operands) (hseen : ∀ e ∈ seen.entries, C.value s e.2) :
    (collectFields a.scope fields seen s).Obeys C calls a s := by
  induction fields generalizing s seen with
  | nil =>
    obtain ⟨hs, hv⟩ := C.newRecord ha.store hseen
    exact obeys_yield (.newRecord s seen) hs hv
  | cons field fields ih =>
    rw [List.forall_mem_cons] at hn
    refine obeys_value ha hn.1 fun v t het ht hv => ih ht hn.2 fun e hm => ?_
    rcases Table.mem_put hm with hm | rfl
    · exact C.value_mono het (hseen e hm)
    · exact hv

theorem obeys_test {keyword : String} {c : Node} {k : Bool → Store → Task} (ha : C.Active s a)
    (hc : c ∈ a.node.operands)
    (hk : ∀ b t, s.Extends t → C.Active t a → (k b t).Obeys C calls a t) :
    (test keyword c a.scope s k).Obeys C calls a s := by
  refine obeys_value ha hc fun v t het ht _ => ?_
  cases v with
  | boolean b => exact hk b t het ht
  | _ => exact obeys_fail ht.store (C.ordinary _ rfl)

theorem obeys_ofDefect {defect : Defect} (hs : C.store s)
    (hd : (∀ x, C.fault x) ∧ ∀ cause, C.abort cause) :
    (ofDefect defect s).Obeys C calls a s := by
  cases defect with
  | wrongShape => exact ⟨.refl s, hs, hd.2 .unreadable⟩
  | _ => exact obeys_fail hs (hd.1 _)

end Task

section Calls

variable {C : Contract} {limits : Limits} {calls : Nat} {a : Activation} {s : Store}

theorem Native.call_obeys {fn : Native} {levels : Option Nat} {caller : FrameId}
    {receiver : Option Value} {args : List Value} (hs : C.store s) (hfn : C.value s (.native fn))
    (hreceiver : ∀ v ∈ receiver, C.value s v) (hargs : ∀ v ∈ args, C.value s v) :
    (fn.call levels caller receiver args s).Obeys C calls a s := by
  have hobject : ∀ v ∈ fn.bound.map Value.array <|> receiver, C.value s v := by
    intro v hv
    cases hb : fn.bound with
    | none => exact hreceiver v (by simpa [hb] using hv)
    | some a =>
      rw [hb] at hv
      cases hv
      exact C.bound hfn hb
  unfold Native.call
  cases hhost : fn.host with
  | printLine =>
    dsimp only
    split
    · exact Task.obeys_yield (.write s _) (C.write hs) C.nothing
    · exact ⟨.refl s, hs, (C.stack rfl)⟩
  | typeName =>
    dsimp only
    split
    · exact Task.obeys_yield (.refl s) hs (C.string _)
    · exact Task.obeys_fail hs (C.ordinary _ rfl)
  | push =>
    dsimp only
    split
    · rename_i a ha
      exact Task.obeys_yield (.modifyArray s a fun xs => by simp) (C.append hs (hobject _ ha) hargs)
        C.nothing
    · rename_i hother
      refine Task.obeys_fail hs (C.receiver _ hfn hhost ?_)
      cases hb : fn.bound with
      | none => rfl
      | some a => exact (hother a (by rw [hb]; rfl)).elim
  | receiver =>
    refine Task.obeys_yield (.refl s) hs ?_
    cases ho : fn.bound.map Value.array <|> receiver with
    | none => exact C.nothing
    | some v => exact hobject v ho
  | argumentCount => exact Task.obeys_yield (.refl s) hs (C.count _ hfn (.inl hhost))
  | argumentArray =>
    have hitems : ∀ v ∈ args.toArray, C.value s v := by simpa using hargs
    obtain ⟨hs', hv⟩ := C.newArray hs hitems
    exact Task.obeys_yield (.newArray s _) hs' hv
  | callDepth => exact Task.obeys_yield (.refl s) hs (C.count _ hfn (.inr hhost))
  | nothing => exact Task.obeys_yield (.refl s) hs C.nothing
  | foreign type => exact Task.obeys_fail hs (C.foreign hfn hhost)

theorem Task.leave_obeys {out : Outcome} (hs : C.store s) (hout : C.outcome s out) :
    (Task.leave out s).Obeys C calls a s := by
  cases out with
  | value v => exact obeys_yield (.refl s) hs C.nothing
  | returned v => exact obeys_yield (.refl s) hs hout
  | failed failure => exact ⟨.refl s, hs, hout⟩
  | aborted cause => exact ⟨.refl s, hs, hout⟩

theorem Store.depth_bind_newFrame {parent : Option FrameId} {depth : Int} {names : List String}
    {vs : List Value} :
    (((s.newFrame parent none (some depth)).2.bind (s.newFrame parent none (some depth)).1 names
      vs).frame (s.newFrame parent none (some depth)).1).depth = depth := by
  rw [((Store.Extends.bind _ _ names vs).frame _ (s.newFrame_lt parent none (some depth))).depth,
    Store.frame_newFrame_self]
  rfl

theorem Closure.call_obeys {fn : Closure} {args : List Value} (ha : C.Active s a)
    (hnode : a.node.isCall) (hfn : C.value s (.function fn)) (hargs : ∀ v ∈ args, C.value s v) :
    (fn.call limits a.scope args s).Obeys C limits.calls a s := by
  unfold Closure.call
  dsimp only
  split
  · exact Task.obeys_fail ha.store (C.ordinary _ rfl)
  · rename_i hdepth
    -- the new frame is the youngest, and its parameters hold values of the caller
    have he := (Store.Extends.newFrame s (some fn.scope) none (some ((s.frame a.scope).depth + 1))).trans
      (.bind _ (s.newFrame (some fn.scope) none (some ((s.frame a.scope).depth + 1))).1 fn.params args)
    obtain ⟨hs, hn⟩ := C.call ((s.frame a.scope).depth + 1) ha.store hfn hargs
    refine ⟨he, ⟨hs, ?_, hn⟩, .body hnode ?_ ?_, fun out t _ ht hout => Task.leave_obeys ht hout⟩
    · exact Nat.lt_of_lt_of_le (s.newFrame_lt _ _ _) (Store.Extends.bind _ _ _ _).frames_size
    · rw [Store.depth_bind_newFrame, (he.frame _ ha.scope).depth]
    · rw [Store.depth_bind_newFrame]
      exact Int.not_lt.1 hdepth

theorem Value.call_obeys {callee : Value} {depth : Nat} {receiver : Option Value}
    {args : List Value} (ha : C.Active s a) (hnode : a.node.isCall) (hc : C.value s callee)
    (hreceiver : ∀ v ∈ receiver, C.value s v) (hargs : ∀ v ∈ args, C.value s v) :
    (callee.call limits depth a.scope receiver args s).Obeys C limits.calls a s := by
  cases callee with
  | native fn => exact fn.call_obeys ha.store hc hreceiver hargs
  | function fn => exact fn.call_obeys ha hnode hc hargs
  | _ => exact Task.obeys_fail ha.store (C.ordinary _ rfl)

theorem Task.obeys_apply {callee : Value} {depth : Nat} {receiver : Option Value}
    {args : List Node} (ha : C.Active s a) (hnode : a.node.isCall) (hc : C.value s callee)
    (hreceiver : ∀ v ∈ receiver, C.value s v) (hargs : ∀ n ∈ args, n ∈ a.node.operands) :
    (apply limits depth callee receiver args a.scope s).Obeys C limits.calls a s := by
  unfold apply
  split
  · refine obeys_collect ha hargs (by simp) fun vs t het ht hvs => ?_
    exact Value.call_obeys ht hnode (C.value_mono het hc)
      (fun v hv => C.value_mono het (hreceiver v hv)) hvs
  · exact obeys_fail ha.store (C.ordinary _ rfl)

end Calls

theorem Node.start_obeys {C : Contract} {limits : Limits} {depth : Nat} {scope : FrameId} {s : Store}
    {n : Node} (ha : C.Active s ⟨n, scope, depth⟩) :
    (n.start limits depth scope s).Obeys C limits.calls ⟨n, scope, depth⟩ s := by
  have hs := ha.store
  cases n with
  | number w =>
    refine Task.obeys_within hs ?_
    split
    · rename_i h
      exact Task.obeys_yield (.refl s) hs (C.numeral ha.node h)
    · rename_i h
      exact ⟨.refl s, hs, C.unreadable ha.node h⟩
  | string w => exact Task.obeys_within hs (Task.obeys_yield (.refl s) hs (C.string _))
  | boolean b w => exact Task.obeys_within hs (Task.obeys_yield (.refl s) hs (C.boolean _))
  | name w =>
    refine Task.obeys_within hs ?_
    split
    · rename_i h
      exact Task.obeys_yield (.refl s) hs (C.name hs ha.node h)
    · exact Task.obeys_fail hs (C.ordinary _ rfl)
  | binary op left right p =>
    refine Task.obeys_value ha (by simp [operands, children]) fun x t _ ht _ => ?_
    refine Task.obeys_value ht (by simp [operands, children]) fun y u _ hu _ => ?_
    rcases Value.operate_cases op.symbol x y with ⟨fault, h, hf⟩ | ⟨h, ho⟩ | ⟨operation, i, j, h⟩
    · rw [h]
      exact Task.obeys_fail hu.store (C.ordinary fault hf)
    · rw [h]
      exact Task.obeys_fail hu.store (C.operator hu.node ho)
    · rw [h]
      refine Task.obeys_yield (.refl u) hu.store ?_
      cases operation <;> first | exact C.wrapped _ | exact C.boolean _
  | negate operand p =>
    refine Task.obeys_value ha (by simp [operands, children]) fun v t _ ht _ => ?_
    cases v with
    | number x => exact Task.obeys_yield (.refl t) ht.store (C.wrapped _)
    | _ => exact Task.obeys_fail ht.store (C.ordinary _ rfl)
  | array items p =>
    refine Task.obeys_collect ha (fun c hc => hc) (by simp) fun vs t _ ht hvs => ?_
    have hitems : ∀ v ∈ vs.toArray, C.value t v := by simpa using hvs
    obtain ⟨ht', hv⟩ := C.newArray ht.store hitems
    exact Task.obeys_yield (.newArray t _) ht' hv
  | record fields p =>
    exact Task.obeys_collectFields ha (fun f hf => List.mem_map_of_mem hf) nofun
  | item base key p =>
    refine Task.obeys_value ha (by simp [operands, children]) fun b t _ ht hb => ?_
    refine Task.obeys_value ht (by simp [operands, children]) fun k u heu hu _ => ?_
    refine Task.obeys_ofExcept hu.store (fun v hv => C.item hu.store (C.value_mono heu hb) hv) ?_
    exact fun fault hf => C.ordinary fault (Store.getItem_ordinary hf)
  | call callee args q p =>
    refine Task.obeys_value ha (by simp [operands, children]) fun c t _ ht hc => ?_
    exact Task.obeys_apply ht rfl hc nofun fun c hc => List.mem_cons_of_mem _ hc
  | methodCall receiver key args q p =>
    refine Task.obeys_value ha (by simp [operands, children]) fun r t _ ht hr => ?_
    refine Task.obeys_value ht (by simp [operands, children]) fun k u heu hu _ => ?_
    split
    · rename_i c hc
      refine Task.obeys_apply hu rfl (C.item hu.store (C.value_mono heu hr) hc) ?_ fun c hc =>
        List.mem_cons_of_mem _ (List.mem_cons_of_mem _ hc)
      rintro v ⟨⟩
      exact C.value_mono heu hr
    · rename_i fault hf
      exact Task.obeys_fail hu.store (C.ordinary fault (Store.getItem_ordinary hf))
  | assign target value p =>
    refine Task.obeys_value ha (by simp [operands, children]) fun v t _ ht hv => ?_
    refine Task.obeys_within ht.store ?_
    split
    · rename_i holder hh
      have he := Store.Extends.define t holder target.text v
      exact Task.obeys_yield he (C.assign ht.store ht.node hh hv) (C.value_mono he hv)
    · exact Task.obeys_fail ht.store (C.ordinary _ rfl)
  | setItem base key value p =>
    refine Task.obeys_value ha (by simp [operands, children]) fun b t _ ht hb => ?_
    refine Task.obeys_value ht (by simp [operands, children]) fun k u heu hu _ => ?_
    refine Task.obeys_value hu (by simp [operands, children]) fun v w hew hw hv => ?_
    split
    · rename_i slot hslot
      have he := Store.Extends.fill w v slot
      have hb := C.value_mono (heu.trans hew) hb
      exact Task.obeys_yield he (C.fill hw.store hb hslot hv) (C.value_mono he hv)
    · rename_i fault hf
      exact Task.obeys_fail hw.store (C.ordinary fault (Store.slot_ordinary hf))
  | sequence body p =>
    exact Task.obeys_sequence hs ha.scope (fun c hc => C.operand ha.node hc)
      (fun t _ c hc => .operand hc) C.nothing
  | block body p =>
    obtain ⟨hs', hn⟩ := C.block hs ha.scope ha.node
    have he := Store.Extends.newFrame s (some scope) none none
    refine Task.Obeys.mono he (Task.obeys_sequence hs' (s.newFrame_lt _ _ _) hn ?_ C.nothing)
    intro t het c hc
    have hnew := het.frame _ (s.newFrame_lt (some scope) none none)
    rw [Store.frame_newFrame_self] at hnew
    exact .statement rfl hc (hnew.depth.trans ((he.trans het).frame _ ha.scope).depth.symm)
  | expression value p =>
    exact Task.obeys_value ha (by simp [operands, children]) fun v t _ ht hv =>
      Task.obeys_yield (.refl t) ht.store hv
  | declare w init p =>
    cases init with
    | none => exact Task.obeys_yield (.define s _ _ _) (C.declare hs ha.node C.nothing) C.nothing
    | some init =>
      refine Task.obeys_value ha (by simp [operands, children]) fun v t _ ht hv => ?_
      have he := Store.Extends.define t scope w.text v
      exact Task.obeys_yield he (C.declare ht.store ht.node hv) (C.value_mono he hv)
  | function w params body p =>
    exact Task.obeys_yield (.define s _ _ _) (C.function hs ha.scope ha.node) C.nothing
  | print value p =>
    refine Task.obeys_value ha (by simp [operands, children]) fun v t _ ht hv => ?_
    split
    · exact Task.obeys_yield (.write t _) (C.write ht.store) (C.value_mono (.write t _) hv)
    · exact ⟨.refl t, ht.store, (C.stack rfl)⟩
  | giveBack value p =>
    cases value with
    | none => exact ⟨.refl s, hs, C.nothing⟩
    | some value =>
      exact Task.obeys_value ha (by simp [operands, children]) fun v t _ ht hv =>
        ⟨.refl t, ht.store, hv⟩
  | loop condition body p =>
    refine Task.obeys_test ha (by simp [operands, children]) fun b t _ ht => ?_
    split
    · exact Task.obeys_value ht (by simp [operands, children]) fun v u _ hu _ =>
        ⟨.refl u, hu.store, rfl⟩
    · exact Task.obeys_yield (.refl t) ht.store C.nothing
  | branch condition yes no p =>
    refine Task.obeys_test ha (by simp [operands, children]) fun b t _ ht => ?_
    refine Task.obeys_value ht ?_ fun v u _ hu hv => Task.obeys_yield (.refl u) hu.store hv
    cases b
    · simp [operands, children]
    · simp [operands, children]
  | malformed defect p => exact Task.obeys_ofDefect hs (C.malformed ha.node)

section Recursion

variable {C : Contract} {limits : Limits}

theorem Task.Obeys.carryOut {eval : Activation → Store → Option (Outcome × Store)}
    (heval : ∀ a s out t, C.Active s a → eval a s = some (out, t) →
      s.Extends t ∧ C.store t ∧ C.outcome t out)
    {a : Activation} {task : Task} {s t : Store} {out : Outcome} (ha : C.Active s a)
    (h : task.Obeys C limits.calls a s) (hr : task.carryOut limits eval a = some (out, t)) :
    s.Extends t ∧ C.store t ∧ C.outcome t out := by
  induction task generalizing s with
  | done out u =>
    cases hr
    exact ⟨h.1, h.2.1, C.outcome_locate h.2.2 _⟩
  | visit cost node f u resume ih =>
    obtain ⟨hsu, hnode, -, hresume⟩ := h
    simp only [Task.carryOut] at hr
    split at hr
    · cases he : eval ⟨node, f, a.depth + cost⟩ u with
      | none => rw [he] at hr; cases hr
      | some r =>
        obtain ⟨out', v⟩ := r
        rw [he] at hr
        obtain ⟨huv, hv, hout⟩ := heval _ u out' v hnode he
        obtain ⟨hvt, rest⟩ := ih out' v (ha.mono (hsu.trans huv) hv) (hresume out' v huv hv hout) hr
        exact ⟨(hsu.trans huv).trans hvt, rest⟩
    · obtain ⟨hut, rest⟩ := ih (.aborted .stack) u (ha.mono hsu hnode.store)
        (hresume (.aborted .stack) u (.refl u) hnode.store (C.stack rfl)) hr
      exact ⟨hsu.trans hut, rest⟩
  | again u =>
    obtain ⟨hut, rest⟩ := heval a u out t (ha.mono h.1 h.2.1) hr
    exact ⟨h.1.trans hut, rest⟩

theorem Activation.eval_obeys {fuel : Nat} {a : Activation} {s t : Store} {out : Outcome}
    (ha : C.Active s a) (hr : a.eval limits fuel s = some (out, t)) :
    s.Extends t ∧ C.store t ∧ C.outcome t out := by
  induction fuel generalizing a s out t with
  | zero => cases hr
  | succ fuel ih => exact (Node.start_obeys ha).carryOut (fun _ _ _ _ => ih) ha hr

def Contract.any : Contract where
  store _ := True
  value _ _ := True
  node _ _ _ := True
  value_mono _ _ := trivial
  node_mono _ _ := trivial
  operand _ _ := trivial
  block _ _ _ := ⟨trivial, fun _ _ => trivial⟩
  call _ _ _ _ := ⟨trivial, trivial⟩
  write _ := trivial
  newArray _ _ := ⟨trivial, trivial⟩
  newRecord _ _ := ⟨trivial, trivial⟩
  append _ _ _ := trivial
  fill _ _ _ _ := trivial
  assign _ _ _ _ := trivial
  declare _ _ _ := trivial
  function _ _ _ := trivial
  nothing := trivial
  string _ := trivial
  boolean _ := trivial
  numeral _ _ := trivial
  wrapped _ := trivial
  name _ _ _ := trivial
  item _ _ _ := trivial
  bound _ _ := trivial
  count _ _ _ := trivial

theorem Activation.eval_extends {fuel : Nat} {a : Activation} {s t : Store} {out : Outcome}
    (hscope : a.scope.index < s.frames.size) (hr : a.eval limits fuel s = some (out, t)) :
    s.Extends t :=
  (Activation.eval_obeys (C := .any) ⟨trivial, hscope, trivial⟩ hr).1

end Recursion

end Scripting
