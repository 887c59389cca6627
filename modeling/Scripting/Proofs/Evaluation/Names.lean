import Mathlib
import Scripting.Program
import Scripting.Proofs.Evaluation.Contract
import Scripting.Proofs.Grammar.Shape

/-!
Where names are bound. A declaration enters its name in the frame it is evaluated in; an assignment finds
the name where it is. So evaluation adds names to the frame of the node alone, and to none if no
declaration is evaluated in that frame: expressions, blocks, calls and loops around blocks bind nothing
outside.
-/

set_option autoImplicit false

namespace Scripting

theorem Table.contains_iff {α : Type} {t : Table α} {name : String} :
    t.contains name ↔ name ∈ t.names := by
  obtain ⟨entries⟩ := t
  change (entries.lookup name).isSome ↔ name ∈ entries.map (·.1)
  induction entries with
  | nil => simp
  | cons e rest ih =>
    obtain ⟨other, a⟩ := e
    rw [Table.lookup_cons]
    by_cases h : name = other
    · simp [h]
    · simp [h, ih]

namespace Store

def names (s : Store) (f : FrameId) : List String :=
  (s.frame f).vars.names

theorem mem_names_of_holder? {s : Store} {f h : FrameId} {name : String}
    (hh : s.holder? f name = some h) : name ∈ s.names h := by
  fun_induction s.holder? f name with
  | case1 f hf =>
    cases hh
    exact Table.contains_iff.1 hf
  | case2 => cases hh
  | case3 _ _ _ _ _ ih => exact ih hh
  | case4 => cases hh

theorem names_define_of_ne (s : Store) {f g : FrameId} (h : f ≠ g) (name : String) (v : Value) :
    (s.define f name v).names g = s.names g := by
  rw [names, s.frame_define_of_ne h, names]

theorem names_define_of_mem (s : Store) {f : FrameId} {name : String} (h : name ∈ s.names f)
    (v : Value) (g : FrameId) : (s.define f name v).names g = s.names g := by
  by_cases hg : f = g
  · subst hg
    rw [names, frame_define]
    split
    · exact (Table.names_put _ _ _).trans (if_pos h)
    · rfl
  · exact s.names_define_of_ne hg name v

theorem mem_names_define (s : Store) {f : FrameId} (hf : f.index < s.frames.size) (name : String)
    (v : Value) : name ∈ (s.define f name v).names f := by
  rw [names, s.frame_define_self hf, Table.names_put]
  split
  · assumption
  · simp

theorem names_newFrame (s : Store) {g : FrameId} (hg : g.index < s.frames.size)
    (parent : Option FrameId) (source : Option String) (depth : Option Int) :
    (s.newFrame parent source depth).2.names g = s.names g := by
  rw [names, frame_newFrame, if_neg (Nat.ne_of_lt hg), names]

theorem newFrame_ne (s : Store) {g : FrameId} (hg : g.index < s.frames.size)
    (parent : Option FrameId) (source : Option String) (depth : Option Int) :
    (s.newFrame parent source depth).1 ≠ g := by
  rintro rfl
  exact Nat.lt_irrefl _ hg

theorem names_bind_of_ne (s : Store) {f g : FrameId} (h : f ≠ g) (params : List String)
    (vs : List Value) : (s.bind f params vs).names g = s.names g := by
  induction params generalizing s vs with
  | nil => rfl
  | cons name params ih =>
    cases vs with
    | nil => exact (ih _ _).trans (s.names_define_of_ne h name .nothing)
    | cons v vs => exact (ih _ _).trans (s.names_define_of_ne h name v)

theorem mem_names_bind (s : Store) {f : FrameId} (hf : f.index < s.frames.size) {name : String}
    {params : List String} (h : name ∈ params) (vs : List Value) :
    name ∈ (s.bind f params vs).names f := by
  induction params generalizing s vs with
  | nil => cases h
  | cons first params ih =>
    have hstep (v : Value) (vs : List Value) :
        name ∈ ((s.define f first v).bind f params vs).names f := by
      have hsize : f.index < (s.define f first v).frames.size := by rwa [size_frames_define]
      rcases List.mem_cons.1 h with rfl | h
      · exact ((Extends.bind _ f params vs).frame f hsize).names.subset (s.mem_names_define hf name v)
      · exact ih _ hsize h vs
    cases vs with
    | nil => exact hstep .nothing []
    | cons v vs => exact hstep v vs

end Store

namespace Node

/-- The first node is evaluated in the frame in which the second one is. -/
inductive Beside : Node → Node → Prop where
  | refl (n : Node) : Beside n n
  | operand {m c n : Node} (hc : c ∈ n.operands) (h : Beside m c) : Beside m n

def isBinder : Node → Bool
  | .declare _ _ _ | .function _ _ _ _ => true
  | _ => false

/-- No declaration is evaluated in the frame of the node. -/
def Bindless (n : Node) : Prop :=
  ∀ m : Node, m.Beside n → m.isBinder = false

namespace Bindless

variable {n : Node}

theorem here (h : n.Bindless) : n.isBinder = false :=
  h n (.refl n)

theorem operand {c : Node} (h : n.Bindless) (hc : c ∈ n.operands) : c.Bindless :=
  fun m hm => h m (.operand hc hm)

theorem intro (h : n.isBinder = false) (hc : ∀ c ∈ n.operands, c.Bindless) : n.Bindless := by
  intro m hm
  cases hm with
  | refl => exact h
  | operand hm hb => exact hc _ hm m hb

theorem block (body : List Node) (p : Option Place) : (Node.block body p).Bindless :=
  intro rfl nofun

end Bindless

theorem mem_areExpressions {ns : List Node} (h : areExpressions ns) {n : Node} (hn : n ∈ ns) :
    n.isExpression := by
  induction ns with
  | nil => cases hn
  | cons m ns ih =>
    simp only [areExpressions, Bool.and_eq_true] at h
    rcases List.mem_cons.1 hn with rfl | hn
    · exact h.1
    · exact ih h.2 hn

theorem mem_holdExpressions {fields : List (Field Node)} (h : holdExpressions fields)
    {f : Field Node} (hf : f ∈ fields) : f.value.isExpression := by
  induction fields with
  | nil => cases hf
  | cons g fields ih =>
    simp only [holdExpressions, Bool.and_eq_true] at h
    rcases List.mem_cons.1 hf with rfl | hf
    · exact h.1
    · exact ih h.2 hf

theorem isExpression_operand {n c : Node} (h : n.isExpression) (hc : c ∈ n.operands) :
    c.isExpression := by
  cases n with
  | array items p => exact mem_areExpressions h hc
  | record fields p =>
    obtain ⟨f, hf, rfl⟩ := List.mem_map.1 hc
    exact mem_holdExpressions h hf
  | call callee args q p =>
    simp only [isExpression, Bool.and_eq_true] at h
    rcases List.mem_cons.1 hc with rfl | hc
    · exact h.1
    · exact mem_areExpressions h.2 hc
  | methodCall receiver key args q p =>
    -- the name of a method is a string
    cases key with
    | string w =>
      simp only [isExpression, Bool.and_eq_true] at h
      rcases List.mem_cons.1 hc with rfl | hc
      · exact h.1
      · rcases List.mem_cons.1 hc with rfl | hc
        · rfl
        · exact mem_areExpressions h.2 hc
    | _ => cases h
  | number | string | boolean | name => cases hc
  | binary | negate | item | assign | setItem =>
    simp only [isExpression, Bool.and_eq_true] at h
    simp only [operands, children, List.mem_cons, List.not_mem_nil, or_false] at hc
    grind
  | _ => cases h

theorem isBinder_of_isExpression {n : Node} (h : n.isExpression) : n.isBinder = false := by
  cases n with
  | declare | function => cases h
  | _ => rfl

theorem bindless_of_isExpression {n : Node} (h : n.isExpression) : n.Bindless := by
  intro m hm
  induction hm with
  | refl => exact isBinder_of_isExpression h
  | operand hc _ ih => exact ih (isExpression_operand h hc)

end Node

/-- A frame has the given names, and no declaration is evaluated in it. -/
def Contract.names (g : FrameId) (names : List String) : Contract where
  store s := g.index < s.frames.size ∧ s.names g = names
  value _ _ := True
  node _ f n := f = g → n.Bindless
  value_mono _ _ := trivial
  node_mono _ hn := hn
  operand hn hc hf := (hn hf).operand hc
  block := by
    intro s f body p hs hf hn
    have hne := s.newFrame_ne hs.1 (some f) none none
    refine ⟨⟨?_, (s.names_newFrame hs.1 _ _ _).trans hs.2⟩, fun c _ hg => (hne hg).elim⟩
    exact Nat.lt_of_lt_of_le hs.1 (Store.Extends.newFrame s _ _ _).frames_size
  call := by
    intro s fn args depth hs _ _ new
    have hne := s.newFrame_ne hs.1 (some fn.scope) none (some depth)
    refine ⟨⟨?_, ?_⟩, fun hg => (hne hg).elim⟩
    · exact Nat.lt_of_lt_of_le hs.1
        ((Store.Extends.newFrame s _ _ _).trans (.bind _ _ _ _)).frames_size
    · exact (new.2.names_bind_of_ne hne _ _).trans ((s.names_newFrame hs.1 _ _ _).trans hs.2)
  write hs := hs
  newArray hs _ := ⟨hs, trivial⟩
  newRecord hs _ := ⟨hs, trivial⟩
  append hs _ _ := hs
  fill := by
    intro s base key v slot hs _ _ _
    cases slot <;> exact hs
  assign := by
    intro s f holder w e p v hs _ hh _
    refine ⟨by simpa using hs.1, ?_⟩
    exact (s.names_define_of_mem (Store.mem_names_of_holder? hh) v g).trans hs.2
  declare := by
    intro s f w init p v hs hn _
    have hne : f ≠ g := fun hf => nomatch (hn hf).here
    exact ⟨by simpa using hs.1, (s.names_define_of_ne hne _ _).trans hs.2⟩
  function := by
    intro s f w params body p hs _ hn
    have hne : f ≠ g := fun hf => nomatch (hn hf).here
    exact ⟨by simpa using hs.1, (s.names_define_of_ne hne _ _).trans hs.2⟩
  nothing := trivial
  string _ := trivial
  boolean _ := trivial
  numeral _ _ := trivial
  wrapped _ := trivial
  name _ _ _ := trivial
  item _ _ _ := trivial
  bound _ _ := trivial
  count _ _ _ := trivial

theorem Activation.eval_names {limits : Limits} {fuel : Nat} {a : Activation} {s t : Store}
    {out : Outcome} (hscope : a.scope.index < s.frames.size) {g : FrameId}
    (hg : g.index < s.frames.size) (hn : a.scope = g → a.node.Bindless)
    (h : a.eval limits fuel s = some (out, t)) : t.names g = s.names g :=
  (Activation.eval_obeys (C := .names g (s.names g)) ⟨⟨hg, rfl⟩, hscope, hn⟩ h).2.1.2

/-- Evaluation of a node in the frame `scope`, however it ends, binds no name in any other frame and
    enters new names in `scope` after those it had; an expression, a block or a loop around a block binds
    none there either. -/
theorem evaluate_binds_in_scope {limits : Limits} {steps : Nat} {n : Node} {scope : FrameId}
    {s t : Store} {out : Outcome} (hscope : scope.index < s.frames.size)
    (h : Machine.evaluate limits steps n scope s = some (out, t)) :
    (∀ f : FrameId, f.index < s.frames.size → f ≠ scope → t.names f = s.names f) ∧
    s.names scope <+: t.names scope ∧
    (n.isExpression ∨ (∃ body p, n = .block body p) ∨
      (∃ condition body p q, condition.isExpression ∧ n = .loop condition (.block body p) q) →
      t.names scope = s.names scope) := by
  obtain ⟨fuel, heval⟩ := Machine.evaluate_iff.1 ⟨steps, h⟩
  refine ⟨fun f hf hne => ?_, ?_, fun hn => ?_⟩
  · exact Activation.eval_names hscope hf (fun he => (hne he.symm).elim) heval
  · exact ((Activation.eval_extends hscope heval).frame scope hscope).names
  · refine Activation.eval_names hscope hscope (fun _ => ?_) heval
    rcases hn with hn | ⟨body, p, rfl⟩ | ⟨condition, body, p, q, hc, rfl⟩
    · exact Node.bindless_of_isExpression hn
    · exact .block body p
    · refine .intro rfl fun c hm => ?_
      simp only [Node.operands, Node.children, List.mem_cons, List.not_mem_nil, or_false] at hm
      rcases hm with rfl | rfl
      · exact Node.bindless_of_isExpression hc
      · exact .block body p

theorem evaluate_binds_in_scope_failing_block :
    ∃ v s body p q failure t,
      Program.run 50 400
        "var g; \x7b var k = 1; fun h(p) \x7b var q = p; k = q; return q; \x7d g = h; \x7d"
        (Store.empty.newRoot none).1 (Store.empty.newRoot none).2 = some (.ok v, s) ∧
      Program.parse "\x7b var b = g(7); for (var i = 0; i < 2; i = i + 1) \x7b var z = b; \x7d z; \x7d" =
        .ok (.sequence [.block body p] q) ∧
      Machine.evaluate (Program.limits 50) 400 (.block body p) (Store.empty.newRoot none).1 s =
        some (.failed failure, t) ∧
      s.names (Store.empty.newRoot none).1 = ["println", "typeof", "g"] ∧ s.names ⟨1⟩ = ["k", "h"] ∧
      t.names (Store.empty.newRoot none).1 = s.names (Store.empty.newRoot none).1 ∧
      t.names ⟨1⟩ = s.names ⟨1⟩ := by
  obtain ⟨v, s, body, p, q, failure, t, hfirst, hparse, hsecond, hsize, hroot, hinner⟩ :
      ∃ v s body p q failure t,
        Program.run 50 400
          "var g; \x7b var k = 1; fun h(p) \x7b var q = p; k = q; return q; \x7d g = h; \x7d"
          (Store.empty.newRoot none).1 (Store.empty.newRoot none).2 = some (.ok v, s) ∧
        Program.parse "\x7b var b = g(7); for (var i = 0; i < 2; i = i + 1) \x7b var z = b; \x7d z; \x7d" =
          .ok (.sequence [.block body p] q) ∧
        Machine.evaluate (Program.limits 50) 400 (.block body p) (Store.empty.newRoot none).1 s =
          some (.failed failure, t) ∧
        s.frames.size = 2 ∧ s.names (Store.empty.newRoot none).1 = ["println", "typeof", "g"] ∧
        s.names ⟨1⟩ = ["k", "h"] :=
    ⟨_, _, _, _, _, _, _, by cbv, by cbv, by cbv, by cbv, by cbv, by cbv⟩
  have hlt : (Store.empty.newRoot none).1.index < s.frames.size := by
    rw [hsize]
    decide
  obtain ⟨hothers, -, hscope⟩ := evaluate_binds_in_scope hlt hsecond
  refine ⟨v, s, body, p, q, failure, t, hfirst, hparse, hsecond, hroot, hinner, ?_, ?_⟩
  · exact hscope (.inr (.inl ⟨body, p, rfl⟩))
  · exact hothers ⟨1⟩ (by rw [hsize]; decide) (by decide)

end Scripting
