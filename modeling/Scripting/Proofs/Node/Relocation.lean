import Scripting.Proofs.Grammar.Shape
import Scripting.Proofs.Node.Parallel

/-!
Nodes that stand elsewhere. A relocation gives every place in a node another one, or none, and leaves the
rest as it is, so that the node and what comes of it have the same form. Nodes that differ in their places
only have the same form too.
-/

set_option autoImplicit false

namespace Scripting

def Word.relocate (f : Option Place → Option Place) (w : Word) : Word := ⟨w.text, f w.place⟩

def Parameters.relocate (f : Option Place → Option Place) (ps : Parameters) : Parameters :=
  ⟨ps.names.map (Word.relocate f), f ps.place⟩

namespace Node

mutual

/-- The node with the place that `f` gives for each place in it. -/
def relocate (f : Option Place → Option Place) : Node → Node
  | .number w => .number (w.relocate f)
  | .string w => .string (w.relocate f)
  | .boolean b w => .boolean b (w.relocate f)
  | .name w => .name (w.relocate f)
  | .binary op l r p => .binary op (l.relocate f) (r.relocate f) (f p)
  | .negate e p => .negate (e.relocate f) (f p)
  | .array items p => .array (relocateAll f items) (f p)
  | .record fields p => .record (relocateFields f fields) (f p)
  | .item b k p => .item (b.relocate f) (k.relocate f) (f p)
  | .call c args q p => .call (c.relocate f) (relocateAll f args) (f q) (f p)
  | .methodCall b k args q p =>
    .methodCall (b.relocate f) (k.relocate f) (relocateAll f args) (f q) (f p)
  | .assign w v p => .assign (w.relocate f) (v.relocate f) (f p)
  | .setItem b k v p => .setItem (b.relocate f) (k.relocate f) (v.relocate f) (f p)
  | .sequence body p => .sequence (relocateAll f body) (f p)
  | .block body p => .block (relocateAll f body) (f p)
  | .expression e p => .expression (e.relocate f) (f p)
  | .declare w none p => .declare (w.relocate f) none (f p)
  | .declare w (some e) p => .declare (w.relocate f) (some (e.relocate f)) (f p)
  | .function w params body p =>
    .function (w.relocate f) (params.relocate f) (body.relocate f) (f p)
  | .print e p => .print (e.relocate f) (f p)
  | .giveBack none p => .giveBack none (f p)
  | .giveBack (some e) p => .giveBack (some (e.relocate f)) (f p)
  | .loop c b p => .loop (c.relocate f) (b.relocate f) (f p)
  | .branch c yes no p => .branch (c.relocate f) (yes.relocate f) (no.relocate f) (f p)
  | .malformed defect p => .malformed defect (f p)
termination_by structural n => n

def relocateAll (f : Option Place → Option Place) : List Node → List Node
  | [] => []
  | n :: ns => n.relocate f :: relocateAll f ns
termination_by structural ns => ns

def relocateFields (f : Option Place → Option Place) : List (Field Node) → List (Field Node)
  | [] => []
  | ⟨key, value, p⟩ :: fields =>
    ⟨key.relocate f, value.relocate f, f p⟩ :: relocateFields f fields
termination_by structural fields => fields

end

def relocateField (f : Option Place → Option Place) (e : Field Node) : Field Node :=
  ⟨e.key.relocate f, e.value.relocate f, f e.place⟩

variable (f g : Option Place → Option Place)

@[simp] theorem relocateAll_eq_map (ns : List Node) : relocateAll f ns = ns.map (relocate f) := by
  induction ns with
  | nil => rfl
  | cons n ns ih => rw [relocateAll, ih, List.map_cons]

@[simp] theorem relocateFields_eq_map (fields : List (Field Node)) :
    relocateFields f fields = fields.map (relocateField f) := by
  induction fields with
  | nil => rfl
  | cons e fields ih =>
    rw [relocateFields, ih, List.map_cons]
    rfl

@[simp] theorem relocate_declare (w : Word) (init : Option Node) (p : Option Place) :
    (declare w init p).relocate f = .declare (w.relocate f) (init.map (relocate f)) (f p) := by
  cases init <;> rfl

@[simp] theorem relocate_giveBack (value : Option Node) (p : Option Place) :
    (giveBack value p).relocate f = .giveBack (value.map (relocate f)) (f p) := by
  cases value <;> rfl

@[simp] theorem relocate_counted (start : Option Node) (condition : Node) (step : Option Node)
    (body : Node) (p : Option Place) :
    (counted start condition step body p).relocate f =
      .counted (start.map (relocate f)) (condition.relocate f) (step.map (relocate f))
        (body.relocate f) (f p) := by
  cases start <;> cases step <;> rfl

mutual

theorem relocate_relocate : ∀ n : Node, (n.relocate f).relocate g = n.relocate (g ∘ f)
  | .number _ | .string _ | .boolean _ _ | .name _ | .malformed _ _ => rfl
  | .declare _ none _ | .giveBack none _ => rfl
  | .binary _ l r _ | .item l r _ | .loop l r _ => by
    simp only [relocate, relocate_relocate l, relocate_relocate r, Function.comp]
  | .negate e _ | .expression e _ | .print e _ | .giveBack (some e) _ => by
    simp only [relocate, relocate_relocate e, Function.comp]
  | .assign w e _ | .declare w (some e) _ => by
    simp only [relocate, relocate_relocate e, Word.relocate, Function.comp]
  | .array ns _ | .sequence ns _ | .block ns _ => by
    simp only [relocate, relocateAll_relocateAll ns, Function.comp]
  | .record fields _ => by simp only [relocate, relocateFields_relocateFields fields, Function.comp]
  | .call c args _ _ => by
    simp only [relocate, relocate_relocate c, relocateAll_relocateAll args, Function.comp]
  | .methodCall b k args _ _ => by
    simp only [relocate, relocate_relocate b, relocate_relocate k, relocateAll_relocateAll args,
      Function.comp]
  | .setItem b k v _ | .branch b k v _ => by
    simp only [relocate, relocate_relocate b, relocate_relocate k, relocate_relocate v, Function.comp]
  | .function w params body _ => by
    simp only [relocate, relocate_relocate body, Parameters.relocate, List.map_map]
    rfl

theorem relocateAll_relocateAll :
    ∀ ns : List Node, relocateAll g (relocateAll f ns) = relocateAll (g ∘ f) ns
  | [] => rfl
  | n :: ns => by
    simp only [relocateAll, relocate_relocate n, relocateAll_relocateAll ns]

theorem relocateFields_relocateFields :
    ∀ fields : List (Field Node),
      relocateFields g (relocateFields f fields) = relocateFields (g ∘ f) fields
  | [] => rfl
  | ⟨key, value, _⟩ :: fields => by
    simp only [relocateFields, relocate_relocate value, relocateFields_relocateFields fields,
      Word.relocate, Function.comp]

end

mutual

theorem unplaced_eq_relocate : ∀ n : Node, n.unplaced = n.relocate fun _ => none
  | .number _ | .string _ | .boolean _ _ | .name _ | .malformed _ _ => rfl
  | .declare _ none _ | .giveBack none _ => rfl
  | .binary _ l r _ | .item l r _ | .loop l r _ => by
    simp only [relocate, unplaced, unplaced_eq_relocate l, unplaced_eq_relocate r]
  | .negate e _ | .expression e _ | .print e _ | .giveBack (some e) _ => by
    simp only [relocate, unplaced, unplaced_eq_relocate e]
  | .assign w e _ | .declare w (some e) _ => by
    simp only [relocate, unplaced, unplaced_eq_relocate e, Word.relocate, Word.unplaced]
  | .array ns _ | .sequence ns _ | .block ns _ => by
    simp only [relocate, unplaced, allUnplaced_eq_relocateAll ns]
  | .record fields _ => by simp only [relocate, unplaced, fieldsUnplaced_eq_relocateFields fields]
  | .call c args _ _ => by
    simp only [relocate, unplaced, unplaced_eq_relocate c, allUnplaced_eq_relocateAll args]
  | .methodCall b k args _ _ => by
    simp only [relocate, unplaced, unplaced_eq_relocate b, unplaced_eq_relocate k,
      allUnplaced_eq_relocateAll args]
  | .setItem b k v _ | .branch b k v _ => by
    simp only [relocate, unplaced, unplaced_eq_relocate b, unplaced_eq_relocate k,
      unplaced_eq_relocate v]
  | .function w params body _ => by
    simp only [relocate, unplaced, unplaced_eq_relocate body]
    rfl

theorem allUnplaced_eq_relocateAll : ∀ ns : List Node, allUnplaced ns = relocateAll (fun _ => none) ns
  | [] => rfl
  | n :: ns => by
    simp only [relocateAll, allUnplaced, unplaced_eq_relocate n, allUnplaced_eq_relocateAll ns]

theorem fieldsUnplaced_eq_relocateFields :
    ∀ fields : List (Field Node), fieldsUnplaced fields = relocateFields (fun _ => none) fields
  | [] => rfl
  | ⟨key, value, _⟩ :: fields => by
    simp only [relocateFields, fieldsUnplaced, unplaced_eq_relocate value,
      fieldsUnplaced_eq_relocateFields fields, Word.relocate, Word.unplaced]

end

@[simp] theorem unplaced_relocate (n : Node) : (n.relocate f).unplaced = n.unplaced := by
  rw [unplaced_eq_relocate, unplaced_eq_relocate, relocate_relocate]
  rfl

/-! Nodes of the same form. -/

theorem forall₂_map {α : Type} (h : α → α) (l : List α) :
    List.Forall₂ (fun a a' => a' = h a) l (l.map h) :=
  List.forall₂_map_right_iff.2 (List.forall₂_same.2 fun _ _ => rfl)

theorem rel_map {α : Type} (h : α → α) (o : Option α) :
    Option.Rel (fun a a' => a' = h a) o (o.map h) := by
  cases o with
  | none => exact .none
  | some a => exact .some rfl

theorem parallel_relocate (n : Node) :
    n.Parallel (fun p p' => p' = f p) (fun w w' => w' = w.relocate f)
      (fun c c' => c' = c.relocate f) (fun c c' => c' = c.relocate f) (n.relocate f) := by
  cases n with
  | array items p =>
    rw [relocate, relocateAll_eq_map]
    exact .array (forall₂_map _ items) rfl
  | record fields p =>
    have h := forall₂_map (relocateField f) fields
    rw [relocate, relocateFields_eq_map]
    refine .record (h.imp ?_) ?_ rfl
    · rintro e _ rfl
      exact ⟨rfl, rfl, rfl⟩
    · rw [List.forall₂_map_left_iff, List.forall₂_map_right_iff]
      refine h.imp ?_
      rintro e _ rfl
      rfl
  | call c args q p =>
    rw [relocate, relocateAll_eq_map]
    exact .call rfl (forall₂_map _ args) rfl rfl
  | methodCall b k args q p =>
    rw [relocate, relocateAll_eq_map]
    exact .methodCall rfl rfl (forall₂_map _ args) rfl rfl
  | sequence body p =>
    rw [relocate, relocateAll_eq_map]
    exact .sequence (forall₂_map _ body) rfl
  | block body p =>
    rw [relocate, relocateAll_eq_map]
    exact .block (forall₂_map _ body) rfl
  | declare w init p =>
    rw [relocate_declare]
    exact .declare rfl (rel_map _ init) rfl
  | giveBack value p =>
    rw [relocate_giveBack]
    exact .giveBack (rel_map _ value) rfl
  | function w params body p => exact .function rfl (forall₂_map _ _) rfl rfl rfl
  | _ => constructor <;> rfl

theorem forall₂_meet {α : Type} {R R' : α → α → Prop} (hR : ∀ a a' b, R a b → R a' b → R' a a')
    {l l' m : List α} (h : List.Forall₂ R l m) (h' : List.Forall₂ R l' m) : List.Forall₂ R' l l' := by
  induction h generalizing l' with
  | nil =>
    cases h'
    exact .nil
  | cons ha _ ih =>
    cases h' with
    | cons ha' ht => exact .cons (hR _ _ _ ha ha') (ih ht)

theorem rel_meet {α : Type} {R R' : α → α → Prop} (hR : ∀ a a' b, R a b → R a' b → R' a a')
    {o o' m : Option α} (h : Option.Rel R o m) (h' : Option.Rel R o' m) : Option.Rel R' o o' := by
  cases h with
  | none =>
    cases h'
    exact .none
  | some ha =>
    cases h' with
    | some ha' => exact .some (hR _ _ _ ha ha')

theorem Parallel.meet {P P' : Option Place → Option Place → Prop} {N N' : Word → Word → Prop}
    {R R' Q Q' : Node → Node → Prop} {n n' m : Node} (h : n.Parallel P N R Q m)
    (h' : n'.Parallel P N R Q m) (hP : ∀ p p' q, P p q → P p' q → P' p p')
    (hN : ∀ w w' v, N w v → N w' v → N' w w') (hR : ∀ c c' d, R c d → R c' d → R' c c')
    (hQ : ∀ c c' d, Q c d → Q c' d → Q' c c') : n.Parallel P' N' R' Q' n' := by
  cases h with
  | record hk hv hp =>
    cases h' with
    | record hk' hv' hp' =>
      refine .record (forall₂_meet ?_ hk hk') (forall₂_meet hR hv hv') (hP _ _ _ hp hp')
      rintro e e' d ⟨ht, hp, hq⟩ ⟨ht', hp', hq'⟩
      exact ⟨ht'.symm.trans ht, hP _ _ _ hp hp', hP _ _ _ hq hq'⟩
  | _ =>
    cases h'
    constructor <;> first
      | (apply hP <;> assumption)
      | (apply hN <;> assumption)
      | (apply hR <;> assumption)
      | (apply hQ <;> assumption)
      | (apply forall₂_meet hR <;> assumption)
      | (apply forall₂_meet hQ <;> assumption)
      | (apply forall₂_meet hN <;> assumption)
      | (apply rel_meet hR <;> assumption)
      | (apply Eq.trans (Eq.symm _) <;> assumption)

theorem parallel_of_unplaced_eq {n n' : Node} (h : n'.unplaced = n.unplaced) :
    n.Parallel (fun _ _ => True) (fun w w' => w'.text = w.text)
      (fun c c' => c'.unplaced = c.unplaced) (fun c c' => c'.unplaced = c.unplaced) n' := by
  have hunplaced (c c' d : Node) (hc : d = c.relocate fun _ => none)
      (hc' : d = c'.relocate fun _ => none) : c'.unplaced = c.unplaced := by
    rw [unplaced_eq_relocate, unplaced_eq_relocate, ← hc, ← hc']
  rw [unplaced_eq_relocate, unplaced_eq_relocate] at h
  refine (parallel_relocate _ n).meet (h ▸ parallel_relocate _ n') ?_ ?_ hunplaced hunplaced
  · exact fun _ _ _ _ _ => trivial
  · exact fun w w' v hw hw' => (Word.mk.inj (hw'.symm.trans hw)).1

end Node

end Scripting
