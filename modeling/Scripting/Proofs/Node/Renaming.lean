import Scripting.Proofs.Node.Parallel
import Scripting.Proofs.Node.Parts

/-!
Renaming a local name. A region is the part of a program in which a declaration of `x` at the start of a
block, or a parameter `x` of a function, is what `x` means; to rename it, every name `x` in the region
is replaced by `y`, also where it is declared again. Keys of records and names of members are no names in
this sense.
-/

set_option autoImplicit false

namespace Scripting

def rename (x y name : String) : String :=
  if name = x then y else name

theorem rename_self (x y : String) : rename x y x = y := if_pos rfl

theorem rename_of_ne {x y name : String} (h : name ≠ x) : rename x y name = name := if_neg h

theorem rename_inj {x y m n : String} (hm : m ≠ y) (hn : n ≠ y) (h : rename x y m = rename x y n) :
    m = n := by
  unfold rename at h
  split at h <;> split at h <;> simp_all

def Word.map (g : String → String) (w : Word) : Word :=
  ⟨g w.text, w.place⟩

def Parameters.map (g : String → String) (params : Parameters) : Parameters :=
  ⟨params.names.map (·.map g), params.place⟩

theorem Parameters.texts_map (g : String → String) (params : Parameters) :
    (params.map g).names.map (·.text) = (params.names.map (·.text)).map g := by
  simp [Parameters.map, Word.map]

namespace Node

mutual

def mapNames (g : String → String) : Node → Node
  | .number w => .number w
  | .string w => .string w
  | .boolean b w => .boolean b w
  | .name w => .name (w.map g)
  | .binary op l r p => .binary op (l.mapNames g) (r.mapNames g) p
  | .negate e p => .negate (e.mapNames g) p
  | .array items p => .array (mapAllNames g items) p
  | .record fields p => .record (mapFieldNames g fields) p
  | .item b k p => .item (b.mapNames g) (k.mapNames g) p
  | .call c args q p => .call (c.mapNames g) (mapAllNames g args) q p
  | .methodCall r k args q p => .methodCall (r.mapNames g) (k.mapNames g) (mapAllNames g args) q p
  | .assign w v p => .assign (w.map g) (v.mapNames g) p
  | .setItem b k v p => .setItem (b.mapNames g) (k.mapNames g) (v.mapNames g) p
  | .sequence body p => .sequence (mapAllNames g body) p
  | .block body p => .block (mapAllNames g body) p
  | .expression e p => .expression (e.mapNames g) p
  | .declare w none p => .declare (w.map g) none p
  | .declare w (some e) p => .declare (w.map g) (some (e.mapNames g)) p
  | .function w params body p => .function (w.map g) (params.map g) (body.mapNames g) p
  | .print e p => .print (e.mapNames g) p
  | .giveBack none p => .giveBack none p
  | .giveBack (some e) p => .giveBack (some (e.mapNames g)) p
  | .loop c b p => .loop (c.mapNames g) (b.mapNames g) p
  | .branch c yes no p => .branch (c.mapNames g) (yes.mapNames g) (no.mapNames g) p
  | .malformed defect p => .malformed defect p
termination_by structural n => n

def mapAllNames (g : String → String) : List Node → List Node
  | [] => []
  | n :: ns => n.mapNames g :: mapAllNames g ns
termination_by structural ns => ns

def mapFieldNames (g : String → String) : List (Field Node) → List (Field Node)
  | [] => []
  | ⟨key, value, p⟩ :: fields => ⟨key, value.mapNames g, p⟩ :: mapFieldNames g fields
termination_by structural fields => fields

end

theorem mapAllNames_eq_map (g : String → String) (ns : List Node) :
    mapAllNames g ns = ns.map (mapNames g) := by
  induction ns with
  | nil => rfl
  | cons n ns ih => rw [mapAllNames, ih, List.map_cons]

theorem mapFieldNames_eq_map (g : String → String) (fields : List (Field Node)) :
    mapFieldNames g fields = fields.map fun f => ⟨f.key, f.value.mapNames g, f.place⟩ := by
  induction fields with
  | nil => rfl
  | cons f fields ih => rw [mapFieldNames, ih, List.map_cons]

def words : Node → List String
  | .name w | .assign w _ _ | .declare w _ _ => [w.text]
  | .function w params _ _ => w.text :: params.names.map (·.text)
  | _ => []

def functionName? : Node → Option String
  | .function w _ _ _ => some w.text
  | _ => none

/-- The name occurs nowhere in the node. -/
def Avoids (name : String) (n : Node) : Prop :=
  n.Everywhere fun m => name ∉ m.words

def NamesNoFunction (name : String) (n : Node) : Prop :=
  n.Everywhere fun m => m.functionName? ≠ some name

def isScoping : Node → Bool
  | .block _ _ | .declare _ _ _ | .function _ _ _ _ => true
  | _ => false

/-- The node declares nothing and makes no frames, apart from those of calls. So do all expressions. -/
def Scopeless (n : Node) : Prop :=
  n.Everywhere fun m => m.isScoping = false

instance (name : String) (n : Node) : Decidable (n.Avoids name) :=
  inferInstanceAs (Decidable (n.Everywhere fun m => name ∉ m.words))

instance (name : String) (n : Node) : Decidable (n.NamesNoFunction name) :=
  inferInstanceAs (Decidable (n.Everywhere fun m => m.functionName? ≠ some name))

instance (n : Node) : Decidable n.Scopeless :=
  inferInstanceAs (Decidable (n.Everywhere fun m => m.isScoping = false))

/-- The second program is the first one with `x` renamed to `y` in some of the regions where it is
    local: in a block that starts with a declaration of `x`, except for the first value of `x`, or in a
    function with a parameter `x`. No function in the region is called `x`, since the name of a function
    can be seen. -/
inductive Renaming (x y : String) : Node → Node → Prop where
  | refl (n : Node) : Renaming x y n n
  | block {q p place : Option Place} {init : Option Node} {rest : List Node}
      (hinit : ∀ e ∈ init, e.Scopeless) (hrest : ∀ c ∈ rest, c.NamesNoFunction x) :
      Renaming x y (.block (.declare ⟨x, q⟩ init p :: rest) place)
        (.block (.declare ⟨y, q⟩ init p :: rest.map (mapNames (rename x y))) place)
  | function {w : Word} {params : Parameters} {body : Node} {p : Option Place}
      (hx : x ∈ params.names.map (·.text)) (hbody : body.NamesNoFunction x) :
      Renaming x y (.function w params body p)
        (.function w (params.map (rename x y)) (body.mapNames (rename x y)) p)
  | within {n n' : Node} (h : n.Parallel Eq Eq (Renaming x y) (Renaming x y) n') : Renaming x y n n'

theorem parallel_mapNames {N : Word → Word → Prop} {R Q : Node → Node → Prop} {g : String → String}
    {n : Node} (hN : ∀ w, N w (w.map g)) (hR : ∀ c ∈ n.operands, R c (c.mapNames g))
    (hQ : ∀ c ∈ n.children, Q c (c.mapNames g)) : n.Parallel Eq N R Q (n.mapNames g) := by
  have hall {ns : List Node} {S : Node → Node → Prop} (h : ∀ c ∈ ns, S c (c.mapNames g)) :
      List.Forall₂ S ns (mapAllNames g ns) := by
    rw [mapAllNames_eq_map, List.forall₂_map_right_iff]
    exact List.forall₂_same.2 h
  cases n with
  | array items p => exact .array (hall hR) rfl
  | record fields p =>
    rw [mapNames, mapFieldNames_eq_map]
    refine .record ?_ ?_ rfl
    · rw [List.forall₂_map_right_iff]
      exact List.forall₂_same.2 fun f _ => ⟨rfl, rfl, rfl⟩
    · rw [List.map_map, List.forall₂_map_left_iff, List.forall₂_map_right_iff]
      exact List.forall₂_same.2 fun f hf => hR f.value (List.mem_map_of_mem hf)
  | call c args q p =>
    exact .call (hR c List.mem_cons_self) (hall fun a ha => hR a (List.mem_cons_of_mem _ ha)) rfl rfl
  | methodCall r k args q p =>
    refine .methodCall (hR r List.mem_cons_self) (hR k (List.mem_cons_of_mem _ List.mem_cons_self))
      (hall fun a ha => hR a ?_) rfl rfl
    exact List.mem_cons_of_mem _ (List.mem_cons_of_mem _ ha)
  | sequence body p => exact .sequence (hall hR) rfl
  | block body p => exact .block (hall hQ) rfl
  | declare w init p =>
    cases init with
    | none => exact .declare (hN w) .none rfl
    | some e => exact .declare (hN w) (.some (hR e (List.mem_singleton_self e))) rfl
  | giveBack value p =>
    cases value with
    | none => exact .giveBack .none rfl
    | some e => exact .giveBack (.some (hR e (List.mem_singleton_self e))) rfl
  | function w params body p =>
    refine .function (hN w) ?_ rfl (hQ body (List.mem_singleton_self body)) rfl
    exact List.forall₂_map_right_iff.2 (List.forall₂_same.2 fun v _ => hN v)
  | _ =>
    constructor <;> first
      | rfl
      | exact hN _
      | exact hR _ (by simp [operands, children])

namespace Renaming

variable {x y : String} {w w' : Word} {p p' : Option Place}

/-! What a renaming leaves of a node: outside of its regions all names stay. -/

theorem name_eq (h : Renaming x y (.name w) (.name w')) : w' = w := by
  cases h with
  | refl => rfl
  | within h =>
    cases h with
    | name hw => exact hw.symm

theorem assign_eq {e e' : Node} (h : Renaming x y (.assign w e p) (.assign w' e' p')) : w' = w := by
  cases h with
  | refl => rfl
  | within h =>
    cases h with
    | assign hw => exact hw.symm

theorem declare_eq {init init' : Option Node}
    (h : Renaming x y (.declare w init p) (.declare w' init' p')) : w' = w := by
  cases h with
  | refl => rfl
  | within h =>
    cases h with
    | declare hw => exact hw.symm

theorem function_cases {params params' : Parameters} {body body' : Node}
    (h : Renaming x y (.function w params body p) (.function w' params' body' p')) :
    w' = w ∧ (params'.names = params.names ∧ Renaming x y body body' ∨
      x ∈ params.names.map (·.text) ∧ body.NamesNoFunction x ∧ params' = params.map (rename x y) ∧
        body' = body.mapNames (rename x y)) := by
  cases h with
  | refl => exact ⟨rfl, .inl ⟨rfl, .refl _⟩⟩
  | function hx hbody => exact ⟨rfl, .inr ⟨hx, hbody, rfl, rfl⟩⟩
  | within h =>
    cases h with
    | function hw hn _ hb =>
      rw [List.forall₂_eq_eq_eq] at hn
      exact ⟨hw.symm, .inl ⟨hn.symm, hb⟩⟩

theorem block_cases {body body' : List Node}
    (h : Renaming x y (.block body p) (.block body' p')) :
    List.Forall₂ (Renaming x y) body body' ∨
      ∃ q place init rest, body = .declare ⟨x, q⟩ init place :: rest ∧
        body' = .declare ⟨y, q⟩ init place :: rest.map (mapNames (rename x y)) ∧
        (∀ e ∈ init, e.Scopeless) ∧ ∀ c ∈ rest, c.NamesNoFunction x := by
  cases h with
  | refl => exact .inl (List.forall₂_same.2 fun c _ => .refl c)
  | block hinit hrest => exact .inr ⟨_, _, _, _, rfl, rfl, hinit, hrest⟩
  | within h =>
    cases h with
    | block hb => exact .inl hb

end Renaming

end Node

end Scripting
