import Scripting.Proofs.Evaluation.Policy

/-!
The parts of a node, as a list: what holds of all parts can be decided, and a part is smaller than the
whole.
-/

set_option autoImplicit false

namespace Scripting.Node

mutual

/-- The node and all nodes under it, those in the bodies of functions included. -/
def parts : Node → List Node
  | .number w => [.number w]
  | .string w => [.string w]
  | .boolean b w => [.boolean b w]
  | .name w => [.name w]
  | .binary op l r p => .binary op l r p :: (l.parts ++ r.parts)
  | .negate e p => .negate e p :: e.parts
  | .array items p => .array items p :: allParts items
  | .record fields p => .record fields p :: fieldParts fields
  | .item b k p => .item b k p :: (b.parts ++ k.parts)
  | .call c args q p => .call c args q p :: (c.parts ++ allParts args)
  | .methodCall r k args q p => .methodCall r k args q p :: (r.parts ++ (k.parts ++ allParts args))
  | .assign w v p => .assign w v p :: v.parts
  | .setItem b k v p => .setItem b k v p :: (b.parts ++ (k.parts ++ v.parts))
  | .sequence body p => .sequence body p :: allParts body
  | .block body p => .block body p :: allParts body
  | .expression e p => .expression e p :: e.parts
  | .declare w none p => [.declare w none p]
  | .declare w (some e) p => .declare w (some e) p :: e.parts
  | .function w params body p => .function w params body p :: body.parts
  | .print e p => .print e p :: e.parts
  | .giveBack none p => [.giveBack none p]
  | .giveBack (some e) p => .giveBack (some e) p :: e.parts
  | .loop c b p => .loop c b p :: (c.parts ++ b.parts)
  | .branch c yes no p => .branch c yes no p :: (c.parts ++ (yes.parts ++ no.parts))
  | .malformed defect p => [.malformed defect p]
termination_by structural n => n

def allParts : List Node → List Node
  | [] => []
  | n :: ns => n.parts ++ allParts ns
termination_by structural ns => ns

def fieldParts : List (Field Node) → List Node
  | [] => []
  | ⟨_, value, _⟩ :: fields => value.parts ++ fieldParts fields
termination_by structural fields => fields

end

theorem mem_allParts {m : Node} {ns : List Node} : m ∈ allParts ns ↔ ∃ n ∈ ns, m ∈ n.parts := by
  induction ns with
  | nil => simp [allParts]
  | cons n ns ih => simp [allParts, ih]

theorem mem_fieldParts {m : Node} {fields : List (Field Node)} :
    m ∈ fieldParts fields ↔ ∃ f ∈ fields, m ∈ f.value.parts := by
  induction fields with
  | nil => simp [fieldParts]
  | cons f fields ih => simp [fieldParts, ih]

theorem mem_parts {m n : Node} : m ∈ n.parts ↔ m = n ∨ ∃ c ∈ n.children, m ∈ c.parts := by
  cases n with
  | declare w init p => cases init <;> simp [parts, children]
  | giveBack value p => cases value <;> simp [parts, children]
  | record fields p =>
    simp only [parts, children, List.mem_cons, mem_fieldParts]
    refine or_congr_right ⟨?_, ?_⟩
    · rintro ⟨f, hf, hm⟩
      exact ⟨f.value, List.mem_map_of_mem hf, hm⟩
    · rintro ⟨c, hc, hm⟩
      obtain ⟨f, hf, rfl⟩ := List.mem_map.1 hc
      exact ⟨f, hf, hm⟩
  | _ => simp [parts, children, mem_allParts]

theorem sizeOf_child {n c : Node} (h : c ∈ n.children) : sizeOf c < sizeOf n := by
  cases n with
  | array items p =>
    have : sizeOf c < sizeOf items := List.sizeOf_lt_of_mem h
    simp only [array.sizeOf_spec]
    omega
  | record fields p =>
    obtain ⟨f, hf, rfl⟩ := List.mem_map.1 h
    have := List.sizeOf_lt_of_mem hf
    obtain ⟨key, value, q⟩ := f
    simp only [record.sizeOf_spec, Field.mk.sizeOf_spec] at this ⊢
    omega
  | call callee args q p =>
    simp only [call.sizeOf_spec]
    rcases List.mem_cons.1 h with rfl | h
    · omega
    · have := List.sizeOf_lt_of_mem h
      omega
  | methodCall receiver key args q p =>
    simp only [methodCall.sizeOf_spec]
    rcases List.mem_cons.1 h with rfl | h
    · omega
    · rcases List.mem_cons.1 h with rfl | h
      · omega
      · have := List.sizeOf_lt_of_mem h
        omega
  | sequence body p =>
    have : sizeOf c < sizeOf body := List.sizeOf_lt_of_mem h
    simp only [sequence.sizeOf_spec]
    omega
  | block body p =>
    have : sizeOf c < sizeOf body := List.sizeOf_lt_of_mem h
    simp only [block.sizeOf_spec]
    omega
  | declare w init p =>
    cases init with
    | none => cases h
    | some e =>
      obtain rfl := List.mem_singleton.1 h
      simp only [declare.sizeOf_spec, Option.some.sizeOf_spec]
      omega
  | giveBack value p =>
    cases value with
    | none => cases h
    | some e =>
      obtain rfl := List.mem_singleton.1 h
      simp only [giveBack.sizeOf_spec, Option.some.sizeOf_spec]
      omega
  | number | string | boolean | name | malformed => cases h
  | _ =>
    simp only [children, List.mem_cons, List.not_mem_nil, or_false] at h
    rcases h with rfl | rfl | rfl <;> simp only [binary.sizeOf_spec, negate.sizeOf_spec,
      item.sizeOf_spec, assign.sizeOf_spec, setItem.sizeOf_spec, expression.sizeOf_spec,
      function.sizeOf_spec, print.sizeOf_spec, loop.sizeOf_spec, branch.sizeOf_spec] <;> omega

theorem mem_parts_iff_within {m n : Node} : m ∈ n.parts ↔ m.Within n := by
  constructor
  · intro h
    induction hs : sizeOf n using Nat.strongRecOn generalizing n with
    | _ size ih =>
      subst hs
      rcases mem_parts.1 h with rfl | ⟨c, hc, hm⟩
      · exact .refl m
      · exact .child hc (ih _ (sizeOf_child hc) hm rfl)
  · intro h
    induction h with
    | refl => exact mem_parts.2 (.inl rfl)
    | child hc _ ih => exact mem_parts.2 (.inr ⟨_, hc, ih⟩)

theorem everywhere_iff_parts {p : Node → Prop} {n : Node} :
    n.Everywhere p ↔ ∀ m ∈ n.parts, p m :=
  forall_congr' fun _ => imp_congr_left mem_parts_iff_within.symm

instance (p : Node → Prop) [DecidablePred p] (n : Node) : Decidable (n.Everywhere p) :=
  decidable_of_iff _ everywhere_iff_parts.symm

end Scripting.Node
