import Scripting.Proofs.Grammar.Derivation

/-!
The trees of programs. Expressions and statements are told apart here, and the trees that no derivation
gives are left out: an operator of no level, a method that is not a name, parameters of one name, and an
`else` that a nearer `if` would take.
-/

set_option autoImplicit false

namespace Scripting

def Word.unplaced (w : Word) : Word := ⟨w.text, none⟩

def Parameters.unplaced (ps : Parameters) : Parameters := ⟨ps.names.map Word.unplaced, none⟩

def Parameters.areDistinct (ps : Parameters) : Bool :=
  decide (ps.names.map (·.text)).Nodup

namespace Grammar.Level

def all : List Level := [equality, comparison, sum, product]

end Grammar.Level

def Operator.level? (op : Operator) : Option Grammar.Level :=
  op.kind.bind fun kind => Grammar.Level.all.find? (kind ∈ ·.operators)

theorem Operator.level?_eq_some {level : Grammar.Level} {kind : Token.Kind} {symbol : String}
    (h : kind ∈ level.operators) : Operator.level? ⟨symbol, some kind⟩ = some level := by
  cases level <;> simp only [Grammar.Level.operators, List.mem_cons, List.not_mem_nil, or_false] at h <;>
    rcases h with rfl | rfl | rfl | rfl <;> rfl

theorem Operator.kind_of_level? {op : Operator} {level : Grammar.Level} (h : op.level? = some level) :
    ∃ kind ∈ level.operators, op = ⟨op.symbol, some kind⟩ := by
  obtain ⟨symbol, kind⟩ := op
  obtain ⟨kind, rfl, hl⟩ := Option.bind_eq_some_iff.1 h
  exact ⟨kind, by simpa using List.find?_some hl, rfl⟩

namespace Node

mutual

def unplaced : Node → Node
  | .number w => .number w.unplaced
  | .string w => .string w.unplaced
  | .boolean b w => .boolean b w.unplaced
  | .name w => .name w.unplaced
  | .binary op l r _ => .binary op l.unplaced r.unplaced none
  | .negate e _ => .negate e.unplaced none
  | .array items _ => .array (allUnplaced items) none
  | .record fields _ => .record (fieldsUnplaced fields) none
  | .item b k _ => .item b.unplaced k.unplaced none
  | .call c args _ _ => .call c.unplaced (allUnplaced args) none none
  | .methodCall b k args _ _ => .methodCall b.unplaced k.unplaced (allUnplaced args) none none
  | .assign w v _ => .assign w.unplaced v.unplaced none
  | .setItem b k v _ => .setItem b.unplaced k.unplaced v.unplaced none
  | .sequence body _ => .sequence (allUnplaced body) none
  | .block body _ => .block (allUnplaced body) none
  | .expression e _ => .expression e.unplaced none
  | .declare w none _ => .declare w.unplaced none none
  | .declare w (some e) _ => .declare w.unplaced (some e.unplaced) none
  | .function w params body _ => .function w.unplaced params.unplaced body.unplaced none
  | .print e _ => .print e.unplaced none
  | .giveBack none _ => .giveBack none none
  | .giveBack (some e) _ => .giveBack (some e.unplaced) none
  | .loop c b _ => .loop c.unplaced b.unplaced none
  | .branch c yes no _ => .branch c.unplaced yes.unplaced no.unplaced none
  | .malformed defect _ => .malformed defect none
termination_by structural n => n

def allUnplaced : List Node → List Node
  | [] => []
  | n :: ns => n.unplaced :: allUnplaced ns
termination_by structural ns => ns

def fieldsUnplaced : List (Field Node) → List (Field Node)
  | [] => []
  | ⟨key, value, _⟩ :: fields => ⟨key.unplaced, value.unplaced, none⟩ :: fieldsUnplaced fields
termination_by structural fields => fields

end

mutual

def isExpression : Node → Bool
  | .number _ | .string _ | .boolean _ _ | .name _ => true
  | .binary op l r _ => op.level?.isSome && l.isExpression && r.isExpression
  | .negate e _ => e.isExpression
  | .array items _ => areExpressions items
  | .record fields _ => holdExpressions fields
  | .item b k _ => b.isExpression && k.isExpression
  | .call c args _ _ => c.isExpression && areExpressions args
  | .methodCall b (.string _) args _ _ => b.isExpression && areExpressions args
  | .assign _ v _ => v.isExpression
  | .setItem b k v _ => b.isExpression && k.isExpression && v.isExpression
  | _ => false
termination_by structural n => n

def areExpressions : List Node → Bool
  | [] => true
  | n :: ns => n.isExpression && areExpressions ns
termination_by structural ns => ns

def holdExpressions : List (Field Node) → Bool
  | [] => true
  | ⟨_, value, _⟩ :: fields => value.isExpression && holdExpressions fields
termination_by structural fields => fields

end

def isAbsent : Node → Bool
  | .sequence [] _ => true
  | _ => false

/-- The statement ends in an `if` without an `else`. -/
def endsOpen : Node → Bool
  | .loop _ body _ => body.endsOpen
  | .branch _ _ no _ => no.isAbsent || no.endsOpen
  | _ => false

mutual

def isStatement : Node → Bool
  | .block body _ => areStatements body
  | .expression e _ => e.isExpression
  | .declare _ none _ => true
  | .declare _ (some e) _ => e.isExpression
  | .function _ params (.sequence body _) _ => params.areDistinct && areStatements body
  | .print e _ => e.isExpression
  | .giveBack none _ => true
  | .giveBack (some e) _ => e.isExpression
  | .loop c body _ => c.isExpression && body.isStatement
  | .branch c yes no _ =>
    c.isExpression && yes.isStatement && (no.isAbsent || !yes.endsOpen && no.isStatement)
  | _ => false
termination_by structural n => n

def areStatements : List Node → Bool
  | [] => true
  | n :: ns => n.isStatement && areStatements ns
termination_by structural ns => ns

end

def isProgram : Node → Bool
  | .sequence body _ => areStatements body
  | _ => false

theorem of_unplaced_eq_item {n b k : Node} {p : Option Place} (h : n.unplaced = .item b k p) :
    ∃ b' k' q, n = .item b' k' q ∧ b'.unplaced = b ∧ k'.unplaced = k := by
  cases n with
  | item b' k' q =>
    injection h with hb hk
    exact ⟨b', k', q, rfl, hb, hk⟩
  | declare _ init _ => cases init <;> cases h
  | giveBack value _ => cases value <;> cases h
  | _ => cases h

theorem unplaced_of_isAbsent {n : Node} (h : n.isAbsent) : n.unplaced = .sequence [] none := by
  unfold isAbsent at h
  split at h
  · rfl
  · cases h

theorem isAbsent_of_isStatement {n : Node} (h : n.isStatement) : n.isAbsent = false := by
  cases n <;> first | rfl | cases h

theorem areStatements_append {ns ms : List Node} (hns : areStatements ns) (hms : areStatements ms) :
    areStatements (ns ++ ms) := by
  induction ns with
  | nil => exact hms
  | cons n ns ih =>
    simp only [areStatements, Bool.and_eq_true] at hns
    simp only [List.cons_append, areStatements, Bool.and_eq_true]
    exact ⟨hns.1, ih hns.2⟩

end Node

namespace Grammar

open Node

/-- What the tree of a phrase looks like. -/
def Category.HasShape : (c : Category) → c.Tree → Prop
  | .program, n => n.isProgram
  | .statements, ns => areStatements ns
  | .statement dangling, n => n.isStatement ∧ (n.endsOpen → dangling)
  | .declaration, n | .expressionStatement, n => n.isStatement ∧ n.endsOpen = false
  | .parameters, ps => ps.areDistinct
  | .names, _ => True
  | .loopStart, n? | .loopStep, n? => areStatements n?.toList
  | .arguments, ns | .expressions, ns | .items, ns => areExpressions ns
  | .field, f => f.value.isExpression
  | .fields, fs | .fieldItems, fs => holdExpressions fs
  | .expression, n | .loopTest, n | .assignment, n | .binary _, n | .operand _, n | .unary, n
  | .suffixed _, n | .primary, n => n.isExpression

theorem Derivation.hasShape {c : Category} {ts : List Token} {n : c.Tree} (d : Derivation c ts n) :
    c.HasShape n := by
  induction d with
  | program body mark ih => exact ih
  | noStatements => rfl
  | moreStatements first others ih ih' => simpa [Category.HasShape, areStatements] using ⟨ih.1, ih'⟩
  | declaring d ih | evaluating d _ ih => exact ⟨ih.1, by simp [ih.2]⟩
  | function mark name params left body right ih ih' =>
    exact ⟨by simpa [isStatement] using ⟨ih, ih'⟩, nofun⟩
  | print mark value stop ih => exact ⟨ih, nofun⟩
  | giveBack mark stop => exact ⟨rfl, nofun⟩
  | giveBackValue mark value stop ih => exact ⟨ih, nofun⟩
  | loop mark left condition right body ih ih' =>
    exact ⟨by simpa [isStatement] using ⟨ih, ih'.1⟩, ih'.2⟩
  | counted mark left first condition after body hfirst hcondition hafter hbody =>
    refine ⟨areStatements_append hfirst ?_, nofun⟩
    simp only [areStatements, isStatement, Bool.and_eq_true, and_true]
    exact ⟨hcondition, hbody.1, hafter⟩
  | branch mark left condition right body ih ih' =>
    exact ⟨by simpa [isStatement, isAbsent] using ⟨ih, ih'.1⟩, fun _ => rfl⟩
  | branches mark left condition right body other otherBody ih ih' ih'' =>
    refine ⟨?_, ?_⟩
    · simpa [isStatement, isAbsent_of_isStatement ih''.1] using ⟨⟨ih, ih'.1⟩, by simpa using ih'.2, ih''.1⟩
    · simpa [endsOpen, isAbsent_of_isStatement ih''.1] using ih''.2
  | block left body right ih => exact ⟨ih, nofun⟩
  | declare mark name stop => exact ⟨rfl, rfl⟩
  | declareAs mark name sign init stop ih => exact ⟨ih, rfl⟩
  | evaluate value stop ih => exact ⟨ih, rfl⟩
  | noParameters left right => rfl
  | parameters left names right distinct ih => exact decide_eq_true distinct
  | lastName t | moreNames t comma others ih => trivial
  | startDeclaring d ih | startEvaluating d ih => simpa [Category.HasShape, areStatements] using ih.1
  | noStart stop | noStep right | noTest stop => rfl
  | test d stop ih => exact ih
  | step d right ih => simpa [Category.HasShape, areStatements, isStatement] using ih
  | expression d ih | unassigned d ih | single d ih | tighter h d ih | factor d ih | positive d ih
  | bare d ih | negate sign d ih => exact ih
  | assign target sign value ih ih' => exact ih'
  | assignItem target sign value ih ih' =>
    simp only [Category.HasShape, isExpression, Bool.and_eq_true] at ih ih' ⊢
    exact ⟨ih, ih'⟩
  | operate left sign known right ih ih' =>
    simpa [Category.HasShape, isExpression, Operator.level?_eq_some known] using ⟨ih, ih'⟩
  | call callee args ih ih' | index base left key right ih ih' | methodCall base dot name args ih ih' =>
    simpa [Category.HasShape, isExpression] using ⟨ih, ih'⟩
  | member base dot name ih => simpa [Category.HasShape, isExpression] using ih
  | number t | string t | yes t | no t | name t => rfl
  | group left d right ih | array left d right ih | record left d right ih => exact ih
  | noArguments left right | noItems | noFields => rfl
  | arguments left d right ih | items d ih | itemsComma d comma ih | fieldItems d ih
  | fieldsComma d comma ih | field key known colon value ih => exact ih
  | lastExpression d ih => simpa [Category.HasShape, areExpressions] using ih
  | moreExpressions first comma others ih ih' =>
    simpa [Category.HasShape, areExpressions] using ⟨ih, ih'⟩
  | lastField d ih => simpa [Category.HasShape, holdExpressions] using ih
  | moreFields first comma others ih ih' =>
    simpa [Category.HasShape, holdExpressions] using ⟨ih, ih'⟩

end Grammar

end Scripting
