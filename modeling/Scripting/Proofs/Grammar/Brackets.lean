import Scripting.Proofs.Grammar.Derivation

/-!
The brackets of a program. A bracket that closes belongs to the innermost one that is open, and has to be
of its kind. Each phrase of the grammar closes what it opens; only the last clause of a counting loop ends
with the parenthesis that stands before the first one.
-/

set_option autoImplicit false

namespace Scripting

namespace Token

inductive Bracket where
  | paren | square | brace
deriving DecidableEq, Repr

namespace Bracket

def opened? : Kind → Option Bracket
  | .leftParen => some .paren
  | .leftSquare => some .square
  | .leftBrace => some .brace
  | _ => none

def closed? : Kind → Option Bracket
  | .rightParen => some .paren
  | .rightSquare => some .square
  | .rightBrace => some .brace
  | _ => none

/-- The brackets that are open behind a token, the innermost first. There are none such if the token closes
    another bracket than the innermost one. -/
def after (stack : List Bracket) (kind : Kind) : Option (List Bracket) :=
  match opened? kind with
  | some b => some (b :: stack)
  | none =>
    match closed? kind with
    | some b => if stack.head? = some b then some stack.tail else none
    | none => some stack

def afterAll (stack : List Bracket) (kinds : List Kind) : Option (List Bracket) :=
  kinds.foldlM after stack

variable {stack : List Bracket} {kind : Kind} {kinds more : List Kind}

@[simp] theorem afterAll_nil : afterAll stack [] = some stack := rfl

@[simp] theorem afterAll_cons :
    afterAll stack (kind :: kinds) = (after stack kind).bind (afterAll · kinds) := rfl

@[simp] theorem afterAll_append :
    afterAll stack (kinds ++ more) = (afterAll stack kinds).bind (afterAll · more) :=
  List.foldlM_append

theorem after_of_neutral (hopen : opened? kind = none) (hclose : closed? kind = none) :
    after stack kind = some stack := by
  rw [after, hopen, hclose]

theorem exists_afterAll_of_append {final : List Bracket} (h : afterAll stack (kinds ++ more) = some final) :
    ∃ inner, afterAll stack kinds = some inner := by
  rw [afterAll_append] at h
  obtain ⟨inner, hinner, -⟩ := Option.bind_eq_some_iff.1 h
  exact ⟨inner, hinner⟩

end Bracket

end Token

namespace Grammar

open Token (Bracket)

theorem Level.neutral_of_mem {level : Level} {kind : Token.Kind} (h : kind ∈ level.operators) :
    Bracket.opened? kind = none ∧ Bracket.closed? kind = none := by
  have hall : ∀ kind ∈ level.operators, Bracket.opened? kind = none ∧ Bracket.closed? kind = none := by
    cases level <;> decide
  exact hall kind h

/-- The brackets that a phrase closes without opening them. -/
def Category.closes : Category → List Bracket
  | .loopStep => [.paren]
  | _ => []

def Category.isStatement : Category → Bool
  | .statement _ | .declaration | .expressionStatement => true
  | _ => false

namespace Derivation

theorem brackets {c : Category} {ts : List Token} {n : c.Tree} (d : Derivation c ts n)
    (stack : List Bracket) :
    Bracket.afterAll (c.closes ++ stack) (ts.map (·.kind)) = some stack := by
  induction d generalizing stack with
  | operate left sign known right ih ih' =>
    obtain ⟨hopen, hclose⟩ := Level.neutral_of_mem known
    have hsign (stack : List Bracket) : Bracket.after stack _ = some stack :=
      Bracket.after_of_neutral hopen hclose
    simp_all [Category.closes]
  | field key known colon value ih =>
    rcases known with known | known <;>
      simp_all [Terminal.kind_eq, Category.closes, Bracket.after, Bracket.opened?, Bracket.closed?]
  | _ => simp_all [Terminal.kind_eq, Category.closes, Bracket.after, Bracket.opened?, Bracket.closed?]

theorem ends {c : Category} {ts : List Token} {n : c.Tree} (d : Derivation c ts n)
    (hc : c.isStatement) :
    ∃ us t, ts = us ++ [t] ∧ (t.kind = .semicolon ∨ t.kind = .rightBrace) := by
  induction d with
  | declaring _ ih | evaluating _ _ ih => exact ih rfl
  | function _ _ _ _ _ right | block _ _ right => exact ⟨_, right.1, rfl, .inr right.2⟩
  | print _ _ stop | giveBackValue _ _ stop | declareAs _ _ _ _ stop | evaluate _ stop =>
    exact ⟨_, stop.1, rfl, .inl stop.2⟩
  | giveBack mark stop => exact ⟨[mark.1], stop.1, rfl, .inl stop.2⟩
  | declare mark name stop => exact ⟨[mark.1, name.1], stop.1, rfl, .inl stop.2⟩
  | loop _ _ _ _ _ _ ih | branch _ _ _ _ _ _ ih | branches _ _ _ _ _ _ _ _ _ ih
  | counted _ _ _ _ _ _ _ _ _ ih =>
    obtain ⟨us, t, rfl, ht⟩ := ih rfl
    simp only [← List.cons_append, ← List.append_assoc]
    exact ⟨_, t, rfl, ht⟩
  | _ => cases hc

theorem statements_end {ts : List Token} {ns : List Node} (d : Derivation .statements ts ns) :
    ∀ t ∈ ts.getLast?, t.kind = .semicolon ∨ t.kind = .rightBrace := by
  induction ns generalizing ts with
  | nil =>
    cases d
    simp
  | cons n ns ih =>
    cases d with
    | moreStatements first others =>
      obtain ⟨us, t, rfl, ht⟩ := first.ends rfl
      intro last hlast
      rw [List.getLast?_append, Option.mem_def, Option.or_eq_some_iff] at hlast
      rcases hlast with hlast | ⟨-, hlast⟩
      · exact ih others last hlast
      · rw [List.getLast?_concat, Option.some.injEq] at hlast
        rwa [← hlast]

end Derivation

end Grammar

end Scripting
