import Scripting.Proofs.Grammar.Completeness
import Scripting.Proofs.Grammar.Shape

/-!
Programs printed as tokens, with the parentheses that the ranks of the operators ask for and those that
keep a record at the start of a statement from being a block, and no others. What is printed is read back
as the same program, places apart, if the nesting allowance is large enough; how large is told from
the program.
-/

set_option autoImplicit false

namespace Scripting

def Token.Kind.symbol : Token.Kind → String
  | .varWord => "var"
  | .funWord => "fun"
  | .returnWord => "return"
  | .printWord => "print"
  | .whileWord => "while"
  | .forWord => "for"
  | .ifWord => "if"
  | .elseWord => "else"
  | .trueWord => "true"
  | .falseWord => "false"
  | .plus => "+"
  | .minus => "-"
  | .star => "*"
  | .equal => "=="
  | .notEqual => "!="
  | .less => "<"
  | .lessEqual => "<="
  | .greater => ">"
  | .greaterEqual => ">="
  | .assign => "="
  | .leftParen => "("
  | .rightParen => ")"
  | .leftSquare => "["
  | .rightSquare => "]"
  | .leftBrace => "\x7b"
  | .rightBrace => "\x7d"
  | .dot => "."
  | .comma => ","
  | .colon => ":"
  | .semicolon => ";"
  | .number | .string | .ident | .eof => ""

/-- A token without its position. -/
structure Spelling where
  kind : Token.Kind
  text : String
deriving DecidableEq, Repr

def Token.spelling (t : Token) : Spelling := ⟨t.kind, t.text⟩

namespace Spelling

def sign (kind : Token.Kind) : Spelling := ⟨kind, kind.symbol⟩

def ident (w : Word) : Spelling := ⟨.ident, w.text⟩

def parenthesized (s : List Spelling) : List Spelling :=
  sign .leftParen :: s ++ [sign .rightParen]

def startsWithBrace (s : List Spelling) : Bool :=
  s.head?.any (·.kind = .leftBrace)

/-- An expression as a statement must not start with a brace. -/
def leading (s : List Spelling) : List Spelling :=
  if startsWithBrace s then parenthesized s else s

theorem startsWithBrace_leading (s : List Spelling) :
    startsWithBrace (leading s ++ [sign .semicolon]) = false := by
  unfold leading
  split
  · rfl
  · rename_i h
    cases s with
    | nil => rfl
    | cons x s => exact eq_false_of_ne_true h

def names : List Word → List Spelling
  | [] => []
  | [w] => [ident w]
  | w :: ws => ident w :: sign .comma :: names ws

end Spelling

namespace Grammar

/-- How tightly a phrase holds together, the loosest first. -/
inductive Rank where
  | assignment
  | binary (level : Level)
  | unary
  | suffixed

namespace Rank

/-- The part of the nesting allowance that is spent between an assignment and a phrase of the rank. -/
def depth : Rank → Nat
  | assignment => 0
  | binary .equality => 1
  | binary .comparison => 3
  | binary .sum => 5
  | binary .product => 7
  | unary => 9
  | suffixed => 10

def looser? : Rank → Option Rank
  | assignment => none
  | binary .equality => some assignment
  | binary .comparison => some (binary .equality)
  | binary .sum => some (binary .comparison)
  | binary .product => some (binary .sum)
  | unary => some (binary .product)
  | suffixed => some unary

def operand (level : Level) : Rank :=
  match level.tighter? with
  | some tighter => binary tighter
  | none => unary

/-- A phrase where one of another rank is asked for. -/
def fit (asked given : Rank) (s : List Spelling) : List Spelling :=
  if asked.depth ≤ given.depth then s else Spelling.parenthesized s

def fitHeight (asked given : Rank) (height : Nat) : Nat :=
  if asked.depth ≤ given.depth then height + (given.depth - asked.depth)
  else height + given.depth + 3 + (suffixed.depth - asked.depth)

end Rank

end Grammar

open Grammar Spelling

namespace Node

def rank : Node → Rank
  | .binary op _ _ _ => .binary (op.level?.getD .equality)
  | .negate _ _ => .unary
  | .assign _ _ _ | .setItem _ _ _ _ => .assignment
  | _ => .suffixed

mutual

def spell : Node → List Spelling
  | .number w => [⟨.number, w.text⟩]
  | .string w => [⟨.string, w.text⟩]
  | .boolean true w => [⟨.trueWord, w.text⟩]
  | .boolean false w => [⟨.falseWord, w.text⟩]
  | .name w => [ident w]
  | .binary op l r _ =>
    (Rank.binary (op.level?.getD .equality)).fit l.rank l.spell ++
      ⟨op.kind.getD .equal, op.symbol⟩ ::
      (Rank.operand (op.level?.getD .equality)).fit r.rank r.spell
  | .negate e _ => sign .minus :: Rank.unary.fit e.rank e.spell
  | .array items _ => sign .leftSquare :: spellItems items ++ [sign .rightSquare]
  | .record fields _ => sign .leftBrace :: spellFields fields ++ [sign .rightBrace]
  | .item b k _ =>
    Rank.suffixed.fit b.rank b.spell ++ sign .leftSquare :: k.spell ++ [sign .rightSquare]
  | .call c args _ _ => Rank.suffixed.fit c.rank c.spell ++ parenthesized (spellItems args)
  | .methodCall b (.string w) args _ _ =>
    Rank.suffixed.fit b.rank b.spell ++ sign .dot :: ident w :: parenthesized (spellItems args)
  | .assign w v _ => ident w :: sign .assign :: v.spell
  | .setItem b k v _ =>
    Rank.suffixed.fit b.rank b.spell ++ sign .leftSquare :: k.spell ++ [sign .rightSquare] ++
      sign .assign :: v.spell
  | .sequence body _ => spellAll body
  | .block body _ => sign .leftBrace :: spellAll body ++ [sign .rightBrace]
  | .expression e _ => leading e.spell ++ [sign .semicolon]
  | .declare w none _ => [sign .varWord, ident w, sign .semicolon]
  | .declare w (some e) _ =>
    sign .varWord :: ident w :: sign .assign :: e.spell ++ [sign .semicolon]
  | .function w params body _ =>
    sign .funWord :: ident w :: parenthesized (names params.names) ++
      sign .leftBrace :: body.spell ++ [sign .rightBrace]
  | .print e _ => sign .printWord :: e.spell ++ [sign .semicolon]
  | .giveBack none _ => [sign .returnWord, sign .semicolon]
  | .giveBack (some e) _ => sign .returnWord :: e.spell ++ [sign .semicolon]
  | .loop c b _ => sign .whileWord :: parenthesized c.spell ++ b.spell
  | .branch c yes no _ =>
    sign .ifWord :: parenthesized c.spell ++ yes.spell ++
      if no.isAbsent then [] else sign .elseWord :: no.spell
  | .methodCall _ _ _ _ _ | .malformed _ _ => []
termination_by structural n => n

def spellItems : List Node → List Spelling
  | [] => []
  | [n] => n.spell
  | n :: ns => n.spell ++ sign .comma :: spellItems ns
termination_by structural ns => ns

def spellFields : List (Field Node) → List Spelling
  | [] => []
  | [⟨key, value, _⟩] => ⟨.string, key.text⟩ :: sign .colon :: value.spell
  | ⟨key, value, _⟩ :: fields =>
    (⟨.string, key.text⟩ :: sign .colon :: value.spell) ++ sign .comma :: spellFields fields
termination_by structural fields => fields

def spellAll : List Node → List Spelling
  | [] => []
  | n :: ns => n.spell ++ spellAll ns
termination_by structural ns => ns

end

mutual

/-- The nesting allowance that reading the node back takes; an expression is read at its rank. -/
def need : Node → Nat
  | .number _ | .string _ | .boolean _ _ | .name _ => 2
  | .binary op l r _ =>
    max ((Rank.binary (op.level?.getD .equality)).fitHeight l.rank l.need)
      ((Rank.operand (op.level?.getD .equality)).fitHeight r.rank r.need + 2)
  | .negate e _ => Rank.unary.fitHeight e.rank e.need + 1
  | .array items _ => needAsItems items + 2
  | .record fields _ => needAsFields fields + 3
  | .item b k _ => max (Rank.suffixed.fitHeight b.rank b.need) (k.need + k.rank.depth + 2)
  | .call c args _ _ => max (Rank.suffixed.fitHeight c.rank c.need) (needAsItems args + 2)
  | .methodCall b _ args _ _ => max (Rank.suffixed.fitHeight b.rank b.need) (needAsItems args + 2)
  | .assign _ v _ => max 11 (v.need + v.rank.depth) + 1
  | .setItem b k v _ =>
    max (max (Rank.suffixed.fitHeight b.rank b.need) (k.need + k.rank.depth + 2) + 9)
      (v.need + v.rank.depth) + 1
  | .sequence body _ => needAll body
  | .block body _ => needAll body + 3
  | .expression e _ =>
    e.need + e.rank.depth + (if startsWithBrace e.spell then 16 else 3)
  | .declare _ none _ => 2
  | .declare _ (some e) _ => e.need + e.rank.depth + 3
  | .function _ _ body _ => body.need + 3
  | .print e _ => e.need + e.rank.depth + 3
  | .giveBack none _ => 2
  | .giveBack (some e) _ => e.need + e.rank.depth + 3
  | .loop c b _ => max (c.need + c.rank.depth + 2) b.need + 2
  | .branch c yes no _ => max (c.need + c.rank.depth + 2) (max yes.need no.need) + 2
  | .malformed _ _ => 0
termination_by structural n => n

def needAsItems : List Node → Nat
  | [] => 0
  | n :: ns => max (n.need + n.rank.depth + 1) (needAsItems ns)
termination_by structural ns => ns

def needAsFields : List (Field Node) → Nat
  | [] => 0
  | ⟨_, value, _⟩ :: fields => max (value.need + value.rank.depth + 1) (needAsFields fields)
termination_by structural fields => fields

def needAll : List Node → Nat
  | [] => 0
  | n :: ns => max n.need (needAll ns)
termination_by structural ns => ns

end

theorem need_of_isAbsent {n : Node} (h : n.isAbsent) : n.need = 0 := by
  unfold isAbsent at h
  split at h
  · rfl
  · cases h

end Node

namespace Grammar

/-- The tokens are spelled like that, wherever they stand. -/
def Spells (ts : List Token) (s : List Spelling) : Prop :=
  ts.map Token.spelling = s

namespace Spells

variable {ts : List Token} {s s' : List Spelling} {kind : Token.Kind} {text : String}

theorem cons (h : Spells ts (⟨kind, text⟩ :: s)) :
    ∃ (t : Terminal kind) (us : List Token), ts = t.1 :: us ∧ t.1.text = text ∧ Spells us s := by
  obtain ⟨t, us, rfl, ht, hus⟩ := List.map_eq_cons_iff.1 h
  exact ⟨⟨t, congrArg Spelling.kind ht⟩, us, rfl, congrArg Spelling.text ht, hus⟩

theorem append (h : Spells ts (s ++ s')) :
    ∃ us vs, ts = us ++ vs ∧ Spells us s ∧ Spells vs s' := by
  obtain ⟨us, vs, rfl, hus, hvs⟩ := List.map_eq_append_iff.1 h
  exact ⟨us, vs, rfl, hus, hvs⟩

theorem sign (h : Spells ts [Spelling.sign kind]) : ∃ t : Terminal kind, ts = [t.1] := by
  obtain ⟨t, us, rfl, -, hus⟩ := h.cons
  exact ⟨t, by rw [List.map_eq_nil_iff.1 hus]⟩

theorem parenthesized (h : Spells ts (Spelling.parenthesized s ++ s')) :
    ∃ (left : Terminal .leftParen) (us : List Token) (right : Terminal .rightParen)
      (vs : List Token), ts = left.1 :: us ++ right.1 :: vs ∧ Spells us s ∧ Spells vs s' := by
  obtain ⟨_, vs, rfl, hfirst, hvs⟩ := h.append
  obtain ⟨left, _, rfl, -, hrest⟩ := hfirst.cons
  obtain ⟨us, _, rfl, hus, hend⟩ := hrest.append
  obtain ⟨right, rfl⟩ := hend.sign
  exact ⟨left, us, right, vs, by simp, hus, hvs⟩

theorem head_ne_brace (h : Spells ts s) (hs : startsWithBrace s = false) :
    ∀ t ∈ ts.head?, t.kind ≠ .leftBrace := by
  subst h
  cases ts with
  | nil => simp
  | cons t ts => simpa [startsWithBrace, Token.spelling] using hs

end Spells

/-- Tokens so spelled are a phrase of the category, and a derivation of the given height gives it a tree
    as asked for. -/
def Readable (c : Category) (s : List Spelling) (height : Nat) (good : c.Tree → Prop) : Prop :=
  ∀ ts, Spells ts s → ∃ n, good n ∧ ∃ d : Derivation c ts n, d.height = height

def ReadableAt : Rank → List Spelling → Nat → (Node → Prop) → Prop
  | .assignment => Readable .assignment
  | .binary level => Readable (.binary level)
  | .unary => Readable .unary
  | .suffixed => Readable (.suffixed false)

section Ranks

variable {s : List Spelling} {height : Nat} {good : Node → Prop}

theorem Rank.eq_or_looser {q r : Rank} (h : q.depth ≤ r.depth) :
    q = r ∨ ∃ p, r.looser? = some p ∧ q.depth ≤ p.depth ∧ p.depth < r.depth := by
  rcases r with _ | (_ | _ | _ | _) | _ | _ <;> rcases q with _ | (_ | _ | _ | _) | _ | _ <;>
    first
    | exact absurd h (by decide)
    | exact .inl rfl
    | exact .inr ⟨_, rfl, by decide, by decide⟩

theorem Readable.binary {level : Level} (h : Readable (.operand level) s height good) :
    Readable (.binary level) s (height + 2) good := by
  intro ts hts
  obtain ⟨n, hn, d, rfl⟩ := h ts hts
  exact ⟨n, hn, .single d, rfl⟩

theorem Readable.tighter {level next : Level} (hl : level.tighter? = some next)
    (h : Readable (.binary next) s height good) : Readable (.operand level) s height good := by
  intro ts hts
  obtain ⟨n, hn, d, rfl⟩ := h ts hts
  exact ⟨n, hn, .tighter hl d, rfl⟩

theorem Readable.factor (h : Readable .unary s height good) :
    Readable (.operand .product) s height good := by
  intro ts hts
  obtain ⟨n, hn, d, rfl⟩ := h ts hts
  exact ⟨n, hn, .factor d, rfl⟩

theorem ReadableAt.operand {level : Level} (h : ReadableAt (.operand level) s height good) :
    Readable (.operand level) s height good := by
  cases level with
  | equality | comparison | sum => exact .tighter rfl h
  | product => exact .factor h

theorem Readable.unassigned (h : Readable (.binary .equality) s height good) :
    Readable .assignment s (height + 1) good := by
  intro ts hts
  obtain ⟨n, hn, d, rfl⟩ := h ts hts
  exact ⟨n, hn, .unassigned d, rfl⟩

theorem Readable.positive (h : Readable (.suffixed false) s height good) :
    Readable .unary s (height + 1) good := by
  intro ts hts
  obtain ⟨n, hn, d, rfl⟩ := h ts hts
  exact ⟨n, hn, .positive d, rfl⟩

theorem Readable.primary (h : Readable .primary s height good) :
    Readable (.suffixed false) s (height + 1) good := by
  intro ts hts
  obtain ⟨n, hn, d, rfl⟩ := h ts hts
  exact ⟨n, hn, .bare d, rfl⟩

theorem Readable.parenthesized (h : Readable .expression s height good) :
    Readable .primary (Spelling.parenthesized s) (height + 1) good := by
  intro ts hts
  obtain ⟨left, _, rfl, -, hrest⟩ := hts.cons
  obtain ⟨us, _, rfl, hus, hend⟩ := hrest.append
  obtain ⟨right, rfl⟩ := hend.sign
  obtain ⟨n, hn, d, rfl⟩ := h us hus
  exact ⟨n, hn, .group left d right, rfl⟩

namespace ReadableAt

theorem step {r q : Rank} (hq : r.looser? = some q) (h : ReadableAt r s height good) :
    ReadableAt q s (height + (r.depth - q.depth)) good := by
  cases r with
  | assignment => cases hq
  | binary level =>
    cases level with
    | equality => cases hq; exact Readable.unassigned h
    | comparison | sum | product => cases hq; exact (Readable.tighter rfl h).binary
  | unary => cases hq; exact (Readable.factor h).binary
  | suffixed => cases hq; exact Readable.positive h

theorem loosen {r q : Rank} (hq : q.depth ≤ r.depth) (h : ReadableAt r s height good) :
    ReadableAt q s (height + (r.depth - q.depth)) good := by
  induction hr : r.depth using Nat.strongRecOn generalizing r height with
  | _ d ih =>
    subst hr
    rcases Rank.eq_or_looser hq with rfl | ⟨p, hp, hqp, hpr⟩
    · simpa using h
    · have hstep := ih p.depth hpr hqp (h.step hp) rfl
      rwa [Nat.add_assoc, Nat.sub_add_sub_cancel (Nat.le_of_lt hpr) hqp] at hstep

theorem expression {r : Rank} (h : ReadableAt r s height good) :
    Readable .expression s (height + r.depth + 1) good := by
  intro ts hts
  have hl : ReadableAt .assignment s (height + r.depth) good := h.loosen (Nat.zero_le r.depth)
  obtain ⟨n, hn, d, hd⟩ := hl ts hts
  exact ⟨n, hn, .expression d, congrArg (· + 1) hd⟩

theorem fit {r : Rank} (q : Rank) (h : ReadableAt r s height good) :
    ReadableAt q (q.fit r s) (q.fitHeight r height) good := by
  unfold Rank.fit Rank.fitHeight
  split
  · rename_i hq
    exact h.loosen hq
  · have hp : ReadableAt .suffixed (Spelling.parenthesized s) _ good :=
      h.expression.parenthesized.primary
    exact hp.loosen (by cases q with | binary level => cases level <;> decide | _ => decide)

end ReadableAt

end Ranks

open Node

abbrev like (n m : Node) : Prop := m.unplaced = n.unplaced

abbrev allLike (ns ms : List Node) : Prop := allUnplaced ms = allUnplaced ns

abbrev fieldsLike (fs gs : List (Field Node)) : Prop := fieldsUnplaced gs = fieldsUnplaced fs

namespace Readable

section Expressions

variable {s s' s'' : List Spelling} {height height' : Nat} {n m : Node} {ns : List Node}

-- the equations of `unplaced` are made here once, before the proofs that all ask for them
attribute [local simp] unplaced

theorem leaf {kind : Token.Kind} {w : Word} (tree : Word → Node)
    (d : (t : Terminal kind) → Derivation .primary [t.1] (tree (word t.1)))
    (hd : ∀ t, (d t).height = 1)
    (hn : ∀ v : Word, v.text = w.text → like (tree w) (tree v)) :
    Readable (.suffixed false) [⟨kind, w.text⟩] 2 (like (tree w)) := by
  intro ts hts
  obtain ⟨t, us, rfl, ht, hus⟩ := hts.cons
  obtain rfl := List.map_eq_nil_iff.1 hus
  exact ⟨tree (word t.1), hn _ ht, .bare (d t), congrArg (· + 1) (hd t)⟩

theorem operate {level : Level} {kind : Token.Kind} {symbol : String} {p : Option Place}
    (hk : kind ∈ level.operators) (h : Readable (.binary level) s height (like n))
    (h' : Readable (.operand level) s' height' (like m)) :
    Readable (.binary level) (s ++ ⟨kind, symbol⟩ :: s') (max height (height' + 2))
      (like (.binary ⟨symbol, some kind⟩ n m p)) := by
  intro ts hts
  obtain ⟨us, _, rfl, hus, hrest⟩ := hts.append
  obtain ⟨t, vs, rfl, ht, hvs⟩ := hrest.cons
  obtain ⟨l, hl, d, rfl⟩ := h us hus
  obtain ⟨r, hr, e, rfl⟩ := h' vs hvs
  refine ⟨_, ?_, .operate d t.1 (t.2.symm ▸ hk) e, rfl⟩
  simp only [like, unplaced, hl, hr, ht, t.2]

theorem negate {p : Option Place} (h : Readable .unary s height (like n)) :
    Readable .unary (Spelling.sign .minus :: s) (height + 1) (like (.negate n p)) := by
  intro ts hts
  obtain ⟨t, us, rfl, -, hus⟩ := hts.cons
  obtain ⟨m, hm, d, rfl⟩ := h us hus
  exact ⟨_, by simp only [like, unplaced, hm], .negate t d, rfl⟩

theorem item {p : Option Place} (h : Readable (.suffixed false) s height (like n))
    (h' : Readable .expression s' height' (like m)) :
    Readable (.suffixed false)
      (s ++ Spelling.sign .leftSquare :: s' ++ [Spelling.sign .rightSquare])
      (max height (height' + 1)) (like (.item n m p)) := by
  intro ts hts
  obtain ⟨_, _, rfl, hfirst, hend⟩ := hts.append
  obtain ⟨right, rfl⟩ := hend.sign
  obtain ⟨us, _, rfl, hus, hrest⟩ := hfirst.append
  obtain ⟨left, vs, rfl, -, hvs⟩ := hrest.cons
  obtain ⟨b, hb, d, rfl⟩ := h us hus
  obtain ⟨k, hk, e, rfl⟩ := h' vs hvs
  exact ⟨_, by simp only [like, unplaced, hb, hk], .index d left e right, rfl⟩

theorem arguments
    (h : ns ≠ [] → Readable .expressions (spellItems ns) (needAsItems ns) (allLike ns)) :
    Readable .arguments (Spelling.parenthesized (spellItems ns)) (needAsItems ns + 1)
      (allLike ns) := by
  intro ts hts
  obtain ⟨left, _, rfl, -, hrest⟩ := hts.cons
  obtain ⟨us, _, rfl, hus, hend⟩ := hrest.append
  obtain ⟨right, rfl⟩ := hend.sign
  by_cases hns : ns = []
  · subst hns
    obtain rfl := List.map_eq_nil_iff.1 hus
    exact ⟨[], rfl, .noArguments left right, rfl⟩
  · obtain ⟨ms, hms, d, hd⟩ := h hns us hus
    exact ⟨ms, hms, .arguments left d right, congrArg (· + 1) hd⟩

theorem call {p q : Option Place} (h : Readable (.suffixed false) s height (like n))
    (h' : Readable .arguments s' height' (allLike ns)) :
    Readable (.suffixed false) (s ++ s') (max height (height' + 1)) (like (.call n ns p q)) := by
  intro ts hts
  obtain ⟨us, vs, rfl, hus, hvs⟩ := hts.append
  obtain ⟨c, hc, d, rfl⟩ := h us hus
  obtain ⟨ms, hms, e, rfl⟩ := h' vs hvs
  exact ⟨_, by simp only [like, unplaced, hc, hms], .call d e, rfl⟩

theorem methodCall {w : Word} {p q : Option Place}
    (h : Readable (.suffixed false) s height (like n))
    (h' : Readable .arguments s' height' (allLike ns)) :
    Readable (.suffixed false) (s ++ Spelling.sign .dot :: Spelling.ident w :: s')
      (max height (height' + 1)) (like (.methodCall n (.string w) ns p q)) := by
  intro ts hts
  obtain ⟨us, _, rfl, hus, hrest⟩ := hts.append
  obtain ⟨dot, _, rfl, -, hrest⟩ := hrest.cons
  obtain ⟨name, vs, rfl, hname, hvs⟩ := hrest.cons
  obtain ⟨b, hb, d, rfl⟩ := h us hus
  obtain ⟨ms, hms, e, rfl⟩ := h' vs hvs
  refine ⟨_, ?_, .methodCall d dot name e, rfl⟩
  simp only [like, unplaced, Word.unplaced, word, hb, hms, hname]

theorem assign {w : Word} {p : Option Place} (h : Readable .assignment s height (like n)) :
    Readable .assignment (Spelling.ident w :: Spelling.sign .assign :: s) (max 11 height + 1)
      (like (.assign w n p)) := by
  intro ts hts
  obtain ⟨name, _, rfl, hname, hrest⟩ := hts.cons
  obtain ⟨sign, us, rfl, -, hus⟩ := hrest.cons
  obtain ⟨v, hv, d, rfl⟩ := h us hus
  -- the name at the rank of an equality
  let target : Derivation (.binary .equality) [name.1] (Node.name (word name.1)) :=
    .single (.tighter rfl (.single (.tighter rfl (.single (.tighter rfl (.single (.factor
      (.positive (.bare (.name name))))))))))
  refine ⟨_, ?_, .assign target sign d, rfl⟩
  simp only [like, unplaced, Word.unplaced, word, hv, hname]

theorem setItem {p : Option Place} (h : Readable (.binary .equality) s height (like (.item n m p)))
    {v : Node} (h' : Readable .assignment s' height' (like v)) :
    Readable .assignment (s ++ Spelling.sign .assign :: s') (max height height' + 1)
      (like (.setItem n m v p)) := by
  intro ts hts
  obtain ⟨us, _, rfl, hus, hrest⟩ := hts.append
  obtain ⟨sign, vs, rfl, -, hvs⟩ := hrest.cons
  obtain ⟨target, ht, d, rfl⟩ := h us hus
  obtain ⟨v', hv, e, rfl⟩ := h' vs hvs
  obtain ⟨b, k, q, rfl, hb, hk⟩ := of_unplaced_eq_item ht
  exact ⟨_, by simp only [like, unplaced, hb, hk, hv], .assignItem d sign e, rfl⟩

theorem lastExpression (h : Readable .expression s height (like n)) :
    Readable .expressions s height (allLike [n]) := by
  intro ts hts
  obtain ⟨m, hm, d, rfl⟩ := h ts hts
  exact ⟨[m], by simp only [allLike, allUnplaced, hm], .lastExpression d, rfl⟩

theorem moreExpressions (h : Readable .expression s height (like n))
    (h' : Readable .expressions s' height' (allLike ns)) :
    Readable .expressions (s ++ Spelling.sign .comma :: s') (max height height')
      (allLike (n :: ns)) := by
  intro ts hts
  obtain ⟨us, _, rfl, hus, hrest⟩ := hts.append
  obtain ⟨comma, vs, rfl, -, hvs⟩ := hrest.cons
  obtain ⟨m, hm, d, rfl⟩ := h us hus
  obtain ⟨ms, hms, e, rfl⟩ := h' vs hvs
  exact ⟨m :: ms, by simp only [allLike, allUnplaced, hm, hms], .moreExpressions d comma e, rfl⟩

theorem items
    (h : ns ≠ [] → Readable .expressions (spellItems ns) (needAsItems ns) (allLike ns)) :
    Readable .items (spellItems ns) (needAsItems ns) (allLike ns) := by
  intro ts hts
  by_cases hns : ns = []
  · subst hns
    obtain rfl := List.map_eq_nil_iff.1 hts
    exact ⟨[], rfl, .noItems, rfl⟩
  · obtain ⟨ms, hms, d, hd⟩ := h hns ts hts
    exact ⟨ms, hms, .items d, hd⟩

theorem array {p : Option Place} (h : Readable .items s height (allLike ns)) :
    Readable .primary (Spelling.sign .leftSquare :: s ++ [Spelling.sign .rightSquare]) (height + 1)
      (like (.array ns p)) := by
  intro ts hts
  obtain ⟨left, _, rfl, -, hrest⟩ := hts.cons
  obtain ⟨us, _, rfl, hus, hend⟩ := hrest.append
  obtain ⟨right, rfl⟩ := hend.sign
  obtain ⟨ms, hms, d, rfl⟩ := h us hus
  exact ⟨_, by simp only [like, unplaced, hms], .array left d right, rfl⟩

end Expressions

section Fields

variable {s s' : List Spelling} {height height' : Nat} {w : Word} {n : Node} {p : Option Place}
  {fs : List (Field Node)}

theorem lastField (h : Readable .expression s height (like n)) :
    Readable .fields (⟨.string, w.text⟩ :: Spelling.sign .colon :: s) height
      (fieldsLike [⟨w, n, p⟩]) := by
  intro ts hts
  obtain ⟨key, _, rfl, hkey, hrest⟩ := hts.cons
  obtain ⟨colon, us, rfl, -, hus⟩ := hrest.cons
  obtain ⟨m, hm, d, rfl⟩ := h us hus
  refine ⟨[⟨word key.1, m, key.1.place⟩], ?_, .lastField (.field key.1 (.inr key.2) colon d), rfl⟩
  simp only [fieldsLike, fieldsUnplaced, Word.unplaced, word, hm, hkey]

theorem moreFields (h : Readable .expression s height (like n))
    (h' : Readable .fields s' height' (fieldsLike fs)) :
    Readable .fields
      ((⟨.string, w.text⟩ :: Spelling.sign .colon :: s) ++ Spelling.sign .comma :: s')
      (max height height') (fieldsLike (⟨w, n, p⟩ :: fs)) := by
  intro ts hts
  obtain ⟨key, _, rfl, hkey, hrest⟩ := hts.cons
  obtain ⟨colon, _, rfl, -, hrest⟩ := hrest.cons
  obtain ⟨us, _, rfl, hus, hrest⟩ := hrest.append
  obtain ⟨comma, vs, rfl, -, hvs⟩ := hrest.cons
  obtain ⟨m, hm, d, rfl⟩ := h us hus
  obtain ⟨gs, hgs, e, rfl⟩ := h' vs hvs
  refine ⟨⟨word key.1, m, key.1.place⟩ :: gs, ?_,
    .moreFields (.field key.1 (.inr key.2) colon d) comma e, rfl⟩
  simp only [fieldsLike, fieldsUnplaced, Word.unplaced, word, hm, hkey, hgs]

theorem fieldItems
    (h : fs ≠ [] → Readable .fields (spellFields fs) (needAsFields fs) (fieldsLike fs)) :
    Readable .fieldItems (spellFields fs) (needAsFields fs) (fieldsLike fs) := by
  intro ts hts
  by_cases hfs : fs = []
  · subst hfs
    obtain rfl := List.map_eq_nil_iff.1 hts
    exact ⟨[], rfl, .noFields, rfl⟩
  · obtain ⟨gs, hgs, d, hd⟩ := h hfs ts hts
    exact ⟨gs, hgs, .fieldItems d, hd⟩

theorem record (h : Readable .fieldItems s height (fieldsLike fs)) :
    Readable .primary (Spelling.sign .leftBrace :: s ++ [Spelling.sign .rightBrace]) (height + 2)
      (like (.record fs p)) := by
  intro ts hts
  obtain ⟨left, _, rfl, -, hrest⟩ := hts.cons
  obtain ⟨us, _, rfl, hus, hend⟩ := hrest.append
  obtain ⟨right, rfl⟩ := hend.sign
  obtain ⟨gs, hgs, d, rfl⟩ := h us hus
  exact ⟨_, by simp only [like, unplaced, hgs], .record left d right, rfl⟩

end Fields

end Readable

mutual

theorem readable_expression : (n : Node) → n.isExpression →
    ReadableAt n.rank n.spell n.need (like n)
  | .number _, _ => .leaf .number .number (fun _ => rfl) fun v hv => by
    simp only [like, unplaced, Word.unplaced, hv]
  | .string _, _ => .leaf .string .string (fun _ => rfl) fun v hv => by
    simp only [like, unplaced, Word.unplaced, hv]
  | .boolean true _, _ => .leaf (.boolean true) .yes (fun _ => rfl) fun v hv => by
    simp only [like, unplaced, Word.unplaced, hv]
  | .boolean false _, _ => .leaf (.boolean false) .no (fun _ => rfl) fun v hv => by
    simp only [like, unplaced, Word.unplaced, hv]
  | .name _, _ => .leaf .name .name (fun _ => rfl) fun v hv => by
    simp only [like, unplaced, Word.unplaced, hv]
  | .binary op l r p, h => by
    simp only [isExpression, Bool.and_eq_true] at h
    obtain ⟨⟨hlevel, hl⟩, hr⟩ := h
    obtain ⟨level, hlevel⟩ := Option.isSome_iff_exists.1 hlevel
    obtain ⟨kind, hk, hop⟩ := Operator.kind_of_level? hlevel
    have hdefault : op.level?.getD .equality = level := by rw [hlevel, Option.getD_some]
    change ReadableAt (.binary (op.level?.getD .equality))
      ((Rank.binary (op.level?.getD .equality)).fit l.rank l.spell ++
        ⟨op.kind.getD .equal, op.symbol⟩ ::
        (Rank.operand (op.level?.getD .equality)).fit r.rank r.spell)
      (max ((Rank.binary (op.level?.getD .equality)).fitHeight l.rank l.need)
        ((Rank.operand (op.level?.getD .equality)).fitHeight r.rank r.need + 2)) _
    rw [hdefault, hop]
    exact .operate hk ((readable_expression l hl).fit (.binary level))
      ((readable_expression r hr).fit (.operand level)).operand
  | .negate e _, h => .negate ((readable_expression e h).fit .unary)
  | .array items _, h =>
    (Readable.array (.items (readable_expressions items h))).primary
  | .record fields _, h =>
    (Readable.record (.fieldItems (readable_fields fields h))).primary
  | .item b k _, h => by
    simp only [isExpression, Bool.and_eq_true] at h
    exact .item ((readable_expression b h.1).fit .suffixed) (readable_expression k h.2).expression
  | .call c args _ _, h => by
    simp only [isExpression, Bool.and_eq_true] at h
    exact .call ((readable_expression c h.1).fit .suffixed)
      (.arguments (readable_expressions args h.2))
  | .methodCall b (.string w) args _ _, h => by
    simp only [isExpression, Bool.and_eq_true] at h
    exact .methodCall ((readable_expression b h.1).fit .suffixed)
      (.arguments (readable_expressions args h.2))
  | .assign _ v _, h => by
    have hv : ReadableAt .assignment v.spell _ (like v) :=
      (readable_expression v h).loosen (Nat.zero_le _)
    exact .assign hv
  | .setItem b k v p, h => by
    simp only [isExpression, Bool.and_eq_true] at h
    have htarget : ReadableAt .suffixed _ _ (like (.item b k p)) :=
      .item ((readable_expression b h.1.1).fit .suffixed) (readable_expression k h.1.2).expression
    have hequal : ReadableAt (.binary .equality) _ _ (like (.item b k p)) :=
      htarget.loosen (by decide)
    have hv : ReadableAt .assignment v.spell _ (like v) :=
      (readable_expression v h.2).loosen (Nat.zero_le _)
    exact .setItem hequal hv
termination_by structural n => n

theorem readable_expressions : (ns : List Node) → areExpressions ns → ns ≠ [] →
    Readable .expressions (spellItems ns) (needAsItems ns) (allLike ns)
  | [], _, hns => absurd rfl hns
  | [n], h, _ => by
    simp only [areExpressions, Bool.and_true] at h
    exact .lastExpression (readable_expression n h).expression
  | n :: m :: ns, h, _ => by
    rw [areExpressions, Bool.and_eq_true] at h
    exact .moreExpressions (readable_expression n h.1).expression
      (readable_expressions (m :: ns) h.2 (List.cons_ne_nil m ns))
termination_by structural ns => ns

theorem readable_fields : (fs : List (Field Node)) → holdExpressions fs → fs ≠ [] →
    Readable .fields (spellFields fs) (needAsFields fs) (fieldsLike fs)
  | [], _, hfs => absurd rfl hfs
  | [⟨_, value, _⟩], h, _ => by
    simp only [holdExpressions, Bool.and_true] at h
    exact .lastField (readable_expression value h).expression
  | ⟨_, value, _⟩ :: f :: fs, h, _ => by
    rw [holdExpressions, Bool.and_eq_true] at h
    exact .moreFields (readable_expression value h.1).expression
      (readable_fields (f :: fs) h.2 (List.cons_ne_nil f fs))
termination_by structural fs => fs

end

namespace Readable

section Statements

variable {s s' s'' : List Spelling} {height height' other : Nat} {n m : Node} {w : Word}
  {ns : List Node} {p : Option Place} {good : Node → Prop}

theorem names {ws : List Word} (hws : ws ≠ []) :
    Readable .names (Spelling.names ws) 0 fun vs => vs.map Word.unplaced = ws.map Word.unplaced := by
  induction ws with
  | nil => exact absurd rfl hws
  | cons w ws ih =>
    intro ts hts
    cases ws with
    | nil =>
      obtain ⟨t, us, rfl, ht, hus⟩ := Spells.cons hts
      obtain rfl := List.map_eq_nil_iff.1 hus
      exact ⟨[word t.1], by simp [Word.unplaced, word, ht], .lastName t, rfl⟩
    | cons v ws =>
      obtain ⟨t, _, rfl, ht, hrest⟩ := Spells.cons hts
      obtain ⟨comma, us, rfl, -, hus⟩ := Spells.cons hrest
      obtain ⟨vs, hvs, d, -⟩ := ih (List.cons_ne_nil v ws) us hus
      refine ⟨word t.1 :: vs, ?_, .moreNames t comma d, rfl⟩
      have hw : (word t.1).unplaced = w.unplaced := by rw [Word.unplaced, Word.unplaced, word, ht]
      simp only [List.map_cons] at hvs ⊢
      rw [hvs, hw]

theorem parameters {ps : Parameters} (hps : ps.areDistinct) :
    Readable .parameters (Spelling.parenthesized (Spelling.names ps.names)) 0
      fun qs => qs.unplaced = ps.unplaced := by
  intro ts hts
  obtain ⟨left, _, rfl, -, hrest⟩ := hts.cons
  obtain ⟨us, _, rfl, hus, hend⟩ := hrest.append
  obtain ⟨right, rfl⟩ := hend.sign
  by_cases hnames : ps.names = []
  · rw [hnames] at hus
    obtain rfl := List.map_eq_nil_iff.1 hus
    exact ⟨_, by simp only [Parameters.unplaced, hnames], .noParameters left right, rfl⟩
  · obtain ⟨vs, hvs, d, -⟩ := names hnames us hus
    have htexts : vs.map (·.text) = ps.names.map (·.text) := by
      simpa [Function.comp_def, Word.unplaced] using congrArg (List.map (·.text)) hvs
    refine ⟨_, ?_, .parameters left d right (htexts ▸ of_decide_eq_true hps), rfl⟩
    simp only [Parameters.unplaced, hvs]

theorem declare : Readable (.statement false)
    [Spelling.sign .varWord, Spelling.ident w, Spelling.sign .semicolon] 2
    (like (.declare w none p)) := by
  intro ts hts
  obtain ⟨mark, _, rfl, -, hrest⟩ := Spells.cons hts
  obtain ⟨name, _, rfl, hname, hend⟩ := hrest.cons
  obtain ⟨stop, rfl⟩ := hend.sign
  refine ⟨_, ?_, .declaring (.declare mark name stop), rfl⟩
  simp only [like, unplaced, Word.unplaced, word, hname]

theorem declareAs (h : Readable .expression s height (like n)) :
    Readable (.statement false)
      (Spelling.sign .varWord :: Spelling.ident w :: Spelling.sign .assign :: s ++
        [Spelling.sign .semicolon])
      (height + 2) (like (.declare w (some n) p)) := by
  intro ts hts
  obtain ⟨mark, _, rfl, -, hrest⟩ := Spells.cons hts
  obtain ⟨name, _, rfl, hname, hrest⟩ := hrest.cons
  obtain ⟨sign, _, rfl, -, hrest⟩ := hrest.cons
  obtain ⟨us, _, rfl, hus, hend⟩ := hrest.append
  obtain ⟨stop, rfl⟩ := hend.sign
  obtain ⟨m, hm, d, rfl⟩ := h us hus
  refine ⟨_, ?_, .declaring (.declareAs mark name sign d stop), rfl⟩
  simp only [like, unplaced, Word.unplaced, word, hname, hm]

theorem print (h : Readable .expression s height (like n)) :
    Readable (.statement false) (Spelling.sign .printWord :: s ++ [Spelling.sign .semicolon])
      (height + 2) (like (.print n p)) := by
  intro ts hts
  obtain ⟨mark, _, rfl, -, hrest⟩ := Spells.cons hts
  obtain ⟨us, _, rfl, hus, hend⟩ := hrest.append
  obtain ⟨stop, rfl⟩ := hend.sign
  obtain ⟨m, hm, d, rfl⟩ := h us hus
  exact ⟨_, by simp only [like, unplaced, hm], .print mark d stop, rfl⟩

theorem giveBack : Readable (.statement false)
    [Spelling.sign .returnWord, Spelling.sign .semicolon] 2 (like (.giveBack none p)) := by
  intro ts hts
  obtain ⟨mark, _, rfl, -, hend⟩ := Spells.cons hts
  obtain ⟨stop, rfl⟩ := hend.sign
  exact ⟨_, by simp only [like, unplaced], .giveBack mark stop, rfl⟩

theorem giveBackValue (h : Readable .expression s height (like n)) :
    Readable (.statement false) (Spelling.sign .returnWord :: s ++ [Spelling.sign .semicolon])
      (height + 2) (like (.giveBack (some n) p)) := by
  intro ts hts
  obtain ⟨mark, _, rfl, -, hrest⟩ := Spells.cons hts
  obtain ⟨us, _, rfl, hus, hend⟩ := hrest.append
  obtain ⟨stop, rfl⟩ := hend.sign
  obtain ⟨m, hm, d, rfl⟩ := h us hus
  exact ⟨_, by simp only [like, unplaced, hm], .giveBackValue mark d stop, rfl⟩

theorem loop {o : Bool} (h : Readable .expression s height (like n))
    (h' : Readable (.statement o) s' height' (like m)) :
    Readable (.statement o) (Spelling.sign .whileWord :: Spelling.parenthesized s ++ s')
      (max (height + 1) height' + 2) (like (.loop n m p)) := by
  intro ts hts
  obtain ⟨mark, _, rfl, -, hrest⟩ := Spells.cons hts
  obtain ⟨left, us, right, vs, rfl, hus, hvs⟩ := hrest.parenthesized
  obtain ⟨c, hc, d, rfl⟩ := h us hus
  obtain ⟨b, hb, e, rfl⟩ := h' vs hvs
  exact ⟨_, by simp only [like, unplaced, hc, hb], .loop mark left d right e, rfl⟩

theorem branch {o : Bool} {no : Node} (hno : no.isAbsent)
    (h : Readable .expression s height (like n))
    (h' : Readable (.statement o) s' height' (like m)) :
    Readable (.statement true) (Spelling.sign .ifWord :: Spelling.parenthesized s ++ s')
      (max (height + 1) height' + 2) (like (.branch n m no p)) := by
  intro ts hts
  obtain ⟨mark, _, rfl, -, hrest⟩ := Spells.cons hts
  obtain ⟨left, us, right, vs, rfl, hus, hvs⟩ := hrest.parenthesized
  obtain ⟨c, hc, d, rfl⟩ := h us hus
  obtain ⟨b, hb, e, rfl⟩ := h' vs hvs
  refine ⟨_, ?_, .branch mark left d right e, rfl⟩
  simp only [like, unplaced, hc, hb, unplaced_of_isAbsent hno, allUnplaced]

theorem branches {o : Bool} {no : Node} (h : Readable .expression s height (like n))
    (h' : Readable (.statement false) s' height' (like m))
    (hother : Readable (.statement o) s'' other (like no)) :
    Readable (.statement o)
      (Spelling.sign .ifWord :: Spelling.parenthesized s ++ s' ++ Spelling.sign .elseWord :: s'')
      (max (height + 1) (max height' other) + 2) (like (.branch n m no p)) := by
  intro ts hts
  obtain ⟨_, _, rfl, hfirst, hrest⟩ := hts.append
  obtain ⟨mark, _, rfl, -, hfirst⟩ := Spells.cons hfirst
  obtain ⟨left, us, right, vs, rfl, hus, hvs⟩ := hfirst.parenthesized
  obtain ⟨word, ws, rfl, -, hws⟩ := hrest.cons
  obtain ⟨c, hc, d, rfl⟩ := h us hus
  obtain ⟨b, hb, e, rfl⟩ := h' vs hvs
  obtain ⟨a, ha, f, rfl⟩ := hother ws hws
  exact ⟨_, by simp only [like, unplaced, hc, hb, ha], .branches mark left d right e word f, rfl⟩

theorem block (h : Readable .statements s height (allLike ns)) :
    Readable (.statement false)
      (Spelling.sign .leftBrace :: s ++ [Spelling.sign .rightBrace]) (height + 3)
      (like (.block ns p)) := by
  intro ts hts
  obtain ⟨left, _, rfl, -, hrest⟩ := Spells.cons hts
  obtain ⟨us, _, rfl, hus, hend⟩ := hrest.append
  obtain ⟨right, rfl⟩ := hend.sign
  obtain ⟨ms, hms, d, rfl⟩ := h us hus
  exact ⟨_, by simp only [like, unplaced, hms], .block left d right, rfl⟩

theorem function {ps : Parameters} {q : Option Place} (hps : ps.areDistinct)
    (h : Readable .statements s height (allLike ns)) :
    Readable (.statement false)
      (Spelling.sign .funWord :: Spelling.ident w ::
        Spelling.parenthesized (Spelling.names ps.names) ++
        Spelling.sign .leftBrace :: s ++ [Spelling.sign .rightBrace])
      (height + 3) (like (.function w ps (.sequence ns p) q)) := by
  intro ts hts
  obtain ⟨_, _, rfl, hfirst, hend⟩ := hts.append
  obtain ⟨right, rfl⟩ := hend.sign
  obtain ⟨_, _, rfl, hfirst, hrest⟩ := Spells.append hfirst
  obtain ⟨mark, _, rfl, -, hfirst⟩ := Spells.cons hfirst
  obtain ⟨name, us, rfl, hname, hus⟩ := hfirst.cons
  obtain ⟨left, vs, rfl, -, hvs⟩ := hrest.cons
  obtain ⟨qs, hqs, d, -⟩ := parameters hps us hus
  obtain ⟨ms, hms, e, rfl⟩ := h vs hvs
  refine ⟨_, ?_, .function mark name d left e right, rfl⟩
  simp only [like, unplaced, Word.unplaced, word, hname, hqs, hms]

theorem leading {r : Rank} (h : ReadableAt r s height good) :
    Readable .expression (Spelling.leading s)
      (height + r.depth + if startsWithBrace s then 14 else 1) good := by
  unfold Spelling.leading
  split
  · have hp : ReadableAt .suffixed (Spelling.parenthesized s) _ good :=
      h.expression.parenthesized.primary
    exact hp.expression
  · exact h.expression

theorem evaluating {r : Rank} (h : ReadableAt r s height (like n)) :
    Readable (.statement false) (Spelling.leading s ++ [Spelling.sign .semicolon])
      (height + r.depth + if startsWithBrace s then 16 else 3) (like (.expression n p)) := by
  intro ts hts
  have hstart := hts.head_ne_brace (startsWithBrace_leading s)
  obtain ⟨us, _, rfl, hus, hend⟩ := hts.append
  obtain ⟨stop, rfl⟩ := hend.sign
  obtain ⟨m, hm, d, hd⟩ := leading h us hus
  refine ⟨_, by simp only [like, unplaced, hm], .evaluating (.evaluate d stop) hstart, ?_⟩
  change d.height + 1 + 1 = _
  rw [hd]
  split <;> rfl

end Statements

end Readable

mutual

theorem readable_statement : (n : Node) → n.isStatement →
    Readable (.statement n.endsOpen) n.spell n.need (like n)
  | .block body _, h => .block (readable_statements body h)
  | .expression e _, h => .evaluating (readable_expression e h)
  | .declare _ none _, _ => .declare
  | .declare _ (some e) _, h => .declareAs (readable_expression e h).expression
  | .function _ params (.sequence body _) _, h => by
    simp only [isStatement, Bool.and_eq_true] at h
    exact .function h.1 (readable_statements body h.2)
  | .print e _, h => .print (readable_expression e h).expression
  | .giveBack none _, _ => .giveBack
  | .giveBack (some e) _, h => .giveBackValue (readable_expression e h).expression
  | .loop c b _, h => by
    simp only [isStatement, Bool.and_eq_true] at h
    exact .loop (readable_expression c h.1).expression (readable_statement b h.2)
  | .branch c yes no p, h => by
    simp only [isStatement, Bool.and_eq_true, Bool.or_eq_true, Bool.not_eq_true'] at h
    obtain ⟨⟨hc, hyes⟩, hno⟩ := h
    by_cases ha : no.isAbsent
    · have hopen : (Node.branch c yes no p).endsOpen = true := by simp [endsOpen, ha]
      have hspell : (Node.branch c yes no p).spell =
          sign .ifWord :: Spelling.parenthesized c.spell ++ yes.spell := by simp [spell, ha]
      have hneed : (Node.branch c yes no p).need =
          max (c.need + c.rank.depth + 2) yes.need + 2 := by simp [Node.need, need_of_isAbsent ha]
      rw [hopen, hspell, hneed]
      exact .branch ha (readable_expression c hc).expression (readable_statement yes hyes)
    · obtain ⟨hclosed, hno⟩ := hno.resolve_left ha
      have hopen : (Node.branch c yes no p).endsOpen = no.endsOpen := by simp [endsOpen, ha]
      have hspell : (Node.branch c yes no p).spell =
          sign .ifWord :: Spelling.parenthesized c.spell ++ yes.spell ++
            sign .elseWord :: no.spell := by simp [spell, ha]
      rw [hopen, hspell]
      have hbody := readable_statement yes hyes
      rw [hclosed] at hbody
      exact .branches (readable_expression c hc).expression hbody (readable_statement no hno)
termination_by structural n => n

theorem readable_statements : (ns : List Node) → areStatements ns →
    Readable .statements (spellAll ns) (needAll ns) (allLike ns)
  | [], _ => by
    intro ts hts
    obtain rfl := List.map_eq_nil_iff.1 hts
    exact ⟨[], rfl, .noStatements, rfl⟩
  | n :: ns, h => by
    rw [areStatements, Bool.and_eq_true] at h
    intro ts hts
    obtain ⟨us, vs, rfl, hus, hvs⟩ := Spells.append hts
    obtain ⟨m, hm, d, hd⟩ := readable_statement n h.1 us hus
    obtain ⟨ms, hms, e, he⟩ := readable_statements ns h.2 vs hvs
    refine ⟨m :: ms, by simp only [allLike, allUnplaced, hm, hms], .moreStatements d e, ?_⟩
    change max d.height e.height = max _ _
    rw [hd, he]
termination_by structural ns => ns

end

theorem Stream.ahead_append {tokens : List Token} {last : Token}
    (ht : ∀ t ∈ tokens, t.kind ≠ .eof) (hl : last.kind = .eof) :
    (tokens ++ [last]).takeWhile (·.kind ≠ .eof) = tokens := by
  rw [List.takeWhile_append_of_pos (by simpa using ht)]
  simp [hl]

theorem Stream.endOf_append {tokens : List Token} {last : Token}
    (ht : ∀ t ∈ tokens, t.kind ≠ .eof) (hl : last.kind = .eof) :
    Stream.endOf (tokens ++ [last]) = last := by
  have hfind : (tokens ++ [last]).find? (·.kind = .eof) = some last := by
    rw [List.find?_append, List.find?_eq_none.2 (by simpa using ht)]
    simp [hl]
  rw [Stream.endOf, hfind]

theorem isProgram_of_program {depth : Nat} {tokens : List Token} {n : Node}
    (h : program depth tokens = .ok n) : n.isProgram := by
  obtain ⟨d, -⟩ := program_sound h
  exact d.hasShape

/-- A program that is printed as tokens with an end mark behind them is read back, places apart,
    exactly if the nesting allowance is as large as the program needs. -/
theorem program_spelled (p : Node) (hp : p.isProgram) (tokens : List Token)
    (ht : Spells tokens p.spell) (last : Token) (hl : last.kind = .eof) :
    ∃ n, n.unplaced = p.unplaced ∧
      (∀ depth, p.need ≤ depth → program depth (tokens ++ [last]) = .ok n) ∧
      ∀ depth, depth < p.need → ∃ place, program depth (tokens ++ [last]) = .error (.nestingTooDeep place) := by
  cases p with
  | sequence body place =>
    obtain ⟨ns, hns, d, hd⟩ := readable_statements body hp tokens ht
    have hne := d.ne_eof (by simp)
    let e := Derivation.program d ⟨last, hl⟩
    have hheight : e.height = needAll body := hd
    have hread := program_eq_of_derivation (Stream.ahead_append hne hl) (Stream.endOf_append hne hl) e
    rw [hheight] at hread
    refine ⟨.sequence ns (startOf (tokens ++ [last])), by simp only [unplaced, hns], ?_, ?_⟩
    · exact fun depth => eq_of_settled_within (hread depth)
    · exact fun depth => exists_cut_of_settled_within (hread depth)
  | _ => cases hp

theorem program_spelled_nested :
    let one := Node.number ⟨"1", none⟩
    let a := Node.name ⟨"a", none⟩
    let p := Node.sequence
      [.expression (.methodCall (.record [⟨⟨"k", none⟩, one, none⟩] none) (.string ⟨"m", none⟩)
        [.binary ⟨"*", some .star⟩ (.assign ⟨"a", none⟩ (.item a one none) none)
          (.negate (.negate a none) none) none] none none) none,
       .function ⟨"f", none⟩ ⟨[⟨"a", none⟩, ⟨"b", none⟩], none⟩
        (.sequence [.giveBack (some (.binary ⟨"-", some .minus⟩ a
          (.binary ⟨"-", some .minus⟩ a one none) none)) none] none) none,
       .branch a (.block [.expression (.setItem a one a none) none] none)
        (.loop a (.branch a (.print a none) (.sequence [] none) none) none) none] none
    let tokens := p.spell.zipIdx.map fun (x, i) => ⟨x.kind, x.text, ⟨1, i + 1⟩⟩
    ∃ n, n.unplaced = p.unplaced ∧
      program 950 (tokens ++ [⟨.eof, "", ⟨2, 1⟩⟩]) = .ok n := by
  intro one a p tokens
  have hspells : Spells tokens p.spell := by
    simp [Spells, tokens, Function.comp_def, Token.spelling]
  obtain ⟨n, hn, hread, -⟩ := program_spelled p rfl tokens hspells ⟨.eof, "", ⟨2, 1⟩⟩ rfl
  exact ⟨n, hn, hread 950 (of_decide_eq_true rfl)⟩

end Grammar

end Scripting
