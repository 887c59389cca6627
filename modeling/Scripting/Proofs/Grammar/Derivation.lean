import Scripting.Grammar.Statement

/-!
The grammar of programs, apart from the parser. A derivation shows that a run of tokens is a phrase of
a category, and gives the tree of the phrase. What the productions leave open is settled in them: a
statement that starts with a brace is a block, an `else` belongs to the nearest `if`, a name after a dot
goes with the arguments that follow it, and parameters are distinct.
-/

set_option autoImplicit false

namespace Scripting.Grammar

abbrev Terminal (kind : Token.Kind) := { t : Token // t.kind = kind }

theorem Terminal.kind_eq {kind : Token.Kind} (t : Terminal kind) : t.1.kind = kind := t.2

theorem Level.ne_eof_of_mem {level : Level} {kind : Token.Kind} (h : kind ∈ level.operators) :
    kind ≠ .eof := by
  rintro rfl
  cases level <;> simp [operators] at h

/-- The place of the first token. -/
def startOf (ts : List Token) : Option Place :=
  ts.head?.bind Token.place

inductive Category where
  | program
  | statements
  /-- The mark tells whether the statement ends in an `if` without an `else`. -/
  | statement (dangling : Bool)
  | declaration | expressionStatement
  | parameters | names
  /-- The three clauses of a counting loop, each with the sign that ends it. -/
  | loopStart | loopTest | loopStep
  | expression | assignment
  | binary (level : Level)
  | operand (level : Level)
  | unary
  /-- The mark tells whether the phrase ends in a member without arguments. -/
  | suffixed (member : Bool)
  | primary
  | arguments | expressions | items
  | field | fields | fieldItems

abbrev Category.Tree : Category → Type
  | .statements | .arguments | .expressions | .items => List Node
  | .parameters => Parameters
  | .names => List Word
  | .loopStart | .loopStep => Option Node
  | .field => Field Node
  | .fields | .fieldItems => List (Field Node)
  | _ => Node

inductive Derivation : (c : Category) → List Token → c.Tree → Type where
  | program {ts ns} (body : Derivation .statements ts ns) (mark : Terminal .eof) :
      Derivation .program (ts ++ [mark.1]) (Node.sequence ns (startOf (ts ++ [mark.1])))
  | noStatements : Derivation .statements [] []
  | moreStatements {o ts n us ns} (first : Derivation (.statement o) ts n)
      (others : Derivation .statements us ns) : Derivation .statements (ts ++ us) (n :: ns)
  -- statements
  | declaring {ts n} (d : Derivation .declaration ts n) : Derivation (.statement false) ts n
  | function {ts ps us ns} (mark : Terminal .funWord) (name : Terminal .ident)
      (params : Derivation .parameters ts ps) (left : Terminal .leftBrace)
      (body : Derivation .statements us ns) (right : Terminal .rightBrace) :
      Derivation (.statement false) (mark.1 :: name.1 :: ts ++ left.1 :: us ++ [right.1])
        (Node.function (word name.1) ps (.sequence ns left.1.place) mark.1.place)
  | print {ts n} (mark : Terminal .printWord) (value : Derivation .expression ts n)
      (stop : Terminal .semicolon) :
      Derivation (.statement false) (mark.1 :: ts ++ [stop.1]) (Node.print n mark.1.place)
  | giveBack (mark : Terminal .returnWord) (stop : Terminal .semicolon) :
      Derivation (.statement false) [mark.1, stop.1] (Node.giveBack none mark.1.place)
  | giveBackValue {ts n} (mark : Terminal .returnWord) (value : Derivation .expression ts n)
      (stop : Terminal .semicolon) :
      Derivation (.statement false) (mark.1 :: ts ++ [stop.1])
        (Node.giveBack (some n) mark.1.place)
  | loop {ts n o us b} (mark : Terminal .whileWord) (left : Terminal .leftParen)
      (condition : Derivation .expression ts n) (right : Terminal .rightParen)
      (body : Derivation (.statement o) us b) :
      Derivation (.statement o) (mark.1 :: left.1 :: ts ++ right.1 :: us)
        (Node.loop n b mark.1.place)
  | counted {ts start us test vs step o ws b} (mark : Terminal .forWord) (left : Terminal .leftParen)
      (first : Derivation .loopStart ts start) (condition : Derivation .loopTest us test)
      (after : Derivation .loopStep vs step) (body : Derivation (.statement o) ws b) :
      Derivation (.statement o) (mark.1 :: left.1 :: ts ++ us ++ vs ++ ws)
        (Node.counted start test step b mark.1.place)
  | branch {ts n o us yes} (mark : Terminal .ifWord) (left : Terminal .leftParen)
      (condition : Derivation .expression ts n) (right : Terminal .rightParen)
      (body : Derivation (.statement o) us yes) :
      Derivation (.statement true) (mark.1 :: left.1 :: ts ++ right.1 :: us)
        (Node.branch n yes (.sequence [] mark.1.place) mark.1.place)
  | branches {ts n us yes o vs no} (mark : Terminal .ifWord) (left : Terminal .leftParen)
      (condition : Derivation .expression ts n) (right : Terminal .rightParen)
      (body : Derivation (.statement false) us yes) (other : Terminal .elseWord)
      (otherBody : Derivation (.statement o) vs no) :
      Derivation (.statement o) (mark.1 :: left.1 :: ts ++ right.1 :: us ++ other.1 :: vs)
        (Node.branch n yes no mark.1.place)
  | block {ts ns} (left : Terminal .leftBrace) (body : Derivation .statements ts ns)
      (right : Terminal .rightBrace) :
      Derivation (.statement false) (left.1 :: ts ++ [right.1]) (Node.block ns left.1.place)
  | evaluating {ts n} (d : Derivation .expressionStatement ts n)
      (start : ∀ t ∈ ts.head?, t.kind ≠ .leftBrace) : Derivation (.statement false) ts n
  | declare (mark : Terminal .varWord) (name : Terminal .ident) (stop : Terminal .semicolon) :
      Derivation .declaration [mark.1, name.1, stop.1]
        (Node.declare (word name.1) none mark.1.place)
  | declareAs {ts n} (mark : Terminal .varWord) (name : Terminal .ident) (sign : Terminal .assign)
      (init : Derivation .expression ts n) (stop : Terminal .semicolon) :
      Derivation .declaration (mark.1 :: name.1 :: sign.1 :: ts ++ [stop.1])
        (Node.declare (word name.1) (some n) mark.1.place)
  | evaluate {ts n} (value : Derivation .expression ts n) (stop : Terminal .semicolon) :
      Derivation .expressionStatement (ts ++ [stop.1]) (Node.expression n (startOf ts))
  | noParameters (left : Terminal .leftParen) (right : Terminal .rightParen) :
      Derivation .parameters [left.1, right.1] ⟨[], left.1.place⟩
  | parameters {ts ws} (left : Terminal .leftParen) (names : Derivation .names ts ws)
      (right : Terminal .rightParen) (distinct : (ws.map (·.text)).Nodup) :
      Derivation .parameters (left.1 :: ts ++ [right.1]) ⟨ws, left.1.place⟩
  | lastName (t : Terminal .ident) : Derivation .names [t.1] [word t.1]
  | moreNames {ts ws} (t : Terminal .ident) (comma : Terminal .comma)
      (others : Derivation .names ts ws) :
      Derivation .names (t.1 :: comma.1 :: ts) (word t.1 :: ws)
  -- the clauses of a counting loop
  | startDeclaring {ts n} (d : Derivation .declaration ts n) : Derivation .loopStart ts (some n)
  | startEvaluating {ts n} (d : Derivation .expressionStatement ts n) :
      Derivation .loopStart ts (some n)
  | noStart (stop : Terminal .semicolon) : Derivation .loopStart [stop.1] none
  | test {ts n} (d : Derivation .expression ts n) (stop : Terminal .semicolon) :
      Derivation .loopTest (ts ++ [stop.1]) n
  | noTest (stop : Terminal .semicolon) :
      Derivation .loopTest [stop.1] (Node.boolean true ⟨"true", stop.1.place⟩)
  | step {ts n} (d : Derivation .expression ts n) (right : Terminal .rightParen) :
      Derivation .loopStep (ts ++ [right.1]) (some (Node.expression n (startOf ts)))
  | noStep (right : Terminal .rightParen) : Derivation .loopStep [right.1] none
  -- expressions
  | expression {ts n} (d : Derivation .assignment ts n) : Derivation .expression ts n
  | assign {ts w us v} (target : Derivation (.binary .equality) ts (Node.name w))
      (sign : Terminal .assign) (value : Derivation .assignment us v) :
      Derivation .assignment (ts ++ sign.1 :: us) (Node.assign w v (startOf ts))
  | assignItem {ts base key p us v}
      (target : Derivation (.binary .equality) ts (Node.item base key p))
      (sign : Terminal .assign) (value : Derivation .assignment us v) :
      Derivation .assignment (ts ++ sign.1 :: us) (Node.setItem base key v (startOf ts))
  | unassigned {ts n} (d : Derivation (.binary .equality) ts n) : Derivation .assignment ts n
  | single {level ts n} (d : Derivation (.operand level) ts n) : Derivation (.binary level) ts n
  | operate {level ts l us r} (left : Derivation (.binary level) ts l) (sign : Token)
      (known : sign.kind ∈ level.operators) (right : Derivation (.operand level) us r) :
      Derivation (.binary level) (ts ++ sign :: us)
        (Node.binary ⟨sign.text, some sign.kind⟩ l r (startOf ts))
  | tighter {level next ts n} (h : level.tighter? = some next)
      (d : Derivation (.binary next) ts n) : Derivation (.operand level) ts n
  | factor {ts n} (d : Derivation .unary ts n) : Derivation (.operand .product) ts n
  | negate {ts n} (sign : Terminal .minus) (d : Derivation .unary ts n) :
      Derivation .unary (sign.1 :: ts) (Node.negate n sign.1.place)
  | positive {m ts n} (d : Derivation (.suffixed m) ts n) : Derivation .unary ts n
  | bare {ts n} (d : Derivation .primary ts n) : Derivation (.suffixed false) ts n
  | call {ts f us ns} (callee : Derivation (.suffixed false) ts f)
      (args : Derivation .arguments us ns) :
      Derivation (.suffixed false) (ts ++ us) (Node.call f ns (startOf us) (startOf ts))
  | index {m ts b us k} (base : Derivation (.suffixed m) ts b) (left : Terminal .leftSquare)
      (key : Derivation .expression us k) (right : Terminal .rightSquare) :
      Derivation (.suffixed false) (ts ++ left.1 :: us ++ [right.1]) (Node.item b k (startOf ts))
  | member {m ts b} (base : Derivation (.suffixed m) ts b) (dot : Terminal .dot)
      (name : Terminal .ident) :
      Derivation (.suffixed true) (ts ++ [dot.1, name.1])
        (Node.item b (.string (word name.1)) (startOf ts))
  | methodCall {m ts b us ns} (base : Derivation (.suffixed m) ts b) (dot : Terminal .dot)
      (name : Terminal .ident) (args : Derivation .arguments us ns) :
      Derivation (.suffixed false) (ts ++ dot.1 :: name.1 :: us)
        (Node.methodCall b (.string (word name.1)) ns (startOf us) (startOf ts))
  | number (t : Terminal .number) : Derivation .primary [t.1] (Node.number (word t.1))
  | string (t : Terminal .string) : Derivation .primary [t.1] (Node.string (word t.1))
  | yes (t : Terminal .trueWord) : Derivation .primary [t.1] (Node.boolean true (word t.1))
  | no (t : Terminal .falseWord) : Derivation .primary [t.1] (Node.boolean false (word t.1))
  | name (t : Terminal .ident) : Derivation .primary [t.1] (Node.name (word t.1))
  | group {ts n} (left : Terminal .leftParen) (d : Derivation .expression ts n)
      (right : Terminal .rightParen) : Derivation .primary (left.1 :: ts ++ [right.1]) n
  | array {ts ns} (left : Terminal .leftSquare) (d : Derivation .items ts ns)
      (right : Terminal .rightSquare) :
      Derivation .primary (left.1 :: ts ++ [right.1]) (Node.array ns left.1.place)
  | record {ts fs} (left : Terminal .leftBrace) (d : Derivation .fieldItems ts fs)
      (right : Terminal .rightBrace) :
      Derivation .primary (left.1 :: ts ++ [right.1]) (Node.record fs left.1.place)
  -- lists
  | noArguments (left : Terminal .leftParen) (right : Terminal .rightParen) :
      Derivation .arguments [left.1, right.1] []
  | arguments {ts ns} (left : Terminal .leftParen) (d : Derivation .expressions ts ns)
      (right : Terminal .rightParen) : Derivation .arguments (left.1 :: ts ++ [right.1]) ns
  | lastExpression {ts n} (d : Derivation .expression ts n) : Derivation .expressions ts [n]
  | moreExpressions {ts n us ns} (first : Derivation .expression ts n) (comma : Terminal .comma)
      (others : Derivation .expressions us ns) :
      Derivation .expressions (ts ++ comma.1 :: us) (n :: ns)
  | noItems : Derivation .items [] []
  | items {ts ns} (d : Derivation .expressions ts ns) : Derivation .items ts ns
  | itemsComma {ts ns} (d : Derivation .expressions ts ns) (comma : Terminal .comma) :
      Derivation .items (ts ++ [comma.1]) ns
  | field {ts n} (key : Token) (known : key.kind = .ident ∨ key.kind = .string)
      (colon : Terminal .colon) (value : Derivation .expression ts n) :
      Derivation .field (key :: colon.1 :: ts) ⟨word key, n, key.place⟩
  | lastField {ts f} (d : Derivation .field ts f) : Derivation .fields ts [f]
  | moreFields {ts f us fs} (first : Derivation .field ts f) (comma : Terminal .comma)
      (others : Derivation .fields us fs) :
      Derivation .fields (ts ++ comma.1 :: us) (f :: fs)
  | noFields : Derivation .fieldItems [] []
  | fieldItems {ts fs} (d : Derivation .fields ts fs) : Derivation .fieldItems ts fs
  | fieldsComma {ts fs} (d : Derivation .fields ts fs) (comma : Terminal .comma) :
      Derivation .fieldItems (ts ++ [comma.1]) fs

def primaryStarts : List Token.Kind :=
  [.number, .string, .trueWord, .falseWord, .ident, .leftParen, .leftSquare, .leftBrace]

def expressionStarts : List Token.Kind :=
  .minus :: primaryStarts

/-- The kinds of token that a phrase can start with, for categories without an empty phrase. -/
def Category.starts? : Category → Option (List Token.Kind)
  | .program | .statements | .items | .fieldItems => none
  | .statement _ =>
    some (.varWord :: .funWord :: .printWord :: .returnWord :: .whileWord :: .forWord :: .ifWord ::
      expressionStarts)
  | .declaration => some [.varWord]
  | .parameters | .arguments => some [.leftParen]
  | .names => some [.ident]
  | .loopStart => some (.varWord :: .semicolon :: expressionStarts)
  | .loopTest => some (.semicolon :: expressionStarts)
  | .loopStep => some (.rightParen :: expressionStarts)
  | .field | .fields => some [.ident, .string]
  | .suffixed _ | .primary => some primaryStarts
  | _ => some expressionStarts

namespace Derivation

theorem starts {c : Category} {ts : List Token} {n : c.Tree} (d : Derivation c ts n)
    {kinds : List Token.Kind} (h : c.starts? = some kinds) :
    ∃ t us, ts = t :: us ∧ t.kind ∈ kinds := by
  induction d generalizing kinds with
  | program | noStatements | moreStatements | noItems | items | itemsComma | noFields
  | fieldItems | fieldsComma => cases h
  | function mark | print mark | giveBack mark | giveBackValue mark | loop mark | counted mark
  | branch mark | branches mark | block mark | declare mark | declareAs mark | noParameters mark
  | parameters mark | lastName mark | moreNames mark | noStart mark | noTest mark | noStep mark
  | negate mark | number mark | string mark | yes mark | no mark | name mark | group mark
  | array mark | record mark | noArguments mark | arguments mark =>
    cases h
    exact ⟨_, _, rfl, by rw [mark.2]; decide⟩
  | field key known =>
    cases h
    exact ⟨_, _, rfl, by simpa using known⟩
  | declaring _ ih | startDeclaring _ ih =>
    cases h
    obtain ⟨t, us, rfl, ht⟩ := ih rfl
    exact ⟨t, us, rfl, by simp_all⟩
  | evaluating _ _ ih | startEvaluating _ ih | expression _ ih | unassigned _ ih | single _ ih
  | tighter _ _ ih | factor _ ih | bare _ ih | lastExpression _ ih | lastField _ ih =>
    cases h
    obtain ⟨t, us, rfl, ht⟩ := ih rfl
    exact ⟨t, us, rfl, by simp [ht]⟩
  | positive _ ih =>
    cases h
    obtain ⟨t, us, rfl, ht⟩ := ih rfl
    exact ⟨t, us, rfl, List.mem_cons_of_mem _ ht⟩
  | evaluate _ _ ih | test _ _ ih | step _ _ ih | assign _ _ _ ih | assignItem _ _ _ ih
  | operate _ _ _ _ ih | call _ _ ih | index _ _ _ _ ih | member _ _ _ ih | methodCall _ _ _ _ ih
  | moreExpressions _ _ _ ih | moreFields _ _ _ ih =>
    cases h
    obtain ⟨t, us, rfl, ht⟩ := ih rfl
    exact ⟨t, _, rfl, by simp [ht]⟩

theorem ne_eof {c : Category} {ts : List Token} {n : c.Tree} (d : Derivation c ts n)
    (hc : c ≠ .program) : ∀ t ∈ ts, t.kind ≠ .eof := by
  induction d with
  | program => exact absurd rfl hc
  | operate left sign known right ih ih' =>
    have hsign := Level.ne_eof_of_mem known
    simp_all [or_imp]
  | field key known colon value ih =>
    rcases known with known | known <;> simp_all [Terminal.kind_eq]
  | _ => simp_all [or_imp, Terminal.kind_eq]

/-- How deeply rules that spend the nesting allowance are nested. -/
def height {c : Category} {ts : List Token} {n : c.Tree} : Derivation c ts n → Nat
  | program body _ => body.height
  | noStatements => 0
  | moreStatements first others => max first.height others.height
  | declaring d => d.height + 1
  | function _ _ _ _ body _ => body.height + 3
  | print _ value _ => value.height + 2
  | giveBack _ _ => 2
  | giveBackValue _ value _ => value.height + 2
  | loop _ _ condition _ body => max (condition.height + 1) body.height + 2
  | counted _ _ first condition after body =>
    max (max first.height condition.height) (max after.height body.height) + 2
  | branch _ _ condition _ body => max (condition.height + 1) body.height + 2
  | branches _ _ condition _ body _ otherBody =>
    max (condition.height + 1) (max body.height otherBody.height) + 2
  | block _ body _ => body.height + 3
  | evaluating d _ => d.height + 1
  | declare _ _ _ => 1
  | declareAs _ _ _ init _ => init.height + 1
  | evaluate value _ => value.height + 1
  | noParameters _ _ | parameters _ _ _ _ | lastName _ | moreNames _ _ _ => 0
  | startDeclaring d => d.height
  | startEvaluating d => d.height
  | noStart _ => 0
  | test d _ => d.height
  | noTest _ => 0
  | step d _ => d.height
  | noStep _ => 0
  | expression d => d.height + 1
  | assign target _ value => max target.height value.height + 1
  | assignItem target _ value => max target.height value.height + 1
  | unassigned d => d.height + 1
  | single d => d.height + 2
  | operate left _ _ right => max left.height (right.height + 2)
  | tighter _ d => d.height
  | factor d => d.height
  | negate _ d => d.height + 1
  | positive d => d.height + 1
  | bare d => d.height + 1
  | call callee args => max callee.height (args.height + 1)
  | index base _ key _ => max base.height (key.height + 1)
  | member base _ _ => base.height
  | methodCall base _ _ args => max base.height (args.height + 1)
  | number _ | string _ | yes _ | no _ | name _ => 1
  | group _ d _ => d.height + 1
  | array _ d _ => d.height + 1
  | record _ d _ => d.height + 2
  | noArguments _ _ => 1
  | arguments _ d _ => d.height + 1
  | lastExpression d => d.height
  | moreExpressions first _ others => max first.height others.height
  | noItems => 0
  | items d => d.height
  | itemsComma d _ => d.height
  | field _ _ _ value => value.height
  | lastField d => d.height
  | moreFields first _ others => max first.height others.height
  | noFields => 0
  | fieldItems d => d.height
  | fieldsComma d _ => d.height

end Derivation

end Scripting.Grammar
