import Scripting.Proofs.Grammar.Reading
import Scripting.Proofs.Node.Relocation

/-!
The parser and the positions of tokens. Positions go from the tokens into nodes and errors, and nothing
looks at them on the way: tokens that stand elsewhere are read to the same tree, with its places moved
along, or refused for the same cause, at the same token.
-/

set_option autoImplicit false

namespace Scripting

/-- A change of positions, and of the places that nodes have from them. -/
structure Relocation where
  position : Position → Position
  place : Option Place → Option Place
  place_eq (p : Position) : place (some p.place) = some (position p).place

def Token.relocate (g : Position → Position) (t : Token) : Token := ⟨t.kind, t.text, g t.position⟩

def SyntaxError.relocate (g : Position → Position) : SyntaxError → SyntaxError
  | .expected what p => .expected what (g p)
  | .unexpected kind p => .unexpected kind (g p)
  | .duplicateParameter name p => .duplicateParameter name (g p)
  | .unclosedBlock p => .unclosedBlock (g p)
  | .invalidTarget p => .invalidTarget (g p)
  | .nestingTooDeep p => .nestingTooDeep (g p)

theorem Token.place_relocate (r : Relocation) (t : Token) :
    (t.relocate r.position).place = r.place t.place :=
  (r.place_eq t.position).symm

namespace Grammar

theorem word_relocate (r : Relocation) (t : Token) :
    word (t.relocate r.position) = (word t).relocate r.place := by
  rw [word, t.place_relocate r]
  rfl

namespace Stream

def relocate (g : Position → Position) (s : Stream) : Stream :=
  ⟨s.current.relocate g, s.later.map (Token.relocate g)⟩

theorem current_relocate (g : Position → Position) (s : Stream) :
    (s.relocate g).current = s.current.relocate g := rfl

theorem rest_relocate (g : Position → Position) (s : Stream) :
    (s.relocate g).rest = s.rest.relocate g := by
  obtain ⟨t, ts⟩ := s
  cases ts <;> rfl

theorem ofTokens_map_relocate (g : Position → Position) {tokens : List Token}
    (h : tokens = [] → g ⟨0, 0⟩ = ⟨0, 0⟩) :
    ofTokens (tokens.map (Token.relocate g)) = (ofTokens tokens).relocate g := by
  cases tokens with
  | nil => exact congrArg (fun p => Stream.mk (.endMark p) []) (h rfl).symm
  | cons t ts => rfl

end Stream

def relocateEnd {α : Type} (g : Position → Position) (h : α → α) :
    Except SyntaxError (α × Stream) → Except SyntaxError (α × Stream)
  | .ok (a, s) => .ok (h a, s.relocate g)
  | .error e => .error (e.relocate g)

/-- The second rule does on moved tokens what the first one does on the tokens themselves. -/
def Relocates {α : Type} (g : Position → Position) (h : α → α) (m m' : Parse α) : Prop :=
  ∀ s, m' (s.relocate g) = relocateEnd g h (m s)

namespace Relocates

variable {α β : Type} {g : Position → Position} {h : α → α} {j : β → β}

theorem bind {m m' : Parse α} {k k' : α → Parse β} (hm : Relocates g h m m')
    (hk : ∀ a, Relocates g j (k a) (k' (h a))) : Relocates g j (m >>= k) (m' >>= k') := by
  intro s
  rw [bind_run, bind_run, hm s]
  cases m s with
  | error e => rfl
  | ok r => exact hk r.1 r.2

theorem pure (a : α) : Relocates g h (pure a) (pure (h a)) := fun _ => rfl

theorem pure_of_eq {a b : α} (hb : h a = b) : Relocates g h (Pure.pure a) (Pure.pure b) :=
  hb ▸ .pure a

theorem map {m m' : Parse α} {k k' : α → β} (hm : Relocates g h m m') (hk : ∀ a, k' (h a) = j (k a)) :
    Relocates g j (k <$> m) (k' <$> m') := by
  intro s
  rw [map_run, map_run, hm s]
  cases m s with
  | error e => rfl
  | ok r => exact congrArg (fun b => Except.ok (b, r.2.relocate g)) (hk r.1)

theorem some {m m' : Parse α} (hm : Relocates g h m m') :
    Relocates g (Option.map h) (some <$> m) (some <$> m') :=
  .map hm fun _ => rfl

theorem throw (e : SyntaxError) :
    Relocates g h (throw e : Parse α) (throw (e.relocate g) : Parse α) := fun _ => rfl

theorem tooDeep : Relocates g h (tooDeep : Parse α) tooDeep := fun _ => rfl

theorem ite {p : Prop} [Decidable p] {m m' n n' : Parse α} (hm : Relocates g h m m')
    (hn : Relocates g h n n') : Relocates g h (if p then m else n) (if p then m' else n') := by
  split
  · exact hm
  · exact hn

theorem peek : Relocates g (Token.relocate g) peek peek := by
  intro s
  rw [peek_run, peek_run, s.current_relocate]
  rfl

theorem take : Relocates g (Token.relocate g) take take := by
  intro s
  rw [take_run, take_run, s.current_relocate, s.rest_relocate]
  rfl

theorem takeIf (kind : Token.Kind) : Relocates g id (takeIf kind) (takeIf kind) :=
  .bind .peek fun _ => .ite (.bind .take fun _ => .pure true) (.pure false)

theorem need (kind : Token.Kind) (what : Expected) :
    Relocates g (Token.relocate g) (need kind what) (need kind what) :=
  .bind .peek fun t => .ite .take (.throw (.expected what t.position))

/-! Lists. -/

theorem commaList {item item' : Parse α} (hitem : Relocates g h item item') (rounds : Nat) :
    Relocates g (List.map h) (commaList item rounds) (commaList item' rounds) := by
  induction rounds with
  | zero => exact .tooDeep
  | succ rounds ih =>
    refine .bind hitem fun x => .bind (.takeIf .comma) fun more => .ite ?_ (.pure [x])
    exact .bind ih fun xs => .pure (x :: xs)

theorem closedList (close : Token.Kind) {item item' : Parse α} (hitem : Relocates g h item item')
    (rounds : Nat) :
    Relocates g (List.map h) (closedList close item rounds) (closedList close item' rounds) := by
  induction rounds with
  | zero => exact .tooDeep
  | succ rounds ih =>
    refine .bind .peek fun t => .ite (.pure []) ?_
    refine .bind hitem fun x => .bind (.takeIf .comma) fun more => .ite ?_ (.pure [x])
    exact .bind ih fun xs => .pure (x :: xs)

theorem bracedList {h : Node → Node} {item item' : Parse Node} (hitem : Relocates g h item item')
    (rounds : Nat) : Relocates g (List.map h) (bracedList item rounds) (bracedList item' rounds) := by
  induction rounds with
  | zero => exact .tooDeep
  | succ rounds ih =>
    refine .bind .peek fun t => .ite (.bind .take fun _ => .pure []) ?_
    refine .ite (.throw (.unclosedBlock t.position)) ?_
    exact .bind hitem fun n => .bind ih fun ns => .pure (n :: ns)

theorem wholeList {h : Node → Node} {item item' : Parse Node} (hitem : Relocates g h item item')
    (rounds : Nat) : Relocates g (List.map h) (wholeList item rounds) (wholeList item' rounds) := by
  induction rounds with
  | zero => exact .tooDeep
  | succ rounds ih =>
    refine .bind .peek fun t => .ite (.pure []) ?_
    exact .bind hitem fun n => .bind ih fun ns => .pure (n :: ns)

end Relocates

section Rules

variable (r : Relocation)

abbrev MovesNode (m : Parse Node) : Prop :=
  Relocates r.position (Node.relocate r.place) m m

theorem parameterNames_relocates (seen : List String) (rounds : Nat) :
    Relocates r.position (List.map (Word.relocate r.place)) (parameterNames seen rounds)
      (parameterNames seen rounds) := by
  induction rounds generalizing seen with
  | zero => exact .tooDeep
  | succ rounds ih =>
    refine .bind (.need .ident .parameterName) fun t => ?_
    refine .ite (.throw (.duplicateParameter t.text t.position)) ?_
    rw [word_relocate]
    refine .bind (.takeIf .comma) fun more => .ite ?_ (.pure [word t])
    exact .bind (ih (t.text :: seen)) fun ws => .pure (word t :: ws)

theorem operatorChain_relocates (level : Level) {operand operand' : Parse Node}
    (hoperand : Relocates r.position (Node.relocate r.place) operand operand') (place : Option Place)
    (rounds : Nat) (left : Node) :
    Relocates r.position (Node.relocate r.place) (operatorChain level operand place rounds left)
      (operatorChain level operand' (r.place place) rounds (left.relocate r.place)) := by
  induction rounds generalizing left with
  | zero => exact .tooDeep
  | succ rounds ih =>
    refine .bind .peek fun t => .ite ?_ (.pure left)
    refine .bind .take fun _ => .bind hoperand fun right => ?_
    exact ih (.binary ⟨t.text, some t.kind⟩ left right place)

theorem suffixChain_relocates {args : Parse (List Node × Option Place)} {index : Parse Node}
    (hargs : Relocates r.position (Prod.map (List.map (Node.relocate r.place)) r.place) args args)
    (hindex : MovesNode r index) (place : Option Place) (rounds : Nat) (base : Node) :
    Relocates r.position (Node.relocate r.place) (suffixChain args index place rounds base)
      (suffixChain args index (r.place place) rounds (base.relocate r.place)) := by
  induction rounds generalizing base with
  | zero => exact .tooDeep
  | succ rounds ih =>
    have hcall (args : List Node × Option Place) := ih (.call base args.1 args.2 place)
    have hitem (key : Node) := ih (.item base key place)
    have hmethod (key : Node) (args : List Node × Option Place) :=
      ih (.methodCall base key args.1 args.2 place)
    simp only [Node.relocate, Node.relocateAll_eq_map] at hcall hitem hmethod
    refine .bind .peek fun t => ?_
    obtain ⟨kind, text, p⟩ := t
    cases kind with
    | leftParen => exact .bind hargs fun args => hcall args
    | leftSquare =>
      refine .bind .take fun _ => .bind hindex fun key => ?_
      exact .bind (.need .rightSquare .indexClose) fun _ => hitem key
    | dot =>
      refine .bind .take fun _ => .bind (.need .ident .propertyName) fun name => ?_
      refine .bind .peek fun t => ?_
      rw [word_relocate]
      exact .ite (.bind hargs fun args => hmethod (.string (word name)) args)
        (hitem (.string (word name)))
    | _ => exact .pure base

theorem recordField_relocates {value : Parse Node} (hvalue : MovesNode r value) :
    Relocates r.position (Node.relocateField r.place) (recordField value) (recordField value) := by
  refine .bind .peek fun t => .ite ?_ (.throw (.expected .recordKey t.position))
  refine .bind .take fun _ => .bind (.need .colon .recordColon) fun _ => .bind hvalue fun v => ?_
  rw [word_relocate, t.place_relocate]
  exact .pure (Field.mk (word t) v t.place)

variable (rounds : Nat)

mutual

theorem expression_relocates : ∀ depth, MovesNode r (expression rounds depth)
  | 0 => .tooDeep
  | depth + 1 => assignment_relocates depth
termination_by structural depth => depth

theorem assignment_relocates : ∀ depth, MovesNode r (assignment rounds depth)
  | 0 => .tooDeep
  | depth + 1 => by
    refine .bind .peek fun t => .bind (binary_relocates .equality depth) fun target => ?_
    refine .bind .peek fun sign => .ite ?_ (.pure target)
    refine .bind .take fun _ => .bind (assignment_relocates depth) fun value => ?_
    rw [t.place_relocate]
    have hrefuse := Relocates.throw (g := r.position) (h := Node.relocate r.place)
      (.invalidTarget sign.position)
    cases target with
    | name w => exact .pure _
    | item base key p => exact .pure _
    | declare w init p => cases init <;> exact hrefuse
    | giveBack value p => cases value <;> exact hrefuse
    | _ => exact hrefuse
termination_by structural depth => depth

theorem binary_relocates (level : Level) : ∀ depth, MovesNode r (binary rounds level depth)
  | 0 | 1 => .tooDeep
  | depth + 2 => by
    refine .bind .peek fun t => ?_
    have hoperand : MovesNode r (match level.tighter? with
        | some tighter => binary rounds tighter depth
        | none => unary rounds depth) := by
      cases level.tighter? with
      | some tighter => exact binary_relocates tighter depth
      | none => exact unary_relocates depth
    refine .bind hoperand fun left => ?_
    rw [t.place_relocate]
    exact operatorChain_relocates r level hoperand t.place rounds left
termination_by structural depth => depth

theorem unary_relocates : ∀ depth, MovesNode r (unary rounds depth)
  | 0 => .tooDeep
  | depth + 1 => by
    refine .bind .peek fun t => .ite ?_ (suffixed_relocates depth)
    refine .bind .take fun _ => .bind (unary_relocates depth) fun operand => ?_
    rw [t.place_relocate]
    exact .pure _
termination_by structural depth => depth

theorem suffixed_relocates : ∀ depth, MovesNode r (suffixed rounds depth)
  | 0 => .tooDeep
  | depth + 1 => by
    refine .bind .peek fun t => .bind (primary_relocates depth) fun base => ?_
    rw [t.place_relocate]
    exact suffixChain_relocates r (arguments_relocates depth) (expression_relocates depth) t.place
      rounds base
termination_by structural depth => depth

theorem arguments_relocates : ∀ depth,
    Relocates r.position (Prod.map (List.map (Node.relocate r.place)) r.place)
      (arguments rounds depth) (arguments rounds depth)
  | 0 => .tooDeep
  | depth + 1 => by
    refine .bind .take fun t => .bind .peek fun next => ?_
    rw [t.place_relocate]
    have hargs := Relocates.commaList (expression_relocates depth) rounds
    refine .ite (.bind (h := List.map (Node.relocate r.place)) (.pure []) ?_) (.bind hargs ?_)
    all_goals exact fun args => .bind (.need .rightParen .argumentsClose) fun _ => .pure (args, t.place)
termination_by structural depth => depth

theorem primary_relocates : ∀ depth, MovesNode r (primary rounds depth)
  | 0 => .tooDeep
  | depth + 1 => by
    refine .bind .peek fun t => ?_
    rw [word_relocate, t.place_relocate]
    obtain ⟨kind, text, p⟩ := t
    cases kind with
    | number => exact .bind .take fun _ => .pure _
    | string => exact .bind .take fun _ => .pure _
    | trueWord => exact .bind .take fun _ => .pure _
    | falseWord => exact .bind .take fun _ => .pure _
    | ident => exact .bind .take fun _ => .pure _
    | leftParen =>
      refine .bind .take fun _ => .bind (expression_relocates depth) fun inner => ?_
      exact .bind (.need .rightParen .groupClose) fun _ => .pure inner
    | leftSquare =>
      refine .bind .take fun _ => ?_
      refine .bind (.closedList .rightSquare (expression_relocates depth) rounds) fun items => ?_
      rw [← Node.relocateAll_eq_map]
      exact .bind (.need .rightSquare .arrayClose) fun _ => .pure _
    | leftBrace =>
      refine .bind .take fun _ => .bind (recordFields_relocates depth) fun fields => ?_
      rw [← Node.relocateFields_eq_map]
      exact .pure _
    | _ => exact .throw (.unexpected _ p)
termination_by structural depth => depth

theorem recordFields_relocates : ∀ depth,
    Relocates r.position (List.map (Node.relocateField r.place)) (recordFields rounds depth)
      (recordFields rounds depth)
  | 0 => .tooDeep
  | depth + 1 => by
    have hfield := recordField_relocates r (expression_relocates depth)
    refine .bind (.closedList .rightBrace hfield rounds) fun fields => ?_
    exact .bind (.need .rightBrace .recordClose) fun _ => .pure fields
termination_by structural depth => depth

end

theorem parameters_relocates (depth : Nat) :
    Relocates r.position (Parameters.relocate r.place) (parameters rounds depth)
      (parameters rounds depth) := by
  cases depth with
  | zero => exact .tooDeep
  | succ depth =>
    refine .bind (.need .leftParen .parametersOpen) fun t => .bind .peek fun next => ?_
    rw [t.place_relocate]
    have hnames := parameterNames_relocates r [] rounds
    refine .ite (.bind (h := List.map (Word.relocate r.place)) (.pure []) ?_) (.bind hnames ?_)
    all_goals exact fun names => .bind (.need .rightParen .parametersClose) fun _ => .pure _

theorem declaration_relocates (depth : Nat) : MovesNode r (declaration rounds depth) := by
  cases depth with
  | zero => exact .tooDeep
  | succ depth =>
    refine .bind .take fun t => .bind (.need .ident .variableName) fun name => ?_
    rw [word_relocate, t.place_relocate]
    have hinit := Relocates.some (expression_relocates r rounds depth)
    refine .bind (.takeIf .assign) fun _ => .ite (.bind hinit ?_)
      (.bind (h := Option.map (Node.relocate r.place)) (.pure none) ?_)
    all_goals exact fun init => .bind (.need .semicolon .declarationEnd) fun _ =>
      .pure_of_eq (Node.relocate_declare ..)

theorem printStatement_relocates (depth : Nat) : MovesNode r (printStatement rounds depth) := by
  cases depth with
  | zero => exact .tooDeep
  | succ depth =>
    refine .bind .take fun t => .bind (expression_relocates r rounds depth) fun value => ?_
    rw [t.place_relocate]
    exact .bind (.need .semicolon .printEnd) fun _ => .pure _

theorem returnStatement_relocates (depth : Nat) : MovesNode r (returnStatement rounds depth) := by
  cases depth with
  | zero => exact .tooDeep
  | succ depth =>
    refine .bind .take fun t => .bind .peek fun next => ?_
    rw [t.place_relocate]
    have hvalue := Relocates.some (expression_relocates r rounds depth)
    refine .ite (.bind (h := Option.map (Node.relocate r.place)) (.pure none) ?_) (.bind hvalue ?_)
    all_goals exact fun value => .bind (.need .semicolon .returnEnd) fun _ =>
      .pure_of_eq (Node.relocate_giveBack ..)

theorem condition_relocates (depth : Nat) : MovesNode r (condition rounds depth) := by
  cases depth with
  | zero => exact .tooDeep
  | succ depth =>
    refine .bind (.need .leftParen .conditionOpen) fun _ => ?_
    refine .bind (expression_relocates r rounds depth) fun test => ?_
    exact .bind (.need .rightParen .conditionClose) fun _ => .pure test

theorem expressionStatement_relocates (depth : Nat) : MovesNode r (expressionStatement rounds depth) := by
  cases depth with
  | zero => exact .tooDeep
  | succ depth =>
    refine .bind .peek fun t => .bind (expression_relocates r rounds depth) fun value => ?_
    rw [t.place_relocate]
    exact .bind (.need .semicolon .expressionEnd) fun _ => .pure _

theorem loopStart_relocates (depth : Nat) :
    Relocates r.position (Option.map (Node.relocate r.place)) (loopStart rounds depth)
      (loopStart rounds depth) := by
  refine .bind .peek fun t => ?_
  obtain ⟨kind, text, p⟩ := t
  cases kind with
  | varWord => exact .some (declaration_relocates r rounds depth)
  | semicolon => exact .bind .take fun _ => .pure none
  | _ => exact .some (expressionStatement_relocates r rounds depth)

theorem loopTest_relocates (depth : Nat) : MovesNode r (loopTest rounds depth) := by
  refine .bind .peek fun mark => ?_
  rw [mark.place_relocate]
  refine .ite (.bind (h := Node.relocate r.place) (.pure _) ?_)
    (.bind (expression_relocates r rounds depth) ?_)
  all_goals exact fun test => .bind (.need .semicolon .loopConditionEnd) fun _ => .pure test

theorem loopStep_relocates (depth : Nat) :
    Relocates r.position (Option.map (Node.relocate r.place)) (loopStep rounds depth)
      (loopStep rounds depth) := by
  refine .bind .peek fun mark => ?_
  rw [mark.place_relocate]
  have hstep : Relocates r.position (Option.map (Node.relocate r.place))
      ((fun e => some (Node.expression e mark.place)) <$> expression rounds depth)
      ((fun e => some (Node.expression e (r.place mark.place))) <$> expression rounds depth) :=
    .map (expression_relocates r rounds depth) fun _ => rfl
  refine .ite (.bind (h := Option.map (Node.relocate r.place)) (.pure none) ?_) (.bind hstep ?_)
  all_goals exact fun step => .bind (.need .rightParen .forClose) fun _ => .pure step

mutual

theorem statement_relocates : ∀ depth, MovesNode r (statement rounds depth)
  | 0 => .tooDeep
  | depth + 1 => by
    refine .bind .peek fun t => ?_
    obtain ⟨kind, text, p⟩ := t
    cases kind with
    | varWord => exact declaration_relocates r rounds depth
    | funWord => exact functionDefinition_relocates depth
    | printWord => exact printStatement_relocates r rounds depth
    | returnWord => exact returnStatement_relocates r rounds depth
    | whileWord => exact whileStatement_relocates depth
    | forWord => exact forStatement_relocates depth
    | ifWord => exact ifStatement_relocates depth
    | leftBrace => exact blockStatement_relocates depth
    | _ => exact expressionStatement_relocates r rounds depth
termination_by structural depth => depth

theorem functionDefinition_relocates : ∀ depth, MovesNode r (functionDefinition rounds depth)
  | 0 => .tooDeep
  | depth + 1 => by
    refine .bind .take fun t => .bind (.need .ident .functionName) fun name => ?_
    refine .bind (parameters_relocates r rounds depth) fun params => ?_
    refine .bind (.need .leftBrace .functionBody) fun brace => ?_
    refine .bind (statements_relocates depth) fun body => ?_
    rw [word_relocate, t.place_relocate, brace.place_relocate, ← Node.relocateAll_eq_map]
    exact .pure _
termination_by structural depth => depth

theorem whileStatement_relocates : ∀ depth, MovesNode r (whileStatement rounds depth)
  | 0 => .tooDeep
  | depth + 1 => by
    refine .bind .take fun t => .bind (condition_relocates r rounds depth) fun test => ?_
    refine .bind (statement_relocates depth) fun body => ?_
    rw [t.place_relocate]
    exact .pure _
termination_by structural depth => depth

theorem ifStatement_relocates : ∀ depth, MovesNode r (ifStatement rounds depth)
  | 0 => .tooDeep
  | depth + 1 => by
    refine .bind .take fun t => .bind (condition_relocates r rounds depth) fun test => ?_
    refine .bind (statement_relocates depth) fun yes => .bind (.takeIf .elseWord) fun _ => ?_
    rw [t.place_relocate]
    refine .ite (.bind (statement_relocates depth) ?_) (.bind (h := Node.relocate r.place) (.pure _) ?_)
    all_goals exact fun no => .pure _
termination_by structural depth => depth

theorem forStatement_relocates : ∀ depth, MovesNode r (forStatement rounds depth)
  | 0 => .tooDeep
  | depth + 1 => by
    refine .bind .take fun t => .bind (.need .leftParen .forOpen) fun _ => ?_
    refine .bind (loopStart_relocates r rounds depth) fun start => ?_
    refine .bind (loopTest_relocates r rounds depth) fun test => ?_
    refine .bind (loopStep_relocates r rounds depth) fun step => ?_
    refine .bind (statement_relocates depth) fun body => ?_
    rw [t.place_relocate, ← Node.relocate_counted]
    exact .pure _
termination_by structural depth => depth

theorem blockStatement_relocates : ∀ depth, MovesNode r (blockStatement rounds depth)
  | 0 => .tooDeep
  | depth + 1 => by
    refine .bind .take fun t => .bind (statements_relocates depth) fun body => ?_
    rw [t.place_relocate, ← Node.relocateAll_eq_map]
    exact .pure _
termination_by structural depth => depth

theorem statements_relocates : ∀ depth,
    Relocates r.position (List.map (Node.relocate r.place)) (statements rounds depth)
      (statements rounds depth)
  | 0 => .tooDeep
  | depth + 1 => .bracedList (statement_relocates depth) rounds
termination_by structural depth => depth

end

end Rules

theorem program_relocate (r : Relocation) (depth : Nat) {tokens : List Token}
    (h : tokens = [] → r.position ⟨0, 0⟩ = ⟨0, 0⟩) :
    program depth (tokens.map (Token.relocate r.position)) =
      ((program depth tokens).map (Node.relocate r.place)).mapError (SyntaxError.relocate r.position) := by
  have hlist := Relocates.wholeList (statement_relocates r (tokens.length + 1) depth)
    (tokens.length + 1) (Stream.ofTokens tokens)
  unfold program programWithin
  simp only [Stream.ofTokens_map_relocate r.position h, List.length_map, StateT.run, hlist,
    Stream.current_relocate, Token.place_relocate]
  cases wholeList (statement (tokens.length + 1) depth) (tokens.length + 1)
      (Stream.ofTokens tokens) with
  | error e => rfl
  | ok read =>
    refine congrArg Except.ok ?_
    exact congrArg (Node.sequence · _) (Node.relocateAll_eq_map r.place read.1).symm

end Grammar

end Scripting
