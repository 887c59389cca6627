import Scripting.Grammar.Expression

/-!
The rules of statements, and the parser as a whole.
-/

set_option autoImplicit false

namespace Scripting.Grammar

variable (rounds : Nat)

def parameters : Nat → Parse Parameters
  | 0 => tooDeep
  | _ + 1 => do
    let t ← need .leftParen .parametersOpen
    let names ← if (← peek).kind = .rightParen then pure [] else parameterNames [] rounds
    let _ ← need .rightParen .parametersClose
    return ⟨names, t.place⟩

def declaration : Nat → Parse Node
  | 0 => tooDeep
  | depth + 1 => do
    let t ← take
    let name ← need .ident .variableName
    let init ← if ← takeIf .assign then some <$> expression rounds depth else pure none
    let _ ← need .semicolon .declarationEnd
    return .declare (word name) init t.place

def printStatement : Nat → Parse Node
  | 0 => tooDeep
  | depth + 1 => do
    let t ← take
    let value ← expression rounds depth
    let _ ← need .semicolon .printEnd
    return .print value t.place

def returnStatement : Nat → Parse Node
  | 0 => tooDeep
  | depth + 1 => do
    let t ← take
    let value ← if (← peek).kind = .semicolon then pure none else some <$> expression rounds depth
    let _ ← need .semicolon .returnEnd
    return .giveBack value t.place

def condition : Nat → Parse Node
  | 0 => tooDeep
  | depth + 1 => do
    let _ ← need .leftParen .conditionOpen
    let test ← expression rounds depth
    let _ ← need .rightParen .conditionClose
    return test

def expressionStatement : Nat → Parse Node
  | 0 => tooDeep
  | depth + 1 => do
    let t ← peek
    let value ← expression rounds depth
    let _ ← need .semicolon .expressionEnd
    return .expression value t.place

/-! The clauses of a counting loop, each with the sign that ends it. -/

def loopStart (depth : Nat) : Parse (Option Node) := do
  match (← peek).kind with
  | .varWord => some <$> declaration rounds depth
  | .semicolon =>
    let _ ← take
    return none
  | _ => some <$> expressionStatement rounds depth

/-- A missing condition holds. -/
def loopTest (depth : Nat) : Parse Node := do
  let mark ← peek
  let test ←
    if mark.kind = .semicolon then pure (Node.boolean true ⟨"true", mark.place⟩)
    else expression rounds depth
  let _ ← need .semicolon .loopConditionEnd
  return test

def loopStep (depth : Nat) : Parse (Option Node) := do
  let mark ← peek
  let step ←
    if mark.kind = .rightParen then pure none
    else (fun e => some (Node.expression e mark.place)) <$> expression rounds depth
  let _ ← need .rightParen .forClose
  return step

mutual

def statement : Nat → Parse Node
  | 0 => tooDeep
  | depth + 1 => do
    match (← peek).kind with
    | .varWord => declaration rounds depth
    | .funWord => functionDefinition depth
    | .printWord => printStatement rounds depth
    | .returnWord => returnStatement rounds depth
    | .whileWord => whileStatement depth
    | .forWord => forStatement depth
    | .ifWord => ifStatement depth
    | .leftBrace => blockStatement depth
    | _ => expressionStatement rounds depth
termination_by structural depth => depth

def functionDefinition : Nat → Parse Node
  | 0 => tooDeep
  | depth + 1 => do
    let t ← take
    let name ← need .ident .functionName
    let params ← parameters rounds depth
    let brace ← need .leftBrace .functionBody
    let body ← statements depth
    return .function (word name) params (.sequence body brace.place) t.place
termination_by structural depth => depth

def whileStatement : Nat → Parse Node
  | 0 => tooDeep
  | depth + 1 => do
    let t ← take
    let test ← condition rounds depth
    let body ← statement depth
    return .loop test body t.place
termination_by structural depth => depth

def ifStatement : Nat → Parse Node
  | 0 => tooDeep
  | depth + 1 => do
    let t ← take
    let test ← condition rounds depth
    let yes ← statement depth
    let no ← if ← takeIf .elseWord then statement depth else pure (.sequence [] t.place)
    return .branch test yes no t.place
termination_by structural depth => depth

def forStatement : Nat → Parse Node
  | 0 => tooDeep
  | depth + 1 => do
    let t ← take
    let _ ← need .leftParen .forOpen
    let start ← loopStart rounds depth
    let test ← loopTest rounds depth
    let step ← loopStep rounds depth
    let body ← statement depth
    return .counted start test step body t.place
termination_by structural depth => depth

def blockStatement : Nat → Parse Node
  | 0 => tooDeep
  | depth + 1 => do
    let t ← take
    let body ← statements depth
    return .block body t.place
termination_by structural depth => depth

def statements : Nat → Parse (List Node)
  | 0 => tooDeep
  | depth + 1 => bracedList (statement depth) rounds
termination_by structural depth => depth

end

/-- Reads tokens under the given nesting allowance, each list of phrases in at most so many rounds. -/
def programWithin (rounds depth : Nat) (tokens : List Token) : Except SyntaxError Node := do
  let stream := Stream.ofTokens tokens
  let (body, _) ← wholeList (statement rounds depth) rounds |>.run stream
  return .sequence body stream.current.place

def program (depth : Nat) (tokens : List Token) : Except SyntaxError Node :=
  programWithin (tokens.length + 1) depth tokens

end Scripting.Grammar
