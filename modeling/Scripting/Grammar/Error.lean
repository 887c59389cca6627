import Scripting.Token.Basic

/-!
Syntax errors, by cause. The position is that of the token at which parsing stopped.
-/

set_option autoImplicit false

namespace Scripting

inductive Expected where
  | variableName | declarationEnd
  | functionName | parametersOpen | parameterName | parametersClose | functionBody
  | printEnd | returnEnd
  | conditionOpen | conditionClose
  | forOpen | loopConditionEnd | forClose
  | expressionEnd
  | indexClose | propertyName | argumentsClose | groupClose | arrayClose
  | recordKey | recordColon | recordClose
deriving DecidableEq, Repr

def Expected.message : Expected → String
  | variableName => "Expected variable name after 'var'"
  | declarationEnd => "Expected ';' after variable declaration"
  | functionName => "Expected function name after 'fun'"
  | parametersOpen => "Expected '(' after function name"
  | parameterName => "Expected parameter name"
  | parametersClose => "Expected ')' after parameters"
  | functionBody => "Expected '\x7b' before function body"
  | printEnd => "Expected ';' after print"
  | returnEnd => "Expected ';' after return value"
  | conditionOpen => "Expected '(' before condition"
  | conditionClose => "Expected ')' after condition"
  | forOpen => "Expected '(' after 'for'"
  | loopConditionEnd => "Expected ';' after loop condition"
  | forClose => "Expected ')' after for clauses"
  | expressionEnd => "Expected ';' after expression"
  | indexClose => "Expected ']' after index"
  | propertyName => "Expected property name after '.'"
  | argumentsClose => "Expected ')' after arguments"
  | groupClose => "Expected ')' after expression"
  | arrayClose => "Expected ']' after array elements"
  | recordKey => "Expected record key"
  | recordColon => "Expected ':' after record key"
  | recordClose => "Expected '\x7d' after record fields"

inductive SyntaxError where
  | expected (what : Expected) (position : Position)
  | unexpected (kind : Token.Kind) (position : Position)
  | duplicateParameter (name : String) (position : Position)
  | unclosedBlock (position : Position)
  | invalidTarget (position : Position)
  /-- The program is nested more deeply than the host can follow. -/
  | nestingTooDeep (position : Position)
deriving DecidableEq, Repr

namespace SyntaxError

private def located (text : String) (p : Position) : String :=
  s!"{text} at line {p.line}, col {p.column}"

def message : SyntaxError → String
  | expected what p => located what.message p
  | unexpected kind p => located s!"Unexpected {kind.name}" p
  | duplicateParameter name p => located s!"Duplicate parameter '{name}'" p
  | unclosedBlock p => located "Missing closing brace '\x7d'" p
  | invalidTarget p => located "Invalid assignment target" p
  | nestingTooDeep p => located "Expression nesting too deep" p

end SyntaxError

end Scripting
