import Scripting.Token.Basic

/-!
Programs as trees. Statements and expressions are nodes of one type, because a program put together by
hand may have either in the place of the other; evaluation gives a value to both.
-/

set_option autoImplicit false

namespace Scripting

structure Word where
  text : String
  place : Option Place
deriving DecidableEq, Repr

/-- A binary operator as written, and the kind of token it was read from, if it was. -/
structure Operator where
  symbol : String
  kind : Option Token.Kind
deriving DecidableEq, Repr

structure Parameters where
  names : List Word
  place : Option Place
deriving DecidableEq, Repr

structure Field (α : Type) where
  key : Word
  value : α
  place : Option Place

/-- What makes a hand-made node one that no rule of evaluation covers. -/
inductive Defect where
  | unknownLabel (label : String)
  | unknownToken (kind text : String)
  | notIdentifier (role : String)
  | malformedFunction
  | wrongShape
deriving DecidableEq, Repr

inductive Node where
  | number (word : Word)
  | string (word : Word)
  | boolean (value : Bool) (word : Word)
  | name (word : Word)
  | binary (op : Operator) (left right : Node) (place : Option Place)
  | negate (operand : Node) (place : Option Place)
  | array (items : List Node) (place : Option Place)
  | record (fields : List (Field Node)) (place : Option Place)
  | item (base key : Node) (place : Option Place)
  | call (callee : Node) (args : List Node) (argsPlace place : Option Place)
  | methodCall (receiver key : Node) (args : List Node) (argsPlace place : Option Place)
  | assign (target : Word) (value : Node) (place : Option Place)
  | setItem (base key value : Node) (place : Option Place)
  | sequence (body : List Node) (place : Option Place)
  | block (body : List Node) (place : Option Place)
  | expression (value : Node) (place : Option Place)
  | declare (name : Word) (init : Option Node) (place : Option Place)
  | function (name : Word) (params : Parameters) (body : Node) (place : Option Place)
  | print (value : Node) (place : Option Place)
  | giveBack (value : Option Node) (place : Option Place)
  | loop (condition body : Node) (place : Option Place)
  | branch (condition yes no : Node) (place : Option Place)
  | malformed (defect : Defect) (place : Option Place)
deriving Inhabited

namespace Node

def place : Node → Option Place
  | number w | string w | boolean _ w | name w => w.place
  | binary _ _ _ p | negate _ p | array _ p | record _ p | item _ _ p | call _ _ _ p
  | methodCall _ _ _ _ p | assign _ _ p | setItem _ _ _ p | sequence _ p | block _ p
  | expression _ p | declare _ _ p | function _ _ _ p | print _ p | giveBack _ p | loop _ _ p
  | branch _ _ _ p | malformed _ p => p

/-- A counting loop: the start once, in a scope of its own, and after each round of the body the step,
    in the scope of that round. -/
def counted (start : Option Node) (condition : Node) (step : Option Node) (body : Node)
    (place : Option Place) : Node :=
  .block (start.toList ++ [.loop condition (.block (body :: step.toList) place) place]) place

def statements : Node → List Node
  | sequence body _ | block body _ => body
  | _ => []

end Node

end Scripting
