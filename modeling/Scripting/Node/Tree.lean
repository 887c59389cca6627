import Scripting.Node.Basic

/-!
Programs as labelled trees, the form in which tools exchange them. A node is written as a tree with a
label for its rule, and a word as a token. Reading a tree back never fails: what no rule covers becomes
a malformed node, which fails when it is evaluated.
-/

set_option autoImplicit false

namespace Scripting

inductive Tree where
  | node (label : String) (place : Option Place) (kids : List Tree)
  | token (kind text : String) (place : Option Place)
  | plain (content : String)
  | absent
deriving Inhabited

namespace Operator

def label (op : Operator) : String :=
  match op.kind with
  | some .plus | some .minus => "addexpr"
  | some .star => "mulexpr"
  | _ => "compare"

def toTree (op : Operator) : Tree :=
  match op.kind with
  | some kind => .token kind.name op.symbol none
  | none => .plain op.symbol

/-- The operator a tree stands for; only its text counts in evaluation. -/
def ofTree? : Tree → Option Operator
  | .token kind text _ => some ⟨text, Token.Kind.ofName? kind⟩
  | .plain content => some ⟨content, none⟩
  | _ => none

end Operator

def Word.toTree (kind : Token.Kind) (w : Word) : Tree :=
  .token kind.name w.text w.place

def Defect.toTree (defect : Defect) (place : Option Place) : Tree :=
  match defect with
  | .unknownLabel label => .node label place []
  | .unknownToken kind text => .token kind text place
  | .notIdentifier _ | .malformedFunction | .wrongShape => .absent

namespace Node

mutual

def toTree : Node → Tree
  | .number w => w.toTree .number
  | .string w => w.toTree .string
  | .boolean true w => w.toTree .trueWord
  | .boolean false w => w.toTree .falseWord
  | .name w => w.toTree .ident
  | .binary op l r p => .node op.label p [l.toTree, op.toTree, r.toTree]
  | .negate e p => .node "neg" p [e.toTree]
  | .array items p => .node "array" p (toTrees items)
  | .record fields p => .node "object" p (fieldTrees fields)
  | .item b k p => .node "getitem" p [b.toTree, k.toTree]
  | .call c args q p => .node "call" p [c.toTree, .node "args" q (toTrees args)]
  | .methodCall r k args q p =>
    .node "methodcall" p [r.toTree, k.toTree, .node "args" q (toTrees args)]
  | .assign w v p => .node "assign" p [w.toTree .ident, v.toTree]
  | .setItem b k v p => .node "setitem" p [b.toTree, k.toTree, v.toTree]
  | .sequence body p => .node "stmtlist" p (toTrees body)
  | .block body p => .node "block" p (toTrees body)
  | .expression e p => .node "exprstmt" p [e.toTree]
  | .declare w none p => .node "vardecl" p [w.toTree .ident]
  | .declare w (some e) p => .node "vardecl" p [w.toTree .ident, e.toTree]
  | .function w params body p =>
    .node "fndef" p
      [w.toTree .ident, .node "paramlist" params.place (params.names.map (Word.toTree .ident)),
       body.toTree]
  | .print e p => .node "printstmt" p [e.toTree]
  | .giveBack none p => .node "returnstmt" p []
  | .giveBack (some e) p => .node "returnstmt" p [e.toTree]
  | .loop c b p => .node "whilestmt" p [c.toTree, b.toTree]
  | .branch c y n p => .node "ifstmt" p [c.toTree, y.toTree, n.toTree]
  | .malformed defect p => defect.toTree p
termination_by structural n => n

def toTrees : List Node → List Tree
  | [] => []
  | n :: ns => n.toTree :: toTrees ns
termination_by structural ns => ns

def fieldTrees : List (Field Node) → List Tree
  | [] => []
  | ⟨key, value, p⟩ :: fields =>
    .node "objitem" p [key.toTree .string, value.toTree] :: fieldTrees fields
termination_by structural fields => fields

end

def ofToken (kind text : String) (p : Option Place) : Node :=
  match kind with
  | "NUMBER" => .number ⟨text, p⟩
  | "STRING" => .string ⟨text, p⟩
  | "TRUE" => .boolean true ⟨text, p⟩
  | "FALSE" => .boolean false ⟨text, p⟩
  | "IDENT" => .name ⟨text, p⟩
  | _ => .malformed (.unknownToken kind text) p

end Node

namespace Tree

def ident? : Tree → Option Word
  | .token "IDENT" text p => some ⟨text, p⟩
  | _ => none

def parameters : Tree → Except Defect Parameters
  | .absent => .ok ⟨[], none⟩
  | .node "paramlist" p kids =>
    match kids.mapM ident? with
    | some names => .ok ⟨names, p⟩
    | none => .error (.notIdentifier "Parameter")
  | _ => .error .malformedFunction

def functionHead (name params : Tree) : Except Defect (Word × Parameters) :=
  match name.ident? with
  | none => .error (.notIdentifier "Function name")
  | some w => (parameters params).map (w, ·)

def labels : List String :=
  ["stmtlist", "block", "exprstmt", "vardecl", "fndef", "returnstmt", "printstmt", "whilestmt",
   "ifstmt", "assign", "compare", "addexpr", "mulexpr", "neg", "array", "object", "call",
   "methodcall", "getitem", "setitem"]

mutual

def toNode : Tree → Node
  | .token kind text p => Node.ofToken kind text p
  | .node label p kids =>
    match label, kids with
    | "stmtlist", kids => .sequence (toNodes kids) p
    | "block", kids => .block (toNodes kids) p
    | "exprstmt", e :: _ => .expression e.toNode p
    | "vardecl", name :: kids =>
      match name.ident?, kids with
      | none, _ => .malformed (.notIdentifier "Variable name") p
      | some w, [] => .declare w none p
      | some w, e :: _ => .declare w (some e.toNode) p
    | "fndef", [name, params, body] =>
      match functionHead name params with
      | .error defect => .malformed defect p
      | .ok (w, ps) => .function w ps body.toNode p
    | "returnstmt", [] => .giveBack none p
    | "returnstmt", e :: _ => .giveBack (some e.toNode) p
    | "printstmt", e :: _ => .print e.toNode p
    | "whilestmt", [c, b] => .loop c.toNode b.toNode p
    | "ifstmt", [c, y, n] => .branch c.toNode y.toNode n.toNode p
    | "assign", [target, value] =>
      match target.ident? with
      | none => .malformed (.notIdentifier "Assignment target") p
      | some w => .assign w value.toNode p
    | "compare", [l, op, r] | "addexpr", [l, op, r] | "mulexpr", [l, op, r] =>
      match Operator.ofTree? op with
      | none => .malformed .wrongShape p
      | some op => .binary op l.toNode r.toNode p
    | "neg", e :: _ => .negate e.toNode p
    | "array", kids => .array (toNodes kids) p
    | "object", kids => .record (toFields kids) p
    | "call", [callee, args] => .call callee.toNode (toArguments args) none p
    | "methodcall", [receiver, key, args] =>
      .methodCall receiver.toNode key.toNode (toArguments args) none p
    | "getitem", [base, key] => .item base.toNode key.toNode p
    | "setitem", [base, key, value] => .setItem base.toNode key.toNode value.toNode p
    | label, _ => .malformed (if label ∈ labels then .wrongShape else .unknownLabel label) p
  | .plain _ | .absent => .malformed .wrongShape none
termination_by structural t => t

def toNodes : List Tree → List Node
  | [] => []
  | t :: ts => t.toNode :: toNodes ts
termination_by structural ts => ts

/-- The arguments of a call; anything but an argument list means that there are none. -/
def toArguments : Tree → List Node
  | .node "args" _ kids => toNodes kids
  | _ => []
termination_by structural t => t

/-- The fields of a record literal, whatever their labels; an ill-shaped one spoils its value only. -/
def toFields : List Tree → List (Field Node)
  | [] => []
  | .node _ p [.token _ key q, value] :: ts => ⟨⟨key, q⟩, value.toNode, p⟩ :: toFields ts
  | _ :: ts => ⟨⟨"", none⟩, .malformed .wrongShape none, none⟩ :: toFields ts
termination_by structural ts => ts

end

end Tree

end Scripting
