/-!
Positions in a source text, and its tokens: the words, numbers, strings and signs. Lines and columns
count from one, and a column counts characters.
-/

set_option autoImplicit false

namespace Scripting

structure Position where
  line : Nat
  column : Nat
deriving DecidableEq, Repr

namespace Position

def start : Position := ⟨1, 1⟩

def next (p : Position) (c : Char) : Position :=
  if c = '\n' then ⟨p.line + 1, 1⟩ else ⟨p.line, p.column + 1⟩

def after (p : Position) (cs : List Char) : Position :=
  cs.foldl next p

theorem after_append (p : Position) (cs ds : List Char) :
    p.after (cs ++ ds) = (p.after cs).after ds :=
  List.foldl_append

end Position

/-- Where a node of a program stands. A program that was not read from a text may know the line only. -/
structure Place where
  line : Nat
  column : Option Nat
deriving DecidableEq, Repr

def Position.place (p : Position) : Place :=
  ⟨p.line, some p.column⟩

namespace Token

inductive Kind where
  | number | string | ident
  | varWord | funWord | returnWord | printWord | whileWord | forWord | ifWord | elseWord
  | trueWord | falseWord
  | plus | minus | star
  | equal | notEqual | less | lessEqual | greater | greaterEqual
  | assign
  | leftParen | rightParen | leftSquare | rightSquare | leftBrace | rightBrace
  | dot | comma | colon | semicolon
  | eof
deriving DecidableEq, Repr

def Kind.name : Kind → String
  | number => "NUMBER"
  | string => "STRING"
  | ident => "IDENT"
  | varWord => "VAR"
  | funWord => "FUN"
  | returnWord => "RETURN"
  | printWord => "PRINT"
  | whileWord => "WHILE"
  | forWord => "FOR"
  | ifWord => "IF"
  | elseWord => "ELSE"
  | trueWord => "TRUE"
  | falseWord => "FALSE"
  | plus => "PLUS"
  | minus => "MINUS"
  | star => "STAR"
  | equal => "EQ"
  | notEqual => "NEQ"
  | less => "LT"
  | lessEqual => "LTE"
  | greater => "GT"
  | greaterEqual => "GTE"
  | assign => "ASSIGN"
  | leftParen => "LPAR"
  | rightParen => "RPAR"
  | leftSquare => "LSQB"
  | rightSquare => "RSQB"
  | leftBrace => "LBRACE"
  | rightBrace => "RBRACE"
  | dot => "DOT"
  | comma => "COMMA"
  | colon => "COLON"
  | semicolon => "SEMI"
  | eof => "EOF"

def Kind.all : List Kind :=
  [number, string, ident, varWord, funWord, returnWord, printWord, whileWord, forWord, ifWord,
   elseWord, trueWord, falseWord, plus, minus, star, equal, notEqual, less, lessEqual, greater,
   greaterEqual, assign, leftParen, rightParen, leftSquare, rightSquare, leftBrace, rightBrace, dot,
   comma, colon, semicolon, eof]

def Kind.ofName? (name : String) : Option Kind :=
  Kind.all.find? (·.name = name)

def keywords : List (String × Kind) :=
  [("var", .varWord), ("fun", .funWord), ("return", .returnWord), ("print", .printWord),
   ("while", .whileWord), ("for", .forWord), ("if", .ifWord), ("else", .elseWord),
   ("true", .trueWord), ("false", .falseWord)]

def Kind.ofWord (word : String) : Kind :=
  (keywords.lookup word).getD .ident

def pairSign? : Char → Char → Option Kind
  | '=', '=' => some .equal
  | '!', '=' => some .notEqual
  | '<', '=' => some .lessEqual
  | '>', '=' => some .greaterEqual
  | _, _ => none

def sign? : Char → Option Kind
  | '+' => some .plus
  | '-' => some .minus
  | '*' => some .star
  | '<' => some .less
  | '>' => some .greater
  | '=' => some .assign
  | '(' => some .leftParen
  | ')' => some .rightParen
  | '[' => some .leftSquare
  | ']' => some .rightSquare
  | '{' => some .leftBrace
  | '}' => some .rightBrace
  | '.' => some .dot
  | ',' => some .comma
  | ':' => some .colon
  | ';' => some .semicolon
  | _ => none

end Token

/-- A token with its text: the digits of a number as written, and what a string denotes. -/
structure Token where
  kind : Token.Kind
  text : String
  position : Position
deriving DecidableEq, Repr

namespace Token

def endMark (p : Position) : Token := ⟨.eof, "", p⟩

def place (t : Token) : Option Place := some t.position.place

end Token

end Scripting
