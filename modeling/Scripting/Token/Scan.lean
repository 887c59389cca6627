import Scripting.Text.Letter
import Scripting.Text.Numeral
import Scripting.Token.Basic

/-!
From source text to tokens. A source is cut into pieces that follow each other without a gap; each
piece is a token, one blank, or a comment. Scanning stops at the first piece that is none of these.
-/

set_option autoImplicit false

namespace Scripting

inductive ScanError where
  | unknownEscape (c : Char) (position : Position)
  | unterminatedString (line : Nat)
  | numberOutOfRange (digits : String) (position : Position)
  | unexpectedCharacter (c : Char) (position : Position)
  | tooManyDigits
deriving DecidableEq, Repr

namespace ScanError

/-- The report of an error; a numeral too long to be read has none and ends the host instead. -/
def message? : ScanError → Option String
  | unknownEscape c p => some s!"Unknown escape '\\{c}' at line {p.line}, col {p.column}"
  | unterminatedString line => some s!"Unterminated string at line {line}"
  | numberOutOfRange digits p =>
    some s!"Number literal {digits} out of range at line {p.line}, col {p.column}"
  | unexpectedCharacter c p => some s!"Unexpected character '{c}' at line {p.line}, col {p.column}"
  | tooManyDigits => none

end ScanError

namespace Token

def maxNumber : Nat := 2147483647

def startsWord (c : Char) : Bool :=
  Text.isLetter c || c == '_'

def continuesWord (c : Char) : Bool :=
  Text.isLetter c || Text.isNumeric c || c == '_'

def escape? : Char → Option Char
  | 'n' => some '\n'
  | 't' => some '\t'
  | '"' => some '"'
  | '\\' => some '\\'
  | _ => none

structure Piece where
  more : List Char
  token? : Option (Kind × String)

namespace Piece

/-- The inside of a string from position `p` on: what it denotes, and the characters it takes with the
    closing quote. Past the end of the source stands a NUL, which no escape may name. -/
def inString (line : Nat) : Position → List Char → Except ScanError (List Char × List Char)
  | _, [] => .error (.unterminatedString line)
  | _, '"' :: _ => .ok ([], ['"'])
  | p, ['\\'] => .error (.unknownEscape '\x00' p)
  | p, '\\' :: e :: cs =>
    match escape? e with
    | none => .error (.unknownEscape e p)
    | some c => (inString line (p.after ['\\', e]) cs).map fun r => (c :: r.1, '\\' :: e :: r.2)
  | p, c :: cs => (inString line (p.next c) cs).map fun r => (c :: r.1, c :: r.2)

def ofString (p : Position) (cs : List Char) : Except ScanError Piece :=
  (inString p.line (p.next '"') cs).map fun r => ⟨r.2, some (.string, String.ofList r.1)⟩

def ofNumber (p : Position) (c : Char) (cs : List Char) : Except ScanError Piece :=
  let more := cs.takeWhile Char.isDigit
  let digits := c :: more
  if Text.maxDigits < digits.length then .error .tooManyDigits
  else if maxNumber < Text.ofDigits (digits.map fun d => d.toNat - '0'.toNat) then
    .error (.numberOutOfRange (String.ofList digits) p)
  else .ok ⟨more, some (.number, String.ofList digits)⟩

def ofWord (c : Char) (cs : List Char) : Piece :=
  let more := cs.takeWhile continuesWord
  let word := String.ofList (c :: more)
  ⟨more, some (.ofWord word, word)⟩

def ofSign (p : Position) (c : Char) (cs : List Char) : Except ScanError Piece :=
  match cs.head?.bind fun d => (pairSign? c d).map (·, d) with
  | some (kind, d) => .ok ⟨[d], some (kind, String.ofList [c, d])⟩
  | none =>
    match sign? c with
    | some kind => .ok ⟨[], some (kind, String.ofList [c])⟩
    | none => .error (.unexpectedCharacter c p)

def read (p : Position) (c : Char) (cs : List Char) : Except ScanError Piece :=
  if c = ' ' || c = '\t' || c = '\r' || c = '\n' then .ok ⟨[], none⟩
  else if c = '/' && cs.head? = some '/' then
    .ok ⟨cs.takeWhile fun d => d ≠ '\n' && d ≠ '\x00', none⟩
  else if c = '"' then ofString p cs
  else if c.isDigit then ofNumber p c cs
  else if startsWord c then .ok (ofWord c cs)
  else ofSign p c cs

end Piece

/-- The tokens read so far, the latest first, and those of the rest of the source. -/
def scanFrom (p : Position) (seen : List Token) : List Char → Except ScanError (List Token)
  | [] => .ok (endMark p :: seen).reverse
  | c :: cs =>
    match Piece.read p c cs with
    | .error e => .error e
    | .ok piece =>
      let seen := match piece.token? with
        | some (kind, text) => ⟨kind, text, p⟩ :: seen
        | none => seen
      scanFrom (p.after (c :: piece.more)) seen (cs.drop piece.more.length)
termination_by cs => cs.length
decreasing_by rw [List.length_drop, List.length_cons]; omega

def scan (source : String) : Except ScanError (List Token) :=
  scanFrom .start [] source.toList

end Token

end Scripting
