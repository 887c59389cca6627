/-!
Spans of characters, in which the tables of character classes are written, white space of any script,
and line ends. A text is a sequence of Unicode scalar values.
-/

set_option autoImplicit false

namespace Scripting.Text

abbrev Span := Nat × Nat

def Span.holds (s : Span) (c : Char) : Bool :=
  s.1 ≤ c.toNat && c.toNat ≤ s.2

/-- The white space characters, the four information separators among them. -/
def blankSpans : List Span :=
  [(0x9, 0xd), (0x1c, 0x20), (0x85, 0x85), (0xa0, 0xa0), (0x1680, 0x1680), (0x2000, 0x200a),
   (0x2028, 0x2029), (0x202f, 0x202f), (0x205f, 0x205f), (0x3000, 0x3000)]

def isBlank (c : Char) : Bool :=
  blankSpans.any (·.holds c)

def trimWhile (p : Char → Bool) (cs : List Char) : List Char :=
  ((cs.dropWhile p).reverse.dropWhile p).reverse

def trim (cs : List Char) : List Char :=
  trimWhile isBlank cs

def strip (text : String) : String :=
  String.ofList (trim text.toList)

/-- The first word of a text without leading white space, and what follows the gap after it. -/
def firstWord (cs : List Char) : List Char × List Char :=
  let gap := cs.dropWhile fun c => !isBlank c
  (cs.takeWhile fun c => !isBlank c, gap.dropWhile isBlank)

/-! Line ends: a carriage return, alone or before a line feed, is read as one line feed. -/

def unifyNewlines : List Char → List Char
  | '\r' :: '\n' :: cs => '\n' :: unifyNewlines cs
  | '\r' :: cs => '\n' :: unifyNewlines cs
  | c :: cs => c :: unifyNewlines cs
  | [] => []

def withLineFeeds (text : String) : String :=
  String.ofList (unifyNewlines text.toList)

end Scripting.Text
