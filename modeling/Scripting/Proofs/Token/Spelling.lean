import Scripting.Proofs.Token.Tiling

/-!
Scanning undoes writing. Tokens may be written in more than one way: a line feed or a tabulator in a string
stands for itself or is escaped, and any white space and comments stand between tokens. Whatever way is
chosen, the scan gives the tokens back.
-/

set_option autoImplicit false

namespace Scripting.Token

/-- The text is a way to write a token of the given kind and text. -/
inductive Written : Kind → String → List Char → Prop where
  | keyword {word : String} {kind : Kind} (h : (word, kind) ∈ keywords) :
      Written kind word word.toList
  | ident {c : Char} {cs : List Char} (hc : startsWord c) (hcs : ∀ d ∈ cs, continuesWord d)
      (hfree : String.ofList (c :: cs) ∉ keywords.map (·.1)) :
      Written .ident (String.ofList (c :: cs)) (c :: cs)
  | sign {cs : List Char} {kind : Kind} (h : (cs, kind) ∈ signs) : Written kind (String.ofList cs) cs
  | number {digits : List Char} (hne : digits ≠ []) (hdigits : ∀ d ∈ digits, d.isDigit)
      (hlength : digits.length ≤ Text.maxDigits) (hmax : numeral digits ≤ maxNumber) :
      Written .number (String.ofList digits) digits
  | string {denoted written : List Char} (h : Quoted denoted written) :
      Written .string (String.ofList denoted) ('"' :: written ++ ['"'])

/-- White space and whole comments, at least one of them. -/
inductive Separator : List Char → Prop where
  | blank {c : Char} (h : c ∈ [' ', '\t', '\r', '\n']) : Separator [c]
  | comment {text : List Char} (h : ∀ c ∈ text, c ≠ '\n' ∧ c ≠ '\x00') :
      Separator ('/' :: '/' :: text ++ ['\n'])
  | append {cs ds : List Char} (h : Separator cs) (h' : Separator ds) : Separator (cs ++ ds)

/-- The text is a way to write the tokens in their order, with separators between them. -/
inductive WrittenOut : List (Kind × String) → List Char → Prop where
  | nil : WrittenOut [] []
  | last {kind : Kind} {text : String} {cs : List Char} (h : Written kind text cs) :
      WrittenOut [(kind, text)] cs
  | more {kind : Kind} {text : String} {cs gap rest : List Char} {next : Kind × String}
      {others : List (Kind × String)} (h : Written kind text cs) (hgap : Separator gap)
      (hrest : WrittenOut (next :: others) rest) :
      WrittenOut ((kind, text) :: next :: others) (cs ++ (gap ++ rest))

/-! What follows a token. -/

def delimiters : List Char := [' ', '\t', '\r', '\n', '/']

theorem delimiter_stops {c : Char} (h : c ∈ delimiters) :
    c.isDigit = false ∧ continuesWord c = false ∧ ∀ d kind, ([d, c], kind) ∉ signs := by
  have hsigns (hlast : ∀ e ∈ signs, e.1.getLast? ≠ some c) : ∀ d kind, ([d, c], kind) ∉ signs :=
    fun d kind hd => hlast _ hd rfl
  simp only [delimiters, List.mem_cons, List.not_mem_nil, or_false] at h
  rcases h with rfl | rfl | rfl | rfl | rfl <;> exact ⟨by decide, by decide, hsigns (by decide)⟩

theorem Separator.starts {gap : List Char} (h : Separator gap) (rest : List Char) :
    ∀ c ∈ (gap ++ rest).head?, c ∈ delimiters := by
  induction h generalizing rest with
  | @blank c h =>
    rintro _ ⟨⟩
    exact List.mem_append_left ['/'] h
  | comment h =>
    rintro _ ⟨⟩
    decide
  | @append cs ds _ _ ih _ =>
    rw [List.append_assoc]
    exact ih (ds ++ rest)

theorem ofWord_of_keyword {word : String} {kind : Kind} (h : (word, kind) ∈ keywords) :
    ∃ c cs, word.toList = c :: cs ∧ startsWord c ∧ (∀ d ∈ cs, continuesWord d) ∧
      Kind.ofWord (String.ofList (c :: cs)) = kind ∧ String.ofList (c :: cs) = word := by
  simp only [keywords, List.mem_cons, Prod.mk.injEq, List.not_mem_nil, or_false] at h
  rcases h with ⟨rfl, rfl⟩ | ⟨rfl, rfl⟩ | ⟨rfl, rfl⟩ | ⟨rfl, rfl⟩ | ⟨rfl, rfl⟩ | ⟨rfl, rfl⟩ |
    ⟨rfl, rfl⟩ | ⟨rfl, rfl⟩ | ⟨rfl, rfl⟩ | ⟨rfl, rfl⟩ <;>
    exact ⟨_, _, rfl, by decide, List.all_eq_true.1 (by decide), by decide, by decide⟩

theorem ofWord_of_free {word : String} (h : word ∉ keywords.map (·.1)) :
    Kind.ofWord word = .ident := by
  unfold Kind.ofWord
  cases hw : keywords.lookup word with
  | none => rfl
  | some kind =>
    obtain ⟨before, after, heq, -⟩ := List.lookup_eq_some_iff.1 hw
    exact absurd (by simp [heq]) h

theorem Written.spells {kind : Kind} {text : String} {cs rest : List Char} (h : Written kind text cs)
    (hrest : ∀ c ∈ rest.head?, c ∈ delimiters) : Spells cs rest kind text := by
  cases h with
  | keyword h =>
    obtain ⟨c, cs, heq, hc, hcs, hkind, htext⟩ := ofWord_of_keyword h
    have hword := Spells.word hc hcs fun d hd => (delimiter_stops (hrest d hd)).2.1
    rwa [hkind, htext, ← heq] at hword
  | ident hc hcs hfree =>
    have hword := Spells.word hc hcs fun d hd => (delimiter_stops (hrest d hd)).2.1
    rwa [ofWord_of_free hfree] at hword
  | number hne hdigits hlength hmax =>
    exact .number hne hdigits hlength hmax fun c hc => (delimiter_stops (hrest c hc)).1
  | string h => exact .string h
  | sign h =>
    refine .sign h fun e he hpre => ?_
    rcases sign_cases h with ⟨c, kind', heq⟩ | ⟨c, d, kind', heq⟩ <;> cases heq
    · rcases sign_cases he with ⟨_, _, rfl⟩ | ⟨x, d, kind', rfl⟩
      · exact Nat.le_refl 1
      · obtain ⟨tail, htail⟩ := hpre
        cases htail
        exact absurd he ((delimiter_stops (hrest d rfl)).2.2 _ _)
    · rcases sign_cases he with ⟨_, _, rfl⟩ | ⟨_, _, _, rfl⟩ <;> simp

namespace Tiled

variable {read rest : List Char} {tiles : List (Nat × Token)}

theorem separator {gap : List Char} (hgap : Separator gap) (h : Tiled read (gap ++ rest) tiles) :
    Tiled (read ++ gap) rest tiles := by
  induction hgap generalizing read rest with
  | blank hc => exact h.gap (.blank hc)
  | @comment text htext =>
    rw [List.append_assoc] at h
    have hcomment := h.gap (.comment htext (by simp))
    rw [← List.append_assoc]
    exact hcomment.gap (.blank (by simp))
  | append _ _ ih ih' =>
    rw [List.append_assoc] at h
    rw [← List.append_assoc]
    exact ih' (ih h)

theorem writtenOut {tokens : List (Kind × String)} (hw : WrittenOut tokens rest)
    (h : Tiled read rest tiles) :
    ∃ more, Tiled (read ++ rest) [] (tiles ++ more) ∧ more.map (fun t => (t.2.kind, t.2.text)) = tokens := by
  induction hw generalizing read tiles with
  | nil => exact ⟨[], by simpa using h, rfl⟩
  | @last kind text cs hcs =>
    rw [← List.append_nil cs] at h
    exact ⟨_, h.lexeme (hcs.spells (by simp)), rfl⟩
  | @more kind text cs gap rest next others hcs hgap hrest ih =>
    have hlexeme := h.lexeme (hcs.spells (hgap.starts rest))
    obtain ⟨more, hmore, hfaces⟩ := ih (hlexeme.separator hgap)
    rw [List.append_assoc, List.append_assoc] at hmore
    refine ⟨_, List.append_assoc tiles [_] more ▸ hmore, ?_⟩
    rw [List.map_append, hfaces]
    rfl

end Tiled

theorem exists_written_string (text : String) : ∃ cs, Written .string text cs := by
  have hquoted : ∀ denoted : List Char, ∃ written, Quoted denoted written := by
    intro denoted
    induction denoted with
    | nil => exact ⟨[], .nil⟩
    | cons c denoted ih =>
      obtain ⟨written, hwritten⟩ := ih
      by_cases hc : c = '"' ∨ c = '\\'
      · exact ⟨_, .escape (e := c) (by rcases hc with rfl | rfl <;> decide) hwritten⟩
      · rw [not_or] at hc
        exact ⟨_, .plain hc.1 hc.2 hwritten⟩
  obtain ⟨written, hwritten⟩ := hquoted text.toList
  have hstring := Written.string hwritten
  rw [String.ofList_toList] at hstring
  exact ⟨_, hstring⟩

/-- However tokens are written, the scan gives back their kinds and texts, in order, and then one end
    mark; and no text of a string is beyond writing. -/
theorem scan_writtenOut :
    (∀ text, ∃ cs, Written .string text cs) ∧
      ∀ (tokens : List (Kind × String)) (source : String), WrittenOut tokens source.toList →
        ∃ ts, scan source = .ok ts ∧ ts.map (fun t => (t.kind, t.text)) = tokens ++ [(.eof, "")] := by
  refine ⟨exists_written_string, fun tokens source h => ?_⟩
  obtain ⟨more, hmore, hfaces⟩ := (Tiled.nil source.toList).writtenOut h
  refine ⟨_, scan_of_tiled hmore, ?_⟩
  rw [List.map_append, List.map_map, ← hfaces]
  rfl

/-- A keyword before a word that extends it, a comment that stands for a blank, and a string with the signs of
    a comment, a quote and a raw line feed in it. -/
theorem scan_writtenOut_extended_keyword :
    WrittenOut [(.varWord, "var"), (.ident, "vary"), (.equal, "=="), (.string, "//\"\n\t")]
        "var vary//x\n== \"//\\\"\n\\t\"".toList ∧
      ∃ ts, scan "var vary//x\n== \"//\\\"\n\\t\"" = .ok ts ∧
        ts.map (fun t => (t.kind, t.text)) =
          [(.varWord, "var"), (.ident, "vary"), (.equal, "=="), (.string, "//\"\n\t"), (.eof, "")] := by
  have hstring : Quoted ['/', '/', '"', '\n', '\t'] ['/', '/', '\\', '"', '\n', '\\', 't'] :=
    .plain (by decide) (by decide) <| .plain (by decide) (by decide) <| .escape (by decide) <|
      .plain (by decide) (by decide) <| .escape (by decide) .nil
  have hwritten : WrittenOut
      [(.varWord, "var"), (.ident, "vary"), (.equal, "=="), (.string, "//\"\n\t")]
      "var vary//x\n== \"//\\\"\n\\t\"".toList :=
    .more (.keyword (show ("var", .varWord) ∈ keywords by decide)) (@Separator.blank ' ' (by decide)) <|
      .more (@Written.ident 'v' ['a', 'r', 'y'] (by decide) (List.all_eq_true.1 (by decide)) (by decide))
        (@Separator.comment ['x'] (by simp)) <|
      .more (.sign (show (['=', '='], .equal) ∈ signs by decide)) (@Separator.blank ' ' (by decide)) <|
      .last (.string hstring)
  exact ⟨hwritten, scan_writtenOut.2 _ _ hwritten⟩

end Scripting.Token
