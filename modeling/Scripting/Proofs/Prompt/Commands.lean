import Mathlib.Data.List.TakeWhile
import Scripting.Prompt.Session
import Scripting.Proofs.Token.Tiling

/-!
Which texts the prompt takes for a command. A command starts with a slash behind white space, and so does a
comment; no other text that can be scanned does. A text that starts with a comment is taken for a command
that is not known.
-/

set_option autoImplicit false

namespace Scripting

namespace Text

/-! White space and what tokens start with. -/

theorem any_holds_of_disjoint {spans others : List Span} {c : Char}
    (hdisjoint : ∀ a ∈ spans, ∀ b ∈ others, a.2 < b.1 ∨ b.2 < a.1) (h : spans.any (·.holds c)) :
    others.any (·.holds c) = false := by
  obtain ⟨a, ha, hc⟩ := List.any_eq_true.1 h
  refine List.any_eq_false.2 fun b hb hc' => ?_
  have hmeet := hdisjoint a ha b hb
  simp only [Span.holds, Bool.and_eq_true, decide_eq_true_eq] at hc hc'
  omega

theorem isBlank_of_isLetter {c : Char} (h : isLetter c) : isBlank c = false := by
  unfold isLetter at h
  split at h
  · have hrange : (65 ≤ c.toNat ∧ c.toNat ≤ 90) ∨ (97 ≤ c.toNat ∧ c.toNat ≤ 122) := by
      rcases Bool.or_eq_true_iff.1 h with hupper | hlower
      · exact .inl (of_decide_eq_true hupper)
      · exact .inr ((Bool.and_eq_true_iff.1 hlower).imp of_decide_eq_true of_decide_eq_true)
    exact isBlank_of_toNat (by omega) (by omega)
  · exact any_holds_of_disjoint (by decide +kernel) h

theorem prefix_trimWhile {p : Char → Bool} {cs first rest : List Char} {c : Char}
    (h : cs.dropWhile p = first ++ c :: rest) (hc : p c = false) : first ++ [c] <+: trimWhile p cs := by
  have hkeep (ds : List Char) : ∃ es, (ds ++ c :: first.reverse).dropWhile p = es ++ c :: first.reverse := by
    induction ds with
    | nil => exact ⟨[], List.dropWhile_cons_of_neg (by simp [hc])⟩
    | cons d ds ih =>
      rw [List.cons_append, List.dropWhile_cons]
      split
      · exact ih
      · exact ⟨d :: ds, rfl⟩
  obtain ⟨es, hes⟩ := hkeep rest.reverse
  have hreverse : (first ++ c :: rest).reverse = rest.reverse ++ c :: first.reverse := by simp
  refine ⟨es.reverse, ?_⟩
  rw [trimWhile, h, hreverse, hes]
  simp

theorem head?_trimWhile (p : Char → Bool) (cs : List Char) :
    (trimWhile p cs).head? = (cs.dropWhile p).head? := by
  cases h : cs.dropWhile p with
  | nil => simp [trimWhile, h]
  | cons c rest =>
    have hc : p c = false := by
      have hnot := List.head?_dropWhile_not p cs
      rw [h] at hnot
      simpa using hnot
    obtain ⟨more, hmore⟩ := prefix_trimWhile (show cs.dropWhile p = [] ++ c :: rest from h) hc
    rw [← hmore]
    rfl

end Text

namespace Token

def isSpace (c : Char) : Bool :=
  c ∈ [' ', '\t', '\r', '\n']

theorem isBlank_of_isSpace {c : Char} (h : isSpace c) : Text.isBlank c := by
  simp only [isSpace, List.mem_cons, List.not_mem_nil, or_false, decide_eq_true_eq] at h
  rcases h with rfl | rfl | rfl | rfl <;> decide

/-- Blanks apart, the text starts with a comment. -/
def startsWithComment (cs : List Char) : Bool :=
  ['/', '/'].isPrefixOf (cs.dropWhile isSpace)

theorem Spells.start {c : Char} {cs rest : List Char} {kind : Kind} {text : String}
    (h : Spells (c :: cs) rest kind text) : Text.isBlank c = false ∧ c ≠ '/' := by
  cases h with
  | string => decide
  | number _ hdigits =>
    have hdigit := hdigits c List.mem_cons_self
    refine ⟨Text.isBlank_of_isDigit hdigit, ?_⟩
    rintro rfl
    cases hdigit
  | word hc =>
    refine ⟨?_, ?_⟩
    · simp only [startsWord, Bool.or_eq_true, beq_iff_eq] at hc
      rcases hc with hletter | rfl
      · exact Text.isBlank_of_isLetter hletter
      · decide
    · rintro rfl
      exact absurd hc (by decide)
  | sign hsign =>
    have hall : ∀ e ∈ signs, e.1.head?.all fun c => !Text.isBlank c && c != '/' := by decide
    simpa using (Option.all_eq_true _ _).1 (hall _ hsign) c rfl

theorem opening_of_blanks {blanks : List Char} {c : Char} (hblanks : ∀ d ∈ blanks, isSpace d)
    (hc : Text.isBlank c = false) (more : List Char) :
    (blanks ++ c :: more).dropWhile Text.isBlank = c :: more ∧
      (startsWithComment (blanks ++ c :: more) ↔ ['/', '/'] <+: c :: more) := by
  constructor
  · rw [List.dropWhile_append_of_pos fun d hd => isBlank_of_isSpace (hblanks d hd)]
    exact List.dropWhile_cons_of_neg (by simp [hc])
  · have hstop : ¬isSpace c := by
      intro hspace
      rw [isBlank_of_isSpace hspace] at hc
      cases hc
    rw [startsWithComment, List.dropWhile_append_of_pos hblanks, List.dropWhile_cons_of_neg hstop]
    exact List.isPrefixOf_iff_prefix

/-- What has been read consists of blanks, or it is settled whether the text starts with a comment. -/
theorem Tiled.opening {read rest : List Char} {tiles : List (Nat × Token)} (h : Tiled read rest tiles) :
    (∀ c ∈ read, isSpace c) ∨
      (((read ++ rest).dropWhile Text.isBlank).head? = some '/' ↔ startsWithComment (read ++ rest)) := by
  induction h with
  | nil rest => exact .inl (List.forall_mem_nil _)
  | @gap read cs rest tiles _ hgap ih =>
    rcases ih with hblanks | hknown
    · cases hgap with
      | @blank c _ hc =>
        have hspace : isSpace c := decide_eq_true hc
        exact .inl (List.forall_mem_append.2 ⟨hblanks, List.forall_mem_singleton.2 hspace⟩)
      | @comment text =>
        obtain ⟨hwhite, hcomment⟩ :=
          opening_of_blanks (c := '/') hblanks (by decide) ('/' :: text ++ rest)
        rw [List.append_assoc]
        exact .inr (iff_of_true (congrArg List.head? hwhite) (hcomment.2 ⟨text ++ rest, rfl⟩))
    · rw [List.append_assoc]
      exact .inr hknown
  | @lexeme read cs rest tiles kind text _ hspells ih =>
    rw [List.append_assoc]
    refine .inr (ih.elim (fun hblanks => ?_) id)
    cases cs with
    | nil => exact absurd rfl hspells.ne_nil
    | cons c cs =>
      obtain ⟨hblank, hslash⟩ := hspells.start
      obtain ⟨hwhite, hcomment⟩ := opening_of_blanks hblanks hblank (cs ++ rest)
      refine iff_of_false (fun hhead => ?_) fun h => ?_
      · rw [List.cons_append, hwhite] at hhead
        exact hslash (Option.some.inj hhead)
      · exact hslash (List.cons_prefix_cons.1 (hcomment.1 h)).1.symm

end Token

namespace Prompt

theorem isCommand_of_scan {text : String} {tokens : List Token} (h : Token.scan text = .ok tokens) :
    isCommand text = Token.startsWithComment text.toList := by
  obtain ⟨tiles, ht, -⟩ := Token.scan_eq_ok_iff.1 h
  have hhead : (Text.trim text.toList).head? = (text.toList.dropWhile Text.isBlank).head? :=
    Text.head?_trimWhile Text.isBlank text.toList
  rw [isCommand, hhead, Bool.eq_iff_iff, decide_eq_true_iff]
  rcases ht.opening with hblanks | hknown
  · have hwhite : text.toList.dropWhile Text.isBlank = [] :=
      List.dropWhile_eq_nil_iff.2 fun c hc => Token.isBlank_of_isSpace (hblanks c hc)
    rw [hwhite, Token.startsWithComment, List.dropWhile_eq_nil_iff.2 hblanks]
    exact iff_of_false (by simp) (by simp)
  · rwa [List.append_nil] at hknown

def commandWord (text : String) : String :=
  String.ofList (Text.firstWord (Text.trim text.toList)).1

theorem trim_of_comment {cs : List Char} (h : Token.startsWithComment cs) :
    ∃ more, Text.trim cs = '/' :: '/' :: more := by
  obtain ⟨rest, hrest⟩ := List.isPrefixOf_iff_prefix.1 h
  have hsplit : cs = cs.takeWhile Token.isSpace ++ '/' :: '/' :: rest := by
    change cs = _ ++ (['/', '/'] ++ rest)
    rw [hrest, List.takeWhile_append_dropWhile]
  have hspaces : ∀ c ∈ cs.takeWhile Token.isSpace, Token.isSpace c :=
    List.all_eq_true.1 List.all_takeWhile
  have hwhite := (Token.opening_of_blanks (c := '/') hspaces (by decide) ('/' :: rest)).1
  rw [← hsplit] at hwhite
  obtain ⟨more, hmore⟩ := Text.prefix_trimWhile (show _ = ['/'] ++ '/' :: rest from hwhite) (by decide)
  exact ⟨more, hmore.symm⟩

namespace Session

theorem command?_of_comment (p : Session) {text : String} (h : Token.startsWithComment text.toList) :
    p.command? text = some (p, .complaint s!"Unknown command: {commandWord text}") := by
  obtain ⟨more, hmore⟩ := trim_of_comment h
  have hcommand : isCommand text = true := by
    rw [isCommand, hmore]
    rfl
  have hword : commandWord text = String.ofList ('/' :: '/' :: more.takeWhile fun c => !Text.isBlank c) := by
    rw [commandWord, hmore]
    rfl
  have hknown (name : String) (hname : name.toList.take 2 ≠ ['/', '/']) : commandWord text ≠ name := by
    rintro rfl
    rw [hword, String.toList_ofList] at hname
    exact hname rfl
  rw [command?, if_pos hcommand]
  dsimp only
  split
  · exact absurd ‹_› (hknown "/clear" (by decide))
  · exact absurd ‹_› (hknown "/py-traceback" (by decide))
  · exact absurd ‹_› (hknown "/reset" (by decide))
  · rfl

end Session

end Prompt

end Scripting
