import Mathlib
import Scripting.Prompt.Input
import Scripting.Proofs.Grammar.Brackets
import Scripting.Proofs.Grammar.Places

/-!
When the Enter key hands in a program. The prompt counts brackets without a look at their kinds, and the
grammar knows nothing of the count; still a program that is accepted is never held back, and none is handed
in before all its brackets are closed.
-/

set_option autoImplicit false

namespace Scripting

/-! A text that is cut behind a gap or a lexeme. -/

namespace Token

section Cut

variable {cs rest rest' : List Char}

theorem head_of_isPrefix {p : Char → Prop} (h : ∀ c ∈ rest.head?, p c) (hcut : rest' <+: rest) :
    ∀ c ∈ rest'.head?, p c := by
  intro c hc
  obtain ⟨tail, rfl⟩ := List.head?_eq_some_iff.1 hc
  obtain ⟨more, rfl⟩ := hcut
  exact h c rfl

theorem Gap.cut (h : Gap cs rest) (hcut : rest' <+: rest) : Gap cs rest' := by
  cases h with
  | blank h => exact .blank h
  | comment htext stop => exact .comment htext (head_of_isPrefix stop hcut)

theorem Spells.cut {kind : Kind} {text : String} (h : Spells cs rest kind text) (hcut : rest' <+: rest) :
    Spells cs rest' kind text := by
  cases h with
  | string h => exact .string h
  | number hne hdigits hlength hmax stop =>
    exact .number hne hdigits hlength hmax (head_of_isPrefix stop hcut)
  | word hc hcs stop => exact .word hc hcs (head_of_isPrefix stop hcut)
  | sign h longest =>
    apply Spells.sign h
    intro e he hpre
    exact longest e he (hpre.trans ((List.prefix_append_right_inj cs).2 hcut))

end Cut

/-- What was read does not depend on how much of the text is left. -/
theorem Tiled.cut {read rest rest' : List Char} {tiles : List (Nat × Token)} (h : Tiled read rest tiles)
    (hcut : rest' <+: rest) : Tiled read rest' tiles := by
  induction h generalizing rest' with
  | nil => exact .nil rest'
  | @gap read cs rest tiles _ hgap ih =>
    have hread := ih ((List.prefix_append_right_inj cs).2 hcut)
    exact hread.gap (hgap.cut hcut)
  | @lexeme read cs rest tiles kind text _ hspells ih =>
    have hread := ih ((List.prefix_append_right_inj cs).2 hcut)
    exact hread.lexeme (hspells.cut hcut)

theorem prefix_of_scanFrom {p : Position} {seen tokens : List Token} {cs : List Char}
    (h : scanFrom p seen cs = .ok tokens) : seen.reverse <+: tokens := by
  fun_induction scanFrom p seen cs with
  | case1 p seen =>
    cases h
    rw [List.reverse_cons]
    exact List.prefix_append _ _
  | case2 => cases h
  | case3 p seen c cs piece hpiece seen' ih =>
    have hmore := ih h
    cases htoken : piece.token? with
    | none =>
      have hsame : seen' = seen := by simp only [seen', htoken]
      rwa [hsame] at hmore
    | some token =>
      have hnext : seen' = ⟨token.1, token.2, p⟩ :: seen := by simp only [seen', htoken]
      rw [hnext, List.reverse_cons] at hmore
      exact (List.prefix_append _ _).trans hmore

theorem Tiled.prefix_of_scan {source : String} {read rest : List Char} {tiles : List (Nat × Token)}
    {tokens : List Token} (hsource : source.toList = read ++ rest) (h : Tiled read rest tiles)
    (hscan : scan source = .ok tokens) : tiles.map (·.2) <+: tokens := by
  rw [scan, hsource, h.scanFrom_eq] at hscan
  have hprefix := prefix_of_scanFrom hscan
  rwa [List.reverse_reverse] at hprefix

end Token

namespace Prompt

open Token (Bracket)

/-! The count and the brackets. -/

/-- Where brackets match, the count is the number of those that are open. -/
theorem bracketDepth_eq {stack inner : List Bracket} {kind : Token.Kind}
    (h : Bracket.after stack kind = some inner) : bracketDepth stack.length kind = inner.length := by
  unfold Bracket.after at h
  cases hopen : Bracket.opened? kind with
  | some b =>
    rw [hopen] at h
    cases h
    cases kind <;> first | rfl | cases hopen
  | none =>
    rw [hopen] at h
    cases hclose : Bracket.closed? kind with
    | none =>
      rw [hclose] at h
      cases h
      cases kind <;> first | rfl | exact absurd hopen (by decide) | exact absurd hclose (by decide)
    | some b =>
      simp only [hclose, Option.ite_none_right_eq_some, Option.some.injEq] at h
      obtain ⟨-, rfl⟩ := h
      rw [List.length_tail]
      cases kind <;> first | rfl | cases hclose

theorem foldl_bracketDepth_eq {stack inner : List Bracket} {kinds : List Token.Kind}
    (h : Bracket.afterAll stack kinds = some inner) :
    kinds.foldl bracketDepth stack.length = inner.length := by
  induction kinds generalizing stack with
  | nil =>
    cases h
    rfl
  | cons kind kinds ih =>
    rw [Bracket.afterAll_cons] at h
    obtain ⟨next, hnext, hrest⟩ := Option.bind_eq_some_iff.1 h
    rw [List.foldl_cons, bracketDepth_eq hnext]
    exact ih hrest

theorem unfinished_of_open {inner : List Bracket} {kinds : List Token.Kind}
    (h : Bracket.afterAll [] kinds = some inner) (hopen : inner ≠ []) : unfinished kinds = true := by
  have hdepth : kinds.foldl bracketDepth 0 = inner.length := foldl_bracketDepth_eq h
  have hpos : 0 < inner.length := List.length_pos_iff.2 hopen
  rw [unfinished, hdepth, decide_eq_true hpos, Bool.true_or]

theorem unfinished_of_closed {kinds : List Token.Kind} (h : Bracket.afterAll [] kinds = some [])
    (hlast : ∀ kind ∈ kinds.getLast?, kind = .semicolon ∨ kind = .rightBrace) :
    unfinished kinds = false := by
  have hdepth : kinds.foldl bracketDepth 0 = 0 := foldl_bracketDepth_eq h
  rw [unfinished, hdepth]
  cases hkind : kinds.getLast? with
  | none => rfl
  | some kind => rcases hlast kind hkind with rfl | rfl <;> rfl

theorem isIncomplete_of_tiled {text : String} {tiles : List (Nat × Token)}
    (h : Token.Tiled text.toList [] tiles) :
    isIncomplete text = .ok (unfinished ((tiles.map (·.2)).map (·.kind))) := by
  have hkinds : (((tiles.map (·.2)) ++ [Token.endMark (.behind text.toList)]).map (·.kind)).takeWhile
      (· ≠ .eof) = (tiles.map (·.2)).map (·.kind) := by
    rw [List.map_append]
    apply Token.takeWhile_eq_of_stop
    · intro kind hkind
      obtain ⟨t, ht, rfl⟩ := List.mem_map.1 hkind
      exact decide_eq_true (h.kind_ne_eof t ht)
    · rintro _ ⟨⟩
      rfl
  rw [isIncomplete, Token.scan_of_tiled h]
  dsimp only
  rw [hkinds]

/-- A text that is accepted can be handed in. Cut behind a token, a blank or a comment, its brackets match up
    to there, and more input is asked for as long as one is open. -/
theorem accepted_text_handed_in [Host] {source : String} {n : Node} (h : Program.parse source = .ok n) :
    isIncomplete source = .ok false ∧
      ∀ (cut : String) (rest : List Char) (tiles : List (Nat × Token)),
        source.toList = cut.toList ++ rest → Token.Tiled cut.toList rest tiles →
        ∃ inner, Bracket.afterAll [] ((tiles.map (·.2)).map (·.kind)) = some inner ∧
          (inner ≠ [] → isIncomplete cut = .ok true) := by
  obtain ⟨all, ns, hall, ⟨d, -⟩, -⟩ := Program.parse_eq_ok_iff.1 h
  have hclosed : Bracket.afterAll [] ((all.map (·.2)).map (·.kind)) = some [] := d.brackets []
  constructor
  · rw [isIncomplete_of_tiled hall, unfinished_of_closed hclosed]
    intro kind hkind
    rw [List.getLast?_map] at hkind
    obtain ⟨t, ht, rfl⟩ := Option.map_eq_some_iff.1 hkind
    exact d.statements_end t ht
  · intro cut rest tiles hsource ht
    obtain ⟨more, hmore⟩ := Token.Tiled.prefix_of_scan hsource ht (Token.scan_of_tiled hall)
    -- the end mark is no bracket
    have hwhole : Bracket.afterAll [] ((tiles.map (·.2) ++ more).map (·.kind)) = some [] := by
      rw [hmore, List.map_append, Bracket.afterAll_append, hclosed]
      rfl
    rw [List.map_append] at hwhole
    obtain ⟨inner, hinner⟩ := Bracket.exists_afterAll_of_append hwhole
    refine ⟨inner, hinner, fun hopen => ?_⟩
    rw [isIncomplete_of_tiled (ht.cut List.nil_prefix), unfinished_of_open hinner hopen]

/-- A brace in a string and a parenthesis in a comment are no brackets. -/
theorem accepted_text_handed_in_after_string :
    ∃ n tiles, Program.parse "f( [\"\x7d\"]); // (" = .ok n ∧
      isIncomplete "f( [\"\x7d\"]); // (" = .ok false ∧
      Token.Tiled "f( [\"\x7d\"".toList "]); // (".toList tiles ∧
      Bracket.afterAll [] ((tiles.map (·.2)).map (·.kind)) = some [.square, .paren] ∧
      isIncomplete "f( [\"\x7d\"" = .ok true := by
  obtain ⟨n, hn⟩ : ∃ n, Program.parse "f( [\"\x7d\"]); // (" = .ok n := ⟨_, by cbv⟩
  have hname : Token.Spells ['f'] "( [\"\x7d\"]); // (".toList .ident "f" :=
    .word (by decide) (by simp) (by rintro _ ⟨⟩; decide)
  have hparen : Token.Spells ['('] " [\"\x7d\"]); // (".toList .leftParen "(" :=
    .sign (by decide) (by decide)
  have hsquare : Token.Spells ['['] "\"\x7d\"]); // (".toList .leftSquare "[" :=
    .sign (by decide) (by decide)
  have hstring : Token.Spells "\"\x7d\"".toList "]); // (".toList .string "\x7d" :=
    .string (.plain (by decide) (by decide) .nil)
  have htiled : Token.Tiled "f( [\"\x7d\"".toList "]); // (".toList _ :=
    (((((Token.Tiled.nil _).lexeme hname).lexeme hparen).gap (.blank (c := ' ') (by decide))).lexeme
      hsquare).lexeme hstring
  obtain ⟨hwhole, hcut⟩ := accepted_text_handed_in hn
  obtain ⟨inner, hinner, hmore⟩ := hcut _ _ _ (by decide) htiled
  have hopen : inner = [.square, .paren] := Option.some.inj (hinner.symm.trans (by decide))
  exact ⟨n, _, hn, hwhole, htiled, hopen ▸ hinner, hmore (by simp [hopen])⟩

end Prompt

end Scripting
