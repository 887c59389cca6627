import Mathlib
import Scripting.Proofs.Grammar.Lockstep

/-!
The parser ends on every list of tokens, whatever stands in it and wherever its end marks are. A run that
may nest as deeply as it likes is never cut off, because every rule takes a token before it can come to
itself again. A bound on nesting does nothing but cut such a run off, and what stands behind the first end
mark is not looked at.
-/

set_option autoImplicit false

namespace Scripting.Grammar

theorem Stream.left_ofTokens_le (tokens : List Token) : (ofTokens tokens).left ≤ tokens.length := by
  rw [left, ahead_ofTokens]
  exact (List.takeWhile_sublist _).length_le

section Programs

variable {tokens tokens' : List Token}

theorem programWithin_lockstep (p : Runs) (depth : Nat)
    (h : (Stream.ofTokens tokens).Alike (.ofTokens tokens'))
    (hr : (Stream.ofTokens tokens).left < min p.rounds p.rounds')
    (hs : depth < 16 * (Stream.ofTokens tokens).left + 15 → p.short) :
    (p.short ∧ ∃ place, programWithin p.rounds depth tokens = .error (.nestingTooDeep place) ∧
      (p.gap = 0 → programWithin p.rounds' (depth + p.gap) tokens' = .error (.nestingTooDeep place))) ∨
    ((∀ place, programWithin p.rounds depth tokens ≠ .error (.nestingTooDeep place)) ∧
      programWithin p.rounds' (depth + p.gap) tokens' = programWithin p.rounds depth tokens) := by
  have hitem := (statement_keep p depth).steady (n := (Stream.ofTokens tokens).left + 1) (by omega)
    fun hd => hs (by omega)
  have hlist := Lockstep.wholeList hitem h (Nat.lt_succ_self _)
    (by omega : (Stream.ofTokens tokens).left < p.rounds)
    (by omega : (Stream.ofTokens tokens).left < p.rounds')
  simp only [programWithin, StateT.run, h.current_eq]
  generalize wholeList (statement p.rounds depth) p.rounds (.ofTokens tokens) = r at hlist ⊢
  generalize wholeList (statement p.rounds' (depth + p.gap)) p.rounds' (.ofTokens tokens') = r' at hlist ⊢
  cases hlist with
  | cut hshort same =>
    refine .inl ⟨hshort, _, rfl, fun hgap => ?_⟩
    rw [same hgap]
    rfl
  | fail he => exact .inr ⟨fun place heq => he place (Except.error.inj heq), rfl⟩
  | read ns hu hlt => exact .inr ⟨fun place heq => (by cases heq), rfl⟩

/-- Under the same allowance programs that look alike are read alike, and rounds beyond the number of
    tokens make no difference: no list of phrases is left for want of rounds. -/
theorem programWithin_eq_of_alike {rounds rounds' : Nat} (depth : Nat)
    (h : (Stream.ofTokens tokens).Alike (.ofTokens tokens'))
    (hr : (Stream.ofTokens tokens).left < rounds) (hr' : (Stream.ofTokens tokens).left < rounds') :
    programWithin rounds' depth tokens' = programWithin rounds depth tokens := by
  rcases programWithin_lockstep ⟨rounds, rounds', 0, True⟩ depth h (lt_min hr hr') fun _ => trivial
    with ⟨-, place, hcut, same⟩ | ⟨-, heq⟩
  · exact (same rfl).trans hcut.symm
  · exact heq

theorem programWithin_eq_program {rounds : Nat} (hr : tokens.length < rounds) (depth : Nat) :
    programWithin rounds depth tokens = program depth tokens := by
  have hl := Stream.left_ofTokens_le tokens
  exact programWithin_eq_of_alike depth (.refl _) (by omega) (by omega)

theorem program_eq_of_alike (depth : Nat) (h : (Stream.ofTokens tokens).Alike (.ofTokens tokens')) :
    program depth tokens' = program depth tokens := by
  have hl := Stream.left_ofTokens_le tokens
  have hl' := Stream.left_ofTokens_le tokens'
  have hleft : (Stream.ofTokens tokens).left = (Stream.ofTokens tokens').left :=
    congrArg List.length h.ahead
  exact programWithin_eq_of_alike depth h (by omega) (by omega)

theorem program_eq_of_le {depth depth' : Nat} (h : depth ≤ depth')
    (hcut : ∀ place, program depth tokens ≠ .error (.nestingTooDeep place)) :
    program depth' tokens = program depth tokens := by
  have hr := Nat.lt_succ_of_le (Stream.left_ofTokens_le tokens)
  obtain ⟨gap, rfl⟩ := Nat.exists_eq_add_of_le h
  rcases programWithin_lockstep ⟨tokens.length + 1, tokens.length + 1, gap, True⟩ depth
      (.refl (.ofTokens tokens)) (lt_min hr hr) fun _ => trivial
    with ⟨-, place, htooDeep, -⟩ | ⟨-, heq⟩
  · exact absurd htooDeep (hcut place)
  · exact heq

/-- Sixteen units for each token, and as many besides, are enough. -/
theorem program_ne_nestingTooDeep {depth : Nat} (h : 16 * (tokens.length + 1) ≤ depth) (place : Position) :
    program depth tokens ≠ .error (.nestingTooDeep place) := by
  have hr := Nat.lt_succ_of_le (Stream.left_ofTokens_le tokens)
  rcases programWithin_lockstep ⟨tokens.length + 1, tokens.length + 1, 0, False⟩ depth
      (.refl (.ofTokens tokens)) (lt_min hr hr) fun hd => (by omega)
    with ⟨hshort, -⟩ | ⟨hne, -⟩
  · exact hshort.elim
  · exact hne place

end Programs

theorem Spans.exists_reads {depth : Nat} {c : Category} {s u : Stream} {n : c.Tree}
    {kinds : List Token.Kind} (h : Spans depth c s n u) (hc : c.starts? = some kinds) :
    ∃ ts, ts ≠ [] ∧ (∀ t ∈ ts, t.kind ≠ .eof) ∧ s.Reads ts u := by
  obtain ⟨ts, hts, d, -⟩ := h
  exact ⟨ts, d.ne_nil hc, hts.ne_eof, hts⟩

/-- The parser comes to one and the same end under every allowance from sixteen units a token on. A phrase
    takes at least one token and no end mark, and what stands behind an end mark makes no difference. -/
theorem parser_halts (tokens : List Token) :
    (∃ result : Except SyntaxError Node,
      ((∃ n, result = .ok n) ∨ ∃ e, (∀ place, e ≠ .nestingTooDeep place) ∧ result = .error e) ∧
      ∀ rounds depth, tokens.length < rounds → 16 * (tokens.length + 1) ≤ depth →
        programWithin rounds depth tokens = result) ∧
    (∀ rounds depth, tokens.length < rounds →
      programWithin rounds depth tokens = program depth tokens) ∧
    (∀ rounds depth s n u,
      statement rounds depth s = .ok (n, u) ∨ expression rounds depth s = .ok (n, u) →
        ∃ ts, ts ≠ [] ∧ (∀ t ∈ ts, t.kind ≠ .eof) ∧ s.Reads ts u) ∧
    (∀ body mark later, mark.kind = .eof → tokens = body ++ mark :: later →
      ∀ depth later', program depth (body ++ mark :: later') = program depth tokens) := by
  refine ⟨⟨program (16 * (tokens.length + 1)) tokens, ?_, ?_⟩, ?_, ?_, ?_⟩
  · have hne := program_ne_nestingTooDeep (le_refl (16 * (tokens.length + 1)))
    cases hresult : program (16 * (tokens.length + 1)) tokens with
    | ok n => exact .inl ⟨n, rfl⟩
    | error e => exact .inr ⟨e, fun place he => hne place (by rw [hresult, he]), rfl⟩
  · intro rounds depth hr hd
    rw [programWithin_eq_program hr]
    exact program_eq_of_le hd (program_ne_nestingTooDeep (le_refl _))
  · intro rounds depth hr
    exact programWithin_eq_program hr depth
  · rintro rounds depth s n u (h | h)
    · obtain ⟨o, hspan, -⟩ := statement_sound h
      exact hspan.exists_reads rfl
    · exact ((expressionsSound rounds depth).expression h).exists_reads rfl
  · rintro body mark later hmark rfl depth later'
    exact program_eq_of_alike depth (Stream.alike_ofTokens_append body later later' hmark)

theorem parser_halts_before_stray_sign :
    ∃ n, (∀ rounds depth, 4 < rounds → 80 ≤ depth →
        programWithin rounds depth [⟨.number, "1", ⟨1, 1⟩⟩, ⟨.semicolon, ";", ⟨1, 2⟩⟩, .endMark ⟨1, 3⟩,
          ⟨.rightParen, ")", ⟨1, 4⟩⟩] = .ok n) ∧
      ∀ depth later, 80 ≤ depth →
        program depth ([⟨.number, "1", ⟨1, 1⟩⟩, ⟨.semicolon, ";", ⟨1, 2⟩⟩] ++ .endMark ⟨1, 3⟩ :: later) =
          .ok n := by
  obtain ⟨⟨result, -, hend⟩, hrounds, -, hlater⟩ := parser_halts [⟨.number, "1", ⟨1, 1⟩⟩,
    ⟨.semicolon, ";", ⟨1, 2⟩⟩, .endMark ⟨1, 3⟩, ⟨.rightParen, ")", ⟨1, 4⟩⟩]
  obtain ⟨n, hn⟩ : ∃ n, programWithin 5 80 [⟨.number, "1", ⟨1, 1⟩⟩, ⟨.semicolon, ";", ⟨1, 2⟩⟩,
      .endMark ⟨1, 3⟩, ⟨.rightParen, ")", ⟨1, 4⟩⟩] = .ok n := ⟨_, rfl⟩
  obtain rfl : result = .ok n := (hend 5 80 (by decide) (by decide)).symm.trans hn
  refine ⟨n, fun rounds depth hr hd => hend rounds depth hr hd, fun depth later hd => ?_⟩
  rw [hlater [⟨.number, "1", ⟨1, 1⟩⟩, ⟨.semicolon, ";", ⟨1, 2⟩⟩] (.endMark ⟨1, 3⟩) _ rfl rfl]
  exact (hrounds 5 depth (by decide)).symm.trans (hend 5 depth (by decide) hd)

/-- Under the lower of two allowances the parser gives what it gives under the higher one, unless it is cut
    off. Every list of tokens has a height from which on there is one result. -/
theorem nesting_limit_only_cuts (tokens : List Token) {depth depth' : Nat} (h : depth ≤ depth') :
    ((∃ place, program depth tokens = .error (.nestingTooDeep place)) ∨
      program depth tokens = program depth' tokens) ∧
    (∀ n, program depth tokens = .ok n → program depth' tokens = .ok n) ∧
    (∀ e, (∀ place, e ≠ .nestingTooDeep place) → program depth tokens = .error e →
      program depth' tokens = .error e) ∧
    (∃ height result, height ≤ 16 * (tokens.length + 1) ∧
      (∀ place, result ≠ .error (.nestingTooDeep place)) ∧
      (∀ depth, height ≤ depth → program depth tokens = result) ∧
      ∀ depth, depth < height → ∃ place, program depth tokens = .error (.nestingTooDeep place)) := by
  have hraise {result : Except SyntaxError Node} (hne : ∀ place, result ≠ .error (.nestingTooDeep place))
      (hp : program depth tokens = result) : program depth' tokens = result := by
    rw [program_eq_of_le h (hp ▸ hne), hp]
  refine ⟨?_, fun n => hraise (by simp), fun e he => hraise fun place heq => he place (Except.error.inj heq), ?_⟩
  · by_cases hcut : ∃ place, program depth tokens = .error (.nestingTooDeep place)
    · exact .inl hcut
    · exact .inr (program_eq_of_le h (not_exists.1 hcut)).symm
  · classical
    have hexists : ∃ depth, ∀ place, program depth tokens ≠ .error (.nestingTooDeep place) :=
      ⟨_, program_ne_nestingTooDeep (le_refl _)⟩
    refine ⟨Nat.find hexists, program (Nat.find hexists) tokens,
      Nat.find_min' hexists (program_ne_nestingTooDeep (le_refl _)), Nat.find_spec hexists, ?_, ?_⟩
    · exact fun d hd => program_eq_of_le hd (Nat.find_spec hexists)
    · intro d hd
      simpa only [not_forall, not_not] using Nat.find_min hexists hd

/-- Two pairs of parentheses do not fit under forty units. They fit under forty-one, and then under all
    above. -/
theorem nesting_limit_only_cuts_parentheses :
    ∃ n, [40, 41, 950].map (fun depth => program depth
        [⟨.leftParen, "(", ⟨1, 1⟩⟩, ⟨.leftParen, "(", ⟨1, 2⟩⟩, ⟨.number, "1", ⟨1, 3⟩⟩,
          ⟨.rightParen, ")", ⟨1, 4⟩⟩, ⟨.rightParen, ")", ⟨1, 5⟩⟩, ⟨.semicolon, ";", ⟨1, 6⟩⟩,
          .endMark ⟨1, 7⟩]) =
      [.error (.nestingTooDeep ⟨1, 3⟩), .ok n, .ok n] := by
  obtain ⟨n, hn⟩ : ∃ n, program 41 [⟨.leftParen, "(", ⟨1, 1⟩⟩, ⟨.leftParen, "(", ⟨1, 2⟩⟩,
      ⟨.number, "1", ⟨1, 3⟩⟩, ⟨.rightParen, ")", ⟨1, 4⟩⟩, ⟨.rightParen, ")", ⟨1, 5⟩⟩,
      ⟨.semicolon, ";", ⟨1, 6⟩⟩, .endMark ⟨1, 7⟩] = .ok n := ⟨_, rfl⟩
  have hlimit := (nesting_limit_only_cuts _ (show 41 ≤ 950 by decide)).2.1 n hn
  refine ⟨n, ?_⟩
  simp only [List.map_cons, List.map_nil, hn, hlimit]
  rfl

end Scripting.Grammar
