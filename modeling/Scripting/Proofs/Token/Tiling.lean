import Scripting.Proofs.Token.Legible

/-!
What a scan finds in a text. Blanks, comments and lexemes cover the text without a hole up to its end or to
the first character that starts none of them, and each token stands where its lexeme starts. The lines and
columns that the scanner keeps are those one gets by counting.
-/

set_option autoImplicit false

namespace Scripting

/-! Positions by counting. -/

/-- The position behind a text: one line for each line feed, and one column for each character since the
    last of them. -/
def Position.behind (text : List Char) : Position :=
  ⟨1 + text.count '\n', 1 + (text.reverse.takeWhile (· ≠ '\n')).length⟩

namespace Position

theorem behind_snoc (text : List Char) (c : Char) : behind (text ++ [c]) = (behind text).next c := by
  unfold behind next
  rw [List.count_append, List.reverse_append, List.reverse_singleton, List.singleton_append]
  by_cases hc : c = '\n'
  · subst hc
    rfl
  · rw [if_neg hc, List.count_singleton, List.takeWhile_cons_of_pos (by simpa using hc)]
    simp [hc, Nat.add_comm]

theorem behind_append (text cs : List Char) : behind (text ++ cs) = (behind text).after cs := by
  induction cs generalizing text with
  | nil => rw [List.append_nil]; rfl
  | cons c cs ih => rw [List.append_cons, ih, behind_snoc]; rfl

end Position

namespace Token

/-! The spelling of tokens. -/

def escapes : List (Char × Char) :=
  [('n', '\n'), ('t', '\t'), ('"', '"'), ('\\', '\\')]

theorem escape?_eq_some_iff {e c : Char} : escape? e = some c ↔ (e, c) ∈ escapes := by
  constructor
  · intro h
    unfold escape? at h
    split at h <;> cases h <;> decide
  · intro h
    simp only [escapes, List.mem_cons, Prod.mk.injEq, List.not_mem_nil, or_false] at h
    rcases h with ⟨rfl, rfl⟩ | ⟨rfl, rfl⟩ | ⟨rfl, rfl⟩ | ⟨rfl, rfl⟩ <;> rfl

/-- The second text, between quotes, denotes the first one. -/
inductive Quoted : List Char → List Char → Prop where
  | nil : Quoted [] []
  | escape {e c : Char} {denoted written : List Char} (h : (e, c) ∈ escapes)
      (more : Quoted denoted written) : Quoted (c :: denoted) ('\\' :: e :: written)
  | plain {c : Char} {denoted written : List Char} (hquote : c ≠ '"') (hslash : c ≠ '\\')
      (more : Quoted denoted written) : Quoted (c :: denoted) (c :: written)

def signs : List (List Char × Kind) :=
  [(['=', '='], .equal), (['!', '='], .notEqual), (['<', '='], .lessEqual),
   (['>', '='], .greaterEqual), (['+'], .plus), (['-'], .minus), (['*'], .star), (['<'], .less),
   (['>'], .greater), (['='], .assign), (['('], .leftParen), ([')'], .rightParen),
   (['['], .leftSquare), ([']'], .rightSquare), (['{'], .leftBrace), (['}'], .rightBrace),
   (['.'], .dot), ([','], .comma), ([':'], .colon), ([';'], .semicolon)]

def numeral (digits : List Char) : Nat :=
  Text.ofDigits (digits.map fun d => d.toNat - '0'.toNat)

/-- The first text is the lexeme of a token of the given kind and text where the second one follows. A word
    or a number goes as far as it can, and of the signs that stand there the longest counts. -/
inductive Spells : List Char → List Char → Kind → String → Prop where
  | string {denoted written rest : List Char} (h : Quoted denoted written) :
      Spells ('"' :: written ++ ['"']) rest .string (String.ofList denoted)
  | number {digits rest : List Char} (hne : digits ≠ []) (hdigits : ∀ d ∈ digits, d.isDigit)
      (hlength : digits.length ≤ Text.maxDigits) (hmax : numeral digits ≤ maxNumber)
      (stop : ∀ c ∈ rest.head?, c.isDigit = false) :
      Spells digits rest .number (String.ofList digits)
  | word {c : Char} {cs rest : List Char} (hc : startsWord c) (hcs : ∀ d ∈ cs, continuesWord d)
      (stop : ∀ d ∈ rest.head?, continuesWord d = false) :
      Spells (c :: cs) rest (.ofWord (String.ofList (c :: cs))) (String.ofList (c :: cs))
  | sign {cs rest : List Char} {kind : Kind} (h : (cs, kind) ∈ signs)
      (longest : ∀ e ∈ signs, e.1 <+: cs ++ rest → e.1.length ≤ cs.length) :
      Spells cs rest kind (String.ofList cs)

/-- The first text is a blank, or a comment where the second one follows. A comment goes up to the end of
    its line. -/
inductive Gap : List Char → List Char → Prop where
  | blank {c : Char} {rest : List Char} (h : c ∈ [' ', '\t', '\r', '\n']) : Gap [c] rest
  | comment {text rest : List Char} (htext : ∀ c ∈ text, c ≠ '\n' ∧ c ≠ '\x00')
      (stop : ∀ c ∈ rest.head?, c = '\n' ∨ c = '\x00') : Gap ('/' :: '/' :: text) rest

/-- The first text consists of gaps and lexemes where the second one follows. The tokens of the lexemes are
    listed with the offsets of these. -/
inductive Tiled : List Char → List Char → List (Nat × Token) → Prop where
  | nil (rest : List Char) : Tiled [] rest []
  | gap {read cs rest : List Char} {tiles : List (Nat × Token)} (h : Tiled read (cs ++ rest) tiles)
      (hgap : Gap cs rest) : Tiled (read ++ cs) rest tiles
  | lexeme {read cs rest : List Char} {tiles : List (Nat × Token)} {kind : Kind} {text : String}
      (h : Tiled read (cs ++ rest) tiles) (hspells : Spells cs rest kind text) :
      Tiled (read ++ cs) rest (tiles ++ [(read.length, ⟨kind, text, .behind read⟩)])

/-- Nothing that the second text, which stands behind the first one, starts with is a gap or a lexeme. The
    error tells why, and where. -/
inductive Faulty (read : List Char) : List Char → ScanError → Prop where
  | character {c : Char} {rest : List Char} (hblank : c ∉ [' ', '\t', '\r', '\n'])
      (hcomment : ¬['/', '/'] <+: c :: rest) (hquote : c ≠ '"') (hdigit : c.isDigit = false)
      (hword : startsWord c = false) (hsign : ∀ e ∈ signs, ¬e.1 <+: c :: rest) :
      Faulty read (c :: rest) (.unexpectedCharacter c (.behind read))
  /-- Behind the last character of a text a NUL is seen. -/
  | escape {denoted written rest : List Char} (h : Quoted denoted written)
      (hescape : ∀ c, (rest.headD '\x00', c) ∉ escapes) :
      Faulty read ('"' :: written ++ '\\' :: rest)
        (.unknownEscape (rest.headD '\x00') (.behind (read ++ '"' :: written)))
  | unterminated {denoted written : List Char} (h : Quoted denoted written) :
      Faulty read ('"' :: written) (.unterminatedString (Position.behind read).line)
  | number {digits rest : List Char} (hne : digits ≠ []) (hdigits : ∀ d ∈ digits, d.isDigit)
      (hlength : digits.length ≤ Text.maxDigits) (hmax : maxNumber < numeral digits)
      (stop : ∀ c ∈ rest.head?, c.isDigit = false) :
      Faulty read (digits ++ rest) (.numberOutOfRange (String.ofList digits) (.behind read))
  | numeral {digits rest : List Char} (hdigits : ∀ d ∈ digits, d.isDigit)
      (hlength : Text.maxDigits < digits.length) (stop : ∀ c ∈ rest.head?, c.isDigit = false) :
      Faulty read (digits ++ rest) .tooManyDigits

/-! Strings. -/

namespace Piece

theorem inString_append {denoted written : List Char} (h : Quoted denoted written) (line : Nat)
    (p : Position) (cs : List Char) :
    inString line p (written ++ cs) =
      (inString line (p.after written) cs).map fun r => (denoted ++ r.1, written ++ r.2) := by
  induction h generalizing p with
  | nil =>
    change inString line p cs = (inString line p cs).map fun r => r
    cases inString line p cs <;> rfl
  | @escape e _ _ written he _ ih =>
    rw [List.cons_append, List.cons_append, inString, escape?_eq_some_iff.2 he]
    dsimp only
    rw [ih, ← Position.after_append]
    change Except.map _ (Except.map _ (inString line (p.after ('\\' :: e :: written)) cs)) = _
    cases inString line (p.after ('\\' :: e :: written)) cs <;> rfl
  | @plain c _ _ hquote hslash _ ih =>
    rw [List.cons_append, inString]
    · rw [ih]
      change Except.map _ (Except.map _ (inString line (p.after (c :: _)) cs)) = _
      cases inString line (p.after (c :: _)) cs <;> rfl
    · exact fun h => hquote h
    · exact fun h _ => hslash h
    · exact fun e cs h _ => hslash h

theorem exists_quoted (cs : List Char) :
    ∃ denoted written tail, cs = written ++ tail ∧ Quoted denoted written ∧
      (tail = [] ∨ (∃ rest, tail = '"' :: rest) ∨
        ∃ rest, tail = '\\' :: rest ∧ ∀ c, (rest.headD '\x00', c) ∉ escapes) := by
  induction hn : cs.length using Nat.strongRecOn generalizing cs with
  | _ n ih =>
    subst hn
    cases cs with
    | nil => exact ⟨[], [], [], rfl, .nil, .inl rfl⟩
    | cons c cs =>
      by_cases hquote : c = '"'
      · exact ⟨[], [], c :: cs, rfl, .nil, .inr (.inl ⟨cs, by rw [hquote]⟩)⟩
      by_cases hslash : c = '\\'
      · subst hslash
        by_cases hescape : ∃ d, (cs.headD '\x00', d) ∈ escapes
        · obtain ⟨d, hd⟩ := hescape
          cases cs with
          | nil => exact absurd hd (by simp [escapes])
          | cons e cs =>
            obtain ⟨denoted, written, tail, rfl, hq, htail⟩ :=
              ih cs.length (by simp only [List.length_cons]; omega) cs rfl
            exact ⟨d :: denoted, '\\' :: e :: written, tail, rfl, .escape hd hq, htail⟩
        · exact ⟨[], [], '\\' :: cs, rfl, .nil, .inr (.inr ⟨cs, rfl, not_exists.1 hescape⟩)⟩
      · obtain ⟨denoted, written, tail, rfl, hq, htail⟩ := ih cs.length (Nat.lt_succ_self _) cs rfl
        exact ⟨c :: denoted, c :: written, tail, rfl, .plain hquote hslash hq, htail⟩

theorem inString_backslash {rest : List Char} (h : ∀ c, (rest.headD '\x00', c) ∉ escapes) (line : Nat)
    (p : Position) : inString line p ('\\' :: rest) = .error (.unknownEscape (rest.headD '\x00') p) := by
  cases rest with
  | nil => rfl
  | cons e cs =>
    have he : escape? e = none := by
      cases hc : escape? e with
      | none => rfl
      | some c => exact absurd (escape?_eq_some_iff.1 hc) (h c)
    rw [inString, he]
    rfl

end Piece

/-! Runs of characters. -/

theorem startsWord_of_isDigit {c : Char} (h : c.isDigit) : startsWord c = false := by
  obtain ⟨hle, hge⟩ := Text.toNat_of_isDigit h
  -- digits stand before the letters of both cases
  have hbefore {d : Char} (hd : 57 < d.toNat) : ¬d.val ≤ c.val := by
    rw [UInt32.le_iff_toNat_le]
    exact Nat.not_le.2 (Nat.lt_of_le_of_lt hge hd)
  have halpha : c.isAlpha = false := by
    change (decide ('A'.val ≤ c.val ∧ _) || decide ('a'.val ≤ c.val) && _) = false
    rw [decide_eq_false fun hupper => hbefore (by decide) hupper.1, decide_eq_false (hbefore (by decide))]
    rfl
  have hne : c ≠ '_' := by
    rintro rfl
    exact absurd h (by decide)
  simp [startsWord, Text.isLetter, show c.toNat < 128 by omega, halpha, hne]

theorem takeWhile_eq_of_stop {α : Type} {p : α → Bool} {cs rest : List α} (h : ∀ c ∈ cs, p c)
    (stop : ∀ c ∈ rest.head?, p c = false) : (cs ++ rest).takeWhile p = cs := by
  rw [List.takeWhile_append_of_pos h]
  cases rest with
  | nil => rw [List.takeWhile_nil, List.append_nil]
  | cons c rest =>
    rw [List.takeWhile_cons_of_neg (by simp [stop c rfl]), List.append_nil]

theorem exists_run {α : Type} (p : α → Bool) (cs : List α) :
    ∃ run rest, cs = run ++ rest ∧ (∀ c ∈ run, p c) ∧ ∀ c ∈ rest.head?, p c = false := by
  refine ⟨cs.takeWhile p, cs.dropWhile p, List.takeWhile_append_dropWhile.symm, ?_, fun c hc => ?_⟩
  · exact fun c hc => List.all_eq_true.1 List.all_takeWhile c hc
  · have hnot := List.head?_dropWhile_not p cs
    rw [Option.mem_def.1 hc] at hnot
    simpa using hnot

/-! Signs. -/

theorem sign?_eq_some_iff {c : Char} {kind : Kind} : sign? c = some kind ↔ ([c], kind) ∈ signs := by
  constructor
  · intro h
    unfold sign? at h
    split at h <;> cases h <;> decide
  · intro h
    simp only [signs, List.mem_cons, Prod.mk.injEq, List.cons.injEq, List.not_mem_nil, or_false, and_true,
      reduceCtorEq, and_false, false_and, false_or] at h
    rcases h with ⟨rfl, rfl⟩ | ⟨rfl, rfl⟩ | ⟨rfl, rfl⟩ | ⟨rfl, rfl⟩ | ⟨rfl, rfl⟩ | ⟨rfl, rfl⟩ |
      ⟨rfl, rfl⟩ | ⟨rfl, rfl⟩ | ⟨rfl, rfl⟩ | ⟨rfl, rfl⟩ | ⟨rfl, rfl⟩ | ⟨rfl, rfl⟩ | ⟨rfl, rfl⟩ |
      ⟨rfl, rfl⟩ | ⟨rfl, rfl⟩ | ⟨rfl, rfl⟩ <;> rfl

theorem pairSign?_eq_some_iff {c d : Char} {kind : Kind} :
    pairSign? c d = some kind ↔ ([c, d], kind) ∈ signs := by
  constructor
  · intro h
    unfold pairSign? at h
    split at h <;> cases h <;> decide
  · intro h
    simp only [signs, List.mem_cons, Prod.mk.injEq, List.cons.injEq, List.not_mem_nil, or_false, and_true,
      reduceCtorEq, and_false, false_and] at h
    rcases h with ⟨⟨rfl, rfl⟩, rfl⟩ | ⟨⟨rfl, rfl⟩, rfl⟩ | ⟨⟨rfl, rfl⟩, rfl⟩ | ⟨⟨rfl, rfl⟩, rfl⟩ <;> rfl

theorem sign_cases {e : List Char × Kind} (h : e ∈ signs) :
    (∃ c kind, e = ([c], kind)) ∨ ∃ c d kind, e = ([c, d], kind) := by
  simp only [signs, List.mem_cons, List.not_mem_nil, or_false] at h
  rcases h with rfl | rfl | rfl | rfl | rfl | rfl | rfl | rfl | rfl | rfl | rfl | rfl | rfl | rfl |
    rfl | rfl | rfl | rfl | rfl | rfl <;> simp

theorem sign_start {e : List Char × Kind} (h : e ∈ signs) {c : Char} (hc : c ∈ e.1.head?) :
    c ∉ [' ', '\t', '\r', '\n'] ∧ c ≠ '/' ∧ c ≠ '"' ∧ c.isDigit = false ∧ startsWord c = false := by
  have hall : ∀ e ∈ signs, e.1.head?.all fun c =>
      c ∉ [' ', '\t', '\r', '\n'] ∧ c ≠ '/' ∧ c ≠ '"' ∧ c.isDigit = false ∧ startsWord c = false := by
    decide
  exact of_decide_eq_true ((Option.all_eq_true _ _).1 (hall e h) c hc)

namespace Piece

theorem ofSign_pair {c d : Char} {kind : Kind} (h : ([c, d], kind) ∈ signs) (p : Position)
    (rest : List Char) :
    ofSign p c (d :: rest) = .ok ⟨[d], some (kind, String.ofList [c, d])⟩ := by
  unfold ofSign
  rw [List.head?_cons, Option.bind_some, pairSign?_eq_some_iff.2 h]
  rfl

theorem head_pair_eq_none {c : Char} {rest : List Char}
    (h : ∀ d ∈ rest.head?, ∀ kind, ([c, d], kind) ∉ signs) :
    (rest.head?.bind fun d => (pairSign? c d).map (·, d)) = none := by
  cases rest with
  | nil => rfl
  | cons d rest =>
    rw [List.head?_cons, Option.bind_some, Option.map_eq_none_iff]
    cases hd : pairSign? c d with
    | none => rfl
    | some kind => exact absurd (pairSign?_eq_some_iff.1 hd) (h d rfl kind)

theorem ofSign_single {c : Char} {kind : Kind} {rest : List Char} (hc : ([c], kind) ∈ signs)
    (h : ∀ d ∈ rest.head?, ∀ kind, ([c, d], kind) ∉ signs) (p : Position) :
    ofSign p c rest = .ok ⟨[], some (kind, String.ofList [c])⟩ := by
  unfold ofSign
  rw [head_pair_eq_none h, sign?_eq_some_iff.2 hc]

theorem ofSign_none {c : Char} {rest : List Char} (hsign : ∀ e ∈ signs, ¬e.1 <+: c :: rest)
    (p : Position) : ofSign p c rest = .error (.unexpectedCharacter c p) := by
  have hpair : ∀ d ∈ rest.head?, ∀ kind, ([c, d], kind) ∉ signs := by
    intro d hd kind h
    obtain ⟨tail, rfl⟩ := List.head?_eq_some_iff.1 hd
    exact hsign _ h ⟨tail, rfl⟩
  have hsingle : sign? c = none := by
    cases hc : sign? c with
    | none => rfl
    | some kind => exact absurd ⟨rest, rfl⟩ (hsign _ (sign?_eq_some_iff.1 hc))
  unfold ofSign
  rw [head_pair_eq_none hpair, hsingle]

/-! Which rule reads a piece. -/

variable {p : Position} {c : Char} {cs : List Char}

theorem read_blank (h : c ∈ [' ', '\t', '\r', '\n']) : read p c cs = .ok ⟨[], none⟩ := by
  simp only [List.mem_cons, List.not_mem_nil, or_false] at h
  rcases h with rfl | rfl | rfl | rfl <;> rfl

theorem read_comment : read p '/' ('/' :: cs) =
    .ok ⟨'/' :: cs.takeWhile fun d => d ≠ '\n' && d ≠ '\x00', none⟩ := rfl

theorem read_quote : read p '"' cs = ofString p cs := rfl

theorem read_digit (h : c.isDigit) : read p c cs = ofNumber p c cs := by
  have hne (d : Char) (hd : d.isDigit = false) : c ≠ d := by
    rintro rfl
    rw [h] at hd
    cases hd
  unfold read
  simp [hne ' ' rfl, hne '\t' rfl, hne '\r' rfl, hne '\n' rfl, hne '/' rfl, hne '"' rfl, h]

theorem read_word (h : startsWord c) : read p c cs = .ok (ofWord c cs) := by
  have hne (d : Char) (hd : startsWord d = false) : c ≠ d := by
    rintro rfl
    rw [h] at hd
    cases hd
  have hdigit : c.isDigit = false := by
    cases hc : c.isDigit with
    | false => rfl
    | true => rw [startsWord_of_isDigit hc] at h; cases h
  unfold read
  simp [hne ' ' rfl, hne '\t' rfl, hne '\r' rfl, hne '\n' rfl, hne '/' rfl, hne '"' rfl, hdigit, h]

theorem read_sign (hblank : c ∉ [' ', '\t', '\r', '\n']) (hcomment : ¬['/', '/'] <+: c :: cs)
    (hquote : c ≠ '"') (hdigit : c.isDigit = false) (hword : startsWord c = false) :
    read p c cs = ofSign p c cs := by
  have hslash : ¬(c = '/' ∧ cs.head? = some '/') := by
    rintro ⟨rfl, hhead⟩
    obtain ⟨tail, rfl⟩ := List.head?_eq_some_iff.1 hhead
    exact hcomment ⟨tail, rfl⟩
  simp only [List.mem_cons, List.not_mem_nil, or_false, not_or] at hblank
  unfold read
  simp [hblank, hslash, hquote, hdigit, hword]

end Piece

/-! One piece of a text. -/

variable {p : Position} {seen : List Token} {read cs rest : List Char}

theorem scanFrom_skip {c : Char} {more : List Char}
    (h : Piece.read p c (more ++ rest) = .ok ⟨more, none⟩) :
    scanFrom p seen (c :: more ++ rest) = scanFrom (p.after (c :: more)) seen rest := by
  rw [List.cons_append, scanFrom, h]
  dsimp only
  rw [List.drop_left]

theorem scanFrom_token {c : Char} {more : List Char} {kind : Kind} {text : String}
    (h : Piece.read p c (more ++ rest) = .ok ⟨more, some (kind, text)⟩) :
    scanFrom p seen (c :: more ++ rest) =
      scanFrom (p.after (c :: more)) (⟨kind, text, p⟩ :: seen) rest := by
  rw [List.cons_append, scanFrom, h]
  dsimp only
  rw [List.drop_left]

theorem scanFrom_gap (h : Gap cs rest) :
    scanFrom p seen (cs ++ rest) = scanFrom (p.after cs) seen rest := by
  cases h with
  | blank hc => exact scanFrom_skip (Piece.read_blank hc)
  | @comment text _ htext stop =>
    refine scanFrom_skip ?_
    rw [List.cons_append, Piece.read_comment, takeWhile_eq_of_stop]
    · intro c hc
      simpa using htext c hc
    · intro c hc
      rcases stop c hc with rfl | rfl <;> rfl

theorem scanFrom_lexeme {kind : Kind} {text : String} (h : Spells cs rest kind text) :
    scanFrom p seen (cs ++ rest) = scanFrom (p.after cs) (⟨kind, text, p⟩ :: seen) rest := by
  cases h with
  | @string denoted written _ hq =>
    rw [List.cons_append]
    refine scanFrom_token ?_
    rw [Piece.read_quote, Piece.ofString, List.append_assoc, Piece.inString_append hq]
    simp only [List.singleton_append, Piece.inString, Except.map, List.append_nil]
  | number hne hdigits hlength hmax stop =>
    cases cs with
    | nil => exact absurd rfl hne
    | cons c more =>
      have hall := List.forall_mem_cons.1 hdigits
      refine scanFrom_token ?_
      rw [Piece.read_digit hall.1, Piece.ofNumber, takeWhile_eq_of_stop hall.2 stop]
      exact (if_neg (Nat.not_lt.2 hlength)).trans (if_neg (Nat.not_lt.2 hmax))
  | @word c more _ hc hcs stop =>
    refine scanFrom_token ?_
    rw [Piece.read_word hc, Piece.ofWord, takeWhile_eq_of_stop hcs stop]
  | sign h longest =>
    rcases sign_cases h with ⟨c, _, heq⟩ | ⟨c, d, _, heq⟩
    all_goals
      cases heq
      obtain ⟨hblank, hslash, hquote, hdigit, hword⟩ := sign_start h rfl
      have hcomment (tail : List Char) : ¬['/', '/'] <+: c :: tail :=
        fun hpre => hslash (List.cons_prefix_cons.1 hpre).1.symm
      refine scanFrom_token ?_
      rw [Piece.read_sign hblank (hcomment _) hquote hdigit hword]
    · refine Piece.ofSign_single h (fun d hd kind hpair => ?_) p
      obtain ⟨tail, rfl⟩ := List.head?_eq_some_iff.1 hd
      exact absurd (longest _ hpair ⟨tail, rfl⟩) (by simp)
    · exact Piece.ofSign_pair h p rest

theorem scanFrom_faulty {e : ScanError} (h : Faulty read rest e) :
    scanFrom (.behind read) seen rest = .error e := by
  have hread {c : Char} {cs : List Char} {e : ScanError}
      (h : Piece.read (.behind read) c cs = .error e) :
      scanFrom (.behind read) seen (c :: cs) = .error e := by
    rw [scanFrom, h]
  cases h with
  | character hblank hcomment hquote hdigit hword hsign =>
    refine hread ?_
    rw [Piece.read_sign hblank hcomment hquote hdigit hword, Piece.ofSign_none hsign]
  | escape hq hescape =>
    rw [List.cons_append]
    refine hread ?_
    rw [Piece.read_quote, Piece.ofString, Piece.inString_append hq, Piece.inString_backslash hescape,
      Position.behind_append]
    rfl
  | @unterminated _ written hq =>
    refine hread ?_
    rw [Piece.read_quote, Piece.ofString, ← List.append_nil written, Piece.inString_append hq]
    rfl
  | @number digits _ hne hdigits hlength hmax stop =>
    cases digits with
    | nil => exact absurd rfl hne
    | cons c more =>
      have hall := List.forall_mem_cons.1 hdigits
      rw [List.cons_append]
      refine hread ?_
      rw [Piece.read_digit hall.1, Piece.ofNumber, takeWhile_eq_of_stop hall.2 stop]
      exact (if_neg (Nat.not_lt.2 hlength)).trans (if_pos hmax)
  | @numeral digits _ hdigits hlength stop =>
    cases digits with
    | nil => exact absurd hlength (Nat.not_lt_zero _)
    | cons c more =>
      have hall := List.forall_mem_cons.1 hdigits
      rw [List.cons_append]
      refine hread ?_
      rw [Piece.read_digit hall.1, Piece.ofNumber, takeWhile_eq_of_stop hall.2 stop]
      exact if_pos hlength

theorem exists_piece (read : List Char) (c : Char) (cs : List Char) :
    (∃ gap rest, c :: cs = gap ++ rest ∧ gap ≠ [] ∧ Gap gap rest) ∨
      (∃ lexeme rest kind text, c :: cs = lexeme ++ rest ∧ lexeme ≠ [] ∧
        Spells lexeme rest kind text) ∨
      ∃ e, Faulty read (c :: cs) e := by
  by_cases hblank : c ∈ [' ', '\t', '\r', '\n']
  · exact .inl ⟨[c], cs, rfl, by simp, .blank hblank⟩
  by_cases hcomment : ['/', '/'] <+: c :: cs
  · obtain ⟨tail, htail⟩ := hcomment
    cases htail
    obtain ⟨text, rest, rfl, htext, hstop⟩ := exists_run (fun d => d ≠ '\n' && d ≠ '\x00') tail
    refine .inl ⟨'/' :: '/' :: text, rest, rfl, by simp, .comment (by simpa using htext) ?_⟩
    intro d hd
    simpa [Classical.or_iff_not_imp_left] using hstop d hd
  by_cases hquote : c = '"'
  · subst hquote
    obtain ⟨denoted, written, tail, rfl, hq, rfl | ⟨rest, rfl⟩ | ⟨rest, rfl, hescape⟩⟩ :=
      Piece.exists_quoted cs
    · rw [List.append_nil]
      exact .inr (.inr ⟨_, .unterminated hq⟩)
    · exact .inr (.inl ⟨'"' :: written ++ ['"'], rest, _, _, by simp, by simp, .string hq⟩)
    · exact .inr (.inr ⟨_, .escape hq hescape⟩)
  by_cases hdigit : c.isDigit
  · obtain ⟨more, rest, rfl, hmore, stop⟩ := exists_run Char.isDigit cs
    have hdigits : ∀ d ∈ c :: more, d.isDigit := List.forall_mem_cons.2 ⟨hdigit, hmore⟩
    rcases Nat.lt_or_ge Text.maxDigits (c :: more).length with hlength | hlength
    · exact .inr (.inr ⟨_, .numeral hdigits hlength stop⟩)
    rcases Nat.lt_or_ge maxNumber (numeral (c :: more)) with hmax | hmax
    · exact .inr (.inr ⟨_, .number (by simp) hdigits hlength hmax stop⟩)
    · exact .inr (.inl ⟨c :: more, rest, _, _, rfl, by simp, .number (by simp) hdigits hlength hmax stop⟩)
  by_cases hword : startsWord c
  · obtain ⟨more, rest, rfl, hmore, stop⟩ := exists_run continuesWord cs
    exact .inr (.inl ⟨c :: more, rest, _, _, rfl, by simp, .word hword hmore stop⟩)
  -- of the signs that stand here, one of two characters goes first
  by_cases hpair : ∃ d tail kind, cs = d :: tail ∧ ([c, d], kind) ∈ signs
  · obtain ⟨d, tail, kind, rfl, hd⟩ := hpair
    refine .inr (.inl ⟨[c, d], tail, _, _, rfl, by simp, .sign hd fun e he _ => ?_⟩)
    rcases sign_cases he with ⟨_, _, rfl⟩ | ⟨_, _, _, rfl⟩ <;> simp
  by_cases hsingle : ∃ kind, ([c], kind) ∈ signs
  · obtain ⟨kind, hc⟩ := hsingle
    refine .inr (.inl ⟨[c], cs, _, _, rfl, by simp, .sign hc fun e he hpre => ?_⟩)
    rcases sign_cases he with ⟨_, _, rfl⟩ | ⟨x, d, kind', rfl⟩
    · exact Nat.le_refl 1
    · obtain ⟨tail, htail⟩ := hpre
      cases htail
      exact absurd ⟨d, tail, kind', rfl, he⟩ hpair
  · refine .inr (.inr ⟨_, .character hblank hcomment hquote (by simpa using hdigit) (by simpa using hword)
      fun e he hpre => ?_⟩)
    obtain ⟨tail, htail⟩ := hpre
    rcases sign_cases he with ⟨x, kind, rfl⟩ | ⟨x, d, kind, rfl⟩
    · cases htail
      exact hsingle ⟨kind, he⟩
    · cases htail
      exact hpair ⟨d, tail, kind, rfl, he⟩

/-! Whole texts. -/

theorem Spells.ne_nil {kind : Kind} {text : String} (h : Spells cs rest kind text) : cs ≠ [] := by
  cases h with
  | string | word => simp
  | number hne => exact hne
  | sign h => rcases sign_cases h with ⟨_, _, heq⟩ | ⟨_, _, _, heq⟩ <;> cases heq <;> simp

namespace Tiled

variable {tiles : List (Nat × Token)}

theorem increasing (h : Tiled read rest tiles) :
    (tiles.map (·.1) ++ [read.length]).Pairwise (· < ·) := by
  induction h with
  | nil rest => exact List.pairwise_singleton _ _
  | @gap read cs rest tiles _ _ ih =>
    rw [List.pairwise_append] at ih ⊢
    refine ⟨ih.1, List.pairwise_singleton _ _, fun o ho n hn => ?_⟩
    rw [List.mem_singleton.1 hn, List.length_append]
    exact Nat.lt_add_right _ (ih.2.2 o ho _ (List.mem_singleton_self _))
  | @lexeme read cs rest tiles kind text _ hspells ih =>
    have hlt : read.length < (read ++ cs).length := by
      rw [List.length_append]
      exact Nat.lt_add_of_pos_right (List.length_pos_iff.2 hspells.ne_nil)
    rw [List.map_append, List.map_singleton, List.pairwise_append]
    refine ⟨ih, List.pairwise_singleton _ _, fun o ho n hn => ?_⟩
    rw [List.mem_singleton.1 hn]
    rcases List.mem_append.1 ho with ho | ho
    · exact Nat.lt_trans ((List.pairwise_append.1 ih).2.2 o ho _ (List.mem_singleton_self _)) hlt
    · rwa [List.mem_singleton.1 ho]

theorem position_eq (h : Tiled read rest tiles) :
    ∀ tile ∈ tiles, tile.2.position = .behind ((read ++ rest).take tile.1) := by
  induction h with
  | nil rest => simp
  | gap _ _ ih => rwa [List.append_assoc]
  | @lexeme read cs rest tiles kind text _ _ ih =>
    rw [List.append_assoc, List.forall_mem_append, List.forall_mem_singleton, List.take_left]
    exact ⟨ih, rfl⟩

theorem scanFrom_eq (h : Tiled read rest tiles) :
    scanFrom .start [] (read ++ rest) = scanFrom (.behind read) (tiles.map (·.2)).reverse rest := by
  induction h with
  | nil rest => rfl
  | gap _ hgap ih => rw [List.append_assoc, ih, scanFrom_gap hgap, Position.behind_append]
  | lexeme _ hspells ih =>
    rw [List.append_assoc, ih, scanFrom_lexeme hspells, Position.behind_append, List.map_append,
      List.reverse_append]
    rfl

theorem exists_end (h : Tiled read rest tiles) :
    ∃ stop tail all, read ++ rest = stop ++ tail ∧ Tiled stop tail all ∧
      (tail = [] ∨ ∃ e, Faulty stop tail e) := by
  induction hn : rest.length using Nat.strongRecOn generalizing read rest tiles with
  | _ n ih =>
    subst hn
    cases rest with
    | nil => exact ⟨read, [], tiles, rfl, h, .inl rfl⟩
    | cons c cs =>
      -- a piece that is not empty leaves less to be read
      have hshorter {piece rest : List Char} (heq : c :: cs = piece ++ rest) (hne : piece ≠ []) :
          rest.length < (c :: cs).length := by
        rw [heq, List.length_append]
        exact Nat.lt_add_of_pos_left (List.length_pos_iff.2 hne)
      rcases exists_piece read c cs with ⟨gap, rest, heq, hne, hgap⟩ |
        ⟨lexeme, rest, kind, text, heq, hne, hspells⟩ | ⟨e, he⟩
      · obtain ⟨stop, tail, all, hstop, hend⟩ := ih _ (hshorter heq hne) (.gap (heq ▸ h) hgap) rfl
        exact ⟨stop, tail, all, by rw [heq, ← List.append_assoc, hstop], hend⟩
      · obtain ⟨stop, tail, all, hstop, hend⟩ := ih _ (hshorter heq hne) (.lexeme (heq ▸ h) hspells) rfl
        exact ⟨stop, tail, all, by rw [heq, ← List.append_assoc, hstop], hend⟩
      · exact ⟨read, c :: cs, tiles, rfl, h, .inr ⟨e, he⟩⟩

end Tiled

theorem scan_of_tiled {source : String} {tiles : List (Nat × Token)}
    (h : Tiled source.toList [] tiles) :
    scan source = .ok (tiles.map (·.2) ++ [endMark (.behind source.toList)]) := by
  have hscan := h.scanFrom_eq
  rw [List.append_nil] at hscan
  rw [scan, hscan, scanFrom]
  simp

theorem scan_of_faulty {source : String} {tiles : List (Nat × Token)} {e : ScanError}
    (hsource : source.toList = read ++ rest) (h : Tiled read rest tiles) (he : Faulty read rest e) :
    scan source = .error e := by
  rw [scan, hsource, h.scanFrom_eq, scanFrom_faulty he]

theorem tiled_or_faulty (source : String) :
    (∃ tiles, Tiled source.toList [] tiles) ∨
      ∃ read rest tiles e, source.toList = read ++ rest ∧ Tiled read rest tiles ∧ Faulty read rest e := by
  obtain ⟨stop, tail, all, heq, hall, rfl | ⟨e, he⟩⟩ := (Tiled.nil source.toList).exists_end
  · rw [List.append_nil, List.nil_append] at heq
    exact .inl ⟨all, heq ▸ hall⟩
  · exact .inr ⟨stop, tail, all, e, heq, hall, he⟩

theorem scan_eq_ok_iff {source : String} {tokens : List Token} :
    scan source = .ok tokens ↔ ∃ tiles, Tiled source.toList [] tiles ∧
      tokens = tiles.map (·.2) ++ [endMark (.behind source.toList)] := by
  constructor
  · intro h
    rcases tiled_or_faulty source with ⟨tiles, ht⟩ | ⟨read, rest, tiles, e, hsource, ht, he⟩
    · rw [scan_of_tiled ht] at h
      exact ⟨tiles, ht, (Except.ok.inj h).symm⟩
    · rw [scan_of_faulty hsource ht he] at h
      cases h
  · rintro ⟨tiles, ht, rfl⟩
    exact scan_of_tiled ht

theorem scan_eq_error_iff {source : String} {e : ScanError} :
    scan source = .error e ↔ ∃ read rest tiles, source.toList = read ++ rest ∧
      Tiled read rest tiles ∧ Faulty read rest e := by
  constructor
  · intro h
    rcases tiled_or_faulty source with ⟨tiles, ht⟩ | ⟨read, rest, tiles, e', hsource, ht, he⟩
    · rw [scan_of_tiled ht] at h
      cases h
    · rw [scan_of_faulty hsource ht he] at h
      cases h
      exact ⟨read, rest, tiles, hsource, ht, he⟩
  · rintro ⟨read, rest, tiles, hsource, ht, he⟩
    exact scan_of_faulty hsource ht he

/-- A scan gives tokens exactly if gaps and lexemes cover the text, each token at the line and column of its
    offset, and an error exactly if they cover the text up to the fault that it names. -/
theorem scan_covers (source : String) :
    (∀ tokens, scan source = .ok tokens ↔
      ∃ tiles, Tiled source.toList [] tiles ∧
        (tiles.map (·.1) ++ [source.toList.length]).Pairwise (· < ·) ∧
        (∀ tile ∈ tiles, tile.2.position = .behind (source.toList.take tile.1)) ∧
        tokens = tiles.map (·.2) ++ [endMark (.behind source.toList)]) ∧
    ∀ e, scan source = .error e ↔
      ∃ read rest tiles, source.toList = read ++ rest ∧ Tiled read rest tiles ∧ Faulty read rest e := by
  refine ⟨fun tokens => scan_eq_ok_iff.trans (exists_congr fun tiles => ?_), fun e => scan_eq_error_iff⟩
  constructor
  · rintro ⟨ht, rfl⟩
    have hposition := ht.position_eq
    rw [List.append_nil] at hposition
    exact ⟨ht, ht.increasing, hposition, rfl⟩
  · rintro ⟨ht, -, -, rfl⟩
    exact ⟨ht, rfl⟩

end Token

end Scripting
