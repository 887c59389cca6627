import Scripting.Grammar.Expression
import Scripting.Number
import Scripting.Token.Scan

/-!
Tokens of a source are legible: the text of a number token is a numeral in the range of numbers, and that
of an operator token names an operation.
-/

set_option autoImplicit false

namespace Scripting

namespace Text

theorem toNat_of_isDigit {c : Char} (h : c.isDigit) : 48 ≤ c.toNat ∧ c.toNat ≤ 57 := by
  simp only [Char.isDigit, Bool.and_eq_true, decide_eq_true_eq] at h
  exact ⟨h.1, h.2⟩

theorem decimalDigit?_of_isDigit {c : Char} (h : c.isDigit) :
    decimalDigit? c = some (c.toNat - 48) := by
  obtain ⟨hle, hge⟩ := toNat_of_isDigit h
  have hfind : decimalZeros.find? (fun first => first ≤ c.toNat && c.toNat < first + 10) =
      some 48 := by
    refine List.find?_cons_of_pos ?_
    simp only [Bool.and_eq_true, decide_eq_true_eq]
    omega
  rw [decimalDigit?, hfind]
  rfl

theorem moreDigits?_of_isDigit {cs : List Char} (h : ∀ c ∈ cs, c.isDigit) :
    moreDigits? cs = some (cs.map fun c => c.toNat - '0'.toNat) := by
  induction cs with
  | nil => rfl
  | cons c cs ih =>
    rw [List.forall_mem_cons] at h
    have hne : c ≠ '_' := by
      rintro rfl
      exact absurd h.1 (by decide)
    rw [moreDigits?, decimalDigit?_of_isDigit h.1, ih h.2]
    · rfl
    · exact fun _ _ hc _ => hne hc

theorem natural?_of_isDigit {c : Char} {cs : List Char} (h : ∀ d ∈ c :: cs, d.isDigit)
    (hlength : (c :: cs).length ≤ maxDigits) :
    natural? (c :: cs) = some (ofDigits ((c :: cs).map fun d => d.toNat - '0'.toNat)) := by
  rw [List.forall_mem_cons] at h
  rw [natural?, decimalDigit?_of_isDigit h.1, moreDigits?_of_isDigit h.2]
  refine if_pos ?_
  rwa [List.length_cons, List.length_map]

theorem isBlank_of_toNat {c : Char} (hle : 0x20 < c.toNat) (hge : c.toNat < 0x85) : isBlank c = false := by
  simp only [isBlank, blankSpans, Span.holds, List.any_cons, List.any_nil, Bool.or_false,
    Bool.or_eq_false_iff, Bool.and_eq_false_iff, decide_eq_false_iff_not]
  omega

theorem isBlank_of_isDigit {c : Char} (h : c.isDigit) : isBlank c = false := by
  obtain ⟨hle, hge⟩ := toNat_of_isDigit h
  exact isBlank_of_toNat (by omega) (by omega)

theorem isMargin_of_isDigit {c : Char} (h : c.isDigit) : isMargin c = false := by
  rw [isMargin, isBlank_of_isDigit h]
  rfl

theorem trimWhile_of_all_false {p : Char → Bool} {cs : List Char} (h : ∀ c ∈ cs, p c = false) :
    trimWhile p cs = cs := by
  have hdrop : ∀ ds : List Char, (∀ c ∈ ds, p c = false) → ds.dropWhile p = ds := by
    intro ds hds
    cases ds with
    | nil => rfl
    | cons d ds => exact List.dropWhile_cons_of_neg (by simp [hds d List.mem_cons_self])
  rw [trimWhile, hdrop cs h, hdrop _ (by simpa using h), List.reverse_reverse]

theorem integer?_of_isDigit {c : Char} {cs : List Char} (h : ∀ d ∈ c :: cs, d.isDigit)
    (hlength : (c :: cs).length ≤ maxDigits) :
    integer? (String.ofList (c :: cs)) =
      some (ofDigits ((c :: cs).map fun d => d.toNat - '0'.toNat) : Nat) := by
  have hn := natural?_of_isDigit h hlength
  have hc := h c List.mem_cons_self
  rw [integer?, String.toList_ofList, trimWhile_of_all_false fun d hd => isMargin_of_isDigit (h d hd)]
  split
  · rename_i heq
    cases heq
    exact absurd hc (by decide)
  · rename_i heq
    cases heq
    exact absurd hc (by decide)
  · rw [hn]
    rfl

end Text

namespace Token

/-- A number token is a numeral in range, and an operator token names an operation. -/
structure Legible (kind : Kind) (text : String) : Prop where
  number : kind = .number → ∃ n ≤ maxNumber, Text.integer? text = some (n : Int)
  operator : ∀ level : Grammar.Level, kind ∈ level.operators → (Operation.ofSymbol? text).isSome

def Kind.isFree : Kind → Bool
  | .number | .plus | .minus | .star | .equal | .notEqual | .less | .lessEqual | .greater
  | .greaterEqual => false
  | _ => true

theorem Legible.of_isFree {kind : Kind} {text : String} (h : kind.isFree) : Legible kind text where
  number hk := by rw [hk] at h; cases h
  operator level hk := by
    cases level <;> simp only [Grammar.Level.operators, List.mem_cons, List.not_mem_nil, or_false] at hk <;>
      rcases hk with rfl | rfl | rfl | rfl <;> cases h

theorem Kind.isFree_ofWord (word : String) : (Kind.ofWord word).isFree := by
  unfold Kind.ofWord
  cases h : keywords.lookup word with
  | none => rfl
  | some kind =>
    have hmem : (word, kind) ∈ keywords := by
      obtain ⟨xs, ys, hk, -⟩ := List.lookup_eq_some_iff.1 h
      simp [hk]
    have hall : ∀ e ∈ keywords, e.2.isFree := by decide
    exact hall _ hmem

theorem Legible.of_pairSign? {c d : Char} {kind : Kind} (h : pairSign? c d = some kind) :
    Legible kind (String.ofList [c, d]) := by
  unfold pairSign? at h
  split at h <;> cases h <;> exact ⟨nofun, fun _ _ => by decide⟩

theorem Legible.of_sign? {c : Char} {kind : Kind} (h : sign? c = some kind) :
    Legible kind (String.ofList [c]) := by
  unfold sign? at h
  split at h <;> cases h <;> first | exact .of_isFree rfl | exact ⟨nofun, fun _ _ => by decide⟩

theorem Piece.legible_of_ofNumber {p : Position} {c : Char} {cs : List Char} {piece : Piece}
    (hc : c.isDigit) (h : Piece.ofNumber p c cs = .ok piece) :
    ∀ t ∈ piece.token?, Legible t.1 t.2 := by
  unfold Piece.ofNumber at h
  dsimp only at h
  split at h
  · cases h
  · rename_i hlength
    split at h
    · cases h
    · rename_i hrange
      cases h
      rintro _ ⟨⟩
      have hdigits : ∀ d ∈ c :: cs.takeWhile Char.isDigit, d.isDigit :=
        List.forall_mem_cons.2 ⟨hc, fun d hd => List.all_eq_true.1 List.all_takeWhile d hd⟩
      refine ⟨fun _ => ⟨_, Nat.le_of_not_lt hrange, ?_⟩, fun level hk => ?_⟩
      · exact Text.integer?_of_isDigit hdigits (Nat.le_of_not_lt hlength)
      · cases level <;> simp [Grammar.Level.operators] at hk

theorem Piece.legible_of_ofSign {p : Position} {c : Char} {cs : List Char} {piece : Piece}
    (h : Piece.ofSign p c cs = .ok piece) : ∀ t ∈ piece.token?, Legible t.1 t.2 := by
  unfold Piece.ofSign at h
  split at h
  · rename_i kind d hpair
    cases h
    rintro _ ⟨⟩
    obtain ⟨d', -, hd⟩ := Option.bind_eq_some_iff.1 hpair
    obtain ⟨kind', hkind, heq⟩ := Option.map_eq_some_iff.1 hd
    cases heq
    exact .of_pairSign? hkind
  · split at h
    · rename_i kind hsign
      cases h
      rintro _ ⟨⟩
      exact .of_sign? hsign
    · cases h

theorem Piece.legible_of_read {p : Position} {c : Char} {cs : List Char} {piece : Piece}
    (h : Piece.read p c cs = .ok piece) : ∀ t ∈ piece.token?, Legible t.1 t.2 := by
  unfold Piece.read at h
  split at h
  · cases h
    exact nofun
  · split at h
    · cases h
      exact nofun
    · split at h
      · unfold Piece.ofString at h
        cases hs : inString p.line (p.next '"') cs with
        | error e => rw [hs] at h; cases h
        | ok r =>
          rw [hs] at h
          cases h
          rintro _ ⟨⟩
          exact .of_isFree rfl
      · split at h
        · rename_i hdigit
          exact Piece.legible_of_ofNumber hdigit h
        · split at h
          · cases h
            rintro _ ⟨⟩
            exact .of_isFree (Kind.isFree_ofWord _)
          · exact Piece.legible_of_ofSign h

theorem legible_of_scanFrom {p : Position} {seen : List Token} {cs : List Char}
    {tokens : List Token} (hseen : ∀ t ∈ seen, Legible t.kind t.text)
    (h : scanFrom p seen cs = .ok tokens) : ∀ t ∈ tokens, Legible t.kind t.text := by
  fun_induction scanFrom p seen cs with
  | case1 p seen =>
    cases h
    simp only [List.mem_reverse, List.forall_mem_cons]
    exact ⟨.of_isFree rfl, hseen⟩
  | case2 => cases h
  | case3 p seen c cs piece hpiece seen' ih =>
    refine ih ?_ h
    have hlegible := Piece.legible_of_read hpiece
    cases ht : piece.token? with
    | none => simpa only [seen', ht] using hseen
    | some t =>
      simp only [seen', ht, List.forall_mem_cons]
      exact ⟨hlegible t ht, hseen⟩

theorem legible_of_scan {source : String} {tokens : List Token} (h : scan source = .ok tokens) :
    ∀ t ∈ tokens, Legible t.kind t.text :=
  legible_of_scanFrom (by simp) h

end Token

end Scripting
