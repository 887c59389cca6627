import Mathlib
import Scripting.Proofs.Grammar.Places
import Scripting.Proofs.Store.Data
import Scripting.Proofs.Token.Spelling

/-!
The text of a datum as a source. It is scanned to the tokens of a literal, and these are read as the tree
of that literal. A negative number is an operator before a numeral, and the names of a record stand
without quotes.
-/

set_option autoImplicit false

namespace Scripting

/-! What can be written. -/

def Token.isIdentifier (name : String) : Bool :=
  match name.toList with
  | [] => false
  | c :: cs => startsWord c && cs.all continuesWord && decide (name ∉ keywords.map (·.1))

namespace Datum

/-- The data that a source can write as it is rendered. -/
inductive Writable : Datum → Prop where
  | boolean (b : Bool) : Writable (.boolean b)
  | number {n : Int} (range : n.natAbs ≤ Token.maxNumber) : Writable (.number n)
  | string {text : String} (plain : ∀ c ∈ text.toList, c ≠ '"' ∧ c ≠ '\\') : Writable (.string text)
  | array {items : List Datum} (writable : ∀ d ∈ items, Writable d) : Writable (.array items)
  | record {fields : List (String × Datum)} (names : ∀ f ∈ fields, Token.isIdentifier f.1)
      (writable : ∀ f ∈ fields, Writable f.2) : Writable (.record fields)

def spell : Datum → List Spelling
  | .boolean b => [.sign (if b then .trueWord else .falseWord)]
  | .number n => (if n < 0 then [.sign .minus] else []) ++ [⟨.number, n.natAbs.repr⟩]
  | .string text => [⟨.string, text⟩]
  | .array items =>
    .sign .leftSquare :: [Spelling.sign .comma].intercalate (items.map spell) ++ [.sign .rightSquare]
  | .record fields =>
    .sign .leftBrace :: [Spelling.sign .comma].intercalate
      (fields.map fun f => ⟨.ident, f.1⟩ :: .sign .colon :: f.2.spell) ++ [.sign .rightBrace]
decreasing_by
  · decreasing_tactic
  · have := sizeOf_snd_lt ‹_ ∈ fields›
    decreasing_tactic

def literal : Datum → Node
  | .boolean b => .boolean b ⟨if b then "true" else "false", none⟩
  | .number n =>
    if n < 0 then .negate (.number ⟨n.natAbs.repr, none⟩) none else .number ⟨n.natAbs.repr, none⟩
  | .string text => .string ⟨text, none⟩
  | .array items => .array (items.map literal) none
  | .record fields => .record (fields.map fun f => ⟨⟨f.1, none⟩, f.2.literal, none⟩) none
decreasing_by
  · decreasing_tactic
  · have := sizeOf_snd_lt ‹_ ∈ fields›
    decreasing_tactic

end Datum

/-! Scanning. -/

namespace Token

/-- Wherever the text stands before something as asked for, it is scanned to tokens so spelled. -/
def Covers (follows : List Char → Prop) (cs : List Char) (s : List Spelling) : Prop :=
  ∀ read rest tiles, follows rest → Tiled read (cs ++ rest) tiles →
    ∃ more, Tiled (read ++ cs) rest (tiles ++ more) ∧ more.map (·.2.spelling) = s

/-- The characters that can follow a datum or the name of a field. -/
def Delimited (rest : List Char) : Prop :=
  ∀ c ∈ rest.head?, c ∈ [' ', ',', ':', ';', ']', '}']

theorem Delimited.stops {rest : List Char} (h : Delimited rest) :
    ∀ c ∈ rest.head?, c.isDigit = false ∧ continuesWord c = false := by
  intro c hc
  have hmem := h c hc
  simp only [List.mem_cons, List.not_mem_nil, or_false] at hmem
  rcases hmem with rfl | rfl | rfl | rfl | rfl | rfl <;> exact ⟨by decide, by decide⟩

theorem numeral_toDigits (n : Nat) : numeral (Nat.toDigits 10 n) = n := by
  have hvalue := Nat.ofDigitChars_ten_toDigits (n := n)
  rw [Nat.ofDigitChars_eq_foldl] at hvalue
  rwa [numeral, Text.ofDigits, List.foldl_map]

theorem digits_of_le {n : Nat} (h : n ≤ maxNumber) :
    (∀ c ∈ Nat.toDigits 10 n, c.isDigit) ∧ (Nat.toDigits 10 n).length ≤ Text.maxDigits := by
  have hlength : (Nat.toDigits 10 n).length ≤ 10 :=
    (Nat.length_toDigits_le_iff (by decide) (by decide)).2 (Nat.lt_of_le_of_lt h (by decide))
  exact ⟨fun c hc => Nat.isDigit_of_mem_toDigits (by decide) (by decide) hc, Nat.le_trans hlength (by decide)⟩

namespace Covers

variable {follows follows' : List Char → Prop} {cs cs' : List Char} {s s' : List Spelling}

theorem lexeme {kind : Kind} {text : String} (h : ∀ rest, follows rest → Spells cs rest kind text) :
    Covers follows cs [⟨kind, text⟩] := by
  intro read rest tiles hrest ht
  exact ⟨_, ht.lexeme (h rest hrest), rfl⟩

theorem append (h : Covers follows cs s) (h' : Covers follows' cs' s')
    (hfollows : ∀ rest, follows' rest → follows (cs' ++ rest)) : Covers follows' (cs ++ cs') (s ++ s') := by
  intro read rest tiles hrest ht
  rw [List.append_assoc] at ht
  obtain ⟨more, hmore, hs⟩ := h read _ tiles (hfollows rest hrest) ht
  obtain ⟨more', hmore', hs'⟩ := h' _ rest _ hrest hmore
  refine ⟨more ++ more', ?_, by rw [List.map_append, hs, hs']⟩
  rwa [← List.append_assoc, ← List.append_assoc]

theorem followedBy (h : Covers (fun _ => True) cs s) (h' : Covers follows cs' s') :
    Covers follows (cs ++ cs') (s ++ s') :=
  h.append h' fun _ _ => trivial

theorem blank : Covers follows [' '] [] := by
  intro read rest tiles _ ht
  exact ⟨[], by simpa using ht.gap (.blank (c := ' ') (by decide)), rfl⟩

theorem sign {c : Char} {kind : Kind} (hc : ([c], kind) ∈ signs) (hsymbol : String.ofList [c] = kind.symbol)
    (hpair : ∀ e ∈ signs, e.1.head? = some c → e.1.length ≤ 1) : Covers follows [c] [Spelling.sign kind] := by
  have hlexeme : Covers follows [c] [⟨kind, String.ofList [c]⟩] := by
    apply lexeme
    intro rest _
    refine .sign hc fun e he hpre => hpair e he ?_
    rcases sign_cases he with ⟨_, _, rfl⟩ | ⟨_, _, _, rfl⟩
    · exact congrArg some (List.cons_prefix_cons.1 hpre).1
    · exact congrArg some (List.cons_prefix_cons.1 hpre).1
  rwa [hsymbol] at hlexeme

theorem nil : Covers follows [] [] := by
  intro read rest tiles _ ht
  exact ⟨[], by simpa using ht, rfl⟩

theorem word {c : Char} {cs : List Char} (hc : startsWord c) (hcs : ∀ d ∈ cs, continuesWord d) :
    Covers Delimited (c :: cs) [⟨.ofWord (String.ofList (c :: cs)), String.ofList (c :: cs)⟩] :=
  lexeme fun _ hrest => .word hc hcs fun d hd => (hrest.stops d hd).2

theorem identifier {name : String} (h : isIdentifier name) : Covers Delimited name.toList [⟨.ident, name⟩] := by
  unfold isIdentifier at h
  split at h
  · cases h
  · rename_i c cs hname
    simp only [Bool.and_eq_true, List.all_eq_true, decide_eq_true_eq] at h
    have hword := word h.1.1 h.1.2
    rwa [← hname, String.ofList_toList, ofWord_of_free h.2] at hword

theorem keyword {word : String} {kind : Kind} (h : (word, kind) ∈ keywords) :
    Covers Delimited word.toList [⟨kind, word⟩] := by
  obtain ⟨c, cs, heq, hc, hcs, hkind, htext⟩ := ofWord_of_keyword h
  have hword := Covers.word hc hcs
  rwa [hkind, htext, ← heq] at hword

theorem numeral {n : Nat} (h : n ≤ maxNumber) : Covers Delimited n.repr.toList [⟨.number, n.repr⟩] := by
  obtain ⟨hdigits, hlength⟩ := digits_of_le h
  rw [Nat.repr_eq_ofList_toDigits, String.toList_ofList]
  apply lexeme
  intro rest hrest
  exact .number Nat.toDigits_ne_nil hdigits hlength (Nat.le_trans (Nat.le_of_eq (numeral_toDigits n)) h)
    fun c hc => (hrest.stops c hc).1

theorem string {text : String} (h : ∀ c ∈ text.toList, c ≠ '"' ∧ c ≠ '\\') :
    Covers follows ('"' :: text.toList ++ ['"']) [⟨.string, text⟩] := by
  have hquoted : ∀ cs : List Char, (∀ c ∈ cs, c ≠ '"' ∧ c ≠ '\\') → Quoted cs cs := by
    intro cs hcs
    induction cs with
    | nil => exact .nil
    | cons c cs ih =>
      rw [List.forall_mem_cons] at hcs
      exact .plain hcs.1.1 hcs.1.2 (ih hcs.2)
  apply lexeme
  intro rest _
  have hspells : Spells _ rest _ _ := .string (hquoted _ h)
  rwa [String.ofList_toList] at hspells

theorem intercalate {css : List (List Char)} {ss : List (List Spelling)}
    (h : List.Forall₂ (Covers Delimited) css ss) :
    Covers Delimited ([',', ' '].intercalate css) ([Spelling.sign .comma].intercalate ss) := by
  induction h with
  | nil => exact nil
  | @cons cs s css ss hhead htail ih =>
    cases htail with
    | nil =>
      rw [List.intercalate_singleton, List.intercalate_singleton]
      exact hhead
    | @cons cs' s' css ss hhead' htail' =>
      rw [List.intercalate_cons_cons, List.intercalate_cons_cons, List.append_assoc, List.append_assoc]
      have hcomma : Covers (fun _ => True) [','] [Spelling.sign .comma] :=
        .sign (by decide) (by decide) (by decide)
      refine hhead.append (hcomma.followedBy (.followedBy .blank ih)) ?_
      simp [Delimited]

theorem enclosed {left right : Char} {kind kind' : Kind}
    (h : Covers (fun _ => True) [left] [Spelling.sign kind]) (h' : Covers Delimited cs s)
    (h'' : Covers follows [right] [Spelling.sign kind']) (hright : right ∈ [' ', ',', ':', ';', ']', '}']) :
    Covers follows ([left] ++ cs ++ [right]) (.sign kind :: s ++ [.sign kind']) := by
  rw [List.append_assoc]
  refine h.followedBy (h'.append h'' fun rest _ => ?_)
  rintro _ ⟨⟩
  exact hright

theorem field {name text : String} (hname : isIdentifier name) (h : Covers Delimited text.toList s) :
    Covers Delimited (name ++ ": " ++ text).toList (⟨.ident, name⟩ :: .sign .colon :: s) := by
  have hcolon : Covers (fun _ => True) [':'] [Spelling.sign .colon] :=
    .sign (by decide) (by decide) (by decide)
  rw [String.toList_append, String.toList_append, List.append_assoc]
  refine (identifier hname).append (hcolon.followedBy (.followedBy .blank h)) ?_
  simp [Delimited]

end Covers

end Token

open Token

theorem Datum.Writable.covers {d : Datum} (h : d.Writable) : Covers Delimited d.text.toList d.spell := by
  induction d with
  | boolean b =>
    rw [Datum.text, Datum.spell]
    cases b with
    | true => exact .keyword (by decide)
    | false => exact .keyword (by decide)
  | number n =>
    cases h with
    | number range =>
      rw [Datum.text, Datum.spell, Int.toString_eq_repr, Int.repr_eq_if]
      by_cases hn : n < 0
      · rw [if_neg (by omega), if_pos hn, String.toList_append, show (-n).toNat = n.natAbs by omega]
        exact (Covers.sign (c := '-') (by decide) (by decide) (by decide)).followedBy (.numeral range)
      · rw [if_pos (by omega), if_neg hn, show n.toNat = n.natAbs by omega]
        exact .numeral range
  | string text =>
    cases h with
    | string plain =>
      rw [Datum.text, Datum.spell, String.toList_append, String.toList_append]
      exact .string plain
  | array items ih =>
    cases h with
    | array writable =>
      have hitems : List.Forall₂ (Covers Delimited) ((items.map Datum.text).map String.toList)
          (items.map Datum.spell) := by
        rw [List.map_map, List.forall₂_map_left_iff, List.forall₂_map_right_iff, List.forall₂_same]
        exact fun d hd => ih d hd (writable d hd)
      rw [Datum.text, Datum.spell, String.toList_append, String.toList_append, String.toList_intercalate]
      have hleft : Covers (fun _ => True) ['['] [Spelling.sign .leftSquare] :=
        .sign (by decide) (by decide) (by decide)
      have hright : Covers Delimited [']'] [Spelling.sign .rightSquare] :=
        .sign (by decide) (by decide) (by decide)
      exact .enclosed hleft (.intercalate hitems) hright (by decide)
  | record fields ih =>
    cases h with
    | record names writable =>
      have hfields : List.Forall₂ (Covers Delimited)
          ((fields.map fun f => f.1 ++ ": " ++ f.2.text).map String.toList)
          (fields.map fun f => ⟨.ident, f.1⟩ :: .sign .colon :: f.2.spell) := by
        rw [List.map_map, List.forall₂_map_left_iff, List.forall₂_map_right_iff, List.forall₂_same]
        exact fun f hf => .field (names f hf) (ih f hf (writable f hf))
      rw [Datum.text, Datum.spell, String.toList_append, String.toList_append, String.toList_intercalate]
      have hleft : Covers (fun _ => True) ['{'] [Spelling.sign .leftBrace] :=
        .sign (by decide) (by decide) (by decide)
      have hright : Covers Delimited ['}'] [Spelling.sign .rightBrace] :=
        .sign (by decide) (by decide) (by decide)
      exact .enclosed hleft (.intercalate hfields) hright (by decide)

/-! Reading. -/

namespace Grammar

open Node

namespace Readable

variable {ns : List Node} {fs : List (Field Node)} {ss : List (List Spelling)}

theorem expressions (hne : ns ≠ [])
    (h : List.Forall₂ (fun n s => Readable .expression s (n.need + n.rank.depth + 1) (like n)) ns ss) :
    Readable .expressions ([Spelling.sign .comma].intercalate ss) (needAsItems ns) (allLike ns) := by
  induction h with
  | nil => exact absurd rfl hne
  | @cons n s ns ss hhead htail ih =>
    cases htail with
    | nil =>
      rw [List.intercalate_singleton, needAsItems, needAsItems, Nat.max_zero]
      exact .lastExpression hhead
    | @cons m s' ns ss hhead' htail' =>
      rw [List.intercalate_cons_cons, List.append_assoc]
      exact .moreExpressions hhead (ih (List.cons_ne_nil _ _))

theorem expressionItems
    (h : List.Forall₂ (fun n s => Readable .expression s (n.need + n.rank.depth + 1) (like n)) ns ss) :
    Readable .items ([Spelling.sign .comma].intercalate ss) (needAsItems ns) (allLike ns) := by
  intro ts hts
  by_cases hne : ns = []
  · subst hne
    cases h
    obtain rfl := List.map_eq_nil_iff.1 hts
    exact ⟨[], rfl, .noItems, rfl⟩
  · obtain ⟨ms, hms, d, hd⟩ := expressions hne h ts hts
    exact ⟨ms, hms, .items d, hd⟩

theorem identField {s : List Spelling} {name : String} {n : Node} {height : Nat} {q p : Option Place}
    (h : Readable .expression s height (like n)) :
    Readable .field (⟨.ident, name⟩ :: Spelling.sign .colon :: s) height
      fun f => fieldsLike [⟨⟨name, q⟩, n, p⟩] [f] := by
  intro ts hts
  obtain ⟨key, _, rfl, hkey, hrest⟩ := hts.cons
  obtain ⟨colon, us, rfl, -, hus⟩ := hrest.cons
  obtain ⟨m, hm, d, rfl⟩ := h us hus
  refine ⟨_, ?_, .field key.1 (.inl key.2) colon d, rfl⟩
  simp only [fieldsLike, fieldsUnplaced, Word.unplaced, word, hm, hkey]

theorem fields (hne : fs ≠ [])
    (h : List.Forall₂ (fun f s => Readable .field s (f.value.need + f.value.rank.depth + 1)
      fun g => fieldsLike [f] [g]) fs ss) :
    Readable .fields ([Spelling.sign .comma].intercalate ss) (needAsFields fs) (fieldsLike fs) := by
  induction h with
  | nil => exact absurd rfl hne
  | @cons f s fs ss hhead htail ih =>
    cases htail with
    | nil =>
      rw [List.intercalate_singleton, needAsFields, needAsFields, Nat.max_zero]
      intro ts hts
      obtain ⟨g, hg, d, hd⟩ := hhead ts hts
      exact ⟨[g], hg, .lastField d, hd⟩
    | @cons f' s' fs ss hhead' htail' =>
      rw [List.intercalate_cons_cons, List.append_assoc]
      intro ts hts
      obtain ⟨us, _, rfl, hus, hrest⟩ := hts.append
      obtain ⟨comma, vs, rfl, -, hvs⟩ := hrest.cons
      obtain ⟨g, hg, d, hd⟩ := hhead us hus
      obtain ⟨gs, hgs, e, he⟩ := ih (List.cons_ne_nil _ _) vs hvs
      refine ⟨g :: gs, ?_, .moreFields d comma e, ?_⟩
      · simp only [fieldsLike, fieldsUnplaced, List.cons.injEq, and_true] at hg hgs ⊢
        exact ⟨hg, hgs⟩
      · change max d.height e.height = _
        rw [hd, he]
        rfl

theorem fieldsItems
    (h : List.Forall₂ (fun f s => Readable .field s (f.value.need + f.value.rank.depth + 1)
      fun g => fieldsLike [f] [g]) fs ss) :
    Readable .fieldItems ([Spelling.sign .comma].intercalate ss) (needAsFields fs) (fieldsLike fs) := by
  intro ts hts
  by_cases hne : fs = []
  · subst hne
    cases h
    obtain rfl := List.map_eq_nil_iff.1 hts
    exact ⟨[], rfl, .noFields, rfl⟩
  · obtain ⟨gs, hgs, d, hd⟩ := fields hne h ts hts
    exact ⟨gs, hgs, .fieldItems d, hd⟩

end Readable

theorem readable_datum (d : Datum) : ReadableAt d.literal.rank d.spell d.literal.need (like d.literal) := by
  induction d with
  | boolean b =>
    rw [Datum.literal, Datum.spell]
    cases b with
    | true =>
      exact .leaf (w := ⟨"true", none⟩) (.boolean true) .yes (fun _ => rfl) fun v hv => by
        simp only [like, unplaced, Word.unplaced, hv]
    | false =>
      exact .leaf (w := ⟨"false", none⟩) (.boolean false) .no (fun _ => rfl) fun v hv => by
        simp only [like, unplaced, Word.unplaced, hv]
  | number n =>
    have hnumeral : ReadableAt .suffixed [⟨.number, n.natAbs.repr⟩] 2 (like (.number ⟨n.natAbs.repr, none⟩)) :=
      .leaf (w := ⟨n.natAbs.repr, none⟩) .number .number (fun _ => rfl) fun v hv => by
        simp only [like, unplaced, Word.unplaced, hv]
    rw [Datum.literal, Datum.spell]
    by_cases hn : n < 0
    · rw [if_pos hn, if_pos hn]
      exact .negate (hnumeral.fit .unary)
    · rw [if_neg hn, if_neg hn]
      exact hnumeral
  | string text =>
    rw [Datum.literal, Datum.spell]
    exact .leaf (w := ⟨text, none⟩) .string .string (fun _ => rfl) fun v hv => by
      simp only [like, unplaced, Word.unplaced, hv]
  | array items ih =>
    rw [Datum.literal, Datum.spell]
    refine (Readable.array (.expressionItems ?_)).primary
    rw [List.forall₂_map_left_iff, List.forall₂_map_right_iff, List.forall₂_same]
    exact fun d hd => (ih d hd).expression
  | record fields ih =>
    rw [Datum.literal, Datum.spell]
    refine (Readable.record (.fieldsItems ?_)).primary
    rw [List.forall₂_map_left_iff, List.forall₂_map_right_iff, List.forall₂_same]
    exact fun f hf => .identField (ih f hf).expression

end Grammar

section Sources

variable [Host]

theorem Program.parse_of_derivation {source : String} {tiles : List (Nat × Token)} {ts : List Token}
    {ns : List Node} (ht : Tiled source.toList [] tiles) (hts : tiles.map (·.2) = ts)
    (d : Grammar.Derivation .statements ts ns) :
    (d.height ≤ Host.grammar → parse source =
        .ok (.sequence ns (Grammar.startOf (ts ++ [endMark (.behind source.toList)])))) ∧
      (Host.grammar < d.height → ∃ place, parse source = .error (.syntactic (.nestingTooDeep place))) := by
  subst hts
  let mark : Grammar.Terminal .eof := ⟨endMark (.behind source.toList), rfl⟩
  have hprogram := Grammar.program_eq_of_derivation (Grammar.Stream.ahead_append ht.kind_ne_eof mark.2)
    (Grammar.Stream.endOf_append ht.kind_ne_eof mark.2) (.program d mark) Host.grammar
  have hparse : parse source =
      (Grammar.program Host.grammar (tiles.map (·.2) ++ [mark.1])).mapError .syntactic := by
    rw [parse, scan_of_tiled ht]
    rfl
  rw [hparse]
  constructor
  · intro hle
    rw [Grammar.eq_of_settled_within hprogram hle]
    rfl
  · intro hlt
    obtain ⟨place, hplace⟩ := Grammar.exists_cut_of_settled_within hprogram hlt
    rw [hplace]
    exact ⟨place, rfl⟩

omit [Host] in
theorem Datum.Writable.exists_tiles {d : Datum} (h : d.Writable) :
    ∃ tiles, Tiled ("return " ++ d.text ++ ";").toList [] tiles ∧
      Grammar.Spells (tiles.map (·.2)) (.sign .returnWord :: d.spell ++ [.sign .semicolon]) := by
  have hvalue : Covers (fun _ => True) (d.text.toList ++ [';']) (d.spell ++ [.sign .semicolon]) :=
    h.covers.append (.sign (by decide) (by decide) (by decide)) (by simp [Delimited])
  have hsource : Covers (fun _ => True) ("return".toList ++ ([' '] ++ (d.text.toList ++ [';'])))
      ([.sign .returnWord] ++ ([] ++ (d.spell ++ [.sign .semicolon]))) :=
    (Covers.keyword (by decide)).append (Covers.blank.followedBy hvalue) (by simp [Delimited])
  have htext : ("return " ++ d.text ++ ";").toList = "return".toList ++ ([' '] ++ (d.text.toList ++ [';'])) := by
    rw [String.toList_append, String.toList_append, List.append_assoc]
    rfl
  rw [htext]
  obtain ⟨tiles, htiles, hspells⟩ := hsource [] [] [] trivial (Tiled.nil _)
  refine ⟨tiles, htiles, ?_⟩
  rw [Grammar.Spells, List.map_map]
  exact hspells

theorem Datum.Writable.parse_eq {d : Datum} (h : d.Writable) :
    ∃ m p q, Grammar.like d.literal m ∧
      ((Node.giveBack (some d.literal) none).need ≤ Host.grammar →
        Program.parse ("return " ++ d.text ++ ";") = .ok (.sequence [.giveBack (some m) p] q)) ∧
      (Host.grammar < (Node.giveBack (some d.literal) none).need →
        ∃ place, Program.parse ("return " ++ d.text ++ ";") = .error (.syntactic (.nestingTooDeep place))) := by
  obtain ⟨tiles, htiles, hspells⟩ := h.exists_tiles
  obtain ⟨mark, _, hts, -, hrest⟩ := hspells.cons
  obtain ⟨us, _, rfl, hus, hend⟩ := hrest.append
  obtain ⟨stop, rfl⟩ := hend.sign
  obtain ⟨m, hm, e, he⟩ := (Grammar.readable_datum d).expression us hus
  let whole : Grammar.Derivation .statements (mark.1 :: us ++ [stop.1] ++ []) _ :=
    .moreStatements (.giveBackValue mark e stop) .noStatements
  have hheight : whole.height = (Node.giveBack (some d.literal) none).need := by
    change max (e.height + 2) 0 = _
    rw [he, Nat.max_zero]
    rfl
  have hparse := Program.parse_of_derivation htiles (by rw [hts, List.append_nil]; rfl) whole
  rw [hheight] at hparse
  exact ⟨m, _, _, hm, hparse⟩

end Sources

end Scripting
