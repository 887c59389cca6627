import Scripting.Proofs.Grammar.Derivation
import Scripting.Proofs.Grammar.Reading

/-!
What the parser accepts is derivable. Each rule of the parser is followed from its result back to the
tokens it took; the rules call each other with a smaller nesting allowance, on which the induction is.
-/

set_option autoImplicit false

namespace Scripting.Grammar

/-- The tokens are a phrase of the category, nested no more deeply than the allowance. -/
def Derives (depth : Nat) (c : Category) (ts : List Token) (n : c.Tree) : Prop :=
  ∃ d : Derivation c ts n, d.height ≤ depth

def Spans (depth : Nat) (c : Category) (s : Stream) (n : c.Tree) (u : Stream) : Prop :=
  ∃ ts, s.Reads ts u ∧ Derives depth c ts n

theorem Derivation.derives {depth : Nat} {c : Category} {ts us : List Token} {n : c.Tree}
    (d : Derivation c ts n) (hd : d.height ≤ depth) (h : ts = us) : Derives depth c us n :=
  h ▸ ⟨d, hd⟩

theorem Derives.startOf {depth : Nat} {c : Category} {ts : List Token} {n : c.Tree}
    {kinds : List Token.Kind} {s u : Stream} (h : Derives depth c ts n) (hs : s.Reads ts u)
    (hc : c.starts? = some kinds) : startOf ts = s.current.place := by
  obtain ⟨d, -⟩ := h
  obtain ⟨t, us, rfl, -⟩ := d.starts hc
  rw [hs.current_eq]
  rfl

/-! Chains. The phrase read so far grows to the right, and its first token stays. -/

theorem operatorChain_sound {level : Level} {operand : Parse Node} {depth : Nat}
    (hop : ∀ {s n u}, operand s = .ok (n, u) → Spans depth (.operand level) s n u)
    (rounds : Nat) {s t u : Stream} {ts : List Token} {l n : Node} (hs : s.Reads ts t)
    (hl : Derives (depth + 2) (.binary level) ts l)
    (h : operatorChain level operand s.current.place rounds l t = .ok (n, u)) :
    Spans (depth + 2) (.binary level) s n u := by
  induction rounds generalizing ts t l with
  | zero => exact (tooDeep_eq_ok.1 h).elim
  | succ rounds ih =>
    simp only [operatorChain, bind_eq_ok, peek_eq_ok] at h
    obtain ⟨sign, _, ⟨rfl, rfl⟩, h⟩ := h
    by_cases hk : t.current.kind ∈ level.operators
    · rw [if_pos hk] at h
      simp only [bind_eq_ok, take_eq_ok] at h
      obtain ⟨_, _, ⟨rfl, rfl⟩, r, v, hr, h⟩ := h
      obtain ⟨us, hus, d, hd⟩ := hop hr
      have hsign := Stream.reads_rest (Level.ne_eof_of_mem hk)
      have hp := hl.startOf hs rfl
      obtain ⟨e, he⟩ := hl
      refine ih (hs.trans (hsign.trans hus)) ?_ h
      rw [← hp]
      exact ⟨.operate e _ hk d, Nat.max_le.2 ⟨he, by omega⟩⟩
    · rw [if_neg hk] at h
      obtain ⟨rfl, rfl⟩ := pure_eq_ok.1 h
      exact ⟨ts, hs, hl⟩

theorem suffixChain_sound {args : Parse (List Node × Option Place)} {index : Parse Node}
    {depth : Nat}
    (hargs : ∀ {s ns p u}, s.current.kind = .leftParen → args s = .ok ((ns, p), u) →
      p = s.current.place ∧ Spans depth .arguments s ns u)
    (hindex : ∀ {s n u}, index s = .ok (n, u) → Spans depth .expression s n u)
    (rounds : Nat) {s t u : Stream} {ts : List Token} {m : Bool} {b n : Node} (hs : s.Reads ts t)
    (hb : Derives (depth + 1) (.suffixed m) ts b) (hm : m = true → t.current.kind ≠ .leftParen)
    (h : suffixChain args index s.current.place rounds b t = .ok (n, u)) :
    ∃ m, Spans (depth + 1) (.suffixed m) s n u := by
  induction rounds generalizing ts t m b with
  | zero => exact (tooDeep_eq_ok.1 h).elim
  | succ rounds ih =>
    have hp := hb.startOf hs rfl
    obtain ⟨e, he⟩ := hb
    rw [suffixChain_run] at h
    split at h
    · rename_i hk
      -- A member before a parenthesis would have been read as a method call.
      obtain rfl : m = false := by
        cases m with
        | false => rfl
        | true => exact absurd hk (hm rfl)
      simp only [bind_eq_ok] at h
      obtain ⟨⟨ns, p⟩, v, ha, h⟩ := h
      obtain ⟨rfl, us, hus, ha⟩ := hargs hk ha
      have hq := ha.startOf hus rfl
      obtain ⟨d, hd⟩ := ha
      refine ih (m := false) (hs.trans hus) ?_ (by simp) h
      rw [← hp, ← hq]
      exact ⟨.call e d, Nat.max_le.2 ⟨he, by omega⟩⟩
    · rename_i hk
      simp only [bind_eq_ok] at h
      obtain ⟨key, v, hkey, right, w, hright, h⟩ := h
      obtain ⟨us, hus, d, hd⟩ := hindex hkey
      obtain ⟨hrk, hr⟩ := reads_of_need (by decide) hright
      have hl := Stream.reads_rest (s := t) (by rw [hk]; decide)
      refine ih (m := false) (hs.trans (hl.trans (hus.trans hr))) ?_ (by simp) h
      rw [← hp]
      exact (Derivation.index e ⟨t.current, hk⟩ d ⟨right, hrk⟩).derives
        (Nat.max_le.2 ⟨he, by omega⟩) (by simp)
    · rename_i hk
      simp only [bind_eq_ok, peek_eq_ok] at h
      obtain ⟨name, v, hname, _, _, ⟨rfl, rfl⟩, h⟩ := h
      obtain ⟨hnk, hn⟩ := reads_of_need (by decide) hname
      have hl := Stream.reads_rest (s := t) (by rw [hk]; decide)
      by_cases hpar : v.current.kind = .leftParen
      · rw [if_pos hpar] at h
        simp only [bind_eq_ok] at h
        obtain ⟨⟨ns, p⟩, w, ha, h⟩ := h
        obtain ⟨rfl, us, hus, ha⟩ := hargs hpar ha
        have hq := ha.startOf hus rfl
        obtain ⟨d, hd⟩ := ha
        refine ih (m := false) (hs.trans (hl.trans (hn.trans hus))) ?_ (by simp) h
        rw [← hp, ← hq]
        exact (Derivation.methodCall e ⟨t.current, hk⟩ ⟨name, hnk⟩ d).derives
          (Nat.max_le.2 ⟨he, by omega⟩) (by simp)
      · rw [if_neg hpar] at h
        refine ih (m := true) (hs.trans (hl.trans hn)) ?_ (fun _ => hpar) h
        rw [← hp]
        exact (Derivation.member e ⟨t.current, hk⟩ ⟨name, hnk⟩).derives
          he (by simp)
    · cases h
      exact ⟨m, ts, hs, e, he⟩

/-! Lists. -/

section Lists

variable {α : Type} {item : Parse α} {One : List Token → α → Prop}
  {Many : List Token → List α → Prop}

theorem commaList_sound
    (hitem : ∀ {s x u}, item s = .ok (x, u) → ∃ ts, s.Reads ts u ∧ One ts x)
    (hone : ∀ {ts x}, One ts x → Many ts [x])
    (hmore : ∀ {ts x us xs} (comma : Terminal .comma), One ts x → Many us xs →
      Many (ts ++ comma.1 :: us) (x :: xs))
    (rounds : Nat) {s u : Stream} {xs : List α} (h : commaList item rounds s = .ok (xs, u)) :
    ∃ ts, s.Reads ts u ∧ Many ts xs := by
  induction rounds generalizing s xs with
  | zero => exact (tooDeep_eq_ok.1 h).elim
  | succ rounds ih =>
    simp only [commaList, bind_eq_ok] at h
    obtain ⟨x, t, hx, b, v, hb, h⟩ := h
    obtain ⟨ts, hts, ho⟩ := hitem hx
    rcases reads_of_takeIf (by decide) hb with ⟨rfl, hk, hc⟩ | ⟨rfl, -, rfl⟩
    · simp only [if_true, bind_eq_ok, pure_eq_ok] at h
      obtain ⟨xs, _, hxs, rfl, rfl⟩ := h
      obtain ⟨us, hus, hm⟩ := ih hxs
      exact ⟨_, hts.trans (hc.trans hus), hmore ⟨_, hk⟩ ho hm⟩
    · simp only [Bool.false_eq_true, if_false, pure_eq_ok] at h
      obtain ⟨rfl, rfl⟩ := h
      exact ⟨ts, hts, hone ho⟩

theorem closedList_sound {close : Token.Kind}
    (hitem : ∀ {s x u}, item s = .ok (x, u) → ∃ ts, s.Reads ts u ∧ One ts x)
    (hone : ∀ {ts x}, One ts x → Many ts [x])
    (hmore : ∀ {ts x us xs} (comma : Terminal .comma), One ts x → Many us xs →
      Many (ts ++ comma.1 :: us) (x :: xs))
    (rounds : Nat) {s u : Stream} {xs : List α}
    (h : closedList close item rounds s = .ok (xs, u)) :
    ∃ ts, s.Reads ts u ∧ ((ts = [] ∧ xs = []) ∨ Many ts xs ∨
      ∃ us, ∃ comma : Terminal .comma, ts = us ++ [comma.1] ∧ Many us xs) := by
  induction rounds generalizing s xs with
  | zero => exact (tooDeep_eq_ok.1 h).elim
  | succ rounds ih =>
    simp only [closedList, bind_eq_ok, peek_eq_ok] at h
    obtain ⟨_, _, ⟨rfl, rfl⟩, h⟩ := h
    by_cases hclose : s.current.kind = close
    · simp only [hclose, if_true, pure_eq_ok] at h
      obtain ⟨rfl, rfl⟩ := h
      exact ⟨[], .refl s, .inl ⟨rfl, rfl⟩⟩
    · simp only [hclose, if_false, bind_eq_ok] at h
      obtain ⟨x, t, hx, b, v, hb, h⟩ := h
      obtain ⟨ts, hts, ho⟩ := hitem hx
      rcases reads_of_takeIf (by decide) hb with ⟨rfl, hk, hc⟩ | ⟨rfl, -, rfl⟩
      · simp only [if_true, bind_eq_ok, pure_eq_ok] at h
        obtain ⟨xs, _, hxs, rfl, rfl⟩ := h
        obtain ⟨us, hus, hm⟩ := ih hxs
        refine ⟨_, hts.trans (hc.trans hus), .inr ?_⟩
        rcases hm with ⟨rfl, rfl⟩ | hm | ⟨vs, comma, rfl, hm⟩
        · exact .inr ⟨ts, ⟨_, hk⟩, rfl, hone ho⟩
        · exact .inl (hmore ⟨_, hk⟩ ho hm)
        · exact .inr ⟨_, comma, by simp, hmore ⟨_, hk⟩ ho hm⟩
      · simp only [Bool.false_eq_true, if_false, pure_eq_ok] at h
        obtain ⟨rfl, rfl⟩ := h
        exact ⟨ts, hts, .inr (.inl (hone ho))⟩

end Lists

section Expressions

variable {depth : Nat} {value : Parse Node}

theorem Derives.lastExpression {ts : List Token} {n : Node} (h : Derives depth .expression ts n) :
    Derives depth .expressions ts [n] := by
  obtain ⟨d, hd⟩ := h
  exact ⟨.lastExpression d, hd⟩

theorem Derives.moreExpressions {ts us : List Token} {n : Node} {ns : List Node}
    (comma : Terminal .comma) (h : Derives depth .expression ts n)
    (h' : Derives depth .expressions us ns) :
    Derives depth .expressions (ts ++ comma.1 :: us) (n :: ns) := by
  obtain ⟨d, hd⟩ := h
  obtain ⟨e, he⟩ := h'
  exact ⟨.moreExpressions d comma e, Nat.max_le.2 ⟨hd, he⟩⟩

theorem Derives.lastField {ts : List Token} {f : Field Node} (h : Derives depth .field ts f) :
    Derives depth .fields ts [f] := by
  obtain ⟨d, hd⟩ := h
  exact ⟨.lastField d, hd⟩

theorem Derives.moreFields {ts us : List Token} {f : Field Node} {fs : List (Field Node)}
    (comma : Terminal .comma) (h : Derives depth .field ts f)
    (h' : Derives depth .fields us fs) :
    Derives depth .fields (ts ++ comma.1 :: us) (f :: fs) := by
  obtain ⟨d, hd⟩ := h
  obtain ⟨e, he⟩ := h'
  exact ⟨.moreFields d comma e, Nat.max_le.2 ⟨hd, he⟩⟩

theorem items_sound (hv : ∀ {s n u}, value s = .ok (n, u) → Spans depth .expression s n u)
    (rounds : Nat) {s u : Stream} {ns : List Node}
    (h : closedList .rightSquare value rounds s = .ok (ns, u)) : Spans depth .items s ns u := by
  obtain ⟨ts, hts, h⟩ := closedList_sound hv Derives.lastExpression Derives.moreExpressions rounds h
  refine ⟨ts, hts, ?_⟩
  rcases h with ⟨rfl, rfl⟩ | ⟨d, hd⟩ | ⟨us, comma, rfl, d, hd⟩
  · exact ⟨.noItems, Nat.zero_le _⟩
  · exact ⟨.items d, hd⟩
  · exact ⟨.itemsComma d comma, hd⟩

theorem recordField_sound (hv : ∀ {s n u}, value s = .ok (n, u) → Spans depth .expression s n u)
    {s u : Stream} {f : Field Node} (h : recordField value s = .ok (f, u)) :
    Spans depth .field s f u := by
  simp only [recordField, bind_eq_ok, peek_eq_ok] at h
  obtain ⟨_, _, ⟨rfl, rfl⟩, h⟩ := h
  by_cases hk : s.current.kind = .ident ∨ s.current.kind = .string
  · simp only [Bool.or_eq_true, decide_eq_true_eq, hk, if_true, bind_eq_ok, take_eq_ok,
      pure_eq_ok] at h
    obtain ⟨_, _, ⟨rfl, rfl⟩, colon, t, hcolon, n, v, hn, rfl, rfl⟩ := h
    obtain ⟨hck, hc⟩ := reads_of_need (by decide) hcolon
    obtain ⟨ts, hts, d, hd⟩ := hv hn
    have hkey := Stream.reads_rest (s := s) (by rcases hk with hk | hk <;> rw [hk] <;> decide)
    exact ⟨_, hkey.trans (hc.trans hts), .field _ hk ⟨colon, hck⟩ d, hd⟩
  · simp only [Bool.or_eq_true, decide_eq_true_eq, hk, if_false, throw_eq_ok] at h

theorem fieldItems_sound (hv : ∀ {s n u}, value s = .ok (n, u) → Spans depth .expression s n u)
    (rounds : Nat) {s u : Stream} {fs : List (Field Node)}
    (h : closedList .rightBrace (recordField value) rounds s = .ok (fs, u)) :
    Spans depth .fieldItems s fs u := by
  obtain ⟨ts, hts, h⟩ :=
    closedList_sound (recordField_sound hv) Derives.lastField Derives.moreFields rounds h
  refine ⟨ts, hts, ?_⟩
  rcases h with ⟨rfl, rfl⟩ | ⟨d, hd⟩ | ⟨us, comma, rfl, d, hd⟩
  · exact ⟨.noFields, Nat.zero_le _⟩
  · exact ⟨.fieldItems d, hd⟩
  · exact ⟨.fieldsComma d comma, hd⟩

end Expressions

structure ExpressionsSound (rounds depth : Nat) : Prop where
  expression : ∀ {s n u}, expression rounds depth s = .ok (n, u) → Spans depth .expression s n u
  assignment : ∀ {s n u}, assignment rounds depth s = .ok (n, u) → Spans depth .assignment s n u
  binary : ∀ {level s n u}, binary rounds level depth s = .ok (n, u) →
    Spans depth (.binary level) s n u
  unary : ∀ {s n u}, unary rounds depth s = .ok (n, u) → Spans depth .unary s n u
  suffixed : ∀ {s n u}, suffixed rounds depth s = .ok (n, u) →
    ∃ m, Spans depth (.suffixed m) s n u
  arguments : ∀ {s ns p u}, s.current.kind = .leftParen →
    arguments rounds depth s = .ok ((ns, p), u) →
    p = s.current.place ∧ Spans depth .arguments s ns u
  primary : ∀ {s n u}, primary rounds depth s = .ok (n, u) → Spans depth .primary s n u
  recordFields : ∀ {s fs u}, recordFields rounds depth s = .ok (fs, u) →
    ∃ ts, ∃ right : Terminal .rightBrace, ∃ d : Derivation .fieldItems ts fs,
      s.Reads (ts ++ [right.1]) u ∧ d.height + 1 ≤ depth

section ExpressionRules

variable {rounds depth : Nat} {s u : Stream} {n : Node}

theorem expression_sound (ih : ExpressionsSound rounds depth)
    (h : expression rounds (depth + 1) s = .ok (n, u)) : Spans (depth + 1) .expression s n u := by
  obtain ⟨ts, hts, d, hd⟩ := ih.assignment h
  exact ⟨ts, hts, .expression d, Nat.succ_le_succ hd⟩

theorem assignment_sound (ih : ExpressionsSound rounds depth)
    (h : assignment rounds (depth + 1) s = .ok (n, u)) : Spans (depth + 1) .assignment s n u := by
  simp only [assignment, bind_eq_ok, peek_eq_ok] at h
  obtain ⟨_, _, ⟨rfl, rfl⟩, target, t, ht, _, _, ⟨rfl, rfl⟩, h⟩ := h
  obtain ⟨ts, hts, hd⟩ := ih.binary ht
  have hp := hd.startOf hts rfl
  obtain ⟨d, hd⟩ := hd
  by_cases hk : t.current.kind = .assign
  · rw [if_pos hk] at h
    simp only [bind_eq_ok, take_eq_ok] at h
    obtain ⟨_, _, ⟨rfl, rfl⟩, v, w, hv, h⟩ := h
    obtain ⟨us, hus, e, he⟩ := ih.assignment hv
    have hr := hts.trans ((Stream.reads_rest (s := t) (by rw [hk]; decide)).trans hus)
    split at h
    · obtain ⟨rfl, rfl⟩ := pure_eq_ok.1 h
      refine ⟨_, hr, ?_⟩
      rw [← hp]
      exact ⟨.assign d ⟨_, hk⟩ e, Nat.succ_le_succ (Nat.max_le.2 ⟨by omega, by omega⟩)⟩
    · obtain ⟨rfl, rfl⟩ := pure_eq_ok.1 h
      refine ⟨_, hr, ?_⟩
      rw [← hp]
      exact ⟨.assignItem d ⟨_, hk⟩ e, Nat.succ_le_succ (Nat.max_le.2 ⟨by omega, by omega⟩)⟩
    · exact (throw_eq_ok.1 h).elim
  · rw [if_neg hk] at h
    obtain ⟨rfl, rfl⟩ := pure_eq_ok.1 h
    exact ⟨ts, hts, .unassigned d, Nat.succ_le_succ hd⟩

theorem operand_sound (ih : ExpressionsSound rounds depth) {level : Level}
    (h : (match level.tighter? with
      | some tighter => binary rounds tighter depth
      | none => unary rounds depth) s = .ok (n, u)) : Spans depth (.operand level) s n u := by
  cases hl : level.tighter? with
  | some next =>
    rw [hl] at h
    obtain ⟨ts, hts, d, hd⟩ := ih.binary h
    exact ⟨ts, hts, .tighter hl d, hd⟩
  | none =>
    rw [hl] at h
    obtain rfl : level = .product := by cases level <;> first | rfl | cases hl
    obtain ⟨ts, hts, d, hd⟩ := ih.unary h
    exact ⟨ts, hts, .factor d, hd⟩

theorem binary_sound (ih : ExpressionsSound rounds depth) {level : Level}
    (h : binary rounds level (depth + 2) s = .ok (n, u)) :
    Spans (depth + 2) (.binary level) s n u := by
  simp only [binary, bind_eq_ok, peek_eq_ok] at h
  obtain ⟨_, _, ⟨rfl, rfl⟩, l, t, hl, h⟩ := h
  obtain ⟨ts, hts, d, hd⟩ := operand_sound ih hl
  exact operatorChain_sound (operand_sound ih) rounds hts ⟨.single d, Nat.add_le_add_right hd 2⟩ h

theorem unary_sound (ih : ExpressionsSound rounds depth)
    (h : unary rounds (depth + 1) s = .ok (n, u)) : Spans (depth + 1) .unary s n u := by
  simp only [unary, bind_eq_ok, peek_eq_ok] at h
  obtain ⟨_, _, ⟨rfl, rfl⟩, h⟩ := h
  by_cases hk : s.current.kind = .minus
  · rw [if_pos hk] at h
    simp only [bind_eq_ok, take_eq_ok, pure_eq_ok] at h
    obtain ⟨_, _, ⟨rfl, rfl⟩, e, t, he, rfl, rfl⟩ := h
    obtain ⟨ts, hts, d, hd⟩ := ih.unary he
    have hr := (Stream.reads_rest (s := s) (by rw [hk]; decide)).trans hts
    exact ⟨_, hr, .negate ⟨_, hk⟩ d, Nat.succ_le_succ hd⟩
  · rw [if_neg hk] at h
    obtain ⟨m, ts, hts, d, hd⟩ := ih.suffixed h
    exact ⟨ts, hts, .positive d, Nat.succ_le_succ hd⟩

theorem suffixed_sound (ih : ExpressionsSound rounds depth)
    (h : suffixed rounds (depth + 1) s = .ok (n, u)) :
    ∃ m, Spans (depth + 1) (.suffixed m) s n u := by
  simp only [suffixed, bind_eq_ok, peek_eq_ok] at h
  obtain ⟨_, _, ⟨rfl, rfl⟩, b, t, hb, h⟩ := h
  obtain ⟨ts, hts, d, hd⟩ := ih.primary hb
  exact suffixChain_sound ih.arguments ih.expression rounds hts (m := false)
    ⟨.bare d, Nat.succ_le_succ hd⟩ (by simp) h

theorem arguments_sound (ih : ExpressionsSound rounds depth) {ns : List Node} {p : Option Place}
    (hk : s.current.kind = .leftParen)
    (h : arguments rounds (depth + 1) s = .ok ((ns, p), u)) :
    p = s.current.place ∧ Spans (depth + 1) .arguments s ns u := by
  simp only [arguments, bind_eq_ok, take_eq_ok, peek_eq_ok] at h
  obtain ⟨_, _, ⟨rfl, rfl⟩, _, _, ⟨rfl, rfl⟩, h⟩ := h
  have hl := Stream.reads_rest (s := s) (by rw [hk]; decide)
  by_cases hr : s.rest.current.kind = .rightParen
  · rw [if_pos hr] at h
    simp only [bind_eq_ok, pure_eq_ok, Prod.mk.injEq] at h
    obtain ⟨_, _, ⟨rfl, rfl⟩, right, v, hright, ⟨rfl, rfl⟩, rfl⟩ := h
    obtain ⟨hrk, hr⟩ := reads_of_need (by decide) hright
    exact ⟨rfl, _, hl.trans hr, .noArguments ⟨_, hk⟩ ⟨_, hrk⟩, Nat.succ_le_succ (Nat.zero_le _)⟩
  · rw [if_neg hr] at h
    simp only [bind_eq_ok, pure_eq_ok, Prod.mk.injEq] at h
    obtain ⟨ns', t, hns, right, v, hright, ⟨rfl, rfl⟩, rfl⟩ := h
    obtain ⟨ts, hts, d, hd⟩ := commaList_sound ih.expression Derives.lastExpression
      Derives.moreExpressions rounds hns
    obtain ⟨hrk, hr⟩ := reads_of_need (by decide) hright
    exact ⟨rfl, _, hl.trans (hts.trans hr), .arguments ⟨_, hk⟩ d ⟨_, hrk⟩, Nat.succ_le_succ hd⟩

theorem primary_sound (ih : ExpressionsSound rounds depth)
    (h : primary rounds (depth + 1) s = .ok (n, u)) : Spans (depth + 1) .primary s n u := by
  rw [primary_run] at h
  have one : 1 ≤ depth + 1 := Nat.succ_le_succ (Nat.zero_le _)
  have first {kind : Token.Kind} (hk : s.current.kind = kind) (he : kind ≠ .eof) :
      s.Reads [s.current] s.rest := Stream.reads_rest (hk ▸ he)
  split at h
  · rename_i hk
    cases h
    exact ⟨_, first hk (by decide), .number ⟨_, hk⟩, one⟩
  · rename_i hk
    cases h
    exact ⟨_, first hk (by decide), .string ⟨_, hk⟩, one⟩
  · rename_i hk
    cases h
    exact ⟨_, first hk (by decide), .yes ⟨_, hk⟩, one⟩
  · rename_i hk
    cases h
    exact ⟨_, first hk (by decide), .no ⟨_, hk⟩, one⟩
  · rename_i hk
    cases h
    exact ⟨_, first hk (by decide), .name ⟨_, hk⟩, one⟩
  · rename_i hk
    simp only [bind_eq_ok, pure_eq_ok] at h
    obtain ⟨e, t, he, right, v, hright, rfl, rfl⟩ := h
    obtain ⟨ts, hts, d, hd⟩ := ih.expression he
    obtain ⟨hrk, hr⟩ := reads_of_need (by decide) hright
    exact ⟨_, (first hk (by decide)).trans (hts.trans hr), .group ⟨_, hk⟩ d ⟨_, hrk⟩,
      Nat.succ_le_succ hd⟩
  · rename_i hk
    simp only [bind_eq_ok, pure_eq_ok] at h
    obtain ⟨ns, t, hns, right, v, hright, rfl, rfl⟩ := h
    obtain ⟨ts, hts, d, hd⟩ := items_sound ih.expression rounds hns
    obtain ⟨hrk, hr⟩ := reads_of_need (by decide) hright
    exact ⟨_, (first hk (by decide)).trans (hts.trans hr), .array ⟨_, hk⟩ d ⟨_, hrk⟩,
      Nat.succ_le_succ hd⟩
  · rename_i hk
    simp only [bind_eq_ok, pure_eq_ok] at h
    obtain ⟨fs, t, hfs, rfl, rfl⟩ := h
    obtain ⟨ts, right, d, hts, hd⟩ := ih.recordFields hfs
    exact ⟨_, (first hk (by decide)).trans hts, .record ⟨_, hk⟩ d right, Nat.succ_le_succ hd⟩
  · cases h

theorem recordFields_sound (ih : ExpressionsSound rounds depth) {fs : List (Field Node)}
    (h : recordFields rounds (depth + 1) s = .ok (fs, u)) :
    ∃ ts, ∃ right : Terminal .rightBrace, ∃ d : Derivation .fieldItems ts fs,
      s.Reads (ts ++ [right.1]) u ∧ d.height + 1 ≤ depth + 1 := by
  simp only [recordFields, bind_eq_ok, pure_eq_ok] at h
  obtain ⟨fs', t, hfs, right, v, hright, rfl, rfl⟩ := h
  obtain ⟨ts, hts, d, hd⟩ := fieldItems_sound ih.expression rounds hfs
  obtain ⟨hrk, hr⟩ := reads_of_need (by decide) hright
  exact ⟨ts, ⟨right, hrk⟩, d, hts.trans hr, Nat.succ_le_succ hd⟩

end ExpressionRules

theorem expressionsSound (rounds depth : Nat) : ExpressionsSound rounds depth := by
  induction depth using Nat.strongRecOn with
  | _ depth ih =>
    match depth with
    | 0 =>
      constructor
      all_goals intros; rename_i h; exact (tooDeep_eq_ok.1 h).elim
    | 1 =>
      have ih := ih 0 (by omega)
      exact ⟨expression_sound ih, assignment_sound ih, fun h => (tooDeep_eq_ok.1 h).elim,
        unary_sound ih, suffixed_sound ih, arguments_sound ih, primary_sound ih,
        recordFields_sound ih⟩
    | depth + 2 =>
      have below := ih depth (by omega)
      have ih := ih (depth + 1) (by omega)
      exact ⟨expression_sound ih, assignment_sound ih, binary_sound below, unary_sound ih,
        suffixed_sound ih, arguments_sound ih, primary_sound ih, recordFields_sound ih⟩

/-- A statement stands between two streams. Where it ends in an `if` without an `else`, none follows. -/
def StatementSpans (depth : Nat) (s : Stream) (n : Node) (u : Stream) : Prop :=
  ∃ o, Spans depth (.statement o) s n u ∧ (o = true → u.current.kind ≠ .elseWord)

theorem Spans.statement {depth : Nat} {s u : Stream} {n : Node}
    (h : Spans depth (.statement false) s n u) : StatementSpans depth s n u :=
  ⟨false, h, by simp⟩

section Simple

variable {rounds depth : Nat} {s u : Stream} {n : Node}

theorem declaration_sound (hk : s.current.kind = .varWord)
    (h : declaration rounds depth s = .ok (n, u)) : Spans depth .declaration s n u := by
  cases depth with
  | zero => exact (tooDeep_eq_ok.1 h).elim
  | succ depth =>
    simp only [declaration, bind_eq_ok, take_eq_ok] at h
    obtain ⟨_, _, ⟨rfl, rfl⟩, name, t, hname, b, v, hb, h⟩ := h
    have hv := Stream.reads_rest (s := s) (by rw [hk]; decide)
    obtain ⟨hnk, hn⟩ := reads_of_need (by decide) hname
    rcases reads_of_takeIf (by decide) hb with ⟨rfl, hak, ha⟩ | ⟨rfl, -, rfl⟩
    · simp only [if_true, bind_eq_ok, map_eq_ok, pure_eq_ok] at h
      obtain ⟨_, w, ⟨e, he, rfl⟩, stop, x, hstop, rfl, rfl⟩ := h
      obtain ⟨ts, hts, d, hd⟩ := (expressionsSound rounds depth).expression he
      obtain ⟨hsk, hs⟩ := reads_of_need (by decide) hstop
      exact ⟨_, hv.trans (hn.trans (ha.trans (hts.trans hs))),
        .declareAs ⟨_, hk⟩ ⟨_, hnk⟩ ⟨_, hak⟩ d ⟨_, hsk⟩, Nat.succ_le_succ hd⟩
    · simp only [Bool.false_eq_true, if_false, bind_eq_ok, pure_eq_ok] at h
      obtain ⟨_, _, ⟨rfl, rfl⟩, stop, x, hstop, rfl, rfl⟩ := h
      obtain ⟨hsk, hs⟩ := reads_of_need (by decide) hstop
      exact ⟨_, hv.trans (hn.trans hs), .declare ⟨_, hk⟩ ⟨_, hnk⟩ ⟨_, hsk⟩,
        Nat.succ_le_succ (Nat.zero_le _)⟩

theorem printStatement_sound (hk : s.current.kind = .printWord)
    (h : printStatement rounds depth s = .ok (n, u)) : Spans (depth + 1) (.statement false) s n u := by
  cases depth with
  | zero => exact (tooDeep_eq_ok.1 h).elim
  | succ depth =>
    simp only [printStatement, bind_eq_ok, take_eq_ok, pure_eq_ok] at h
    obtain ⟨_, _, ⟨rfl, rfl⟩, e, t, he, stop, v, hstop, rfl, rfl⟩ := h
    obtain ⟨ts, hts, d, hd⟩ := (expressionsSound rounds depth).expression he
    have hp := Stream.reads_rest (s := s) (by rw [hk]; decide)
    obtain ⟨hsk, hs⟩ := reads_of_need (by decide) hstop
    exact ⟨_, hp.trans (hts.trans hs), .print ⟨_, hk⟩ d ⟨_, hsk⟩, Nat.add_le_add_right hd 2⟩

theorem returnStatement_sound (hk : s.current.kind = .returnWord)
    (h : returnStatement rounds depth s = .ok (n, u)) :
    Spans (depth + 1) (.statement false) s n u := by
  cases depth with
  | zero => exact (tooDeep_eq_ok.1 h).elim
  | succ depth =>
    simp only [returnStatement, bind_eq_ok, take_eq_ok, peek_eq_ok] at h
    obtain ⟨_, _, ⟨rfl, rfl⟩, _, _, ⟨rfl, rfl⟩, h⟩ := h
    have hr := Stream.reads_rest (s := s) (by rw [hk]; decide)
    by_cases hstop : s.rest.current.kind = .semicolon
    · rw [if_pos hstop] at h
      simp only [bind_eq_ok, pure_eq_ok] at h
      obtain ⟨_, _, ⟨rfl, rfl⟩, stop, v, hstop, rfl, rfl⟩ := h
      obtain ⟨hsk, hs⟩ := reads_of_need (by decide) hstop
      exact ⟨_, hr.trans hs, .giveBack ⟨_, hk⟩ ⟨_, hsk⟩, Nat.le_add_left 2 depth⟩
    · rw [if_neg hstop] at h
      simp only [bind_eq_ok, map_eq_ok, pure_eq_ok] at h
      obtain ⟨_, t, ⟨e, he, rfl⟩, stop, v, hstop, rfl, rfl⟩ := h
      obtain ⟨ts, hts, d, hd⟩ := (expressionsSound rounds depth).expression he
      obtain ⟨hsk, hs⟩ := reads_of_need (by decide) hstop
      exact ⟨_, hr.trans (hts.trans hs), .giveBackValue ⟨_, hk⟩ d ⟨_, hsk⟩,
        Nat.add_le_add_right hd 2⟩

theorem condition_sound (h : condition rounds depth s = .ok (n, u)) :
    ∃ ts, ∃ left : Terminal .leftParen, ∃ right : Terminal .rightParen,
      ∃ d : Derivation .expression ts n,
        s.Reads (left.1 :: ts ++ [right.1]) u ∧ d.height + 1 ≤ depth := by
  cases depth with
  | zero => exact (tooDeep_eq_ok.1 h).elim
  | succ depth =>
    simp only [condition, bind_eq_ok, pure_eq_ok] at h
    obtain ⟨left, t, hleft, e, v, he, right, w, hright, rfl, rfl⟩ := h
    obtain ⟨ts, hts, d, hd⟩ := (expressionsSound rounds depth).expression he
    obtain ⟨hlk, hl⟩ := reads_of_need (by decide) hleft
    obtain ⟨hrk, hr⟩ := reads_of_need (by decide) hright
    exact ⟨ts, ⟨_, hlk⟩, ⟨_, hrk⟩, d, hl.trans (hts.trans hr), Nat.succ_le_succ hd⟩

theorem expressionStatement_sound (h : expressionStatement rounds depth s = .ok (n, u)) :
    Spans depth .expressionStatement s n u := by
  cases depth with
  | zero => exact (tooDeep_eq_ok.1 h).elim
  | succ depth =>
    simp only [expressionStatement, bind_eq_ok, peek_eq_ok, pure_eq_ok] at h
    obtain ⟨_, _, ⟨rfl, rfl⟩, e, t, he, stop, v, hstop, rfl, rfl⟩ := h
    obtain ⟨ts, hts, hd⟩ := (expressionsSound rounds depth).expression he
    obtain ⟨hsk, hs⟩ := reads_of_need (by decide) hstop
    refine ⟨_, hts.trans hs, ?_⟩
    rw [← hd.startOf hts rfl]
    obtain ⟨d, hd⟩ := hd
    exact ⟨.evaluate d ⟨_, hsk⟩, Nat.succ_le_succ hd⟩

theorem loopStart_sound {start : Option Node} (h : loopStart rounds depth s = .ok (start, u)) :
    Spans depth .loopStart s start u := by
  rw [loopStart_run] at h
  split at h
  · rename_i hk
    obtain ⟨n, hn, rfl⟩ := map_eq_ok.1 h
    obtain ⟨ts, hts, d, hd⟩ := declaration_sound hk hn
    exact ⟨ts, hts, .startDeclaring d, hd⟩
  · rename_i hk
    cases h
    exact ⟨_, Stream.reads_rest (by rw [hk]; decide), .noStart ⟨_, hk⟩, Nat.zero_le _⟩
  · obtain ⟨n, hn, rfl⟩ := map_eq_ok.1 h
    obtain ⟨ts, hts, d, hd⟩ := expressionStatement_sound hn
    exact ⟨ts, hts, .startEvaluating d, hd⟩

theorem loopTest_sound (h : loopTest rounds depth s = .ok (n, u)) : Spans depth .loopTest s n u := by
  simp only [loopTest, bind_eq_ok, peek_eq_ok] at h
  obtain ⟨_, _, ⟨rfl, rfl⟩, h⟩ := h
  by_cases hk : s.current.kind = .semicolon
  · rw [if_pos hk] at h
    simp only [bind_eq_ok, pure_eq_ok] at h
    obtain ⟨_, _, ⟨rfl, rfl⟩, stop, t, hstop, rfl, rfl⟩ := h
    obtain ⟨hsk, hs⟩ := reads_of_need (by decide) hstop
    rw [hs.current_eq]
    exact ⟨_, hs, .noTest ⟨_, hsk⟩, Nat.zero_le _⟩
  · rw [if_neg hk] at h
    simp only [bind_eq_ok, pure_eq_ok] at h
    obtain ⟨e, t, he, stop, v, hstop, rfl, rfl⟩ := h
    obtain ⟨ts, hts, d, hd⟩ := (expressionsSound rounds depth).expression he
    obtain ⟨hsk, hs⟩ := reads_of_need (by decide) hstop
    exact ⟨_, hts.trans hs, .test d ⟨_, hsk⟩, hd⟩

theorem loopStep_sound {step : Option Node} (h : loopStep rounds depth s = .ok (step, u)) :
    Spans depth .loopStep s step u := by
  simp only [loopStep, bind_eq_ok, peek_eq_ok] at h
  obtain ⟨_, _, ⟨rfl, rfl⟩, h⟩ := h
  by_cases hk : s.current.kind = .rightParen
  · rw [if_pos hk] at h
    simp only [bind_eq_ok, pure_eq_ok] at h
    obtain ⟨_, _, ⟨rfl, rfl⟩, right, t, hright, rfl, rfl⟩ := h
    obtain ⟨hrk, hr⟩ := reads_of_need (by decide) hright
    exact ⟨_, hr, .noStep ⟨_, hrk⟩, Nat.zero_le _⟩
  · rw [if_neg hk] at h
    simp only [bind_eq_ok, map_eq_ok, pure_eq_ok] at h
    obtain ⟨_, t, ⟨e, he, rfl⟩, right, v, hright, rfl, rfl⟩ := h
    obtain ⟨ts, hts, hd⟩ := (expressionsSound rounds depth).expression he
    obtain ⟨hrk, hr⟩ := reads_of_need (by decide) hright
    refine ⟨_, hts.trans hr, ?_⟩
    rw [← hd.startOf hts rfl]
    obtain ⟨d, hd⟩ := hd
    exact ⟨.step d ⟨_, hrk⟩, hd⟩

theorem parameterNames_sound {seen : List String} {ws : List Word}
    (h : parameterNames seen rounds s = .ok (ws, u)) :
    Spans 0 .names s ws u ∧ (ws.map (·.text)).Nodup ∧ ∀ w ∈ ws, w.text ∉ seen := by
  induction rounds generalizing s seen ws with
  | zero => exact (tooDeep_eq_ok.1 h).elim
  | succ rounds ih =>
    simp only [parameterNames, bind_eq_ok] at h
    obtain ⟨t, v, ht, h⟩ := h
    obtain ⟨hk, hr⟩ := reads_of_need (by decide) ht
    by_cases hseen : t.text ∈ seen
    · simp only [hseen, if_true, throw_eq_ok] at h
    · simp only [hseen, if_false, bind_eq_ok] at h
      obtain ⟨b, w, hb, h⟩ := h
      rcases reads_of_takeIf (by decide) hb with ⟨rfl, hck, hc⟩ | ⟨rfl, -, rfl⟩
      · simp only [if_true, bind_eq_ok, pure_eq_ok] at h
        obtain ⟨others, x, ho, rfl, rfl⟩ := h
        obtain ⟨⟨ts, hts, d, -⟩, distinct, fresh⟩ := ih ho
        refine ⟨⟨_, hr.trans (hc.trans hts), .moreNames ⟨_, hk⟩ ⟨_, hck⟩ d, Nat.le_refl _⟩, ?_, ?_⟩
        · simp only [List.map_cons, List.nodup_cons, List.mem_map, not_exists, not_and]
          refine ⟨fun w hw he => fresh w hw ?_, distinct⟩
          rw [he]
          exact List.mem_cons_self
        · intro w hw
          rcases List.mem_cons.1 hw with rfl | hw
          · exact hseen
          · exact fun hm => fresh w hw (List.mem_cons_of_mem _ hm)
      · simp only [Bool.false_eq_true, if_false, pure_eq_ok] at h
        obtain ⟨rfl, rfl⟩ := h
        refine ⟨⟨_, hr, .lastName ⟨_, hk⟩, Nat.le_refl _⟩, by simp, ?_⟩
        simpa [word] using hseen

theorem parameters_sound {ps : Parameters} (h : parameters rounds depth s = .ok (ps, u)) :
    Spans 0 .parameters s ps u := by
  cases depth with
  | zero => exact (tooDeep_eq_ok.1 h).elim
  | succ depth =>
    simp only [parameters, bind_eq_ok, peek_eq_ok] at h
    obtain ⟨left, t, hleft, _, _, ⟨rfl, rfl⟩, h⟩ := h
    obtain ⟨hlk, hl⟩ := reads_of_need (by decide) hleft
    by_cases hk : t.current.kind = .rightParen
    · rw [if_pos hk] at h
      simp only [bind_eq_ok, pure_eq_ok] at h
      obtain ⟨_, _, ⟨rfl, rfl⟩, right, v, hright, rfl, rfl⟩ := h
      obtain ⟨hrk, hr⟩ := reads_of_need (by decide) hright
      exact ⟨_, hl.trans hr, .noParameters ⟨_, hlk⟩ ⟨_, hrk⟩, Nat.le_refl _⟩
    · rw [if_neg hk] at h
      simp only [bind_eq_ok, pure_eq_ok] at h
      obtain ⟨ws, v, hws, right, w, hright, rfl, rfl⟩ := h
      obtain ⟨⟨ts, hts, d, -⟩, distinct, -⟩ := parameterNames_sound hws
      obtain ⟨hrk, hr⟩ := reads_of_need (by decide) hright
      exact ⟨_, hl.trans (hts.trans hr), .parameters ⟨_, hlk⟩ d ⟨_, hrk⟩ distinct, Nat.le_refl _⟩

end Simple

section Sequences

variable {depth : Nat} {item : Parse Node}

theorem Derives.moreStatements {o : Bool} {ts us : List Token} {n : Node} {ns : List Node}
    (h : Derives depth (.statement o) ts n) (h' : Derives depth .statements us ns) :
    Derives depth .statements (ts ++ us) (n :: ns) := by
  obtain ⟨d, hd⟩ := h
  obtain ⟨e, he⟩ := h'
  exact ⟨.moreStatements d e, Nat.max_le.2 ⟨hd, he⟩⟩

theorem bracedList_sound
    (hitem : ∀ {s n u}, item s = .ok (n, u) → StatementSpans depth s n u) (rounds : Nat)
    {s u : Stream} {ns : List Node} (h : bracedList item rounds s = .ok (ns, u)) :
    ∃ ts, ∃ right : Terminal .rightBrace, s.Reads (ts ++ [right.1]) u ∧
      Derives depth .statements ts ns := by
  induction rounds generalizing s ns with
  | zero => exact (tooDeep_eq_ok.1 h).elim
  | succ rounds ih =>
    simp only [bracedList, bind_eq_ok, peek_eq_ok] at h
    obtain ⟨_, _, ⟨rfl, rfl⟩, h⟩ := h
    by_cases hk : s.current.kind = .rightBrace
    · simp only [hk, if_true, bind_eq_ok, take_eq_ok, pure_eq_ok] at h
      obtain ⟨_, _, ⟨rfl, rfl⟩, rfl, rfl⟩ := h
      exact ⟨[], ⟨_, hk⟩, Stream.reads_rest (by rw [hk]; decide), .noStatements, Nat.zero_le _⟩
    · rw [if_neg hk] at h
      by_cases he : s.current.kind = .eof
      · simp only [he, if_true, throw_eq_ok] at h
      · simp only [he, if_false, bind_eq_ok, pure_eq_ok] at h
        obtain ⟨n, t, hn, ms, v, hms, rfl, rfl⟩ := h
        obtain ⟨o, ⟨ts, hts, hd⟩, -⟩ := hitem hn
        obtain ⟨us, right, hus, hm⟩ := ih hms
        exact ⟨ts ++ us, right, List.append_assoc ts us _ ▸ hts.trans hus, hd.moreStatements hm⟩

theorem wholeList_sound
    (hitem : ∀ {s n u}, item s = .ok (n, u) → StatementSpans depth s n u) (rounds : Nat)
    {s u : Stream} {ns : List Node} (h : wholeList item rounds s = .ok (ns, u)) :
    Derives depth .statements s.ahead ns := by
  induction rounds generalizing s ns with
  | zero => exact (tooDeep_eq_ok.1 h).elim
  | succ rounds ih =>
    simp only [wholeList, bind_eq_ok, peek_eq_ok] at h
    obtain ⟨_, _, ⟨rfl, rfl⟩, h⟩ := h
    by_cases he : s.current.kind = .eof
    · simp only [he, if_true, pure_eq_ok] at h
      obtain ⟨rfl, rfl⟩ := h
      rw [Stream.ahead_eq_nil he]
      exact ⟨.noStatements, Nat.zero_le _⟩
    · simp only [he, if_false, bind_eq_ok, pure_eq_ok] at h
      obtain ⟨n, t, hn, ms, v, hms, rfl, rfl⟩ := h
      obtain ⟨o, ⟨ts, hts, hd⟩, -⟩ := hitem hn
      rw [hts.ahead_eq]
      exact hd.moreStatements (ih hms)

end Sequences

section StatementRules

variable {rounds depth : Nat} {s u : Stream} {n : Node}

theorem statements_sound {ns : List Node}
    (ih : ∀ d < depth, ∀ {s n u}, statement rounds d s = .ok (n, u) → StatementSpans d s n u)
    (h : statements rounds depth s = .ok (ns, u)) :
    ∃ ts, ∃ right : Terminal .rightBrace, ∃ d : Derivation .statements ts ns,
      s.Reads (ts ++ [right.1]) u ∧ d.height + 1 ≤ depth := by
  cases depth with
  | zero => exact (tooDeep_eq_ok.1 h).elim
  | succ depth =>
    obtain ⟨ts, right, hts, d, hd⟩ := bracedList_sound (ih depth (by omega)) rounds h
    exact ⟨ts, right, d, hts, Nat.succ_le_succ hd⟩

theorem functionDefinition_sound
    (ih : ∀ d < depth, ∀ {s n u}, statement rounds d s = .ok (n, u) → StatementSpans d s n u)
    (hk : s.current.kind = .funWord)
    (h : functionDefinition rounds (depth + 1) s = .ok (n, u)) :
    StatementSpans (depth + 2) s n u := by
  simp only [functionDefinition, bind_eq_ok, take_eq_ok, pure_eq_ok] at h
  obtain ⟨_, _, ⟨rfl, rfl⟩, name, t, hname, ps, v, hps, left, w, hleft, ns, x, hns, rfl, rfl⟩ := h
  have hf := Stream.reads_rest (s := s) (by rw [hk]; decide)
  obtain ⟨hnk, hn⟩ := reads_of_need (by decide) hname
  obtain ⟨ts, hts, params, -⟩ := parameters_sound hps
  obtain ⟨hlk, hl⟩ := reads_of_need (by decide) hleft
  obtain ⟨us, right, d, hus, hd⟩ := statements_sound ih hns
  refine Spans.statement ⟨_, hf.trans (hn.trans (hts.trans (hl.trans hus))), ?_⟩
  exact (Derivation.function ⟨_, hk⟩ ⟨_, hnk⟩ params ⟨_, hlk⟩ d right).derives
    (Nat.add_le_add_right hd 2) (by simp)

theorem blockStatement_sound
    (ih : ∀ d < depth, ∀ {s n u}, statement rounds d s = .ok (n, u) → StatementSpans d s n u)
    (hk : s.current.kind = .leftBrace)
    (h : blockStatement rounds (depth + 1) s = .ok (n, u)) : StatementSpans (depth + 2) s n u := by
  simp only [blockStatement, bind_eq_ok, take_eq_ok, pure_eq_ok] at h
  obtain ⟨_, _, ⟨rfl, rfl⟩, ns, t, hns, rfl, rfl⟩ := h
  have hl := Stream.reads_rest (s := s) (by rw [hk]; decide)
  obtain ⟨ts, right, d, hts, hd⟩ := statements_sound ih hns
  exact Spans.statement ⟨_, hl.trans hts, .block ⟨_, hk⟩ d right, Nat.add_le_add_right hd 2⟩

theorem whileStatement_sound
    (ih : ∀ {s n u}, statement rounds depth s = .ok (n, u) → StatementSpans depth s n u)
    (hk : s.current.kind = .whileWord)
    (h : whileStatement rounds (depth + 1) s = .ok (n, u)) : StatementSpans (depth + 2) s n u := by
  simp only [whileStatement, bind_eq_ok, take_eq_ok, pure_eq_ok] at h
  obtain ⟨_, _, ⟨rfl, rfl⟩, c, t, hc, b, v, hb, rfl, rfl⟩ := h
  have hw := Stream.reads_rest (s := s) (by rw [hk]; decide)
  obtain ⟨ts, left, right, d, hts, hd⟩ := condition_sound hc
  obtain ⟨o, ⟨us, hus, e, he⟩, hne⟩ := ih hb
  refine ⟨o, ⟨_, hw.trans (hts.trans hus), ?_⟩, hne⟩
  exact (Derivation.loop ⟨_, hk⟩ left d right e).derives
    (Nat.add_le_add_right (Nat.max_le.2 ⟨by omega, he⟩) 2) (by simp)

theorem forStatement_sound
    (ih : ∀ {s n u}, statement rounds depth s = .ok (n, u) → StatementSpans depth s n u)
    (hk : s.current.kind = .forWord)
    (h : forStatement rounds (depth + 1) s = .ok (n, u)) : StatementSpans (depth + 2) s n u := by
  simp only [forStatement, bind_eq_ok, take_eq_ok, pure_eq_ok] at h
  obtain ⟨_, _, ⟨rfl, rfl⟩, left, t, hleft, start, v, hstart, test, w, htest, step, x, hstep, b, y,
    hb, rfl, rfl⟩ := h
  have hf := Stream.reads_rest (s := s) (by rw [hk]; decide)
  obtain ⟨hlk, hl⟩ := reads_of_need (by decide) hleft
  obtain ⟨ts, hts, d, hd⟩ := loopStart_sound hstart
  obtain ⟨us, hus, e, he⟩ := loopTest_sound htest
  obtain ⟨vs, hvs, f, hf'⟩ := loopStep_sound hstep
  obtain ⟨o, ⟨ws, hws, g, hg⟩, hne⟩ := ih hb
  refine ⟨o, ⟨_, hf.trans (hl.trans (hts.trans (hus.trans (hvs.trans hws)))), ?_⟩, hne⟩
  exact (Derivation.counted ⟨_, hk⟩ ⟨_, hlk⟩ d e f g).derives
    (Nat.add_le_add_right (Nat.max_le.2 ⟨Nat.max_le.2 ⟨hd, he⟩, Nat.max_le.2 ⟨hf', hg⟩⟩) 2) (by simp)

/-- An `else` after the first branch is taken at once, so that branch does not end in an `if` that
    could have it. -/
theorem ifStatement_sound
    (ih : ∀ {s n u}, statement rounds depth s = .ok (n, u) → StatementSpans depth s n u)
    (hk : s.current.kind = .ifWord)
    (h : ifStatement rounds (depth + 1) s = .ok (n, u)) : StatementSpans (depth + 2) s n u := by
  simp only [ifStatement, bind_eq_ok, take_eq_ok] at h
  obtain ⟨_, _, ⟨rfl, rfl⟩, c, t, hc, yes, v, hyes, b, w, hb, h⟩ := h
  have hi := Stream.reads_rest (s := s) (by rw [hk]; decide)
  obtain ⟨ts, left, right, d, hts, hd⟩ := condition_sound hc
  obtain ⟨o, ⟨us, hus, e, he⟩, hne⟩ := ih hyes
  rcases reads_of_takeIf (by decide) hb with ⟨rfl, hek, hother⟩ | ⟨rfl, hek, rfl⟩
  · simp only [if_true, bind_eq_ok, pure_eq_ok] at h
    obtain ⟨no, x, hno, rfl, rfl⟩ := h
    obtain ⟨p, ⟨vs, hvs, f, hf⟩, hnf⟩ := ih hno
    obtain rfl : o = false := by
      cases o with
      | false => rfl
      | true => exact absurd hek (hne rfl)
    refine ⟨p, ⟨_, hi.trans (hts.trans (hus.trans (hother.trans hvs))), ?_⟩, hnf⟩
    exact (Derivation.branches ⟨_, hk⟩ left d right e ⟨_, hek⟩ f).derives
      (Nat.add_le_add_right (Nat.max_le.2 ⟨by omega, Nat.max_le.2 ⟨he, hf⟩⟩) 2) (by simp)
  · simp only [Bool.false_eq_true, if_false, bind_eq_ok, pure_eq_ok] at h
    obtain ⟨_, _, ⟨rfl, rfl⟩, rfl, rfl⟩ := h
    refine ⟨true, ⟨_, hi.trans (hts.trans hus), ?_⟩, fun _ => hek⟩
    exact (Derivation.branch ⟨_, hk⟩ left d right e).derives
      (Nat.add_le_add_right (Nat.max_le.2 ⟨by omega, he⟩) 2) (by simp)

end StatementRules

theorem statement_sound {rounds depth : Nat} {s u : Stream} {n : Node}
    (h : statement rounds depth s = .ok (n, u)) : StatementSpans depth s n u := by
  induction depth using Nat.strongRecOn generalizing s n u with
  | _ depth ih =>
    match depth, h with
    | 0, h => exact (tooDeep_eq_ok.1 h).elim
    | 1, h =>
      rw [statement_run] at h
      split at h <;> exact (tooDeep_eq_ok.1 h).elim
    | depth + 2, h =>
      have below : ∀ d < depth, ∀ {s n u}, statement rounds d s = .ok (n, u) →
          StatementSpans d s n u := fun d hd => ih d (by omega)
      rw [statement_run] at h
      split at h
      · rename_i hk
        obtain ⟨ts, hts, d, hd⟩ := declaration_sound hk h
        exact Spans.statement ⟨ts, hts, .declaring d, Nat.succ_le_succ hd⟩
      · rename_i hk
        exact functionDefinition_sound below hk h
      · rename_i hk
        exact (printStatement_sound hk h).statement
      · rename_i hk
        exact (returnStatement_sound hk h).statement
      · rename_i hk
        exact whileStatement_sound (ih depth (by omega)) hk h
      · rename_i hk
        exact forStatement_sound (ih depth (by omega)) hk h
      · rename_i hk
        exact ifStatement_sound (ih depth (by omega)) hk h
      · rename_i hk
        exact blockStatement_sound below hk h
      · rename_i hk
        obtain ⟨ts, hts, d, hd⟩ := expressionStatement_sound h
        have hstart : ∀ t ∈ ts.head?, t.kind ≠ .leftBrace := by
          obtain ⟨t, us, rfl, -⟩ := d.starts rfl
          rintro _ ⟨⟩
          rw [← hts.current_eq]
          exact hk
        exact Spans.statement ⟨ts, hts, .evaluating d hstart, Nat.succ_le_succ hd⟩

theorem program_sound {depth : Nat} {tokens : List Token} {n : Node}
    (h : program depth tokens = .ok n) :
    Derives depth .program (tokens.takeWhile (·.kind ≠ .eof) ++ [Stream.endOf tokens]) n := by
  simp only [program, programWithin, bind, Except.bind] at h
  split at h
  · cases h
  · rename_i r hr
    cases h
    obtain ⟨d, hd⟩ := wholeList_sound statement_sound _ hr
    rw [Stream.current_place_ofTokens, ← Stream.ahead_ofTokens]
    exact ⟨.program d ⟨_, Stream.endOf_kind tokens⟩, hd⟩

end Scripting.Grammar
