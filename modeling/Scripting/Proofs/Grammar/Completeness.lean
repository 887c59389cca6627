import Scripting.Proofs.Grammar.Soundness

/-!
What is derivable is accepted, with the tree of the derivation, exactly if the nesting allowance covers
the height of the derivation. A phrase is read to its end when the token behind it cannot continue it;
which tokens can is a matter of its category.
-/

set_option autoImplicit false

namespace Scripting.Grammar

/-- What the parser makes of the tokens, unless its allowance runs out. -/
def settled {α : Type} : Except SyntaxError α → Option (Except SyntaxError α)
  | .error (.nestingTooDeep _) => none
  | r => some r

theorem settled_eq_none_iff {α : Type} {r : Except SyntaxError α} :
    settled r = none ↔ ∃ p, r = .error (.nestingTooDeep p) := by
  unfold settled
  split
  · rename_i p
    simp
  · rename_i hr
    refine iff_of_false nofun ?_
    rintro ⟨p, rfl⟩
    exact hr p rfl

theorem settled_eq_some {α : Type} {r r' : Except SyntaxError α} (h : settled r = some r') : r = r' := by
  unfold settled at h
  split at h
  · cases h
  · exact Option.some.inj h

def within {α : Type} (height depth : Nat) (r : Option α) : Option α :=
  if height ≤ depth then r else none

section Within

variable {α β : Type} {height height' depth : Nat}

theorem within_zero_height (r : Option α) : within 0 depth r = r :=
  if_pos (Nat.zero_le _)

theorem within_zero (r : Option α) : within (height + 1) 0 r = none :=
  if_neg (by omega)

theorem within_succ (r : Option α) :
    within (height + 1) (depth + 1) r = within height depth r := by
  simp only [within, Nat.add_le_add_iff_right]

theorem within_within (r : Option α) :
    within height depth (within height' depth r) = within (max height height') depth r := by
  simp only [within, Nat.max_le]
  by_cases h : height ≤ depth <;> by_cases h' : height' ≤ depth <;> simp [h, h']

theorem eq_of_settled_within {r r' : Except SyntaxError α} (h : settled r = within height depth (some r'))
    (hd : height ≤ depth) : r = r' :=
  settled_eq_some (h.trans (if_pos hd))

theorem exists_cut_of_settled_within {r r' : Except SyntaxError α}
    (h : settled r = within height depth (some r')) (hd : depth < height) :
    ∃ p, r = .error (.nestingTooDeep p) :=
  settled_eq_none_iff.1 (h.trans (if_neg (Nat.not_le.2 hd)))

theorem bind_within {m : Parse α} {f : α → Parse β} {s u : Stream} {a : α}
    (h : settled (m s) = within height depth (some (.ok (a, u)))) :
    settled ((m >>= f) s) = within height depth (settled (f a u)) := by
  rw [bind_run]
  by_cases hd : height ≤ depth
  · rw [eq_of_settled_within h hd, within, if_pos hd]
  · obtain ⟨p, hp⟩ := exists_cut_of_settled_within h (Nat.not_le.1 hd)
    rw [hp, within, if_neg hd]
    rfl

theorem bind_ok {m : Parse α} {f : α → Parse β} {s u : Stream} {a : α}
    (h : m s = .ok (a, u)) : (m >>= f) s = f a u := by
  rw [bind_run, h]

end Within

theorem peek_bind {β : Type} (f : Token → Parse β) (s : Stream) :
    (peek >>= f) s = f s.current s := rfl

theorem take_bind {β : Type} (f : Token → Parse β) (s : Stream) :
    (take >>= f) s = f s.current s.rest := rfl

theorem need_bind {β : Type} {kind : Token.Kind} {what : Expected} {s u : Stream}
    (t : Terminal kind) (h : s.Reads [t.1] u) (f : Token → Parse β) :
    (need kind what >>= f) s = f t.1 u := by
  rw [bind_run, need_run, h.current_eq, if_pos t.2, h.rest.eq_of_nil]

theorem takeIf_bind {β : Type} {kind : Token.Kind} {s : Stream} (h : s.current.kind = kind)
    (f : Bool → Parse β) : (takeIf kind >>= f) s = f true s.rest := by
  rw [bind_run, takeIf_run, if_pos h]

theorem takeIf_bind_of_ne {β : Type} {kind : Token.Kind} {s : Stream} (h : s.current.kind ≠ kind)
    (f : Bool → Parse β) : (takeIf kind >>= f) s = f false s := by
  rw [bind_run, takeIf_run, if_neg h]

/-- A family of rules reads the tokens as the given result whenever the token behind them is a stop. -/
def Reader {α : Type} (rule : Nat → Parse α) (stop : Token.Kind → Prop) (height : Nat)
    (ts : List Token) (a : α) : Prop :=
  ∀ depth s u, s.Reads ts u → stop u.current.kind →
    settled (rule depth s) = within height depth (some (.ok (a, u)))

theorem Reader.succ {α : Type} {rule : Nat → Parse α} {stop : Token.Kind → Prop} {height : Nat}
    {ts : List Token} {a : α} (hz : rule 0 = tooDeep)
    (h : ∀ depth s u, s.Reads ts u → stop u.current.kind →
      settled (rule (depth + 1) s) = within height depth (some (.ok (a, u)))) :
    Reader rule stop (height + 1) ts a := by
  intro depth s u hs hu
  cases depth with
  | zero =>
    rw [hz, within_zero, tooDeep_run]
    rfl
  | succ depth => rw [within_succ, h depth s u hs hu]

/-! The tokens that continue a phrase. -/

def suffixSigns : List Token.Kind := [.leftParen, .leftSquare, .dot]

namespace Level

def operandSigns : Level → List Token.Kind
  | product => suffixSigns
  | sum => product.operators ++ suffixSigns
  | comparison => sum.operators ++ (product.operators ++ suffixSigns)
  | equality => comparison.operators ++ (sum.operators ++ (product.operators ++ suffixSigns))

theorem operandSigns_eq {level next : Level} (h : level.tighter? = some next) :
    level.operandSigns = next.operators ++ next.operandSigns := by
  cases level <;> cases h <;> rfl

theorem not_mem_operandSigns {level : Level} {kind : Token.Kind} (h : kind ∈ level.operators) :
    kind ∉ level.operandSigns := by
  cases level <;> simp only [operators, List.mem_cons, List.not_mem_nil, or_false] at h <;>
    rcases h with rfl | rfl | rfl | rfl <;> decide

end Level

def expressionSigns : List Token.Kind :=
  .assign :: (Level.equality.operators ++ Level.equality.operandSigns)

def operandOf (rounds : Nat) (level : Level) (depth : Nat) : Parse Node :=
  match level.tighter? with
  | some tighter => binary rounds tighter depth
  | none => unary rounds depth

theorem binary_run (rounds : Nat) (level : Level) (depth : Nat) (s : Stream) :
    binary rounds level (depth + 2) s =
      (operandOf rounds level depth >>=
        operatorChain level (operandOf rounds level depth) s.current.place rounds) s := rfl

theorem Terminal.stops {kind : Token.Kind} {signs : List Token.Kind} {s u : Stream}
    {ts : List Token} (t : Terminal kind) (h : s.Reads (t.1 :: ts) u) (hk : kind ∉ signs) :
    s.current.kind ∉ signs := by
  rw [h.current_eq, t.2]
  exact hk

/-! Lists. -/

/-- Items with commas between them are read by both rules of lists, and a comma behind the last one
    by the rule that looks for a closing sign. -/
structure ListReader {α : Type} (item : Nat → Parse α) (stop : Token.Kind → Prop)
    (close : Token.Kind) (height : Nat) (ts : List Token) (xs : List α) : Prop where
  comma : ∀ {depth rounds s u}, ts.length < rounds → s.Reads ts u → stop u.current.kind →
    u.current.kind ≠ .comma →
    settled (commaList (item depth) rounds s) = within height depth (some (.ok (xs, u)))
  closed : ∀ {depth rounds s u}, ts.length < rounds → s.Reads ts u → stop u.current.kind →
    u.current.kind ≠ .comma →
    settled (closedList close (item depth) rounds s) = within height depth (some (.ok (xs, u)))
  trailing : ∀ {depth rounds s u v}, ts.length + 1 < rounds → s.Reads ts u →
    ∀ mark : Terminal .comma, u.Reads [mark.1] v → v.current.kind = close →
    settled (closedList close (item depth) rounds s) = within height depth (some (.ok (xs, v)))

namespace ListReader

variable {α : Type} {item : Nat → Parse α} {stop : Token.Kind → Prop} {close : Token.Kind}

theorem last {height : Nat} {ts : List Token} {x : α} (h : Reader item stop height ts x)
    (hstop : stop .comma)
    (hstart : ∀ {s u : Stream}, s.Reads ts u → s.current.kind ≠ close) :
    ListReader item stop close height ts [x] where
  comma := by
    intro depth rounds s u hr hs hu hc
    obtain ⟨rounds, rfl⟩ := Nat.exists_eq_add_of_lt (Nat.lt_of_le_of_lt (Nat.zero_le _) hr)
    rw [Nat.zero_add, commaList, bind_within (h depth s u hs hu), takeIf_bind_of_ne hc]
    rfl
  closed := by
    intro depth rounds s u hr hs hu hc
    obtain ⟨rounds, rfl⟩ := Nat.exists_eq_add_of_lt (Nat.lt_of_le_of_lt (Nat.zero_le _) hr)
    rw [Nat.zero_add, closedList, peek_bind, if_neg (hstart hs), bind_within (h depth s u hs hu),
      takeIf_bind_of_ne hc]
    rfl
  trailing := by
    intro depth rounds s u v hr hs mark hm hv
    obtain ⟨rounds, rfl⟩ : ∃ k, rounds = k + 2 := ⟨rounds - 2, by omega⟩
    have hk : u.current.kind = .comma := by rw [hm.current_eq, mark.2]
    rw [closedList, peek_bind, if_neg (hstart hs), bind_within (h depth s u hs (hk ▸ hstop)),
      takeIf_bind hk, hm.rest.eq_of_nil]
    simp only [if_true]
    rw [closedList]
    simp only [bind_assoc, peek_bind, hv, if_true]
    rfl

theorem more {height height' : Nat} {ts us : List Token} {x : α} {xs : List α}
    (mark : Terminal .comma) (h : Reader item stop height ts x)
    (h' : ListReader item stop close height' us xs)
    (hstop : stop .comma)
    (hstart : ∀ {s u : Stream}, s.Reads ts u → s.current.kind ≠ close) :
    ListReader item stop close (max height height') (ts ++ mark.1 :: us) (x :: xs) := by
  -- All three lists start with the item and the comma behind it.
  have step : ∀ {depth s u}, s.Reads (ts ++ mark.1 :: us) u → ∃ v, s.Reads ts v ∧
      v.current.kind = .comma ∧ v.rest.Reads us u ∧
      settled (item depth s) = within height depth (some (.ok (x, v))) := by
    intro depth s u hs
    obtain ⟨v, hv, hm⟩ := hs.split
    have hk : v.current.kind = .comma := by rw [hm.current_eq, mark.2]
    exact ⟨v, hv, hk, hm.rest, h depth s v hv (hk ▸ hstop)⟩
  constructor
  · intro depth rounds s u hr hs hu hc
    obtain ⟨v, hv, hk, hus, hx⟩ := step hs
    obtain ⟨rounds, rfl⟩ : ∃ k, rounds = k + 1 := ⟨rounds - 1, by omega⟩
    simp only [List.length_append, List.length_cons] at hr
    rw [commaList, bind_within hx, takeIf_bind hk]
    simp only [if_true]
    rw [bind_within (h'.comma (by omega) hus hu hc), within_within]
    rfl
  · intro depth rounds s u hr hs hu hc
    obtain ⟨v, hv, hk, hus, hx⟩ := step hs
    obtain ⟨rounds, rfl⟩ : ∃ k, rounds = k + 1 := ⟨rounds - 1, by omega⟩
    simp only [List.length_append, List.length_cons] at hr
    rw [closedList, peek_bind, if_neg (hstart hv), bind_within hx, takeIf_bind hk]
    simp only [if_true]
    rw [bind_within (h'.closed (by omega) hus hu hc), within_within]
    rfl
  · intro depth rounds s u w hr hs last hl hw
    obtain ⟨v, hv, hk, hus, hx⟩ := step hs
    obtain ⟨rounds, rfl⟩ : ∃ k, rounds = k + 1 := ⟨rounds - 1, by omega⟩
    simp only [List.length_append, List.length_cons] at hr
    rw [closedList, peek_bind, if_neg (hstart hv), bind_within hx, takeIf_bind hk]
    simp only [if_true]
    rw [bind_within (h'.trailing (by omega) hus last hl hw), within_within]
    rfl

end ListReader

theorem closedList_nil {α : Type} {item : Parse α} {close : Token.Kind} {rounds depth : Nat}
    {s u : Stream} (hs : s.Reads [] u) (hr : 0 < rounds) (hu : u.current.kind = close) :
    settled (closedList close item rounds s) = within 0 depth (some (.ok ([], u))) := by
  obtain ⟨rounds, rfl⟩ : ∃ k, rounds = k + 1 := ⟨rounds - 1, by omega⟩
  rw [hs.eq_of_nil, closedList, peek_bind, if_pos hu]
  rfl

/-! Chains. A phrase of a chain takes some rounds of it and leaves the rest of the chain to what
follows; the first operand stands before the chain. -/

def OperatorReader (rounds : Nat) (level : Level) (height : Nat) (ts : List Token) (n : Node) : Prop :=
  2 ≤ height ∧ ∃ taken < ts.length, ∀ depth more s u, s.Reads ts u → u.current.kind ∉ level.operandSigns →
    settled ((operandOf rounds level depth >>= operatorChain level (operandOf rounds level depth)
        s.current.place (more + taken)) s) =
      within height (depth + 2)
        (settled (operatorChain level (operandOf rounds level depth) s.current.place more n u))

def SuffixReader (rounds : Nat) (member : Bool) (height : Nat) (ts : List Token) (n : Node) : Prop :=
  1 ≤ height ∧ ∃ taken < ts.length, ∀ depth more s u, s.Reads ts u →
    (member = true → u.current.kind ≠ .leftParen) →
    settled ((primary rounds depth >>= suffixChain (arguments rounds depth) (expression rounds depth)
        s.current.place (more + taken)) s) =
      within height (depth + 1)
        (settled (suffixChain (arguments rounds depth) (expression rounds depth) s.current.place more n u))

abbrev anywhere : Token.Kind → Prop := fun _ => True

abbrev ExpressionReader (rounds : Nat) : Nat → List Token → Node → Prop :=
  Reader (expression rounds) (· ∉ expressionSigns)

abbrev AssignmentReader (rounds : Nat) : Nat → List Token → Node → Prop :=
  Reader (assignment rounds) (· ∉ expressionSigns)

abbrev BinaryReader (rounds : Nat) (level : Level) : Nat → List Token → Node → Prop :=
  Reader (binary rounds level) (· ∉ level.operators ++ level.operandSigns)

abbrev OperandReader (rounds : Nat) (level : Level) : Nat → List Token → Node → Prop :=
  Reader (operandOf rounds level) (· ∉ level.operandSigns)

abbrev UnaryReader (rounds : Nat) : Nat → List Token → Node → Prop :=
  Reader (unary rounds) (· ∉ suffixSigns)

abbrev PrimaryReader (rounds : Nat) : Nat → List Token → Node → Prop :=
  Reader (primary rounds) anywhere

abbrev ArgumentsReader (rounds height : Nat) (ts : List Token) (ns : List Node) : Prop :=
  Reader (arguments rounds) anywhere height ts (ns, startOf ts)

/-- An `else` would go with a statement that ends in an `if` without one. -/
abbrev StatementReader (rounds : Nat) (dangling : Bool) : Nat → List Token → Node → Prop :=
  Reader (statement rounds) fun kind => dangling = true → kind ≠ .elseWord

section Expressions

variable {rounds height height' : Nat} {ts us : List Token} {n m : Node}

theorem Reader.expression (h : AssignmentReader rounds height ts n) :
    ExpressionReader rounds (height + 1) ts n :=
  .succ rfl h

theorem OperatorReader.binary {level : Level} (h : OperatorReader rounds level height ts n)
    (hr : ts.length < rounds) :
    BinaryReader rounds level height ts n := by
  obtain ⟨hh, taken, ht, h⟩ := h
  intro depth s u hs hu
  simp only [List.mem_append, not_or] at hu
  match depth with
  | 0 | 1 => exact (if_neg (by omega)).symm
  | depth + 2 =>
    have more := h depth (rounds - taken - 1 + 1) s u hs hu.2
    rw [show rounds - taken - 1 + 1 + taken = rounds by omega] at more
    rw [binary_run, more, operatorChain, peek_bind, if_neg hu.1]
    rfl

theorem Reader.unassigned
    (h : BinaryReader rounds .equality height ts n) :
    AssignmentReader rounds (height + 1) ts n := by
  refine .succ rfl ?_
  intro depth s u hs hu
  have hstop := fun hm => hu (List.mem_cons_of_mem _ hm)
  have hne : u.current.kind ≠ .assign := fun hk => hu (hk ▸ List.mem_cons_self)
  rw [assignment, peek_bind, bind_within (h depth s u hs hstop), peek_bind, if_neg hne]
  rfl

theorem Reader.assigned {target result : Node} (sign : Terminal .assign)
    (hresult : ∀ v : Stream, (match target with
        | .name w => return .assign w m (startOf ts)
        | .item base key _ => return .setItem base key m (startOf ts)
        | _ => throw (.invalidTarget sign.1.position) : Parse Node) v = .ok (result, v))
    (h : BinaryReader rounds .equality height ts target)
    (h' : AssignmentReader rounds height' us m) (hts : ts ≠ []) :
    AssignmentReader rounds (max height height' + 1)
      (ts ++ sign.1 :: us) result := by
  refine .succ rfl ?_
  intro depth s u hs hu
  obtain ⟨v, hv, hsign⟩ := hs.split
  have hstop : v.current.kind ∉ Level.equality.operators ++ Level.equality.operandSigns :=
    sign.stops hsign (by decide)
  have hk : v.current.kind = .assign := by rw [hsign.current_eq, sign.2]
  rw [assignment, peek_bind, bind_within (h depth s v hv hstop), peek_bind, if_pos hk, take_bind,
    bind_within (h' depth v.rest u hsign.rest hu), within_within, hsign.current_eq,
    hv.place_eq hts]
  exact congrArg (within _ depth) (congrArg settled (hresult u))

theorem OperatorReader.single {level : Level}
    (h : OperandReader rounds level height ts n) (hts : ts ≠ []) :
    OperatorReader rounds level (height + 2) ts n := by
  refine ⟨by omega, 0, List.length_pos_iff.2 hts, ?_⟩
  intro depth more s u hs hu
  rw [bind_within (h depth s u hs hu), within_succ, within_succ]
  rfl

theorem OperatorReader.operate {level : Level} {sign : Token}
    (h : OperatorReader rounds level height ts n) (known : sign.kind ∈ level.operators)
    (h' : OperandReader rounds level height' us m) (hts : ts ≠ []) :
    OperatorReader rounds level (max height (height' + 2)) (ts ++ sign :: us)
      (.binary ⟨sign.text, some sign.kind⟩ n m (startOf ts)) := by
  obtain ⟨hh, taken, ht, h⟩ := h
  refine ⟨by omega, taken + 1, by simp only [List.length_append, List.length_cons]; omega, ?_⟩
  intro depth more s u hs hu
  obtain ⟨v, hv, hsign⟩ := hs.split
  have hk : v.current.kind ∈ level.operators := by rw [hsign.current_eq]; exact known
  rw [Nat.add_left_comm, Nat.add_comm taken, h depth (more + 1) s v hv (Level.not_mem_operandSigns hk)]
  rw [operatorChain, peek_bind, if_pos hk, take_bind,
    bind_within (h' depth v.rest u hsign.rest hu), hsign.current_eq, hv.place_eq hts]
  rw [← within_within, within_succ, within_succ]

theorem Reader.tighter {level next : Level} (hl : level.tighter? = some next)
    (h : BinaryReader rounds next height ts n) :
    OperandReader rounds level height ts n := by
  intro depth s u hs hu
  rw [Level.operandSigns_eq hl] at hu
  have hrule : operandOf rounds level depth = Grammar.binary rounds next depth := by
    rw [operandOf, hl]
  rw [hrule, h depth s u hs hu]

theorem Reader.factor (h : UnaryReader rounds height ts n) :
    OperandReader rounds .product height ts n :=
  h

theorem Reader.negate (sign : Terminal .minus)
    (h : UnaryReader rounds height ts n) :
    UnaryReader rounds (height + 1) (sign.1 :: ts)
      (.negate n sign.1.place) := by
  refine .succ rfl ?_
  intro depth s u hs hu
  have hk : s.current.kind = .minus := by rw [hs.current_eq, sign.2]
  rw [unary, peek_bind, if_pos hk, take_bind, bind_within (h depth s.rest u hs.rest hu),
    hs.current_eq]
  rfl

theorem SuffixReader.bare (h : PrimaryReader rounds height ts n) (hts : ts ≠ []) :
    SuffixReader rounds false (height + 1) ts n := by
  refine ⟨by omega, 0, List.length_pos_iff.2 hts, ?_⟩
  intro depth more s u hs _
  rw [bind_within (h depth s u hs trivial), within_succ]
  rfl

theorem SuffixReader.call {ns : List Node} (h : SuffixReader rounds false height ts n)
    (h' : ArgumentsReader rounds height' us ns)
    (hus : ∃ t vs, us = t :: vs ∧ t.kind = .leftParen) (hts : ts ≠ []) :
    SuffixReader rounds false (max height (height' + 1)) (ts ++ us)
      (.call n ns (startOf us) (startOf ts)) := by
  obtain ⟨hh, taken, ht, h⟩ := h
  obtain ⟨t, vs, rfl, hk⟩ := hus
  refine ⟨by omega, taken + 1, by simp only [List.length_append, List.length_cons]; omega, ?_⟩
  intro depth more s u hs _
  obtain ⟨v, hv, hu⟩ := hs.split
  rw [Nat.add_left_comm, Nat.add_comm taken, h depth (more + 1) s v hv (by simp), suffixChain_run,
    hu.current_eq, hk, ← within_within, within_succ]
  dsimp only
  rw [bind_within (h' depth v u hu trivial), hv.place_eq hts]

theorem SuffixReader.index {member : Bool} (h : SuffixReader rounds member height ts n)
    (left : Terminal .leftSquare)
    (h' : ExpressionReader rounds height' us m)
    (right : Terminal .rightSquare) (hts : ts ≠ []) :
    SuffixReader rounds false (max height (height' + 1)) (ts ++ left.1 :: us ++ [right.1])
      (.item n m (startOf ts)) := by
  obtain ⟨hh, taken, ht, h⟩ := h
  refine ⟨by omega, taken + 1, by simp only [List.length_append, List.length_cons]; omega, ?_⟩
  intro depth more s u hs _
  rw [List.append_assoc] at hs
  obtain ⟨v, hv, hl⟩ := hs.split
  obtain ⟨w, hw, hr⟩ := hl.rest.split
  have hk : v.current.kind = .leftSquare := by rw [hl.current_eq, left.2]
  rw [Nat.add_left_comm, Nat.add_comm taken, h depth (more + 1) s v hv (by simp [hk]),
    suffixChain_run, hk, ← within_within, within_succ]
  dsimp only
  rw [bind_within (h' depth v.rest w hw (right.stops hr (by decide))), need_bind right hr,
    hv.place_eq hts]

theorem SuffixReader.member {member : Bool} (h : SuffixReader rounds member height ts n)
    (dot : Terminal .dot) (name : Terminal .ident) (hts : ts ≠ []) :
    SuffixReader rounds true height (ts ++ [dot.1, name.1])
      (.item n (.string (word name.1)) (startOf ts)) := by
  obtain ⟨hh, taken, ht, h⟩ := h
  refine ⟨hh, taken + 1, by simp only [List.length_append, List.length_cons]; omega, ?_⟩
  intro depth more s u hs hu
  obtain ⟨v, hv, hd⟩ := hs.split
  have hk : v.current.kind = .dot := by rw [hd.current_eq, dot.2]
  rw [Nat.add_left_comm, Nat.add_comm taken, h depth (more + 1) s v hv (by simp [hk]),
    suffixChain_run, hk]
  dsimp only
  rw [need_bind name hd.rest, peek_bind, if_neg (hu rfl), hv.place_eq hts]

theorem SuffixReader.methodCall {member : Bool} {ns : List Node}
    (h : SuffixReader rounds member height ts n) (dot : Terminal .dot) (name : Terminal .ident)
    (h' : ArgumentsReader rounds height' us ns)
    (hus : ∃ t vs, us = t :: vs ∧ t.kind = .leftParen) (hts : ts ≠ []) :
    SuffixReader rounds false (max height (height' + 1)) (ts ++ dot.1 :: name.1 :: us)
      (.methodCall n (.string (word name.1)) ns (startOf us) (startOf ts)) := by
  obtain ⟨hh, taken, ht, h⟩ := h
  obtain ⟨t, vs, rfl, hp⟩ := hus
  refine ⟨by omega, taken + 1, by simp only [List.length_append, List.length_cons]; omega, ?_⟩
  intro depth more s u hs _
  obtain ⟨v, hv, hd⟩ := hs.split
  obtain ⟨w, hn, hu⟩ := hd.rest.splitHead
  have hk : v.current.kind = .dot := by rw [hd.current_eq, dot.2]
  have hw : w.current.kind = .leftParen := by rw [hu.current_eq, hp]
  rw [Nat.add_left_comm, Nat.add_comm taken, h depth (more + 1) s v hv (by simp [hk]),
    suffixChain_run, hk, ← within_within, within_succ]
  dsimp only
  rw [need_bind name hn, peek_bind, if_pos hw, bind_within (h' depth w u hu trivial),
    hv.place_eq hts]

theorem SuffixReader.unary {member : Bool} (h : SuffixReader rounds member height ts n)
    (hr : ts.length < rounds) (hts : ∃ t vs, ts = t :: vs ∧ t.kind ≠ .minus) :
    UnaryReader rounds (height + 1) ts n := by
  obtain ⟨hh, taken, ht, h⟩ := h
  obtain ⟨t, vs, rfl, hk⟩ := hts
  refine .succ rfl ?_
  intro depth s u hs hu
  have hne : s.current.kind ≠ .minus := by rw [hs.current_eq]; exact hk
  have hm : u.current.kind ≠ .leftParen := fun hp => hu (hp ▸ List.mem_cons_self)
  rw [Grammar.unary, peek_bind, if_neg hne]
  cases depth with
  | zero => exact (if_neg (by omega)).symm
  | succ depth =>
    have more := h depth (rounds - taken - 1 + 1) s u hs (fun _ => hm)
    rw [show rounds - taken - 1 + 1 + taken = rounds by omega] at more
    rw [suffixed, peek_bind, more, suffixChain_run]
    split
    · rename_i hp
      exact absurd hp hm
    · rename_i hq
      exact absurd (by rw [hq]; decide) hu
    · rename_i hq
      exact absurd (by rw [hq]; decide) hu
    · rfl

theorem Reader.leaf {kind : Token.Kind} (t : Terminal kind)
    (h : ∀ depth s, s.current = t.1 → primary rounds (depth + 1) s = .ok (n, s.rest)) :
    PrimaryReader rounds 1 [t.1] n := by
  refine .succ rfl ?_
  intro depth s u hs _
  rw [h depth s hs.current_eq, hs.rest.eq_of_nil, within_zero_height]
  rfl

theorem Reader.group (left : Terminal .leftParen)
    (h : ExpressionReader rounds height ts n)
    (right : Terminal .rightParen) :
    PrimaryReader rounds (height + 1) (left.1 :: ts ++ [right.1]) n := by
  refine .succ rfl ?_
  intro depth s u hs _
  obtain ⟨v, hv, hr⟩ := hs.rest.split
  rw [primary_run, hs.current_eq, left.2]
  dsimp only
  rw [bind_within (h depth s.rest v hv (right.stops hr (by decide))), need_bind right hr]
  rfl

theorem Reader.array {ns : List Node} (left : Terminal .leftSquare)
    (h : ∀ {depth s u}, s.Reads ts u → u.current.kind = .rightSquare →
      settled (closedList .rightSquare (Grammar.expression rounds depth) rounds s) =
        within height depth (some (.ok (ns, u))))
    (right : Terminal .rightSquare) :
    PrimaryReader rounds (height + 1) (left.1 :: ts ++ [right.1])
      (.array ns left.1.place) := by
  refine .succ rfl ?_
  intro depth s u hs _
  obtain ⟨v, hv, hr⟩ := hs.rest.split
  have hk : v.current.kind = .rightSquare := by rw [hr.current_eq, right.2]
  rw [primary_run, hs.current_eq, left.2]
  dsimp only
  rw [bind_within (h hv hk), need_bind right hr]
  rfl

theorem Reader.record {fs : List (Field Node)} (left : Terminal .leftBrace)
    (h : ∀ {depth s u}, s.Reads ts u → u.current.kind = .rightBrace →
      settled (closedList .rightBrace (recordField (Grammar.expression rounds depth)) rounds s) =
        within height depth (some (.ok (fs, u))))
    (right : Terminal .rightBrace) :
    PrimaryReader rounds (height + 2) (left.1 :: ts ++ [right.1])
      (.record fs left.1.place) := by
  refine .succ rfl ?_
  intro depth s u hs _
  obtain ⟨v, hv, hr⟩ := hs.rest.split
  have hk : v.current.kind = .rightBrace := by rw [hr.current_eq, right.2]
  have hfields : settled (recordFields rounds depth s.rest) =
      within (height + 1) depth (some (.ok (fs, u))) := by
    cases depth with
    | zero => exact (if_neg (by omega)).symm
    | succ depth =>
      rw [recordFields, bind_within (h hv hk), need_bind right hr, within_succ]
      rfl
  rw [primary_run, hs.current_eq, left.2]
  dsimp only
  rw [bind_within hfields]
  rfl

theorem Reader.field {key : Token} (known : key.kind = .ident ∨ key.kind = .string)
    (colon : Terminal .colon)
    (h : ExpressionReader rounds height ts n) :
    Reader (fun depth => recordField (Grammar.expression rounds depth)) (· ∉ expressionSigns) height
      (key :: colon.1 :: ts) ⟨word key, n, key.place⟩ := by
  intro depth s u hs hu
  obtain ⟨v, hc, hv⟩ := hs.rest.splitHead
  change settled (recordField (Grammar.expression rounds depth) s) = _
  rw [recordField, peek_bind, hs.current_eq, if_pos (by simpa using known), take_bind,
    need_bind colon hc, bind_within (h depth v u hv hu)]
  rfl

theorem Reader.noArguments (left : Terminal .leftParen) (right : Terminal .rightParen) :
    ArgumentsReader rounds 1 [left.1, right.1] [] := by
  refine .succ rfl ?_
  intro depth s u hs _
  have hk : s.rest.current.kind = .rightParen := by rw [hs.rest.current_eq, right.2]
  rw [arguments, take_bind, peek_bind, if_pos hk, bind_ok (pure_run _ _)]
  dsimp only
  rw [need_bind right hs.rest, hs.current_eq, within_zero_height]
  rfl

theorem Reader.arguments {ns : List Node} (left : Terminal .leftParen)
    (h : ListReader (Grammar.expression rounds) (· ∉ expressionSigns) .rightSquare height ts ns)
    (right : Terminal .rightParen) (hr : ts.length < rounds)
    (hts : ∃ t vs, ts = t :: vs ∧ t.kind ≠ .rightParen) :
    ArgumentsReader rounds (height + 1) (left.1 :: ts ++ [right.1]) ns := by
  refine .succ rfl ?_
  intro depth s u hs _
  obtain ⟨v, hv, hright⟩ := hs.rest.split
  have hne : s.rest.current.kind ≠ .rightParen := by
    obtain ⟨t, vs, rfl, hk⟩ := hts
    rw [hv.current_eq]
    exact hk
  have hc : v.current.kind ≠ .comma := by rw [hright.current_eq, right.2]; decide
  rw [Grammar.arguments, take_bind, peek_bind, if_neg hne,
    bind_within (h.comma hr hv (right.stops hright (by decide)) hc)]
  dsimp only
  rw [need_bind right hright, hs.current_eq]
  rfl

end Expressions

structure StatementsReader (rounds height : Nat) (ts : List Token) (ns : List Node) : Prop where
  braced : ∀ {depth most s u} (right : Terminal .rightBrace), ts.length < most →
    s.Reads (ts ++ [right.1]) u →
    settled (bracedList (statement rounds depth) most s) = within height depth (some (.ok (ns, u)))
  whole : ∀ {depth most s u}, ts.length < most → s.Reads ts u → u.current.kind = .eof →
    settled (wholeList (statement rounds depth) most s) = within height depth (some (.ok (ns, u)))

section Statements

variable {rounds height height' : Nat} {ts us : List Token} {n m : Node} {ns : List Node}

theorem StatementsReader.nil : StatementsReader rounds 0 [] [] where
  braced := by
    intro depth most s u right hm hs
    obtain ⟨most, rfl⟩ : ∃ k, most = k + 1 := ⟨most - 1, by omega⟩
    have hk : s.current.kind = .rightBrace := by rw [hs.current_eq, right.2]
    rw [bracedList, peek_bind, if_pos hk, take_bind, hs.rest.eq_of_nil, within_zero_height]
    rfl
  whole := by
    intro depth most s u hm hs hu
    obtain ⟨most, rfl⟩ : ∃ k, most = k + 1 := ⟨most - 1, by omega⟩
    obtain rfl := hs.eq_of_nil
    rw [wholeList, peek_bind, if_pos hu, within_zero_height]
    rfl

theorem StatementsReader.cons {o : Bool} (h : StatementReader rounds o height ts n)
    (h' : StatementsReader rounds height' us ns)
    (hts : ∃ t vs, ts = t :: vs ∧ t.kind ≠ .rightBrace ∧ t.kind ≠ .eof)
    (hus : ∀ t ∈ us.head?, t.kind ≠ .elseWord) :
    StatementsReader rounds (max height height') (ts ++ us) (n :: ns) := by
  obtain ⟨t, vs, rfl, hbrace, heof⟩ := hts
  constructor
  · intro depth most s u right hm hs
    simp only [List.length_append, List.length_cons] at hm
    obtain ⟨most, rfl⟩ : ∃ k, most = k + 1 := ⟨most - 1, by omega⟩
    rw [List.append_assoc] at hs
    obtain ⟨v, hv, hu⟩ := hs.split
    have hnext : v.current.kind ≠ .elseWord := by
      cases us with
      | nil => rw [hu.current_eq, right.2]; decide
      | cons x xs => rw [hu.current_eq]; exact hus x rfl
    rw [bracedList, peek_bind, hs.current_eq, if_neg hbrace, if_neg heof,
      bind_within (h depth s v hv (fun _ => hnext)),
      bind_within (h'.braced right (by omega) hu), within_within]
    rfl
  · intro depth most s u hm hs hend
    simp only [List.length_append, List.length_cons] at hm
    obtain ⟨most, rfl⟩ : ∃ k, most = k + 1 := ⟨most - 1, by omega⟩
    obtain ⟨v, hv, hu⟩ := hs.split
    have hnext : v.current.kind ≠ .elseWord := by
      cases us with
      | nil =>
        obtain rfl := hu.eq_of_nil
        rw [hend]
        decide
      | cons x xs => rw [hu.current_eq]; exact hus x rfl
    rw [wholeList, peek_bind, hs.current_eq, if_neg heof,
      bind_within (h depth s v hv (fun _ => hnext)),
      bind_within (h'.whole (by omega) hu hend), within_within]
    rfl

theorem StatementsReader.statements (h : StatementsReader rounds height ts ns)
    (hr : ts.length < rounds) (right : Terminal .rightBrace) :
    Reader (statements rounds) anywhere (height + 1) (ts ++ [right.1]) ns :=
  .succ rfl fun _ _ _ hs _ => h.braced right hr hs

def statementRule (rounds : Nat) : Token.Kind → Nat → Parse Node
  | .varWord => declaration rounds
  | .funWord => functionDefinition rounds
  | .printWord => printStatement rounds
  | .returnWord => returnStatement rounds
  | .whileWord => whileStatement rounds
  | .forWord => forStatement rounds
  | .ifWord => ifStatement rounds
  | .leftBrace => blockStatement rounds
  | _ => expressionStatement rounds

theorem statement_eq_rule (rounds depth : Nat) (s : Stream) :
    statement rounds (depth + 1) s = statementRule rounds s.current.kind depth s := by
  rw [statement_run]
  cases s.current.kind <;> rfl

theorem Reader.statement {stop : Token.Kind → Prop} {kind : Token.Kind} (mark : Terminal kind)
    (h : Reader (statementRule rounds kind) stop height (mark.1 :: ts) n) :
    Reader (Grammar.statement rounds) stop (height + 1) (mark.1 :: ts) n := by
  refine .succ rfl ?_
  intro depth s u hs hu
  rw [statement_eq_rule, hs.current_eq, mark.2, h depth s u hs hu]

theorem Reader.closedStatement {o : Bool} {kind : Token.Kind} (mark : Terminal kind)
    (h : Reader (statementRule rounds kind) anywhere height (mark.1 :: ts) n) :
    StatementReader rounds o (height + 1) (mark.1 :: ts) n :=
  fun depth s u hs _ => Reader.statement mark h depth s u hs trivial

theorem Reader.declare (mark : Terminal .varWord) (name : Terminal .ident)
    (stop : Terminal .semicolon) :
    Reader (declaration rounds) anywhere 1 [mark.1, name.1, stop.1]
      (.declare (word name.1) none mark.1.place) := by
  refine .succ rfl ?_
  intro depth s u hs _
  obtain ⟨v, hn, hv⟩ := hs.rest.splitHead
  have hne : v.current.kind ≠ .assign := by rw [hv.current_eq, stop.2]; decide
  rw [declaration, take_bind, need_bind name hn, takeIf_bind_of_ne hne, hs.current_eq]
  simp only [Bool.false_eq_true, if_false]
  rw [bind_ok (pure_run _ _), need_bind stop hv, within_zero_height]
  rfl

theorem Reader.declareAs (mark : Terminal .varWord) (name : Terminal .ident)
    (sign : Terminal .assign)
    (h : ExpressionReader rounds height ts n)
    (stop : Terminal .semicolon) :
    Reader (declaration rounds) anywhere (height + 1) (mark.1 :: name.1 :: sign.1 :: ts ++ [stop.1])
      (.declare (word name.1) (some n) mark.1.place) := by
  refine .succ rfl ?_
  intro depth s u hs _
  obtain ⟨v, hn, hv⟩ := hs.rest.splitHead
  obtain ⟨w, hw, hstop⟩ := hv.rest.split
  have hk : v.current.kind = .assign := by rw [hv.current_eq, sign.2]
  have hinit := h depth v.rest w hw (stop.stops hstop (by decide))
  have hsome : settled ((some <$> Grammar.expression rounds depth) v.rest) =
      within height depth (some (.ok (some n, w))) := by
    rw [map_eq_pure_bind, bind_within hinit]
    rfl
  rw [declaration, take_bind, need_bind name hn, takeIf_bind hk, hs.current_eq]
  simp only [if_true]
  rw [bind_within hsome, need_bind stop hstop]
  rfl

theorem Reader.evaluate (h : ExpressionReader rounds height ts n)
    (stop : Terminal .semicolon) (hts : ts ≠ []) :
    Reader (expressionStatement rounds) anywhere (height + 1) (ts ++ [stop.1])
      (.expression n (startOf ts)) := by
  refine .succ rfl ?_
  intro depth s u hs _
  obtain ⟨v, hv, hstop⟩ := hs.split
  rw [expressionStatement, peek_bind, bind_within (h depth s v hv (stop.stops hstop (by decide))),
    need_bind stop hstop, hv.place_eq hts]
  rfl

theorem Reader.print (mark : Terminal .printWord)
    (h : ExpressionReader rounds height ts n)
    (stop : Terminal .semicolon) :
    Reader (printStatement rounds) anywhere (height + 1) (mark.1 :: ts ++ [stop.1])
      (.print n mark.1.place) := by
  refine .succ rfl ?_
  intro depth s u hs _
  obtain ⟨v, hv, hstop⟩ := hs.rest.split
  rw [printStatement, take_bind, bind_within (h depth s.rest v hv (stop.stops hstop (by decide))),
    need_bind stop hstop, hs.current_eq]
  rfl

theorem Reader.giveBack (mark : Terminal .returnWord) (stop : Terminal .semicolon) :
    Reader (returnStatement rounds) anywhere 1 [mark.1, stop.1] (.giveBack none mark.1.place) := by
  refine .succ rfl ?_
  intro depth s u hs _
  have hk : s.rest.current.kind = .semicolon := by rw [hs.rest.current_eq, stop.2]
  rw [returnStatement, take_bind, peek_bind, if_pos hk, bind_ok (pure_run _ _)]
  dsimp only
  rw [need_bind stop hs.rest, hs.current_eq, within_zero_height]
  rfl

theorem Reader.giveBackValue (mark : Terminal .returnWord)
    (h : ExpressionReader rounds height ts n)
    (stop : Terminal .semicolon) (hts : ∃ t vs, ts = t :: vs ∧ t.kind ≠ .semicolon) :
    Reader (returnStatement rounds) anywhere (height + 1) (mark.1 :: ts ++ [stop.1])
      (.giveBack (some n) mark.1.place) := by
  refine .succ rfl ?_
  intro depth s u hs _
  obtain ⟨v, hv, hstop⟩ := hs.rest.split
  have hne : s.rest.current.kind ≠ .semicolon := by
    obtain ⟨t, vs, rfl, hk⟩ := hts
    rw [hv.current_eq]
    exact hk
  have hsome : settled ((some <$> Grammar.expression rounds depth) s.rest) =
      within height depth (some (.ok (some n, v))) := by
    rw [map_eq_pure_bind, bind_within (h depth s.rest v hv (stop.stops hstop (by decide)))]
    rfl
  rw [returnStatement, take_bind, peek_bind, if_neg hne, bind_within hsome]
  dsimp only
  rw [need_bind stop hstop, hs.current_eq]
  rfl

theorem Reader.condition (left : Terminal .leftParen)
    (h : ExpressionReader rounds height ts n)
    (right : Terminal .rightParen) :
    Reader (condition rounds) anywhere (height + 1) (left.1 :: ts ++ [right.1]) n := by
  refine .succ rfl ?_
  intro depth s u hs _
  obtain ⟨w, hl, hw⟩ := hs.splitHead
  obtain ⟨v, hv, hr⟩ := hw.split
  rw [Grammar.condition, need_bind left hl, bind_within (h depth w v hv (right.stops hr (by decide))),
    need_bind right hr]
  rfl

theorem Reader.loop {o : Bool} (mark : Terminal .whileWord) (left : Terminal .leftParen)
    (h : ExpressionReader rounds height ts n) (right : Terminal .rightParen)
    (h' : StatementReader rounds o height' us m) :
    Reader (whileStatement rounds) (fun kind => o = true → kind ≠ .elseWord)
      (max (height + 1) height' + 1) (mark.1 :: left.1 :: ts ++ right.1 :: us)
      (.loop n m mark.1.place) := by
  refine .succ rfl ?_
  intro depth s u hs hu
  have hrest : s.rest.Reads (left.1 :: ts ++ [right.1] ++ us) u := by simpa using hs.rest
  obtain ⟨v, hv, hbody⟩ := hrest.split
  rw [whileStatement, take_bind, bind_within (Reader.condition left h right depth s.rest v hv trivial),
    bind_within (h' depth v u hbody hu), within_within, hs.current_eq]
  rfl

theorem Reader.startDeclaring (h : Reader (declaration rounds) anywhere height ts n)
    (hts : ∃ t vs, ts = t :: vs ∧ t.kind = .varWord) :
    Reader (loopStart rounds) anywhere height ts (some n) := by
  obtain ⟨t, vs, rfl, hk⟩ := hts
  intro depth s u hs hu
  rw [loopStart_run, hs.current_eq, hk]
  dsimp only
  rw [map_eq_pure_bind, bind_within (h depth s u hs hu)]
  rfl

theorem Reader.startEvaluating (h : Reader (expressionStatement rounds) anywhere height ts n)
    (hts : ∃ t vs, ts = t :: vs ∧ t.kind ≠ .varWord ∧ t.kind ≠ .semicolon) :
    Reader (loopStart rounds) anywhere height ts (some n) := by
  obtain ⟨t, vs, rfl, hvar, hsemi⟩ := hts
  intro depth s u hs hu
  rw [loopStart_run, hs.current_eq]
  split
  · rename_i hk
    exact absurd hk hvar
  · rename_i hk
    exact absurd hk hsemi
  · rw [map_eq_pure_bind, bind_within (h depth s u hs hu)]
    rfl

theorem Reader.noStart (stop : Terminal .semicolon) :
    Reader (loopStart rounds) anywhere 0 [stop.1] none := by
  intro depth s u hs _
  rw [loopStart_run, hs.current_eq, stop.2, hs.rest.eq_of_nil, within_zero_height]
  rfl

theorem Reader.test (h : ExpressionReader rounds height ts n) (stop : Terminal .semicolon)
    (hts : ∃ t vs, ts = t :: vs ∧ t.kind ≠ .semicolon) :
    Reader (loopTest rounds) anywhere height (ts ++ [stop.1]) n := by
  obtain ⟨t, vs, rfl, hk⟩ := hts
  intro depth s u hs _
  obtain ⟨v, hv, hstop⟩ := hs.split
  rw [loopTest, peek_bind, hs.current_eq, if_neg hk,
    bind_within (h depth s v hv (stop.stops hstop (by decide)))]
  dsimp only
  rw [need_bind stop hstop]
  rfl

theorem Reader.noTest (stop : Terminal .semicolon) :
    Reader (loopTest rounds) anywhere 0 [stop.1] (.boolean true ⟨"true", stop.1.place⟩) := by
  intro depth s u hs _
  rw [loopTest, peek_bind, hs.current_eq, if_pos stop.2, bind_ok (pure_run _ _)]
  dsimp only
  rw [need_bind stop hs, within_zero_height]
  rfl

theorem Reader.step (h : ExpressionReader rounds height ts n) (right : Terminal .rightParen)
    (hts : ∃ t vs, ts = t :: vs ∧ t.kind ≠ .rightParen) :
    Reader (loopStep rounds) anywhere height (ts ++ [right.1])
      (some (.expression n (startOf ts))) := by
  obtain ⟨t, vs, rfl, hk⟩ := hts
  intro depth s u hs _
  obtain ⟨v, hv, hright⟩ := hs.split
  rw [loopStep, peek_bind, hs.current_eq, if_neg hk, map_eq_pure_bind, bind_assoc,
    bind_within (h depth s v hv (right.stops hright (by decide)))]
  simp only [pure_bind]
  rw [need_bind right hright]
  rfl

theorem Reader.noStep (right : Terminal .rightParen) :
    Reader (loopStep rounds) anywhere 0 [right.1] none := by
  intro depth s u hs _
  rw [loopStep, peek_bind, hs.current_eq, if_pos right.2, bind_ok (pure_run _ _)]
  dsimp only
  rw [need_bind right hs, within_zero_height]
  rfl

theorem Reader.counted {o : Bool} {first test after : Nat} {vs ws : List Token}
    {start step : Option Node} {condition : Node} (mark : Terminal .forWord)
    (left : Terminal .leftParen)
    (hfirst : Reader (loopStart rounds) anywhere first ts start)
    (htest : Reader (loopTest rounds) anywhere test us condition)
    (hafter : Reader (loopStep rounds) anywhere after vs step)
    (hbody : StatementReader rounds o height ws n) :
    Reader (forStatement rounds) (fun kind => o = true → kind ≠ .elseWord)
      (max (max first test) (max after height) + 1) (mark.1 :: left.1 :: ts ++ us ++ vs ++ ws)
      (.counted start condition step n mark.1.place) := by
  refine .succ rfl ?_
  intro depth s u hs hu
  have hrest : s.rest.Reads ([left.1] ++ (ts ++ (us ++ (vs ++ ws)))) u := by simpa using hs.rest
  obtain ⟨a, ha, hrest⟩ := hrest.split
  obtain ⟨b, hb, hrest⟩ := hrest.split
  obtain ⟨c, hc, hrest⟩ := hrest.split
  obtain ⟨d, hd, hrest⟩ := hrest.split
  rw [forStatement, take_bind, need_bind left ha, bind_within (hfirst depth a b hb trivial),
    bind_within (htest depth b c hc trivial), bind_within (hafter depth c d hd trivial),
    bind_within (hbody depth d u hrest hu), hs.current_eq]
  simp only [within_within, Nat.max_assoc]
  rfl

theorem Reader.branch {o : Bool} (mark : Terminal .ifWord) (left : Terminal .leftParen)
    (h : ExpressionReader rounds height ts n) (right : Terminal .rightParen)
    (h' : StatementReader rounds o height' us m) :
    Reader (ifStatement rounds) (· ≠ .elseWord) (max (height + 1) height' + 1)
      (mark.1 :: left.1 :: ts ++ right.1 :: us)
      (.branch n m (.sequence [] mark.1.place) mark.1.place) := by
  refine .succ rfl ?_
  intro depth s u hs hu
  have hrest : s.rest.Reads (left.1 :: ts ++ [right.1] ++ us) u := by simpa using hs.rest
  obtain ⟨v, hv, hbody⟩ := hrest.split
  rw [ifStatement, take_bind, bind_within (Reader.condition left h right depth s.rest v hv trivial),
    bind_within (h' depth v u hbody (fun _ => hu)), within_within, takeIf_bind_of_ne hu,
    hs.current_eq]
  rfl

theorem Reader.branches {o : Bool} {other : Nat} {no : Node} {vs : List Token}
    (mark : Terminal .ifWord) (left : Terminal .leftParen)
    (h : ExpressionReader rounds height ts n) (right : Terminal .rightParen)
    (h' : StatementReader rounds false height' us m) (word : Terminal .elseWord)
    (hother : StatementReader rounds o other vs no) :
    Reader (ifStatement rounds) (fun kind => o = true → kind ≠ .elseWord)
      (max (height + 1) (max height' other) + 1)
      (mark.1 :: left.1 :: ts ++ right.1 :: us ++ word.1 :: vs)
      (.branch n m no mark.1.place) := by
  refine .succ rfl ?_
  intro depth s u hs hu
  have hrest : s.rest.Reads (left.1 :: ts ++ [right.1] ++ (us ++ word.1 :: vs)) u := by
    simpa using hs.rest
  obtain ⟨v, hv, hrest⟩ := hrest.split
  obtain ⟨w, hw, hrest⟩ := hrest.split
  have hk : w.current.kind = .elseWord := by rw [hrest.current_eq, word.2]
  rw [ifStatement, take_bind, bind_within (Reader.condition left h right depth s.rest v hv trivial),
    bind_within (h' depth v w hw (by simp)), takeIf_bind hk, hs.current_eq]
  simp only [if_true]
  rw [bind_within (hother depth w.rest u hrest.rest hu), within_within, within_within,
    Nat.max_assoc]
  rfl

theorem Reader.block (left : Terminal .leftBrace) (h : StatementsReader rounds height ts ns)
    (hr : ts.length < rounds) (right : Terminal .rightBrace) :
    Reader (blockStatement rounds) anywhere (height + 2) (left.1 :: ts ++ [right.1])
      (.block ns left.1.place) := by
  refine .succ rfl ?_
  intro depth s u hs _
  rw [blockStatement, take_bind, bind_within (h.statements hr right depth s.rest u hs.rest trivial),
    hs.current_eq]
  rfl

theorem Reader.function {ps : Parameters} (mark : Terminal .funWord) (name : Terminal .ident)
    (h : Reader (parameters rounds) anywhere 1 ts ps) (left : Terminal .leftBrace)
    (h' : StatementsReader rounds height us ns) (hr : us.length < rounds)
    (right : Terminal .rightBrace) :
    Reader (functionDefinition rounds) anywhere (height + 2)
      (mark.1 :: name.1 :: ts ++ left.1 :: us ++ [right.1])
      (.function (word name.1) ps (.sequence ns left.1.place) mark.1.place) := by
  refine .succ rfl ?_
  intro depth s u hs _
  have hrest : s.rest.Reads ([name.1] ++ (ts ++ ([left.1] ++ (us ++ [right.1])))) u := by
    simpa using hs.rest
  obtain ⟨a, ha, hrest⟩ := hrest.split
  obtain ⟨b, hb, hrest⟩ := hrest.split
  obtain ⟨c, hc, hrest⟩ := hrest.split
  have hheight : max 1 (height + 1) = height + 1 := by omega
  rw [functionDefinition, take_bind, need_bind name ha, bind_within (h depth a b hb trivial),
    need_bind left hc, bind_within (h'.statements hr right depth c u hrest trivial), within_within,
    hheight, hs.current_eq]
  rfl

end Statements

def NamesReader (ts : List Token) (ws : List Word) : Prop :=
  ∀ {seen most s u}, ts.length < most → s.Reads ts u → u.current.kind ≠ .comma →
    (ws.map (·.text)).Nodup → (∀ w ∈ ws, w.text ∉ seen) →
    parameterNames seen most s = .ok (ws, u)

section Parameters

variable {rounds : Nat} {ts : List Token} {ws : List Word}

theorem NamesReader.last (t : Terminal .ident) : NamesReader [t.1] [word t.1] := by
  intro seen most s u hm hs hu _ hseen
  obtain ⟨most, rfl⟩ : ∃ k, most = k + 1 := ⟨most - 1, by omega⟩
  have hfresh : t.1.text ∉ seen := hseen _ List.mem_cons_self
  rw [parameterNames, need_bind t hs, if_neg hfresh, takeIf_bind_of_ne hu]
  rfl

theorem NamesReader.more (t : Terminal .ident) (comma : Terminal .comma)
    (h : NamesReader ts ws) : NamesReader (t.1 :: comma.1 :: ts) (word t.1 :: ws) := by
  intro seen most s u hm hs hu hdistinct hseen
  obtain ⟨most, rfl⟩ : ∃ k, most = k + 1 := ⟨most - 1, by omega⟩
  simp only [List.length_cons] at hm
  simp only [List.map_cons, List.nodup_cons, List.mem_map, not_exists, not_and] at hdistinct
  obtain ⟨v, hv, hc⟩ := hs.splitHead
  have hk : v.current.kind = .comma := by rw [hc.current_eq, comma.2]
  have hnew : ∀ w ∈ ws, w.text ∉ t.1.text :: seen := by
    intro w hw hmem
    rcases List.mem_cons.1 hmem with he | hmem
    · exact hdistinct.1 w hw he
    · exact hseen w (List.mem_cons_of_mem _ hw) hmem
  have hfresh : t.1.text ∉ seen := hseen _ List.mem_cons_self
  rw [parameterNames, need_bind t hv, if_neg hfresh, takeIf_bind hk]
  simp only [if_true]
  rw [bind_ok (h (by omega) hc.rest hu hdistinct.2 hnew)]
  rfl

theorem Reader.noParameters (left : Terminal .leftParen) (right : Terminal .rightParen) :
    Reader (parameters rounds) anywhere 1 [left.1, right.1] ⟨[], left.1.place⟩ := by
  refine .succ rfl ?_
  intro depth s u hs _
  obtain ⟨v, hv, hr⟩ := hs.splitHead
  have hk : v.current.kind = .rightParen := by rw [hr.current_eq, right.2]
  rw [parameters, need_bind left hv, peek_bind, if_pos hk, bind_ok (pure_run _ _),
    within_zero_height]
  dsimp only
  rw [need_bind right hr]
  rfl

theorem NamesReader.parameters (left : Terminal .leftParen) (h : NamesReader ts ws)
    (right : Terminal .rightParen) (hr : ts.length < rounds)
    (hts : ∃ t vs, ts = t :: vs ∧ t.kind ≠ .rightParen) (distinct : (ws.map (·.text)).Nodup) :
    Reader (Grammar.parameters rounds) anywhere 1 (left.1 :: ts ++ [right.1])
      ⟨ws, left.1.place⟩ := by
  refine .succ rfl ?_
  intro depth s u hs _
  obtain ⟨v, hv, hrest⟩ := hs.splitHead
  obtain ⟨w, hw, hright⟩ := hrest.split
  have hne : v.current.kind ≠ .rightParen := by
    obtain ⟨t, vs, rfl, hk⟩ := hts
    rw [hrest.current_eq]
    exact hk
  have hc : w.current.kind ≠ .comma := by rw [hright.current_eq, right.2]; decide
  rw [Grammar.parameters, need_bind left hv, peek_bind, if_neg hne,
    bind_ok (h hr hw hc distinct (by simp)), within_zero_height]
  dsimp only
  rw [need_bind right hright]
  rfl

end Parameters

def Completes (rounds : Nat) : (c : Category) → Nat → List Token → c.Tree → Prop
  | .program, _, _, _ => True
  | .statements, height, ts, ns => StatementsReader rounds height ts ns
  | .statement o, height, ts, n => StatementReader rounds o height ts n
  | .declaration, height, ts, n => Reader (declaration rounds) anywhere height ts n
  | .expressionStatement, height, ts, n => Reader (expressionStatement rounds) anywhere height ts n
  | .parameters, _, ts, ps => Reader (parameters rounds) anywhere 1 ts ps
  | .names, _, ts, ws => NamesReader ts ws
  | .loopStart, height, ts, start => Reader (loopStart rounds) anywhere height ts start
  | .loopTest, height, ts, n => Reader (loopTest rounds) anywhere height ts n
  | .loopStep, height, ts, step => Reader (loopStep rounds) anywhere height ts step
  | .expression, height, ts, n => ExpressionReader rounds height ts n
  | .assignment, height, ts, n => AssignmentReader rounds height ts n
  | .binary level, height, ts, n => OperatorReader rounds level height ts n
  | .operand level, height, ts, n => OperandReader rounds level height ts n
  | .unary, height, ts, n => UnaryReader rounds height ts n
  | .suffixed m, height, ts, n => SuffixReader rounds m height ts n
  | .primary, height, ts, n => PrimaryReader rounds height ts n
  | .arguments, height, ts, ns => ArgumentsReader rounds height ts ns
  | .expressions, height, ts, ns =>
    ListReader (expression rounds) (· ∉ expressionSigns) .rightSquare height ts ns
  | .items, height, ts, ns => ∀ {depth s u}, s.Reads ts u → u.current.kind = .rightSquare →
    settled (closedList .rightSquare (expression rounds depth) rounds s) =
      within height depth (some (.ok (ns, u)))
  | .field, height, ts, f =>
    Reader (fun depth => recordField (expression rounds depth)) (· ∉ expressionSigns) height ts f
  | .fields, height, ts, fs =>
    ListReader (fun depth => recordField (expression rounds depth)) (· ∉ expressionSigns)
      .rightBrace height ts fs
  | .fieldItems, height, ts, fs => ∀ {depth s u}, s.Reads ts u → u.current.kind = .rightBrace →
    settled (closedList .rightBrace (recordField (expression rounds depth)) rounds s) =
      within height depth (some (.ok (fs, u)))

namespace Derivation

theorem ne_nil {c : Category} {ts : List Token} {n : c.Tree} (d : Derivation c ts n)
    {kinds : List Token.Kind} (h : c.starts? = some kinds) : ts ≠ [] := by
  obtain ⟨t, us, rfl, -⟩ := d.starts h
  exact List.cons_ne_nil t us

theorem starts_ne {c : Category} {ts : List Token} {n : c.Tree} (d : Derivation c ts n)
    {kinds : List Token.Kind} (h : c.starts? = some kinds) {kind : Token.Kind}
    (hk : kind ∉ kinds) : ∃ t us, ts = t :: us ∧ t.kind ≠ kind := by
  obtain ⟨t, us, rfl, ht⟩ := d.starts h
  exact ⟨t, us, rfl, fun he => hk (he ▸ ht)⟩

theorem current_ne {c : Category} {ts : List Token} {n : c.Tree} (d : Derivation c ts n)
    {kinds : List Token.Kind} (h : c.starts? = some kinds) {kind : Token.Kind}
    (hk : kind ∉ kinds) {s u : Stream} (hs : s.Reads ts u) : s.current.kind ≠ kind := by
  obtain ⟨t, us, rfl, ht⟩ := d.starts_ne h hk
  rw [hs.current_eq]
  exact ht

theorem head_ne_else {ts : List Token} {ns : List Node} (d : Derivation .statements ts ns) :
    ∀ t ∈ ts.head?, t.kind ≠ .elseWord := by
  cases d with
  | noStatements => simp
  | moreStatements first others =>
    obtain ⟨t, us, rfl, ht⟩ := first.starts rfl
    rintro _ ⟨⟩ he
    rw [he] at ht
    exact absurd ht (by decide)

theorem completes {rounds : Nat} {c : Category} {ts : List Token} {n : c.Tree}
    (d : Derivation c ts n) (hr : ts.length < rounds) : Completes rounds c d.height ts n := by
  induction d with
  | program => trivial
  | noStatements => exact .nil
  | moreStatements first others ih ih' =>
    simp only [List.length_append] at hr
    obtain ⟨t, us, rfl, ht⟩ := first.starts rfl
    refine .cons (ih (by omega)) (ih' (by omega)) ⟨t, us, rfl, ?_, ?_⟩ others.head_ne_else
    · rintro he
      rw [he] at ht
      exact absurd ht (by decide)
    · rintro he
      rw [he] at ht
      exact absurd ht (by decide)
  -- statements
  | declaring d ih =>
    obtain ⟨t, us, rfl, ht⟩ := d.starts rfl
    exact Reader.closedStatement ⟨t, List.mem_singleton.1 ht⟩ (ih hr)
  | function mark name params left body right ih ih' =>
    simp only [List.length_append, List.length_cons] at hr
    exact Reader.closedStatement mark (Reader.function mark name (ih (by omega)) left
      (ih' (by omega)) (by omega) right)
  | print mark value stop ih =>
    simp only [List.length_append, List.length_cons] at hr
    exact Reader.closedStatement mark (Reader.print mark (ih (by omega)) stop)
  | giveBack mark stop => exact Reader.closedStatement mark (Reader.giveBack mark stop)
  | giveBackValue mark value stop ih =>
    simp only [List.length_append, List.length_cons] at hr
    exact Reader.closedStatement mark (Reader.giveBackValue mark (ih (by omega)) stop
      (value.starts_ne rfl (by decide)))
  | loop mark left condition right body ih ih' =>
    simp only [List.length_append, List.length_cons] at hr
    exact Reader.statement mark (Reader.loop mark left (ih (by omega)) right (ih' (by omega)))
  | counted mark left first condition after body hfirst hcondition hafter hbody =>
    simp only [List.length_append, List.length_cons] at hr
    exact Reader.statement mark (Reader.counted mark left (hfirst (by omega)) (hcondition (by omega))
      (hafter (by omega)) (hbody (by omega)))
  | branch mark left condition right body ih ih' =>
    simp only [List.length_append, List.length_cons] at hr
    intro depth s u hs hu
    exact Reader.statement mark (Reader.branch mark left (ih (by omega)) right (ih' (by omega)))
      depth s u hs (hu rfl)
  | branches mark left condition right body other otherBody ih ih' ih'' =>
    simp only [List.length_append, List.length_cons] at hr
    exact Reader.statement mark (Reader.branches mark left (ih (by omega)) right (ih' (by omega))
      other (ih'' (by omega)))
  | block left body right ih =>
    simp only [List.length_append, List.length_cons] at hr
    exact Reader.closedStatement left (Reader.block left (ih (by omega)) (by omega) right)
  | evaluating d start ih =>
    obtain ⟨t, us, rfl, ht⟩ := d.starts rfl
    have hrule : statementRule rounds t.kind = expressionStatement rounds := by
      have hk : t.kind ≠ .leftBrace := start t rfl
      unfold statementRule
      split <;> simp_all [expressionStarts, primaryStarts]
    refine Reader.closedStatement ⟨t, rfl⟩ ?_
    rw [hrule]
    exact ih hr
  | declare mark name stop => exact .declare mark name stop
  | declareAs mark name sign init stop ih =>
    simp only [List.length_append, List.length_cons] at hr
    exact .declareAs mark name sign (ih (by omega)) stop
  | evaluate value stop ih =>
    simp only [List.length_append, List.length_cons] at hr
    exact .evaluate (ih (by omega)) stop (value.ne_nil rfl)
  | noParameters left right => exact .noParameters left right
  | parameters left names right distinct ih =>
    simp only [List.length_append, List.length_cons] at hr
    exact NamesReader.parameters left (ih (by omega)) right (by omega)
      (names.starts_ne rfl (by decide)) distinct
  | lastName t => exact NamesReader.last t
  | moreNames t comma others ih =>
    simp only [List.length_cons] at hr
    exact NamesReader.more t comma (ih (by omega))
  -- the clauses of a counting loop
  | startDeclaring d ih =>
    obtain ⟨t, us, rfl, ht⟩ := d.starts rfl
    exact .startDeclaring (ih hr) ⟨t, us, rfl, List.mem_singleton.1 ht⟩
  | startEvaluating d ih =>
    obtain ⟨t, us, rfl, ht⟩ := d.starts rfl
    refine .startEvaluating (ih hr) ⟨t, us, rfl, ?_, ?_⟩
    · rintro he
      rw [he] at ht
      exact absurd ht (by decide)
    · rintro he
      rw [he] at ht
      exact absurd ht (by decide)
  | noStart stop => exact .noStart stop
  | test d stop ih =>
    simp only [List.length_append, List.length_cons] at hr
    exact .test (ih (by omega)) stop (d.starts_ne rfl (by decide))
  | noTest stop => exact .noTest stop
  | step d right ih =>
    simp only [List.length_append, List.length_cons] at hr
    exact .step (ih (by omega)) right (d.starts_ne rfl (by decide))
  | noStep right => exact .noStep right
  -- expressions
  | expression d ih => exact .expression (ih hr)
  | assign target sign value ih ih' =>
    simp only [List.length_append, List.length_cons] at hr
    exact .assigned sign (fun _ => rfl) ((ih (by omega)).binary (by omega)) (ih' (by omega))
      (target.ne_nil rfl)
  | assignItem target sign value ih ih' =>
    simp only [List.length_append, List.length_cons] at hr
    exact .assigned sign (fun _ => rfl) ((ih (by omega)).binary (by omega)) (ih' (by omega))
      (target.ne_nil rfl)
  | unassigned d ih => exact .unassigned ((ih hr).binary hr)
  | single d ih => exact .single (ih hr) (d.ne_nil rfl)
  | operate left sign known right ih ih' =>
    simp only [List.length_append, List.length_cons] at hr
    exact .operate (ih (by omega)) known (ih' (by omega)) (left.ne_nil rfl)
  | tighter h d ih => exact .tighter h ((ih hr).binary hr)
  | factor d ih => exact .factor (ih hr)
  | negate sign d ih =>
    simp only [List.length_cons] at hr
    exact .negate sign (ih (by omega))
  | positive d ih => exact SuffixReader.unary (ih hr) hr (d.starts_ne rfl (by decide))
  | bare d ih => exact .bare (ih hr) (d.ne_nil rfl)
  | call callee args ih ih' =>
    simp only [List.length_append] at hr
    obtain ⟨t, us, rfl, ht⟩ := args.starts rfl
    exact .call (ih (by omega)) (ih' (by omega)) ⟨t, us, rfl, List.mem_singleton.1 ht⟩
      (callee.ne_nil rfl)
  | index base left key right ih ih' =>
    simp only [List.length_append, List.length_cons] at hr
    exact .index (ih (by omega)) left (ih' (by omega)) right (base.ne_nil rfl)
  | member base dot name ih =>
    simp only [List.length_append] at hr
    exact .member (ih (by omega)) dot name (base.ne_nil rfl)
  | methodCall base dot name args ih ih' =>
    simp only [List.length_append, List.length_cons] at hr
    obtain ⟨t, us, rfl, ht⟩ := args.starts rfl
    exact .methodCall (ih (by omega)) dot name (ih' (by omega))
      ⟨t, us, rfl, List.mem_singleton.1 ht⟩ (base.ne_nil rfl)
  | number t | string t | yes t | no t | name t =>
    refine .leaf t fun depth s hs => ?_
    rw [primary_run, hs, t.2]
  | group left d right ih =>
    simp only [List.length_append, List.length_cons] at hr
    exact .group left (ih (by omega)) right
  | array left d right ih =>
    simp only [List.length_append, List.length_cons] at hr
    exact .array left (ih (by omega)) right
  | record left d right ih =>
    simp only [List.length_append, List.length_cons] at hr
    exact .record left (ih (by omega)) right
  -- lists
  | noArguments left right => exact .noArguments left right
  | arguments left d right ih =>
    simp only [List.length_append, List.length_cons] at hr
    exact .arguments left (ih (by omega)) right (by omega) (d.starts_ne rfl (by decide))
  | lastExpression d ih => exact .last (ih hr) (by decide) (d.current_ne rfl (by decide))
  | moreExpressions first comma others ih ih' =>
    simp only [List.length_append, List.length_cons] at hr
    exact .more comma (ih (by omega)) (ih' (by omega)) (by decide) (first.current_ne rfl (by decide))
  | noItems =>
    intro depth s u hs hu
    exact closedList_nil hs hr hu
  | items d ih =>
    intro depth s u hs hu
    exact (ih hr).closed hr hs (by rw [hu]; decide) (by rw [hu]; decide)
  | itemsComma d comma ih =>
    simp only [List.length_append, List.length_cons, List.length_nil] at hr
    intro depth s u hs hu
    obtain ⟨v, hv, hc⟩ := hs.split
    exact (ih (by omega)).trailing hr hv comma hc hu
  | field key known colon value ih =>
    simp only [List.length_cons] at hr
    exact .field known colon (ih (by omega))
  | lastField d ih => exact .last (ih hr) (by decide) (d.current_ne rfl (by decide))
  | moreFields first comma others ih ih' =>
    simp only [List.length_append, List.length_cons] at hr
    exact .more comma (ih (by omega)) (ih' (by omega)) (by decide) (first.current_ne rfl (by decide))
  | noFields =>
    intro depth s u hs hu
    exact closedList_nil hs hr hu
  | fieldItems d ih =>
    intro depth s u hs hu
    exact (ih hr).closed hr hs (by rw [hu]; decide) (by rw [hu]; decide)
  | fieldsComma d comma ih =>
    simp only [List.length_append, List.length_cons, List.length_nil] at hr
    intro depth s u hs hu
    obtain ⟨v, hv, hc⟩ := hs.split
    exact (ih (by omega)).trailing hr hv comma hc hu

theorem program_inv {ts : List Token} {n : Node} (d : Derivation .program ts n) :
    ∃ us mark ns, ∃ body : Derivation .statements us ns, ts = us ++ [mark] ∧
      n = .sequence ns (startOf ts) ∧ d.height = body.height := by
  cases d with
  | program body mark => exact ⟨_, mark.1, _, body, rfl, rfl, rfl⟩

end Derivation

theorem program_eq_of_derivation {tokens ts : List Token} {mark : Token} {n : Node}
    (hts : tokens.takeWhile (·.kind ≠ .eof) = ts) (hmark : Stream.endOf tokens = mark)
    (d : Derivation .program (ts ++ [mark]) n) (depth : Nat) :
    settled (program depth tokens) = within d.height depth (some (.ok n)) := by
  subst hts hmark
  obtain ⟨us, mark, ns, body, heq, rfl, hd⟩ := d.program_inv
  obtain ⟨hus, -⟩ := List.append_inj' heq rfl
  obtain ⟨u, hs, hu⟩ := (Stream.ofTokens tokens).exists_reads_ahead
  rw [Stream.ahead_ofTokens, hus] at hs
  have hlength : us.length < tokens.length + 1 := by
    rw [← hus]
    exact Nat.lt_succ_of_le (List.takeWhile_sublist _).length_le
  have hbody : settled (wholeList (statement _ depth) _ (Stream.ofTokens tokens)) =
      within body.height depth (some (.ok (ns, u))) :=
    (body.completes hlength).whole hlength hs hu
  unfold program programWithin
  simp only [StateT.run, hd]
  by_cases hle : body.height ≤ depth
  · rw [eq_of_settled_within hbody hle, Stream.current_place_ofTokens, within, if_pos hle]
    rfl
  · obtain ⟨p, hp⟩ := exists_cut_of_settled_within hbody (Nat.not_le.1 hle)
    rw [hp, within, if_neg hle]
    rfl

theorem program_ok_of_derivation {tokens : List Token} {n : Node}
    (d : Derivation .program (tokens.takeWhile (·.kind ≠ .eof) ++ [Stream.endOf tokens]) n)
    {depth : Nat} (hd : d.height ≤ depth) : program depth tokens = .ok n :=
  eq_of_settled_within (program_eq_of_derivation rfl rfl d depth) hd

/-- The parser returns a tree exactly if it is that of a derivation of the tokens before the first end
    mark, all of them and in their order, which is no higher than the nesting allowance. -/
theorem program_eq_ok_iff (depth : Nat) (tokens : List Token) (n : Node) :
    program depth tokens = .ok n ↔
      ∃ d : Derivation .program (tokens.takeWhile (·.kind ≠ .eof) ++ [Stream.endOf tokens]) n,
        d.height ≤ depth :=
  ⟨program_sound, fun ⟨d, hd⟩ => program_ok_of_derivation d hd⟩

/-- The grammar is unambiguous: tokens determine the tree of their derivation. -/
theorem Derivation.tree_unique {tokens : List Token} {n m : Node}
    (d : Derivation .program (tokens.takeWhile (·.kind ≠ .eof) ++ [Stream.endOf tokens]) n)
    (e : Derivation .program (tokens.takeWhile (·.kind ≠ .eof) ++ [Stream.endOf tokens]) m) :
    n = m := by
  have hn := program_ok_of_derivation d (Nat.le_max_left d.height e.height)
  have hm := program_ok_of_derivation e (Nat.le_max_right d.height e.height)
  rw [hn] at hm
  exact Except.ok.inj hm

end Scripting.Grammar
