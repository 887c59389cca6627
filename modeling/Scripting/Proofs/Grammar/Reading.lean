import Scripting.Proofs.Grammar.Derivation

/-!
What the steps of the parser do to the tokens ahead of it. Each step is described twice: by the results
it can have, for reasoning from a result backwards, and by the result it does have.
-/

set_option autoImplicit false

namespace Scripting.Grammar

namespace Stream

/-- The first end mark of a token list. A list without one ends where its last token stands, and an
    empty list at line and column zero. -/
def endOf (tokens : List Token) : Token :=
  match tokens.find? (·.kind = .eof) with
  | some last => last
  | none => .endMark ((tokens.getLast?.map (·.position)).getD ⟨0, 0⟩)

theorem endOf_kind (tokens : List Token) : (endOf tokens).kind = .eof := by
  unfold endOf
  cases h : tokens.find? (·.kind = .eof) with
  | none => rfl
  | some last => simpa using List.find?_some h

/-- Taking the tokens `ts`, none of them an end mark, leads from one stream to the other. -/
inductive Reads : Stream → List Token → Stream → Prop where
  | refl (s : Stream) : Reads s [] s
  | step {s u : Stream} {ts : List Token} (h : s.current.kind ≠ .eof) (tail : s.rest.Reads ts u) :
      Reads s (s.current :: ts) u

namespace Reads

theorem trans {s u v : Stream} {ts us : List Token} (h : s.Reads ts u) (h' : u.Reads us v) :
    s.Reads (ts ++ us) v := by
  induction h with
  | refl s => exact h'
  | step hk _ ih => exact .step hk (ih h')

theorem eq_of_nil {s u : Stream} (h : s.Reads [] u) : s = u := by
  cases h
  rfl

theorem current_eq {s u : Stream} {t : Token} {ts : List Token} (h : s.Reads (t :: ts) u) :
    s.current = t := by
  cases h
  rfl

theorem rest {s u : Stream} {t : Token} {ts : List Token} (h : s.Reads (t :: ts) u) :
    s.rest.Reads ts u := by
  cases h with
  | step _ tail => exact tail

theorem ne_eof {s u : Stream} {ts : List Token} (h : s.Reads ts u) : ∀ t ∈ ts, t.kind ≠ .eof := by
  induction h with
  | refl => simp
  | step hk _ ih => exact List.forall_mem_cons.2 ⟨hk, ih⟩

theorem split {s v : Stream} {ts us : List Token} (h : s.Reads (ts ++ us) v) :
    ∃ u, s.Reads ts u ∧ u.Reads us v := by
  induction ts generalizing s with
  | nil => exact ⟨s, refl s, h⟩
  | cons t ts ih =>
    cases h with
    | step hk tail =>
      obtain ⟨u, hu, hv⟩ := ih tail
      exact ⟨u, .step hk hu, hv⟩

theorem splitHead {s u : Stream} {t : Token} {ts : List Token} (h : s.Reads (t :: ts) u) :
    ∃ v, s.Reads [t] v ∧ v.Reads ts u :=
  split h

theorem place_eq {s u : Stream} {ts : List Token} (h : s.Reads ts u) (hts : ts ≠ []) :
    s.current.place = startOf ts := by
  cases h with
  | refl => exact absurd rfl hts
  | step => rfl

end Reads

theorem reads_rest {s : Stream} (h : s.current.kind ≠ .eof) : s.Reads [s.current] s.rest :=
  .step h (.refl _)

def ahead (s : Stream) : List Token :=
  (s.current :: s.later).takeWhile (·.kind ≠ .eof)

def last (s : Stream) : Token :=
  endOf (s.current :: s.later)

theorem ahead_eq_cons {s : Stream} (h : s.current.kind ≠ .eof) :
    s.ahead = s.current :: s.rest.ahead := by
  obtain ⟨t, ts⟩ := s
  have ht : ahead ⟨t, ts⟩ = t :: ts.takeWhile (·.kind ≠ .eof) := List.takeWhile_cons_of_pos (by simpa using h)
  rw [ht]
  cases ts <;> rfl

theorem ahead_eq_nil {s : Stream} (h : s.current.kind = .eof) : s.ahead = [] :=
  List.takeWhile_cons_of_neg (by simpa using h)

theorem last_rest {s : Stream} (h : s.current.kind ≠ .eof) : s.rest.last = s.last := by
  obtain ⟨t, ts⟩ := s
  cases ts with
  | nil => simp [rest, last, endOf, Token.endMark, h]
  | cons u us => simp [rest, last, endOf, h]

theorem last_eq_current {s : Stream} (h : s.current.kind = .eof) : s.last = s.current := by
  simp [last, endOf, h]

theorem Reads.ahead_eq {s u : Stream} {ts : List Token} (h : s.Reads ts u) :
    s.ahead = ts ++ u.ahead := by
  induction h with
  | refl => rfl
  | step hk _ ih => rw [ahead_eq_cons hk, ih, List.cons_append]

theorem exists_reads_ahead (s : Stream) : ∃ u, s.Reads s.ahead u ∧ u.current.kind = .eof := by
  obtain ⟨t, ts⟩ := s
  have stop (s : Stream) (hk : s.current.kind = .eof) :
      ∃ u, s.Reads s.ahead u ∧ u.current.kind = .eof := by
    rw [ahead_eq_nil hk]
    exact ⟨s, .refl s, hk⟩
  have more (s : Stream) (hk : s.current.kind ≠ .eof)
      (h : ∃ u, s.rest.Reads s.rest.ahead u ∧ u.current.kind = .eof) :
      ∃ u, s.Reads s.ahead u ∧ u.current.kind = .eof := by
    obtain ⟨u, hu, hend⟩ := h
    rw [ahead_eq_cons hk]
    exact ⟨u, .step hk hu, hend⟩
  induction ts generalizing t with
  | nil =>
    by_cases hk : t.kind = .eof
    · exact stop ⟨t, []⟩ hk
    · exact more ⟨t, []⟩ hk (stop ⟨.endMark t.position, []⟩ rfl)
  | cons u us ih =>
    by_cases hk : t.kind = .eof
    · exact stop ⟨t, u :: us⟩ hk
    · exact more ⟨t, u :: us⟩ hk (ih u)

theorem ahead_ofTokens (tokens : List Token) :
    (ofTokens tokens).ahead = tokens.takeWhile (·.kind ≠ .eof) := by
  cases tokens <;> rfl

theorem last_ofTokens (tokens : List Token) : (ofTokens tokens).last = endOf tokens := by
  cases tokens <;> rfl

theorem current_place_ofTokens (tokens : List Token) :
    (ofTokens tokens).current.place =
      startOf (tokens.takeWhile (·.kind ≠ .eof) ++ [endOf tokens]) := by
  rw [← ahead_ofTokens, ← last_ofTokens]
  by_cases h : (ofTokens tokens).current.kind = .eof
  · rw [ahead_eq_nil h, last_eq_current h]
    rfl
  · rw [ahead_eq_cons h]
    rfl

end Stream

section Results

variable {α β : Type} {s u : Stream} {t : Token} {kind : Token.Kind}

theorem bind_run (m : Parse α) (f : α → Parse β) (s : Stream) :
    (m >>= f) s = match m s with
      | .ok (a, u) => f a u
      | .error e => .error e := by
  simp only [bind, StateT.bind, Except.bind]
  cases m s <;> rfl

theorem bind_eq_ok {m : Parse α} {f : α → Parse β} {r : β × Stream} :
    (m >>= f) s = .ok r ↔ ∃ a u, m s = .ok (a, u) ∧ f a u = .ok r := by
  rw [bind_run]
  cases h : m s with
  | error e => simp
  | ok p =>
    obtain ⟨a, u⟩ := p
    simp only [Except.ok.injEq, Prod.mk.injEq]
    constructor
    · intro hf
      exact ⟨a, u, ⟨rfl, rfl⟩, hf⟩
    · rintro ⟨a', u', ⟨rfl, rfl⟩, hf⟩
      exact hf

theorem map_run (f : α → β) (m : Parse α) (s : Stream) :
    (f <$> m) s = match m s with
      | .ok (a, u) => .ok (f a, u)
      | .error e => .error e := by
  rw [map_eq_pure_bind, bind_run]
  rfl

theorem map_eq_ok {f : α → β} {m : Parse α} {b : β} :
    (f <$> m) s = .ok (b, u) ↔ ∃ a, m s = .ok (a, u) ∧ f a = b := by
  rw [map_run]
  cases h : m s with
  | error e => simp
  | ok p =>
    obtain ⟨a, v⟩ := p
    simp only [Except.ok.injEq, Prod.mk.injEq]
    constructor
    · rintro ⟨rfl, rfl⟩
      exact ⟨a, ⟨rfl, rfl⟩, rfl⟩
    · rintro ⟨a', ⟨rfl, rfl⟩, rfl⟩
      exact ⟨rfl, rfl⟩

theorem pure_run (a : α) (s : Stream) : (pure a : Parse α) s = .ok (a, s) := rfl

theorem pure_eq_ok {a b : α} : (pure a : Parse α) s = .ok (b, u) ↔ a = b ∧ s = u := by
  simp [pure_run]

theorem throw_run (e : SyntaxError) (s : Stream) : (throw e : Parse α) s = .error e := rfl

theorem throw_eq_ok {e : SyntaxError} {r : α × Stream} :
    (throw e : Parse α) s = .ok r ↔ False := by
  simp [throw_run]

theorem tooDeep_run (s : Stream) :
    (tooDeep : Parse α) s = .error (.nestingTooDeep s.current.position) := rfl

theorem tooDeep_eq_ok {r : α × Stream} : (tooDeep : Parse α) s = .ok r ↔ False := by
  simp [tooDeep_run]

theorem peek_run (s : Stream) : peek s = .ok (s.current, s) := rfl

theorem peek_eq_ok : peek s = .ok (t, u) ↔ s.current = t ∧ s = u := by
  simp [peek_run]

theorem take_run (s : Stream) : take s = .ok (s.current, s.rest) := rfl

theorem take_eq_ok : take s = .ok (t, u) ↔ s.current = t ∧ s.rest = u := by
  simp [take_run]

theorem takeIf_run (kind : Token.Kind) (s : Stream) :
    takeIf kind s = if s.current.kind = kind then .ok (true, s.rest) else .ok (false, s) := by
  rw [takeIf, bind_run, peek_run]
  by_cases h : s.current.kind = kind
  · simp only [h, if_true]
    rfl
  · simp only [h, if_false]
    rfl

theorem need_run (kind : Token.Kind) (what : Expected) (s : Stream) :
    need kind what s = if s.current.kind = kind then .ok (s.current, s.rest)
      else .error (.expected what s.current.position) := by
  rw [need, bind_run, peek_run]
  by_cases h : s.current.kind = kind
  · simp only [h, if_true]
    rfl
  · simp only [h, if_false]
    rfl

theorem reads_of_take (hk : s.current.kind = kind) (he : kind ≠ .eof) (h : take s = .ok (t, u)) :
    t.kind = kind ∧ s.Reads [t] u := by
  obtain ⟨rfl, rfl⟩ := take_eq_ok.1 h
  exact ⟨hk, Stream.reads_rest (hk ▸ he)⟩

theorem reads_of_need {what : Expected} (he : kind ≠ .eof) (h : need kind what s = .ok (t, u)) :
    t.kind = kind ∧ s.Reads [t] u := by
  rw [need_run] at h
  by_cases hk : s.current.kind = kind
  · rw [if_pos hk] at h
    exact reads_of_take hk he h
  · rw [if_neg hk] at h
    cases h

theorem reads_of_takeIf {b : Bool} (he : kind ≠ .eof) (h : takeIf kind s = .ok (b, u)) :
    (b = true ∧ s.current.kind = kind ∧ s.Reads [s.current] u) ∨
      (b = false ∧ s.current.kind ≠ kind ∧ s = u) := by
  rw [takeIf_run] at h
  by_cases hk : s.current.kind = kind
  · rw [if_pos hk] at h
    cases h
    exact .inl ⟨rfl, hk, Stream.reads_rest (hk ▸ he)⟩
  · rw [if_neg hk] at h
    cases h
    exact .inr ⟨rfl, hk, rfl⟩

end Results

/-! Rules that go by the kind of the current token. -/

theorem suffixChain_run (args : Parse (List Node × Option Place)) (index : Parse Node)
    (place : Option Place) (rounds : Nat) (base : Node) (s : Stream) :
    suffixChain args index place (rounds + 1) base s =
      match s.current.kind with
      | .leftParen => (args >>= fun r => suffixChain args index place rounds
          (.call base r.1 r.2 place)) s
      | .leftSquare => (do
          let key ← index
          let _ ← need .rightSquare .indexClose
          suffixChain args index place rounds (.item base key place) : Parse Node) s.rest
      | .dot => (do
          let name ← need .ident .propertyName
          if (← peek).kind = .leftParen then
            let r ← args
            suffixChain args index place rounds
              (.methodCall base (.string (word name)) r.1 r.2 place)
          else
            suffixChain args index place rounds (.item base (.string (word name)) place) :
          Parse Node) s.rest
      | _ => .ok (base, s) := by
  rw [suffixChain, bind_run, peek_run]
  dsimp only
  cases s.current.kind <;> rfl

theorem primary_run (rounds depth : Nat) (s : Stream) :
    primary rounds (depth + 1) s =
      match s.current.kind with
      | .number => .ok (.number (word s.current), s.rest)
      | .string => .ok (.string (word s.current), s.rest)
      | .trueWord => .ok (.boolean true (word s.current), s.rest)
      | .falseWord => .ok (.boolean false (word s.current), s.rest)
      | .ident => .ok (.name (word s.current), s.rest)
      | .leftParen => (do
          let inner ← expression rounds depth
          let _ ← need .rightParen .groupClose
          return inner : Parse Node) s.rest
      | .leftSquare => (do
          let items ← closedList .rightSquare (expression rounds depth) rounds
          let _ ← need .rightSquare .arrayClose
          return .array items s.current.place : Parse Node) s.rest
      | .leftBrace => (do
          let fields ← recordFields rounds depth
          return .record fields s.current.place : Parse Node) s.rest
      | kind => .error (.unexpected kind s.current.position) := by
  rw [primary, bind_run, peek_run]
  dsimp only
  cases s.current.kind <;> rfl

theorem statement_run (rounds depth : Nat) (s : Stream) :
    statement rounds (depth + 1) s =
      match s.current.kind with
      | .varWord => declaration rounds depth s
      | .funWord => functionDefinition rounds depth s
      | .printWord => printStatement rounds depth s
      | .returnWord => returnStatement rounds depth s
      | .whileWord => whileStatement rounds depth s
      | .forWord => forStatement rounds depth s
      | .ifWord => ifStatement rounds depth s
      | .leftBrace => blockStatement rounds depth s
      | _ => expressionStatement rounds depth s := by
  rw [statement, bind_run, peek_run]
  dsimp only
  cases s.current.kind <;> rfl

theorem loopStart_run (rounds depth : Nat) (s : Stream) :
    loopStart rounds depth s =
      match s.current.kind with
      | .varWord => (some <$> declaration rounds depth) s
      | .semicolon => .ok (none, s.rest)
      | _ => (some <$> expressionStatement rounds depth) s := by
  rw [loopStart, bind_run, peek_run]
  dsimp only
  cases s.current.kind <;> rfl

end Scripting.Grammar
