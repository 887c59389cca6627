import Scripting.Proofs.Grammar.Completeness

/-!
Two runs of the parser side by side. They start at streams that show the same tokens up to the end mark,
each has rounds enough for these tokens, and the second may go deeper than the first. Then they take the
same tokens and end in the same way, except that the first can be cut off for being nested too deeply;
and it is not cut off if its allowance is in proportion to the tokens ahead.
-/

set_option autoImplicit false

namespace Scripting.Grammar

namespace Stream

def left (s : Stream) : Nat := s.ahead.length

theorem left_eq_succ {s : Stream} (h : s.current.kind ≠ .eof) : s.left = s.rest.left + 1 := by
  rw [left, ahead_eq_cons h]
  rfl

/-- The streams show the same tokens up to the end mark, and the same mark. -/
structure Alike (s s' : Stream) : Prop where
  ahead : s.ahead = s'.ahead
  last : s.last = s'.last

namespace Alike

variable {s s' : Stream}

theorem refl (s : Stream) : s.Alike s := ⟨rfl, rfl⟩

theorem current_eq (h : s.Alike s') : s'.current = s.current := by
  have first (s : Stream) : s.current = s.ahead.headD s.last := by
    by_cases hk : s.current.kind = .eof
    · rw [ahead_eq_nil hk, last_eq_current hk]
      rfl
    · rw [ahead_eq_cons hk]
      rfl
  rw [first s, first s', h.ahead, h.last]

theorem rest (h : s.Alike s') (hk : s.current.kind ≠ .eof) : s.rest.Alike s'.rest := by
  have hk' : s'.current.kind ≠ .eof := h.current_eq ▸ hk
  have hahead := h.ahead
  rw [ahead_eq_cons hk, ahead_eq_cons hk'] at hahead
  refine ⟨(List.cons.inj hahead).2, ?_⟩
  rw [last_rest hk, last_rest hk', h.last]

end Alike

theorem alike_ofTokens_append (body later later' : List Token) {mark : Token} (h : mark.kind = .eof) :
    (ofTokens (body ++ mark :: later)).Alike (ofTokens (body ++ mark :: later')) := by
  have hahead (later : List Token) : (ofTokens (body ++ mark :: later)).ahead =
      body.takeWhile (·.kind ≠ .eof) := by
    rw [ahead_ofTokens]
    induction body with
    | nil => exact List.takeWhile_cons_of_neg (by simpa using h)
    | cons t body ih =>
      by_cases hk : t.kind = .eof
      · simp [hk]
      · simp only [ne_eq, decide_not] at ih
        simp [hk, ih]
  have hlast (later : List Token) : (ofTokens (body ++ mark :: later)).last =
      (body.find? (·.kind = .eof)).getD mark := by
    rw [last_ofTokens, endOf, List.find?_append]
    cases body.find? (·.kind = .eof) with
    | some t => rfl
    | none => simp [h]
  exact ⟨(hahead later).trans (hahead later').symm, (hlast later).trans (hlast later').symm⟩

end Stream

structure Runs where
  rounds : Nat
  rounds' : Nat
  gap : Nat
  short : Prop

/-- How two runs of a rule end. The first is cut off, which happens only if it is short of allowance, and
    to the second as well, at the same token, if there is no gap; or both fail for the same cause; or both
    read the same, and leave fewer tokens than the bound. -/
inductive Lockstep (p : Runs) (bound : Nat) {α : Type} :
    Except SyntaxError (α × Stream) → Except SyntaxError (α × Stream) → Prop where
  | cut {place : Position} {r : Except SyntaxError (α × Stream)} (h : p.short)
      (same : p.gap = 0 → r = .error (.nestingTooDeep place)) :
      Lockstep p bound (.error (.nestingTooDeep place)) r
  | fail {e : SyntaxError} (h : ∀ place, e ≠ .nestingTooDeep place) : Lockstep p bound (.error e) (.error e)
  | read (a : α) {u u' : Stream} (h : u.Alike u') (fewer : u.left < bound) :
      Lockstep p bound (.ok (a, u)) (.ok (a, u'))

namespace Lockstep

section Steps

variable {p : Runs} {b c : Nat} {α β : Type} {s s' : Stream}

theorem bind {m m' : Parse α} {k k' : α → Parse β} (hm : Lockstep p b (m s) (m' s'))
    (hk : ∀ a u u', u.Alike u' → u.left < b → Lockstep p c (k a u) (k' a u')) :
    Lockstep p c ((m >>= k) s) ((m' >>= k') s') := by
  rw [bind_run, bind_run]
  generalize m s = r at hm
  generalize m' s' = r' at hm
  cases hm with
  | cut h same =>
    refine .cut h fun hgap => ?_
    rw [same hgap]
  | fail h => exact .fail h
  | read a h fewer => exact hk a _ _ h fewer

theorem widen {r r' : Except SyntaxError (α × Stream)} (h : Lockstep p b r r')
    (hbc : b ≤ c) : Lockstep p c r r' := by
  cases h with
  | cut h same => exact .cut h same
  | fail h => exact .fail h
  | read a h fewer => exact .read a h (Nat.lt_of_lt_of_le fewer hbc)

theorem map {m m' : Parse α} (f : α → β) (hm : Lockstep p b (m s) (m' s')) :
    Lockstep p b ((f <$> m) s) ((f <$> m') s') := by
  rw [map_eq_pure_bind, map_eq_pure_bind]
  exact hm.bind fun a _ _ h fewer => .read (f a) h fewer

theorem pure (a : α) (h : s.Alike s') (fewer : s.left < b) :
    Lockstep p b ((pure a : Parse α) s) ((pure a : Parse α) s') :=
  .read a h fewer

theorem throw {e : SyntaxError} (h : ∀ place, e ≠ .nestingTooDeep place) :
    Lockstep p b ((throw e : Parse α) s) ((throw e : Parse α) s') :=
  .fail h

theorem ite {q : Prop} [Decidable q] {m m' n n' : Parse α}
    (hm : q → Lockstep p b (m s) (m' s')) (hn : ¬q → Lockstep p b (n s) (n' s')) :
    Lockstep p b ((if q then m else n) s) ((if q then m' else n') s') := by
  by_cases h : q
  · rw [if_pos h, if_pos h]
    exact hm h
  · rw [if_neg h, if_neg h]
    exact hn h

theorem peek {k k' : Token → Parse β} (h : s.Alike s')
    (hk : Lockstep p c (k s.current s) (k' s.current s')) :
    Lockstep p c ((peek >>= k) s) ((peek >>= k') s') := by
  rw [bind_run, bind_run, peek_run, peek_run, h.current_eq]
  exact hk

theorem take {k k' : Token → Parse β} (h : s.Alike s') (he : s.current.kind ≠ .eof)
    (hk : ∀ u u', u.Alike u' → u.left < s.left →
      Lockstep p c (k s.current u) (k' s.current u')) :
    Lockstep p c ((take >>= k) s) ((take >>= k') s') := by
  rw [bind_run, bind_run, take_run, take_run, h.current_eq]
  exact hk s.rest s'.rest (h.rest he) (by rw [Stream.left_eq_succ he]; omega)

theorem takeIf {kind : Token.Kind} {k k' : Bool → Parse β} (h : s.Alike s') (he : kind ≠ .eof)
    (hyes : ∀ u u', u.Alike u' → u.left < s.left → Lockstep p c (k true u) (k' true u'))
    (hno : Lockstep p c (k false s) (k' false s')) :
    Lockstep p c ((takeIf kind >>= k) s) ((takeIf kind >>= k') s') := by
  rw [bind_run, bind_run, takeIf_run, takeIf_run, h.current_eq]
  by_cases hk : s.current.kind = kind
  · have hne : s.current.kind ≠ .eof := hk ▸ he
    rw [if_pos hk, if_pos hk]
    exact hyes s.rest s'.rest (h.rest hne) (by rw [Stream.left_eq_succ hne]; omega)
  · rw [if_neg hk, if_neg hk]
    exact hno

theorem need {kind : Token.Kind} {what : Expected} {k k' : Token → Parse β} (h : s.Alike s')
    (he : kind ≠ .eof)
    (hk : ∀ t u u', u.Alike u' → u.left < s.left → Lockstep p c (k t u) (k' t u')) :
    Lockstep p c ((need kind what >>= k) s) ((need kind what >>= k') s') := by
  rw [bind_run, bind_run, need_run, need_run, h.current_eq]
  by_cases hkind : s.current.kind = kind
  · have hne : s.current.kind ≠ .eof := hkind ▸ he
    rw [if_pos hkind, if_pos hkind]
    exact hk s.current s.rest s'.rest (h.rest hne) (by rw [Stream.left_eq_succ hne]; omega)
  · rw [if_neg hkind, if_neg hkind]
    exact .fail (by simp)

theorem close {kind : Token.Kind} {what : Expected} (a : α) (h : s.Alike s') (he : kind ≠ .eof)
    (hb : s.left ≤ b) :
    Lockstep p b ((Grammar.need kind what >>= fun _ => Pure.pure a) s)
      ((Grammar.need kind what >>= fun _ => Pure.pure a) s') :=
  .need h he fun _ _ _ hu hlt => .pure a hu (by omega)

end Steps

/-! Repetition. Each round takes a token, so that there are rounds enough if there are more of them than
tokens ahead. -/

section Repetition

variable {p : Runs} {limit : Nat} {α : Type}

/-- The rules go in step, and take a token, wherever fewer tokens than the limit stand ahead. -/
def Steady (p : Runs) (limit : Nat) (rule rule' : Parse α) : Prop :=
  ∀ s s', s.Alike s' → s.left < limit → Lockstep p s.left (rule s) (rule' s')

theorem commaList {item item' : Parse α} (hitem : Steady p limit item item') {k k' : Nat}
    {s s' : Stream} (h : s.Alike s') (hl : s.left < limit) (hk : s.left < k) (hk' : s.left < k') :
    Lockstep p s.left (commaList item k s) (commaList item' k' s') := by
  induction k generalizing k' s s' with
  | zero => omega
  | succ k ih =>
    obtain ⟨k', rfl⟩ := Nat.exists_eq_succ_of_ne_zero (Nat.ne_zero_of_lt hk')
    refine .bind (hitem s s' h hl) fun x u u' hu hlt => ?_
    refine .takeIf hu (by decide) (fun v v' hv hlt' => ?_) (.pure [x] hu hlt)
    refine .bind (ih hv (by omega) (by omega) (by omega)) fun xs w w' hw hlt'' => ?_
    exact .pure (x :: xs) hw (by omega)

theorem closedList (close : Token.Kind) {item item' : Parse α}
    (hitem : Steady p limit item item') {k k' : Nat} {s s' : Stream} (h : s.Alike s')
    (hl : s.left < limit) (hk : s.left < k) (hk' : s.left < k') :
    Lockstep p (s.left + 1) (closedList close item k s)
      (closedList close item' k' s') := by
  induction k generalizing k' s s' with
  | zero => omega
  | succ k ih =>
    obtain ⟨k', rfl⟩ := Nat.exists_eq_succ_of_ne_zero (Nat.ne_zero_of_lt hk')
    refine .peek h (.ite (fun _ => .pure [] h (by omega)) fun _ => ?_)
    refine .bind (hitem s s' h hl) fun x u u' hu hlt => ?_
    refine .takeIf hu (by decide) (fun v v' hv hlt' => ?_) (.pure [x] hu (by omega))
    refine .bind (ih hv (by omega) (by omega) (by omega)) fun xs w w' hw hlt'' => ?_
    exact .pure (x :: xs) hw (by omega)

theorem bracedList {item item' : Parse Node} (hitem : Steady p limit item item') {k k' : Nat}
    {s s' : Stream} (h : s.Alike s') (hl : s.left < limit) (hk : s.left < k) (hk' : s.left < k') :
    Lockstep p s.left (bracedList item k s) (bracedList item' k' s') := by
  induction k generalizing k' s s' with
  | zero => omega
  | succ k ih =>
    obtain ⟨k', rfl⟩ := Nat.exists_eq_succ_of_ne_zero (Nat.ne_zero_of_lt hk')
    refine .peek h (.ite (fun hclose => ?_) fun _ => .ite (fun _ => .throw (by simp)) fun _ => ?_)
    · exact .take h (by rw [hclose]; decide) fun u u' hu hlt => .pure [] hu hlt
    · refine .bind (hitem s s' h hl) fun n u u' hu hlt => ?_
      refine .bind (ih hu (by omega) (by omega) (by omega)) fun ns v v' hv hlt' => ?_
      exact .pure (n :: ns) hv (by omega)

theorem wholeList {item item' : Parse Node} (hitem : Steady p limit item item') {k k' : Nat}
    {s s' : Stream} (h : s.Alike s') (hl : s.left < limit) (hk : s.left < k) (hk' : s.left < k') :
    Lockstep p (s.left + 1) (wholeList item k s) (wholeList item' k' s') := by
  induction k generalizing k' s s' with
  | zero => omega
  | succ k ih =>
    obtain ⟨k', rfl⟩ := Nat.exists_eq_succ_of_ne_zero (Nat.ne_zero_of_lt hk')
    refine .peek h (.ite (fun _ => .pure [] h (by omega)) fun _ => ?_)
    refine .bind (hitem s s' h hl) fun n u u' hu hlt => ?_
    refine .bind (ih hu (by omega) (by omega) (by omega)) fun ns v v' hv hlt' => ?_
    exact .pure (n :: ns) hv (by omega)

theorem parameterNames (seen : List String) {k k' : Nat} {s s' : Stream} (h : s.Alike s')
    (hk : s.left < k) (hk' : s.left < k') :
    Lockstep p s.left (parameterNames seen k s) (parameterNames seen k' s') := by
  induction k generalizing seen k' s s' with
  | zero => omega
  | succ k ih =>
    obtain ⟨k', rfl⟩ := Nat.exists_eq_succ_of_ne_zero (Nat.ne_zero_of_lt hk')
    refine .need h (by decide) fun t u u' hu hlt => ?_
    refine .ite (fun _ => .throw (by simp)) fun _ => ?_
    refine .takeIf hu (by decide) (fun v v' hv hlt' => ?_) (.pure [word t] hu hlt)
    refine .bind (ih (t.text :: seen) hv (by omega) (by omega)) fun ws w w' hw hlt'' => ?_
    exact .pure (word t :: ws) hw (by omega)

theorem operatorChain (level : Level) (place : Option Place) {operand operand' : Parse Node}
    (hoperand : Steady p limit operand operand') (left : Node) {k k' : Nat} {s s' : Stream}
    (h : s.Alike s') (hl : s.left < limit) (hk : s.left < k) (hk' : s.left < k') :
    Lockstep p (s.left + 1) (operatorChain level operand place k left s)
      (operatorChain level operand' place k' left s') := by
  induction k generalizing left k' s s' with
  | zero => omega
  | succ k ih =>
    obtain ⟨k', rfl⟩ := Nat.exists_eq_succ_of_ne_zero (Nat.ne_zero_of_lt hk')
    refine .peek h (.ite (fun hsign => ?_) fun _ => .pure left h (by omega))
    refine .take h (Level.ne_eof_of_mem hsign) fun u u' hu hlt => ?_
    refine .bind (hoperand u u' hu (by omega)) fun right v v' hv hlt' => ?_
    exact (ih _ hv (by omega) (by omega) (by omega)).widen (by omega)

theorem suffixChain (place : Option Place) {args args' : Parse (List Node × Option Place)}
    {index index' : Parse Node}
    (hargs : ∀ s s', s.Alike s' → s.current.kind ≠ .eof → s.left < limit →
      Lockstep p s.left (args s) (args' s'))
    (hindex : Steady p limit index index') (base : Node) {k k' : Nat} {s s' : Stream}
    (h : s.Alike s') (hl : s.left < limit) (hk : s.left < k) (hk' : s.left < k') :
    Lockstep p (s.left + 1) (suffixChain args index place k base s)
      (suffixChain args' index' place k' base s') := by
  induction k generalizing base k' s s' with
  | zero => omega
  | succ k ih =>
    obtain ⟨k', rfl⟩ := Nat.exists_eq_succ_of_ne_zero (Nat.ne_zero_of_lt hk')
    -- Every suffix takes a token, so the rounds do not run out before the tokens.
    have next (base : Node) {u u' : Stream} (hu : u.Alike u') (hlt : u.left < s.left) :
        Lockstep p (s.left + 1) (Grammar.suffixChain args index place k base u)
          (Grammar.suffixChain args' index' place k' base u') :=
      (ih base hu (by omega) (by omega) (by omega)).widen (by omega)
    refine .peek h ?_
    generalize hkind : s.current.kind = kind
    cases kind with
    | leftParen =>
      refine .bind (hargs s s' h (by rw [hkind]; decide) hl) fun r u u' hu hlt => ?_
      exact next _ hu hlt
    | leftSquare =>
      refine .take h (by rw [hkind]; decide) fun u u' hu hlt => ?_
      refine .bind (hindex u u' hu (by omega)) fun key v v' hv hlt' => ?_
      refine .need hv (by decide) fun _ w w' hw hlt'' => ?_
      exact next _ hw (by omega)
    | dot =>
      refine .take h (by rw [hkind]; decide) fun u u' hu hlt => ?_
      refine .need hu (by decide) fun name v v' hv hlt' => ?_
      refine .peek hv (.ite (fun hopen => ?_) fun _ => next _ hv (by omega))
      refine .bind (hargs v v' hv (by rw [hopen]; decide) (by omega)) fun r w w' hw hlt'' => ?_
      exact next _ hw (by omega)
    | _ => exact .pure base h (by omega)

theorem recordField {value value' : Parse Node} (hvalue : Steady p limit value value') :
    Steady p limit (recordField value) (recordField value') := by
  intro s s' h hl
  refine .peek h (.ite (fun hkey => ?_) fun _ => .throw (by simp))
  have hne : s.current.kind ≠ .eof := by
    intro he
    rw [he] at hkey
    exact absurd hkey (by decide)
  refine .take h hne fun u u' hu hlt => .need hu (by decide) fun _ v v' hv hlt' => ?_
  refine .bind (hvalue v v' hv (by omega)) fun n w w' hw hlt'' => ?_
  exact .pure _ hw (by omega)

end Repetition

end Lockstep

/-- The rule makes the runs go in step, and takes a token, from any stream that starts as it should and
    has fewer tokens ahead than there are rounds. Sixteen units for each token ahead, and the cost of the
    rule, are allowance enough. -/
def Runs.Keep {α : Type} (p : Runs) (start : Token.Kind → Prop) (cost : Nat)
    (rule : Nat → Nat → Parse α) (depth : Nat) : Prop :=
  ∀ s s', s.Alike s' → start s.current.kind → s.left < min p.rounds p.rounds' →
    (depth < 16 * s.left + cost → p.short) →
      Lockstep p s.left (rule p.rounds depth s) (rule p.rounds' (depth + p.gap) s')

namespace Runs.Keep

variable {α : Type} {p : Runs} {cost depth : Nat} {start : Token.Kind → Prop}
  {rule : Nat → Nat → Parse α}

theorem cut (h : ∀ rounds, rule rounds depth = tooDeep) (hcost : depth < cost) :
    p.Keep start cost rule depth := by
  intro s s' hss _ _ hs
  rw [h, tooDeep_run]
  refine .cut (hs (by omega)) fun hgap => ?_
  rw [hgap, Nat.add_zero, h, tooDeep_run, hss.current_eq]

theorem succ (h : ∀ s s', s.Alike s' → start s.current.kind → s.left < min p.rounds p.rounds' →
      (depth + 1 < 16 * s.left + cost → p.short) →
        Lockstep p s.left (rule p.rounds (depth + 1) s) (rule p.rounds' (depth + p.gap + 1) s')) :
    p.Keep start cost rule (depth + 1) := by
  intro s s' hs hstart hl hshort
  rw [Nat.add_right_comm]
  exact h s s' hs hstart hl hshort

theorem steady (h : p.Keep anywhere cost rule depth) {n : Nat}
    (hn : n ≤ min p.rounds p.rounds') (hs : depth + 16 < 16 * n + cost → p.short) :
    Lockstep.Steady p n (rule p.rounds depth) (rule p.rounds' (depth + p.gap)) :=
  fun s s' halike hl => h s s' halike trivial (by omega) fun hd => hs (by omega)

end Runs.Keep

def Level.cost : Level → Nat
  | equality => 11
  | comparison => 9
  | sum => 7
  | product => 5

theorem Level.cost_of_tighter {level next : Level} (h : level.tighter? = some next) :
    level.cost = next.cost + 2 := by
  cases level <;> cases h <;> rfl

theorem Level.cost_of_tightest {level : Level} (h : level.tighter? = none) : level.cost = 5 := by
  cases level <;> first | rfl | cases h

section Rules

variable (p : Runs)

mutual

theorem expression_keep : ∀ depth, p.Keep anywhere 13 expression depth
  | 0 => .cut (fun _ => rfl) (by decide)
  | depth + 1 => .succ fun s s' h _ hr hs =>
    assignment_keep depth s s' h trivial hr fun hd => hs (by omega)
termination_by structural depth => depth

theorem assignment_keep : ∀ depth, p.Keep anywhere 12 assignment depth
  | 0 => .cut (fun _ => rfl) (by decide)
  | depth + 1 => by
    refine .succ fun s s' h _ hr hs => .peek h ?_
    have htarget := binary_keep .equality depth s s' h trivial hr
      fun hd => hs (by simp only [Level.cost] at hd; omega)
    refine .bind htarget fun target u u' hu hlt => ?_
    refine .peek hu (.ite (fun hsign => ?_) fun _ => .pure target hu hlt)
    refine .take hu (by rw [hsign]; decide) fun v v' hv hlt' => ?_
    have hvalue := assignment_keep depth v v' hv trivial (by omega) fun hd => hs (by omega)
    refine .bind hvalue fun value w w' hw hlt'' => ?_
    cases target with
    | name word => exact .pure _ hw (by omega)
    | item base key place => exact .pure _ hw (by omega)
    | _ => exact .throw (by simp)
termination_by structural depth => depth

theorem binary_keep (level : Level) : ∀ depth,
    p.Keep anywhere level.cost (fun rounds => binary rounds level) depth
  | 0 => .cut (fun _ => rfl) (by cases level <;> decide)
  | 1 => .cut (fun _ => rfl) (by cases level <;> decide)
  | depth + 2 => by
    refine .succ fun s s' h _ hr hs => ?_
    rw [Nat.add_right_comm depth 1 p.gap]
    have hoperand : Lockstep.Steady p (s.left + 1) (operandOf p.rounds level depth)
        (operandOf p.rounds' level (depth + p.gap)) := by
      unfold operandOf
      cases hl : level.tighter? with
      | some next =>
        have hcost := Level.cost_of_tighter hl
        exact (binary_keep next depth).steady (by omega) fun hd => hs (by omega)
      | none =>
        have hcost := Level.cost_of_tightest hl
        exact (unary_keep depth).steady (by omega) fun hd => hs (by omega)
    refine .peek h (.bind (hoperand s s' h (by omega)) fun left u u' hu hlt => ?_)
    have hchain := Lockstep.operatorChain level s.current.place hoperand left hu (by omega)
      (by omega : u.left < p.rounds) (by omega : u.left < p.rounds')
    exact hchain.widen (by omega)
termination_by structural depth => depth

theorem unary_keep : ∀ depth, p.Keep anywhere 3 unary depth
  | 0 => .cut (fun _ => rfl) (by decide)
  | depth + 1 => by
    refine .succ fun s s' h _ hr hs => .peek h (.ite (fun hsign => ?_) fun _ => ?_)
    · refine .take h (by rw [hsign]; decide) fun u u' hu hlt => ?_
      have hoperand := unary_keep depth u u' hu trivial (by omega) fun hd => hs (by omega)
      exact .bind hoperand fun operand v v' hv hlt' => .pure _ hv (by omega)
    · exact suffixed_keep depth s s' h trivial hr fun hd => hs (by omega)
termination_by structural depth => depth

theorem suffixed_keep : ∀ depth, p.Keep anywhere 2 suffixed depth
  | 0 => .cut (fun _ => rfl) (by decide)
  | depth + 1 => by
    refine .succ fun s s' h _ hr hs => .peek h ?_
    have hbase := primary_keep depth s s' h trivial hr fun hd => hs (by omega)
    refine .bind hbase fun base u u' hu hlt => ?_
    have hargs (v v' : Stream) (hv : v.Alike v') (he : v.current.kind ≠ .eof) (hlt' : v.left < s.left) :=
      arguments_keep depth v v' hv he (by omega) fun hd => hs (by omega)
    have hindex := (expression_keep depth).steady (n := s.left) (by omega) fun hd => hs (by omega)
    exact (Lockstep.suffixChain s.current.place hargs hindex base hu hlt (by omega) (by omega)).widen
      (by omega)
termination_by structural depth => depth

theorem arguments_keep : ∀ depth, p.Keep (· ≠ .eof) 1 arguments depth
  | 0 => .cut (fun _ => rfl) (by decide)
  | depth + 1 => by
    refine .succ fun s s' h he hr hs => .take h he fun u u' hu hlt => .peek hu ?_
    have hitem := (expression_keep depth).steady (n := s.left) (by omega) fun hd => hs (by omega)
    have hlist := Lockstep.commaList hitem hu hlt (by omega : u.left < p.rounds)
      (by omega : u.left < p.rounds')
    refine .ite (fun _ => .bind (.pure [] hu hlt) ?_) fun _ => .bind hlist ?_
    all_goals exact fun args v v' hv hlt' => .close _ hv (by decide) (by omega)
termination_by structural depth => depth

theorem primary_keep : ∀ depth, p.Keep anywhere 1 primary depth
  | 0 => .cut (fun _ => rfl) (by decide)
  | depth + 1 => by
    refine .succ fun s s' h _ hr hs => .peek h ?_
    generalize hkind : s.current.kind = kind
    cases kind with
    | number | string | trueWord | falseWord | ident =>
      exact .take h (by rw [hkind]; decide) fun u u' hu hlt => .pure _ hu hlt
    | leftParen =>
      refine .take h (by rw [hkind]; decide) fun u u' hu hlt => ?_
      have hinner := expression_keep depth u u' hu trivial (by omega) fun hd => hs (by omega)
      exact .bind hinner fun inner v v' hv hlt' => .close _ hv (by decide) (by omega)
    | leftSquare =>
      refine .take h (by rw [hkind]; decide) fun u u' hu hlt => ?_
      have hitem := (expression_keep depth).steady (n := s.left) (by omega) fun hd => hs (by omega)
      refine .bind (.closedList _ hitem hu hlt (by omega) (by omega)) fun items v v' hv hlt' => ?_
      exact .close _ hv (by decide) (by omega)
    | leftBrace =>
      refine .take h (by rw [hkind]; decide) fun u u' hu hlt => ?_
      have hfields := recordFields_keep depth u u' hu trivial (by omega) fun hd => hs (by omega)
      exact .bind hfields fun fields v v' hv hlt' => .pure _ hv (by omega)
    | _ => exact .throw (by simp)
termination_by structural depth => depth

theorem recordFields_keep : ∀ depth, p.Keep anywhere 14 recordFields depth
  | 0 => .cut (fun _ => rfl) (by decide)
  | depth + 1 => by
    refine .succ fun s s' h _ hr hs => ?_
    have hvalue := (expression_keep depth).steady (n := s.left + 1) (by omega)
      fun hd => hs (by omega)
    refine .bind (.closedList _ (.recordField hvalue) h (by omega) (by omega) (by omega))
      fun fields u u' hu hlt => ?_
    exact .close _ hu (by decide) (by omega)
termination_by structural depth => depth

end

theorem parameters_keep (depth : Nat) : p.Keep anywhere 1 parameters depth := by
  cases depth with
  | zero => exact .cut (fun _ => rfl) (by decide)
  | succ depth =>
    refine .succ fun s s' h _ hr hs => .need h (by decide) fun t u u' hu hlt => .peek hu ?_
    have hnames := Lockstep.parameterNames (p := p) [] hu (by omega : u.left < p.rounds)
      (by omega : u.left < p.rounds')
    refine .ite (fun _ => .bind (.pure [] hu hlt) ?_) fun _ => .bind hnames ?_
    all_goals exact fun names v v' hv hlt' => .close _ hv (by decide) (by omega)

theorem declaration_keep (depth : Nat) : p.Keep (· ≠ .eof) 1 declaration depth := by
  cases depth with
  | zero => exact .cut (fun _ => rfl) (by decide)
  | succ depth =>
    refine .succ fun s s' h he hr hs => .take h he fun u u' hu hlt => ?_
    refine .need hu (by decide) fun name v v' hv hlt' => ?_
    refine .takeIf hv (by decide) (fun w w' hw hlt'' => ?_) ?_
    · have hinit := expression_keep p depth w w' hw trivial (by omega) fun hd => hs (by omega)
      exact .bind (hinit.map some) fun init x x' hx _ => .close _ hx (by decide) (by omega)
    · exact .bind (.pure none hv hlt') fun init x x' hx _ => .close _ hx (by decide) (by omega)

theorem printStatement_keep (depth : Nat) : p.Keep (· ≠ .eof) 1 printStatement depth := by
  cases depth with
  | zero => exact .cut (fun _ => rfl) (by decide)
  | succ depth =>
    refine .succ fun s s' h he hr hs => .take h he fun u u' hu hlt => ?_
    have hvalue := expression_keep p depth u u' hu trivial (by omega) fun hd => hs (by omega)
    exact .bind hvalue fun value v v' hv hlt' => .close _ hv (by decide) (by omega)

theorem returnStatement_keep (depth : Nat) : p.Keep (· ≠ .eof) 1 returnStatement depth := by
  cases depth with
  | zero => exact .cut (fun _ => rfl) (by decide)
  | succ depth =>
    refine .succ fun s s' h he hr hs => .take h he fun u u' hu hlt => .peek hu ?_
    have hvalue := expression_keep p depth u u' hu trivial (by omega) fun hd => hs (by omega)
    refine .ite (fun _ => .bind (.pure none hu hlt) ?_) fun _ =>
      .bind (hvalue.map some) ?_
    all_goals exact fun value v v' hv hlt' => .close _ hv (by decide) (by omega)

theorem condition_keep (depth : Nat) : p.Keep anywhere 1 condition depth := by
  cases depth with
  | zero => exact .cut (fun _ => rfl) (by decide)
  | succ depth =>
    refine .succ fun s s' h _ hr hs => .need h (by decide) fun _ u u' hu hlt => ?_
    have htest := expression_keep p depth u u' hu trivial (by omega) fun hd => hs (by omega)
    exact .bind htest fun test v v' hv hlt' => .close _ hv (by decide) (by omega)

theorem expressionStatement_keep (depth : Nat) : p.Keep anywhere 14 expressionStatement depth := by
  cases depth with
  | zero => exact .cut (fun _ => rfl) (by decide)
  | succ depth =>
    refine .succ fun s s' h _ hr hs => .peek h ?_
    have hvalue := expression_keep p depth s s' h trivial hr fun hd => hs (by omega)
    exact .bind hvalue fun value u u' hu hlt => .close _ hu (by decide) (by omega)

theorem loopStart_keep (depth : Nat) : p.Keep anywhere 14 loopStart depth := by
  intro s s' h _ hr hs
  refine .peek h ?_
  have hother := expressionStatement_keep p depth s s' h trivial hr hs
  generalize hkind : s.current.kind = kind
  cases kind with
  | varWord =>
    have hdeclare := declaration_keep p depth s s' h (by rw [hkind]; decide) hr fun hd => hs (by omega)
    exact hdeclare.map some
  | semicolon => exact .take h (by rw [hkind]; decide) fun u u' hu hlt => .pure none hu hlt
  | _ => exact hother.map some

theorem loopTest_keep (depth : Nat) : p.Keep anywhere 13 loopTest depth := by
  intro s s' h _ hr hs
  have htest := expression_keep p depth s s' h trivial hr hs
  refine .peek h (.ite (fun _ => .bind (.pure _ h (Nat.lt_succ_self _)) ?_) fun _ =>
    .bind htest ?_)
  all_goals exact fun test u u' hu hlt => .close _ hu (by decide) (by omega)

theorem loopStep_keep (depth : Nat) : p.Keep anywhere 13 loopStep depth := by
  intro s s' h _ hr hs
  have hstep := expression_keep p depth s s' h trivial hr hs
  refine .peek h (.ite (fun _ => .bind (.pure _ h (Nat.lt_succ_self _)) ?_) fun _ =>
    .bind (hstep.map _) ?_)
  all_goals exact fun step u u' hu hlt => .close _ hu (by decide) (by omega)

mutual

theorem statement_keep : ∀ depth, p.Keep anywhere 15 statement depth
  | 0 => .cut (fun _ => rfl) (by decide)
  | depth + 1 => by
    refine .succ fun s s' h _ hr hs => .peek h ?_
    have hshort {cost : Nat} (hcost : cost ≤ 14) (hd : depth < 16 * s.left + cost) : p.short :=
      hs (by omega)
    have hother := expressionStatement_keep p depth s s' h trivial hr (hshort (by omega))
    generalize hkind : s.current.kind = kind
    have hne (hk : kind ≠ .eof) : s.current.kind ≠ .eof := hkind ▸ hk
    cases kind with
    | varWord => exact declaration_keep p depth s s' h (hne (by decide)) hr (hshort (by omega))
    | funWord => exact functionDefinition_keep depth s s' h (hne (by decide)) hr (hshort (by omega))
    | printWord => exact printStatement_keep p depth s s' h (hne (by decide)) hr (hshort (by omega))
    | returnWord => exact returnStatement_keep p depth s s' h (hne (by decide)) hr (hshort (by omega))
    | whileWord => exact whileStatement_keep depth s s' h (hne (by decide)) hr (hshort (by omega))
    | forWord => exact forStatement_keep depth s s' h (hne (by decide)) hr (hshort (by omega))
    | ifWord => exact ifStatement_keep depth s s' h (hne (by decide)) hr (hshort (by omega))
    | leftBrace => exact blockStatement_keep depth s s' h (hne (by decide)) hr (hshort (by omega))
    | _ => exact hother
termination_by structural depth => depth

theorem functionDefinition_keep : ∀ depth, p.Keep (· ≠ .eof) 1 functionDefinition depth
  | 0 => .cut (fun _ => rfl) (by decide)
  | depth + 1 => by
    refine .succ fun s s' h he hr hs => .take h he fun u u' hu hlt => ?_
    refine .need hu (by decide) fun name v v' hv hlt' => ?_
    have hparams := parameters_keep p depth v v' hv trivial (by omega) fun hd => hs (by omega)
    refine .bind hparams fun params w w' hw hlt'' => .need hw (by decide) fun brace x x' hx _ => ?_
    have hbody := statements_keep depth x x' hx trivial (by omega) fun hd => hs (by omega)
    exact .bind hbody fun body y y' hy _ => .pure _ hy (by omega)
termination_by structural depth => depth

theorem whileStatement_keep : ∀ depth, p.Keep (· ≠ .eof) 1 whileStatement depth
  | 0 => .cut (fun _ => rfl) (by decide)
  | depth + 1 => by
    refine .succ fun s s' h he hr hs => .take h he fun u u' hu hlt => ?_
    have htest := condition_keep p depth u u' hu trivial (by omega) fun hd => hs (by omega)
    refine .bind htest fun test v v' hv hlt' => ?_
    have hbody := statement_keep depth v v' hv trivial (by omega) fun hd => hs (by omega)
    exact .bind hbody fun body w w' hw hlt'' => .pure _ hw (by omega)
termination_by structural depth => depth

theorem ifStatement_keep : ∀ depth, p.Keep (· ≠ .eof) 1 ifStatement depth
  | 0 => .cut (fun _ => rfl) (by decide)
  | depth + 1 => by
    refine .succ fun s s' h he hr hs => .take h he fun u u' hu hlt => ?_
    have htest := condition_keep p depth u u' hu trivial (by omega) fun hd => hs (by omega)
    refine .bind htest fun test v v' hv hlt' => ?_
    have hyes := statement_keep depth v v' hv trivial (by omega) fun hd => hs (by omega)
    refine .bind hyes fun yes w w' hw hlt'' => .takeIf hw (by decide) (fun x x' hx _ => ?_) ?_
    · have hno := statement_keep depth x x' hx trivial (by omega) fun hd => hs (by omega)
      exact .bind hno fun no y y' hy _ => .pure _ hy (by omega)
    · exact .bind (.pure _ hw hlt'') fun no y y' hy _ => .pure _ hy (by omega)
termination_by structural depth => depth

theorem forStatement_keep : ∀ depth, p.Keep (· ≠ .eof) 1 forStatement depth
  | 0 => .cut (fun _ => rfl) (by decide)
  | depth + 1 => by
    refine .succ fun s s' h he hr hs => .take h he fun u u' hu hlt => ?_
    refine .need hu (by decide) fun _ v v' hv hlt' => ?_
    have hstart := loopStart_keep p depth v v' hv trivial (by omega) fun hd => hs (by omega)
    refine .bind hstart fun start w w' hw hlt'' => ?_
    have htest := loopTest_keep p depth w w' hw trivial (by omega) fun hd => hs (by omega)
    refine .bind htest fun test x x' hx _ => ?_
    have hstep := loopStep_keep p depth x x' hx trivial (by omega) fun hd => hs (by omega)
    refine .bind hstep fun step y y' hy _ => ?_
    have hbody := statement_keep depth y y' hy trivial (by omega) fun hd => hs (by omega)
    exact .bind hbody fun body z z' hz _ => .pure _ hz (by omega)
termination_by structural depth => depth

theorem blockStatement_keep : ∀ depth, p.Keep (· ≠ .eof) 1 blockStatement depth
  | 0 => .cut (fun _ => rfl) (by decide)
  | depth + 1 => by
    refine .succ fun s s' h he hr hs => .take h he fun u u' hu hlt => ?_
    have hbody := statements_keep depth u u' hu trivial (by omega) fun hd => hs (by omega)
    exact .bind hbody fun body v v' hv hlt' => .pure _ hv (by omega)
termination_by structural depth => depth

theorem statements_keep : ∀ depth, p.Keep anywhere 16 statements depth
  | 0 => .cut (fun _ => rfl) (by decide)
  | depth + 1 => by
    refine .succ fun s s' h _ hr hs => ?_
    have hitem := (statement_keep depth).steady (n := s.left + 1) (by omega) fun hd => hs (by omega)
    exact .bracedList hitem h (Nat.lt_succ_self _) (by omega) (by omega)
termination_by structural depth => depth

end

end Rules

end Scripting.Grammar
