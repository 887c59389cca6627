import Mathlib
import Scripting.Proofs.Evaluation.Matching
import Scripting.Proofs.Grammar.Joining
import Scripting.Proofs.Store.References

/-!
Statements in sequence. A list of statements in two parts runs as the first part and, if that ends with a
value, the second one in the store that it leaves. So two texts with a line feed between them run as one
after the other does, in the same frame, but for the lines of what was written in the second one.
-/

set_option autoImplicit false

namespace Scripting

/-! Failures of nodes that have a place. -/

namespace Outcome

def IsPlaced : Outcome → Prop
  | .failed failure => failure.place.isSome
  | _ => True

theorem IsPlaced.locate_eq {out : Outcome} (h : out.IsPlaced) (p : Option Place) : out.locate p = out := by
  cases out with
  | failed failure =>
    obtain ⟨fault, q⟩ := failure
    obtain ⟨place, rfl⟩ := Option.isSome_iff_exists.1 h
    rfl
  | _ => rfl

theorem isPlaced_locate (out : Outcome) {p : Option Place} (hp : p.isSome) : (out.locate p).IsPlaced := by
  cases out with
  | failed failure =>
    obtain ⟨fault, q⟩ := failure
    cases q with
    | none => exact hp
    | some place => rfl
  | _ => trivial

end Outcome

section Placed

variable {limits : Limits} {eval : Activation → Store → Option (Outcome × Store)} {a : Activation}
  {out : Outcome} {t : Store}

theorem Task.carryOut_isPlaced (hplace : a.node.place.isSome)
    (heval : ∀ s out t, eval a s = some (out, t) → out.IsPlaced) (task : Task)
    (h : task.carryOut limits eval a = some (out, t)) : out.IsPlaced := by
  induction task with
  | done last s =>
    cases h
    exact last.isPlaced_locate hplace
  | visit cost n scope s resume ih =>
    simp only [carryOut] at h
    split at h
    · cases he : eval ⟨n, scope, a.depth + cost⟩ s with
      | none =>
        rw [he] at h
        cases h
      | some r =>
        rw [he] at h
        exact ih _ _ h
    · exact ih _ _ h
  | again s => exact heval s out t h

theorem Activation.eval_isPlaced (hplace : a.node.place.isSome) {fuel : Nat} {s : Store}
    (h : a.eval limits fuel s = some (out, t)) : out.IsPlaced := by
  induction fuel generalizing s out t with
  | zero => cases h
  | succ fuel ih => exact Task.carryOut_isPlaced hplace (fun _ _ _ => ih) _ h

end Placed

/-! Statements in two parts. -/

/-- Goes on from an end with a value; any other end stays. -/
def Outcome.andThen (k : Value → Store → Option (Outcome × Store)) :
    Outcome × Store → Option (Outcome × Store)
  | (.value v, t) => k v t
  | r => some r

section Sequences

variable {limits : Limits} {eval : Activation → Store → Option (Outcome × Store)} {scope : FrameId}

theorem Task.carryOut_sequence_append (a : Activation) (cost : Nat) (ns ms : List Node) (last : Value) (s : Store) :
    (Task.sequence cost scope (ns ++ ms) last s).carryOut limits eval a =
      ((Task.sequence cost scope ns last s).carryOut limits eval a).bind
        (Outcome.andThen fun v t => (Task.sequence cost scope ms v t).carryOut limits eval a) := by
  induction ns generalizing last s with
  | nil => rfl
  | cons n ns ih =>
    simp only [List.cons_append, sequence, value, carryOut]
    split
    · cases eval ⟨n, scope, a.depth + cost⟩ s with
      | none => rfl
      | some r =>
        obtain ⟨out, t⟩ := r
        cases out with
        | value v => exact ih v t
        | _ => rfl
    · rfl

theorem Task.carryOut_sequence_congr {a b : Activation} (hdepth : b.depth = a.depth) (cost : Nat) {ns : List Node}
    (heval : ∀ n ∈ ns, ∀ depth s out t, eval ⟨n, scope, depth⟩ s = some (out, t) → out.IsPlaced)
    (last : Value) (s : Store) :
    (Task.sequence cost scope ns last s).carryOut limits eval b =
      (Task.sequence cost scope ns last s).carryOut limits eval a := by
  induction ns generalizing last s with
  | nil => rfl
  | cons n ns ih =>
    rw [List.forall_mem_cons] at heval
    simp only [sequence, value, carryOut, hdepth]
    split
    · cases hn : eval ⟨n, scope, a.depth + cost⟩ s with
      | none => rfl
      | some r =>
        obtain ⟨out, t⟩ := r
        have hplaced := heval.1 _ _ _ _ hn
        cases out with
        | value v => exact ih heval.2 v t
        | _ => simp only [onValue, carryOut, hplaced.locate_eq]
    · rfl

variable {ns ms : List Node} {p q o : Option Place} {s : Store}

theorem Activation.eval_sequence_append (hns : ∀ n ∈ ns, n.place.isSome) (hms : ∀ n ∈ ms, n.place.isSome)
    (fuel : Nat) :
    Activation.eval limits (fuel + 1) ⟨.sequence (ns ++ ms) p, scope, 0⟩ s =
      (Activation.eval limits (fuel + 1) ⟨.sequence ns q, scope, 0⟩ s).bind
        (Outcome.andThen fun v t =>
          if ms = [] then some (.value v, t)
          else Activation.eval limits (fuel + 1) ⟨.sequence ms o, scope, 0⟩ t) := by
  -- One unit of fuel goes to the list as a whole.
  have hplaced {l : List Node} (hl : ∀ n ∈ l, n.place.isSome) : ∀ n ∈ l, ∀ depth s out t,
      Activation.eval limits fuel ⟨n, scope, depth⟩ s = some (out, t) → out.IsPlaced :=
    fun n hn depth s out t h => Activation.eval_isPlaced (hl n hn) h
  let whole : Activation := ⟨.sequence (ns ++ ms) p, scope, 0⟩
  have hfirst : (Task.sequence 4 scope ns .nothing s).carryOut limits (Activation.eval limits fuel) whole =
      Activation.eval limits (fuel + 1) ⟨.sequence ns q, scope, 0⟩ s :=
    Task.carryOut_sequence_congr (a := ⟨.sequence ns q, scope, 0⟩) (b := whole) rfl 4 (hplaced hns) .nothing s
  have hsecond (v : Value) (t : Store) :
      (Task.sequence 4 scope ms v t).carryOut limits (Activation.eval limits fuel) whole =
        if ms = [] then some (.value v, t)
        else Activation.eval limits (fuel + 1) ⟨.sequence ms o, scope, 0⟩ t := by
    cases ms with
    | nil => rfl
    | cons m rest =>
      -- the first statement does not look at the value before it
      exact Task.carryOut_sequence_congr (a := ⟨.sequence (m :: rest) o, scope, 0⟩) (b := whole) rfl 4
        (hplaced hms) .nothing t
  refine (Task.carryOut_sequence_append whole 4 ns ms .nothing s).trans ?_
  rw [hfirst]
  exact congrArg (fun k => Option.bind _ (Outcome.andThen k)) (funext fun v => funext fun t => hsecond v t)

theorem Machine.evaluate_unique {n : Node} {r r' : Outcome × Store} {steps steps' : Nat}
    (h : evaluate limits steps n scope s = some r) (h' : evaluate limits steps' n scope s = some r') :
    r' = r := by
  obtain ⟨fuel, hr⟩ := evaluate_iff.1 ⟨steps, h⟩
  obtain ⟨fuel', hr'⟩ := evaluate_iff.1 ⟨steps', h'⟩
  have hmax := Activation.eval_mono (Nat.le_max_left fuel fuel') _ _ _ hr
  rw [Activation.eval_mono (Nat.le_max_right fuel fuel') _ _ _ hr'] at hmax
  exact Option.some.inj hmax

/-- What statements end with after a part of them has ended: with the same if that was no value, and
    otherwise with what the others end with in the store that was left behind. -/
theorem Machine.evaluate_sequence_append_iff (hns : ∀ n ∈ ns, n.place.isSome)
    (hms : ∀ n ∈ ms, n.place.isSome) {steps : Nat} {out : Outcome} {t : Store}
    (hrun : evaluate limits steps (.sequence ns q) scope s = some (out, t)) {r : Outcome × Store} :
    (∃ steps, evaluate limits steps (.sequence (ns ++ ms) p) scope s = some r) ↔
      ((∀ v, out ≠ .value v) ∨ ms = []) ∧ r = (out, t) ∨ (∃ v, out = .value v) ∧ ms ≠ [] ∧
        ∃ steps, evaluate limits steps (.sequence ms o) scope t = some r := by
  obtain ⟨fuel₀, hfirst⟩ := evaluate_iff.1 ⟨steps, hrun⟩
  -- with enough fuel for the first part, the whole is what follows it
  have hwhole {fuel : Nat} (hle : fuel₀ ≤ fuel + 1) :
      Activation.eval limits (fuel + 1) ⟨.sequence (ns ++ ms) p, scope, 0⟩ s = Outcome.andThen (fun v t =>
        if ms = [] then some (.value v, t)
        else Activation.eval limits (fuel + 1) ⟨.sequence ms o, scope, 0⟩ t) (out, t) := by
    rw [Activation.eval_sequence_append (q := q) (o := o) hns hms,
      Activation.eval_mono hle _ _ _ hfirst, Option.bind_some]
  simp only [evaluate_iff]
  constructor
  · rintro ⟨fuel, h⟩
    have hmore := Activation.eval_mono (show fuel ≤ max fuel fuel₀ + 1 by omega) _ _ _ h
    rw [hwhole (by omega)] at hmore
    cases out with
    | value v =>
      simp only [Outcome.andThen] at hmore
      split at hmore
      · exact .inl ⟨.inr ‹_›, (Option.some.inj hmore).symm⟩
      · exact .inr ⟨⟨v, rfl⟩, ‹_›, _, hmore⟩
    | _ => exact .inl ⟨.inl (by simp), (Option.some.inj hmore).symm⟩
  · rintro (⟨hend, rfl⟩ | ⟨⟨v, rfl⟩, hne, fuel, h⟩)
    · refine ⟨fuel₀ + 1, (hwhole (Nat.le_succ fuel₀)).trans ?_⟩
      cases out with
      | value v => exact if_pos (hend.resolve_left fun hv => hv v rfl)
      | _ => rfl
    · refine ⟨max fuel fuel₀ + 1, (hwhole (by omega)).trans ((if_neg hne).trans ?_)⟩
      exact Activation.eval_mono (by omega) _ _ _ h

end Sequences

/-! Programs that stand lower. -/

namespace Node

def Mentions (n : Node) (p : Option Place) : Prop := ∃ m : Node, m.Within n ∧ p ∈ m.marks

theorem Within.trans {m n l : Node} (h : m.Within n) (h' : n.Within l) : m.Within l := by
  induction h' with
  | refl => exact h
  | child hc _ ih => exact .child hc ih

/-- Nodes of a program beside the same ones lower by some lines, and those of the functions that a store
    holds beside themselves. -/
inductive Lowered (lines : Nat) (n : Node) (s : Store) : Node → Node → Prop where
  | lowered {m : Node} (h : m.Within n) : Lowered lines n s m (m.relocate (Relocation.lower lines).place)
  | kept {c : Closure} {m : Node} (hc : s.Holds (.function c)) (h : m.Within c.body) : Lowered lines n s m m

inductive LoweredPlace (lines : Nat) (n : Node) (s : Store) : Option Place → Option Place → Prop where
  | lowered {p : Option Place} (h : n.Mentions p) : LoweredPlace lines n s p (p.map (.lower lines))
  | kept {c : Closure} {p : Option Place} (hc : s.Holds (.function c)) (h : c.body.Mentions p) :
      LoweredPlace lines n s p p
  | none : LoweredPlace lines n s none none

variable {lines : Nat} {n : Node} {s : Store}

theorem LoweredPlace.or {p p' q q' : Option Place} (h : LoweredPlace lines n s p p')
    (h' : LoweredPlace lines n s q q') : LoweredPlace lines n s (p <|> q) (p' <|> q') := by
  cases p with
  | none =>
    cases h <;> exact h'
  | some place =>
    cases h with
    | lowered h => exact .lowered h
    | kept hc h => exact .kept hc h

theorem Lowered.parallel {m m' : Node} (h : Lowered lines n s m m') :
    m.Parallel (LoweredPlace lines n s) (fun w w' => w'.text = w.text) (Lowered lines n s)
      (Lowered lines n s) m' := by
  cases h with
  | lowered h =>
    have hchild (c c' : Node) (hc : c ∈ m.children) (heq : c' = c.relocate (Relocation.lower lines).place) :
        Lowered lines n s c c' := by
      subst heq
      exact .lowered ((Within.child hc (.refl c)).trans h)
    refine (parallel_relocate _ m).exchange ?_ ?_ (fun c c' hc => hchild c c' (mem_children_of_operands hc))
      hchild
    · rintro p _ hp rfl
      exact .lowered ⟨m, h, hp⟩
    · rintro w _ rfl
      rfl
  | @kept closure _ hclosure h =>
    have hchild (c c' : Node) (hc : c ∈ m.children) (heq : c' = c) : Lowered lines n s c c' := by
      subst heq
      exact .kept hclosure ((Within.child hc (.refl _)).trans h)
    have hself : m.Parallel (fun p p' => p' = p) (fun w w' => w' = w) (fun c c' => c' = c) (fun c c' => c' = c) m :=
      .refl (fun _ => rfl) (fun _ => rfl) (fun _ _ => rfl) fun _ _ => rfl
    refine hself.exchange ?_ ?_ (fun c c' hc => hchild c c' (mem_children_of_operands hc)) hchild
    · rintro p _ hp rfl
      exact .kept hclosure ⟨m, h, hp⟩
    · rintro w _ rfl
      rfl

end Node

/-- Nodes correspond if the second one is the first one, lowered if it is one of `n`, or if both are the
    same and of a function that `s` holds. -/
def Pairing.lowering (lines : Nat) (n : Node) (s : Store) : Pairing :=
  .matching (Node.LoweredPlace lines n s) (Node.Lowered lines n s) Eq

section Lowering

variable {lines : Nat} {n : Node} {s : Store}

theorem Pairing.lowering_lawful (limits : Limits) : (Pairing.lowering lines n s).Lawful limits :=
  matching_lawful ⟨.none, .or, fun _ => rfl, Node.Lowered.parallel⟩ limits

theorem Pairing.lowering_stores : (Pairing.lowering lines n s).Stores () s s := by
  refine matching_stores_self (fun _ => rfl) fun v hv c hc => ?_
  subst hc
  exact .kept hv (.refl c.body)

end Lowering

/-! Texts that run one after the other. -/

namespace Program

inductive ResultsAlike (K : Pairing) (W : K.World) : Except Error Value → Except Error Value → Prop where
  | value {v v' : Value} (h : K.Values W v v') : ResultsAlike K W (.ok v) (.ok v')
  | failed {fault : Fault} {p p' : Option Place} (h : K.place p p') :
      ResultsAlike K W (.error (.runtime ⟨fault, p⟩)) (.error (.runtime ⟨fault, p'⟩))
  | crashed (cause : Crash) : ResultsAlike K W (.error (.crash cause)) (.error (.crash cause))

/-- Runs that end with corresponding results and stores. -/
structure EndsAlike (K : Pairing) (W : K.World) (r r' : Except Error Value × Store) : Prop where
  result : ResultsAlike K W r.1 r'.1
  stores : K.Stores W r.2 r'.2

theorem endsAlike_of_outcomes {K : Pairing} {W : K.World} {out out' : Outcome} {s s' : Store}
    (hplace : K.place none none) (hs : K.Stores W s s') (h : K.Outcomes W out out') :
    EndsAlike K W (result out, s) (result out', s') := by
  refine ⟨?_, hs⟩
  cases h with
  | value h => exact .value h
  | returned h => exact .value h
  | failed h => exact .failed h
  | aborted cause =>
    cases cause with
    | stack | text => exact .failed hplace
    | unreadable => exact .crashed _

theorem endsAlike_lowered (lines : Nat) (n : Node) {s : Store} {scope : FrameId}
    (hscope : scope.index < s.frames.size) (limits : Limits) (fuel : Nat) :
    Option.Rel (fun r r' => EndsAlike (.lowering lines n s) () (result r.1, r.2) (result r'.1, r'.2))
      (Activation.eval limits fuel ⟨n, scope, 0⟩ s)
      (Activation.eval limits fuel ⟨n.relocate (Relocation.lower lines).place, scope, 0⟩ s) := by
  have hactive : (Pairing.lowering lines n s).Active () s s ⟨n, scope, 0⟩
      (n.relocate (Relocation.lower lines).place) :=
    ⟨Pairing.lowering_stores, hscope, .lowered (.refl n)⟩
  have hresults := Activation.eval_mirrors (Pairing.lowering_lawful limits) Pairing.matching_sameDepths fuel
    hactive
  generalize Activation.eval limits fuel ⟨n, scope, 0⟩ s = r,
    Activation.eval limits fuel ⟨n.relocate (Relocation.lower lines).place, scope, 0⟩ s = r' at hresults
  cases hresults with
  | none => exact .none
  | some hr =>
    obtain ⟨W, -, hs, hout⟩ := hr
    exact .some (endsAlike_of_outcomes .none hs hout)

/-- Given enough steps, the text, run in the frame, ends with the result and leaves the store behind. -/
def EndsWith [Host] (calls : Nat) (source : String) (scope : FrameId) (s : Store) (r : Except Error Value × Store) :
    Prop :=
  ∃ steps, run calls steps source scope s = some r

theorem endsWith_iff [Host] {source : String} {n : Node} (h : parse source = .ok n) {calls : Nat}
    (hlimit : nesting calls ≤ maxNesting) {scope : FrameId} {s : Store} {r : Except Error Value × Store} :
    EndsWith calls source scope s r ↔ ∃ r₀,
      (∃ steps, Machine.evaluate (limits calls) steps n scope s = some r₀) ∧ (result r₀.1, r₀.2) = r := by
  simp only [EndsWith, run, h, execute, if_neg (Nat.not_lt.2 hlimit), Option.map_eq_some_iff]
  constructor
  · rintro ⟨steps, r₀, hr₀, hr⟩
    exact ⟨r₀, ⟨steps, hr₀⟩, hr⟩
  · rintro ⟨r₀, ⟨steps, hr₀⟩, hr⟩
    exact ⟨steps, r₀, hr₀, hr⟩

theorem exists_sequence_of_parse [Host] {source : String} {n : Node} (h : parse source = .ok n) :
    ∃ ns p, n = .sequence ns p ∧ ∀ m ∈ ns, m.place.isSome := by
  obtain ⟨tiles, ns, -, hns, rfl⟩ := parse_eq_ok_iff.1 h
  refine ⟨ns, _, rfl, fun m hm => ?_⟩
  obtain ⟨token, -, hplace⟩ := hns.placed m hm m (.refl m)
  rw [hplace]
  rfl

end Program

/-- If two texts are accepted, so are they with a line feed between them. The joined text ends as the second
    one does where the first has left off, or as the first one if that is no value. Only places differ. -/
theorem joined_texts_run_in_sequence [Host] {a b : String} {m n : Node} (ha : Program.parse a = .ok m)
    (hb : Program.parse b = .ok n) :
    ∃ program, Program.parse (a ++ "\n" ++ b) = .ok program ∧
      program.statements = m.statements ++
        n.statements.map (.relocate (Relocation.lower (Program.lines a)).place) ∧
      ∀ (calls : Nat) (scope : FrameId) (s : Store), Program.nesting calls ≤ Program.maxNesting →
        scope.index < s.frames.size → ∀ steps out t,
        Machine.evaluate (Program.limits calls) steps m scope s = some (out, t) →
          ((∀ v, out ≠ .value v) ∨ n.statements = [] → ∀ r,
            Program.EndsWith calls (a ++ "\n" ++ b) scope s r ↔ Program.EndsWith calls a scope s r) ∧
          ∀ v, out = .value v → n.statements ≠ [] →
            (∀ r, Program.EndsWith calls b scope t r → ∃ r',
              Program.EndsWith calls (a ++ "\n" ++ b) scope s r' ∧
                Program.EndsAlike (.lowering (Program.lines a) n t) () r r') ∧
            ∀ r', Program.EndsWith calls (a ++ "\n" ++ b) scope s r' → ∃ r,
              Program.EndsWith calls b scope t r ∧
                Program.EndsAlike (.lowering (Program.lines a) n t) () r r' := by
  obtain ⟨ms, p, rfl, hms⟩ := Program.exists_sequence_of_parse ha
  obtain ⟨ns, q, rfl, hns⟩ := Program.exists_sequence_of_parse hb
  obtain ⟨o, hjoined⟩ := Program.parse_join ha hb
  let lowered := Node.relocate (Relocation.lower (Program.lines a)).place
  change Program.parse (a ++ "\n" ++ b) = .ok (.sequence (ms ++ ns.map lowered) o) at hjoined
  refine ⟨_, hjoined, rfl, fun calls scope s hlimit hscope steps out t hrun => ?_⟩
  have hlowered : ∀ k ∈ ns.map lowered, k.place.isSome := by
    refine List.forall_mem_map.2 fun k hk => ?_
    rw [Node.place_relocate]
    exact Option.isSome_map.trans (hns k hk)
  have ht : scope.index < t.frames.size := by
    obtain ⟨fuel, heval⟩ := Machine.evaluate_iff.1 ⟨steps, hrun⟩
    exact Nat.lt_of_lt_of_le hscope (Activation.eval_extends hscope heval).frames_size
  have hsame : (Node.sequence ns q).relocate (Relocation.lower (Program.lines a)).place =
      .sequence (ns.map lowered) (q.map (.lower (Program.lines a))) := by
    rw [Node.relocate, Node.relocateAll_eq_map]
    rfl
  -- The second part of the joined text is the second text, lower by the lines of the first.
  have hrel := Program.endsAlike_lowered (Program.lines a) (.sequence ns q) ht (Program.limits calls)
  rw [hsame] at hrel
  simp only [Program.endsWith_iff ha hlimit, Program.endsWith_iff hb hlimit,
    Program.endsWith_iff hjoined hlimit, Machine.evaluate_sequence_append_iff (p := o)
      (o := q.map (.lower (Program.lines a))) hms hlowered hrun, ne_eq, List.map_eq_nil_iff]
  change ((∀ v, out ≠ .value v) ∨ ns = [] → _) ∧ ∀ v, out = .value v → ns ≠ [] → _
  refine ⟨fun hend r => exists_congr fun r₀ => and_congr_left fun _ => ⟨?_, ?_⟩, fun v hv hne => ⟨?_, ?_⟩⟩
  · rintro (⟨-, rfl⟩ | ⟨⟨v, hv⟩, hne, -⟩)
    · exact ⟨steps, hrun⟩
    · exact absurd hne (not_not.2 (hend.resolve_left fun hnot => hnot v hv))
  · rintro ⟨steps', hrun'⟩
    exact .inl ⟨hend, Machine.evaluate_unique hrun hrun'⟩
  · rintro r ⟨r₁, ⟨steps₁, hrun₁⟩, rfl⟩
    obtain ⟨steps₂, r₂, hrun₂, halike⟩ := Machine.evaluate_of_rel hrel hrun₁
    exact ⟨_, ⟨r₂, .inr ⟨⟨v, hv⟩, hne, steps₂, hrun₂⟩, rfl⟩, halike⟩
  · rintro r' ⟨r₂, ⟨hend, -⟩ | ⟨-, -, steps₂, hrun₂⟩, rfl⟩
    · exact absurd (hend.resolve_left fun hnot => hnot v hv) hne
    · obtain ⟨steps₁, r₁, hrun₁, halike⟩ := Machine.evaluate_of_rel (fun fuel => rel_flip (hrel fuel)) hrun₂
      exact ⟨_, ⟨r₁, ⟨steps₁, hrun₁⟩, rfl⟩, halike⟩

theorem joined_texts_run_in_sequence_failing_second :
    ∃ m n v t failure u r',
      Program.parse "var y = 1;\nfun f(x) \x7b return x + y; \x7d // adds" = .ok m ∧
      Program.parse "fun g() \x7b return f(2); \x7d\nprint g(); g()();" = .ok n ∧
      n.statements ≠ [] ∧
      Machine.evaluate (Program.limits 50) 400 m (Store.empty.newRoot none).1 (Store.empty.newRoot none).2 =
        some (.value v, t) ∧
      Program.run 50 400 "fun g() \x7b return f(2); \x7d\nprint g(); g()();" (Store.empty.newRoot none).1 t =
        some (.error (.runtime failure), u) ∧
      failure.place = some ⟨2, some 12⟩ ∧ u.output = "3\n" ∧
      Program.EndsWith 50
        ("var y = 1;\nfun f(x) \x7b return x + y; \x7d // adds" ++ "\n" ++
          "fun g() \x7b return f(2); \x7d\nprint g(); g()();")
        (Store.empty.newRoot none).1 (Store.empty.newRoot none).2 r' ∧
      Program.EndsAlike (.lowering 2 n t) () (.error (.runtime failure), u) r' := by
  obtain ⟨m, n, v, t, failure, u, hm, hn, hne, hfirst, hsecond, hplace, houtput⟩ : ∃ m n v t failure u,
      Program.parse "var y = 1;\nfun f(x) \x7b return x + y; \x7d // adds" = .ok m ∧
      Program.parse "fun g() \x7b return f(2); \x7d\nprint g(); g()();" = .ok n ∧
      n.statements ≠ [] ∧
      Machine.evaluate (Program.limits 50) 400 m (Store.empty.newRoot none).1 (Store.empty.newRoot none).2 =
        some (.value v, t) ∧
      Program.run 50 400 "fun g() \x7b return f(2); \x7d\nprint g(); g()();" (Store.empty.newRoot none).1 t =
        some (.error (.runtime failure), u) ∧
      failure.place = some ⟨2, some 12⟩ ∧ u.output = "3\n" :=
    ⟨_, _, _, _, _, _, by cbv, by cbv, by simp [Node.statements], by cbv, by cbv, by cbv, by cbv⟩
  obtain ⟨-, -, -, hjoined⟩ := joined_texts_run_in_sequence hm hn
  obtain ⟨r', hend, halike⟩ := ((hjoined 50 (Store.empty.newRoot none).1 (Store.empty.newRoot none).2
    (by decide) (by decide) 400 _ t hfirst).2 v rfl hne).1 _ ⟨400, hsecond⟩
  exact ⟨m, n, v, t, failure, u, r', hm, hn, hne, hfirst, hsecond, hplace, houtput, hend, halike⟩

end Scripting
