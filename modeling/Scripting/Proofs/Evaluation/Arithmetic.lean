import Mathlib
import Scripting.Proofs.Evaluation.CountedLoop
import Scripting.Proofs.Evaluation.Joining

/-!
Arithmetic modulo 2 ^ 32. Every operator wraps its result, and yet a tree of sums, differences, products and
negations has the value that it has in the integers, wrapped once: wrapping commutes with the operations.
The evaluation of a tree takes room on the stack of the host; a tree for which there is none is given up, and
nothing has changed then.
-/

set_option autoImplicit false

namespace Scripting

/-! Wrapping. -/

namespace Number

/-- The low 32 bits of a number in two's complement, with the highest of them as the sign. -/
def signedBits (n : Int) : Int :=
  let low := Int.land n 0xFFFFFFFF
  if Int.land low 0x80000000 ≠ 0 then low - 0x100000000 else low

theorem land_low (n : Int) : Int.land n 0xFFFFFFFF = n % 0x100000000 := by
  cases n with
  | ofNat m =>
    have hand : m &&& 4294967295 = m % 2 ^ 32 := Nat.and_two_pow_sub_one_eq_mod m 32
    change ((m &&& 4294967295 : Nat) : Int) = (m : Int) % 4294967296
    rw [hand]
    rfl
  | negSucc m =>
    have hbits : Nat.ldiff 4294967295 m = 2 ^ 32 - (m % 2 ^ 32 + 1) := by
      refine Nat.eq_of_testBit_eq fun i => ?_
      rw [Nat.testBit_two_pow_sub_succ (Nat.mod_lt _ (by decide)), Nat.testBit_ldiff,
        Nat.testBit_mod_two_pow, show 4294967295 = 2 ^ 32 - 1 from rfl, Nat.testBit_two_pow_sub_one]
      by_cases hi : i < 32 <;> simp [hi]
    change ((Nat.ldiff 4294967295 m : Nat) : Int) = _
    rw [hbits]
    omega

theorem land_sign_ne_zero_iff {n : Int} (hn : 0 ≤ n) (hlt : n < 0x100000000) :
    Int.land n 0x80000000 ≠ 0 ↔ 0x80000000 ≤ n := by
  obtain ⟨m, rfl⟩ := Int.eq_ofNat_of_zero_le hn
  change ((m &&& 2 ^ 31 : Nat) : Int) ≠ 0 ↔ _
  rw [Nat.and_two_pow, Nat.testBit_eq_decide_div_mod_eq]
  by_cases h : 2147483648 ≤ m
  · have hbit : m / 2 ^ 31 % 2 = 1 := by omega
    simp only [hbit, decide_true, Bool.toNat_true]
    omega
  · have hbit : m / 2 ^ 31 % 2 = 0 := by omega
    simp only [hbit, decide_eq_false (show ¬0 = 1 by decide), Bool.toNat_false]
    omega

theorem wrap_eq_signedBits (n : Int) : wrap n = signedBits n := by
  have hsign := land_sign_ne_zero_iff (Int.emod_nonneg n (by decide)) (Int.emod_lt_of_pos n (by decide))
  rw [wrap, signedBits, land_low, Int.bmod_def]
  split <;> split <;> omega

theorem eq_wrap_iff {n m : Int} :
    m = wrap n ↔ -2147483648 ≤ m ∧ m ≤ 2147483647 ∧ m ≡ n [ZMOD 4294967296] := by
  have hle := le_wrap n
  have hlt := wrap_lt n
  have hmod := wrap_emod n
  unfold Int.ModEq
  constructor
  · rintro rfl
    omega
  · rintro ⟨hm, hm', hmn⟩
    omega

theorem wrap_of_mem {n : Int} (h : -2147483648 ≤ n ∧ n ≤ 2147483647) : wrap n = n :=
  (eq_wrap_iff.2 ⟨h.1, h.2, rfl⟩).symm

theorem wrap_wrap (n : Int) : wrap (wrap n) = wrap n :=
  Int.bmod_bmod

theorem wrap_neg_of_wrap_eq {a a' : Int} (ha : wrap a' = wrap a) : wrap (-a') = wrap (-a) := by
  unfold wrap at *
  rw [← Int.bmod_neg_bmod, ha, Int.bmod_neg_bmod]

end Number

namespace Operation

def unbounded? : Operation → Int → Int → Option Int
  | add, a, b => some (a + b)
  | subtract, a, b => some (a - b)
  | multiply, a, b => some (a * b)
  | _, _, _ => none

theorem apply_of_wrap_eq {operation : Operation} {a a' b b' c : Int} (ha : Number.wrap a' = Number.wrap a)
    (hb : Number.wrap b' = Number.wrap b) (h : operation.unbounded? a b = some c) :
    operation.apply a' b' = .number (Number.wrap c) := by
  unfold Number.wrap at ha hb
  cases operation with
  | add =>
    cases h
    rw [apply, Number.wrap, Int.add_bmod, ha, hb, ← Int.add_bmod]
    rfl
  | subtract =>
    cases h
    rw [apply, Number.wrap, Int.sub_bmod, ha, hb, ← Int.sub_bmod]
    rfl
  | multiply =>
    cases h
    rw [apply, Number.wrap, Int.mul_bmod, ha, hb, ← Int.mul_bmod]
    rfl
  | _ => cases h

end Operation

/-! Arithmetic trees. -/

def Value.number? : Value → Option Int
  | .number n => some n
  | _ => none

namespace Node

/-- The value in the integers of a tree of numerals and names of numbers with sums, differences, products
    and negations. No other tree has one. -/
def unbounded? (s : Store) (scope : FrameId) : Node → Option Int
  | .number w => Text.integer? w.text
  | .name w => (s.get? scope w.text).bind Value.number?
  | .binary op left right _ => do
    let a ← left.unbounded? s scope
    let b ← right.unbounded? s scope
    (← Operation.ofSymbol? op.symbol).unbounded? a b
  | .negate operand _ => do
    let a ← operand.unbounded? s scope
    return -a
  | _ => none

def levels : Node → Nat
  | .binary _ left right _ => max left.levels right.levels + 1
  | .negate operand _ => operand.levels + 1
  | _ => 0

/-- What the tree evaluates to, if it has the given value in the integers: only operators wrap. -/
def settle (n : Node) (i : Int) : Int :=
  if n.levels = 0 then i else Number.wrap i

/-- The host activations that the evaluation of such a tree takes beyond its own node. -/
def cost (costs : Costs) (s : Store) (scope : FrameId) : Node → Nat
  | .number _ => costs.literal
  | .name w => costs.search s scope w.text
  | .binary _ left right _ => 4 + max (left.cost costs s scope) (right.cost costs s scope)
  | .negate operand _ => 4 + operand.cost costs s scope
  | _ => 0

theorem wrap_settle (n : Node) (i : Int) : Number.wrap (n.settle i) = Number.wrap i := by
  unfold settle
  split
  · rfl
  · exact Number.wrap_wrap i

end Node

section Evaluation

variable {limits : Limits} {s : Store} {scope : FrameId}

theorem Limits.allows_max_iff {low high : Nat} :
    limits.allows (max low high) ↔ limits.allows low ∧ limits.allows high := by
  constructor
  · exact fun h => ⟨Limits.allows_mono (Nat.le_max_left _ _) h, Limits.allows_mono (Nat.le_max_right _ _) h⟩
  · rintro ⟨hlow, hhigh⟩
    rcases max_choice low high with hmax | hmax <;> rwa [hmax]

theorem Task.carryOut_within (eval : Activation → Store → Option (Outcome × Store)) (a : Activation)
    (more : Nat) (v : Value) :
    (Task.within limits a.depth more s (.yield v s)).carryOut limits eval a =
      some (if limits.allows (a.depth + more) then .value v else .aborted .stack, s) := by
  rw [Task.within]
  split <;> rfl

theorem Task.carryOut_value_of_room {eval : Activation → Store → Option (Outcome × Store)} {a : Activation}
    {cost more : Nat} {n : Node} {v : Value} {k : Value → Store → Task}
    (h : eval ⟨n, scope, a.depth + cost⟩ s =
      some (if limits.allows (a.depth + cost + more) then .value v else .aborted .stack, s)) :
    (Task.value cost n scope s k).carryOut limits eval a =
      if limits.allows (a.depth + cost + more) then (k v s).carryOut limits eval a
      else some (.aborted .stack, s) := by
  rw [Task.value, Task.carryOut]
  by_cases hmore : limits.allows (a.depth + cost + more)
  · have hroom : limits.allows (a.depth + cost) := Limits.allows_mono (Nat.le_add_right _ _) hmore
    rw [if_pos hroom, h, if_pos hmore, if_pos hmore]
    rfl
  · rw [if_neg hmore] at h ⊢
    split
    · rw [h]
      rfl
    · rfl

/-- An arithmetic tree evaluates to its value in the integers, wrapped if there is an operator, if there
    is room for it. Nothing changes. -/
theorem Activation.eval_of_unbounded {n : Node} {i : Int} (h : n.unbounded? s scope = some i) {depth fuel : Nat}
    (hfuel : n.levels < fuel) : Activation.eval limits fuel ⟨n, scope, depth⟩ s =
      some (if limits.allows (depth + n.cost limits.costs s scope) then .value (.number (n.settle i))
        else .aborted .stack, s) := by
  induction n using Node.unbounded?.induct generalizing i depth fuel with
  | case1 w =>
    obtain ⟨fuel, rfl⟩ := Nat.exists_eq_add_of_lt hfuel
    have htext : Text.integer? w.text = some i := h
    rw [Activation.eval, Node.start, htext]
    exact Task.carryOut_within _ ⟨.number w, scope, depth⟩ limits.costs.literal (.number i)
  | case2 w =>
    obtain ⟨fuel, rfl⟩ := Nat.exists_eq_add_of_lt hfuel
    obtain ⟨v, hget, hv⟩ := Option.bind_eq_some_iff.1 h
    cases v with
    | number n =>
      cases hv
      rw [Activation.eval, Node.start, hget]
      exact Task.carryOut_within _ ⟨.name w, scope, depth⟩ (limits.costs.search s scope w.text) (.number i)
    | _ => cases hv
  | case3 op left right p ihl ihr =>
    obtain ⟨fuel, rfl⟩ := Nat.exists_eq_add_of_lt hfuel
    obtain ⟨a, ha, h⟩ := Option.bind_eq_some_iff.1 h
    obtain ⟨b, hb, h⟩ := Option.bind_eq_some_iff.1 h
    obtain ⟨operation, hop, h⟩ := Option.bind_eq_some_iff.1 h
    have hvalue : Value.operate op.symbol (.number (left.settle a)) (.number (right.settle b)) =
        .ok (.number (Number.wrap i)) := by
      rw [← Operation.apply_of_wrap_eq (left.wrap_settle a) (right.wrap_settle b) h]
      simp only [Value.operate, hop]
      rfl
    -- The operands are evaluated one after the other, so the more expensive one decides.
    have hboth : limits.allows (depth + (Node.binary op left right p).cost limits.costs s scope) ↔
        limits.allows (depth + 4 + left.cost limits.costs s scope) ∧
          limits.allows (depth + 4 + right.cost limits.costs s scope) := by
      rw [← Limits.allows_max_iff, Node.cost]
      exact iff_of_eq (congrArg (limits.allows · = true) (by omega))
    rw [Activation.eval, Node.start,
      Task.carryOut_value_of_room (ihl ha (by rw [Node.levels]; omega)),
      Task.carryOut_value_of_room (ihr hb (by rw [Node.levels]; omega)), hvalue]
    simp only [hboth, ite_and]
    split_ifs <;> rfl
  | case4 e p ih =>
    obtain ⟨fuel, rfl⟩ := Nat.exists_eq_add_of_lt hfuel
    obtain ⟨a, ha, h⟩ := Option.bind_eq_some_iff.1 h
    cases h
    have hvalue : (Value.number (e.settle a)).negate = .ok (.number (Number.wrap (-a))) := by
      rw [← Number.wrap_neg_of_wrap_eq (e.wrap_settle a)]
      rfl
    rw [Activation.eval, Node.start,
      Task.carryOut_value_of_room (ih ha (by rw [Node.levels]; omega)), hvalue,
      Node.cost, ← Nat.add_assoc depth]
    split_ifs <;> rfl
  | case5 =>
    simp [Node.unbounded?] at h

theorem Program.execute_unique [Host] {calls steps steps' : Nat} {n : Node} {r r' : Except Error Value × Store}
    (h : execute calls steps n scope s = some r) (h' : execute calls steps' n scope s = some r') : r' = r := by
  rw [execute] at h h'
  by_cases hlimit : maxNesting < nesting calls
  · rw [if_pos hlimit] at h h'
    exact Option.some.inj (h'.symm.trans h)
  · rw [if_neg hlimit] at h h'
    obtain ⟨x, hx, rfl⟩ := Option.map_eq_some_iff.1 h
    obtain ⟨x', hx', rfl⟩ := Option.map_eq_some_iff.1 h'
    rw [Machine.evaluate_unique hx hx']

theorem Program.execute_of_unbounded [Host] {n : Node} {i : Int} (h : n.unbounded? s scope = some i) {calls : Nat}
    (hcalls : nesting calls ≤ maxNesting) (p q : Option Place) :
    ∃ steps, execute calls steps (.sequence [.expression n p] q) scope s =
      some (if n.cost Host.costs s scope + 11 + Host.inUse ≤ nesting calls then .ok (.number (n.settle i))
        else .error (.runtime ⟨.evaluationDepth, none⟩), s) := by
  have hallows (depth : Nat) : (limits calls).allows depth ↔ depth + 4 ≤ nesting calls - Host.inUse :=
    decide_eq_true_iff
  have hexpression : Activation.eval (limits calls) (n.levels + 2) ⟨.expression n p, scope, 4⟩ s =
      some (if (limits calls).allows (4 + (3 + n.cost (limits calls).costs s scope))
        then .value (.number (n.settle i)) else .aborted .stack, s) := by
    rw [Activation.eval, Node.start,
      Task.carryOut_value_of_room (Activation.eval_of_unbounded h (Nat.lt_succ_self n.levels)),
      ← Nat.add_assoc 4]
    split_ifs <;> rfl
  have hprogram : Activation.eval (limits calls) (n.levels + 3) ⟨.sequence [.expression n p] q, scope, 0⟩ s =
      some (if (limits calls).allows (0 + 4 + (3 + n.cost (limits calls).costs s scope))
        then .value (.number (n.settle i)) else .aborted .stack, s) := by
    rw [Activation.eval, Node.start, Task.sequence, Task.carryOut_value_of_room hexpression]
    split_ifs <;> rfl
  obtain ⟨steps, hsteps⟩ := Machine.evaluate_iff.2 ⟨_, hprogram⟩
  refine ⟨steps, ?_⟩
  rw [execute, if_neg (Nat.not_lt.2 hcalls), hsteps]
  have hroom : 0 + 4 + (3 + n.cost (limits calls).costs s scope) + 4 ≤ nesting calls - Host.inUse ↔
      n.cost Host.costs s scope + 11 + Host.inUse ≤ nesting calls := by
    change 0 + 4 + (3 + n.cost Host.costs s scope) + 4 ≤ nesting calls - Host.inUse ↔ _
    omega
  simp only [hallows, hroom]
  split_ifs <;> rfl

end Evaluation

/-- Wrapping gives the congruent number in the signed 32-bit range. An arithmetic tree evaluates to its value
    in the integers, wrapped once, if the host has room for it, and changes nothing. -/
theorem arithmetic_wraps_once [Host] :
    (∀ n m : Int, m = Number.wrap n ↔ -2147483648 ≤ m ∧ m ≤ 2147483647 ∧ m ≡ n [ZMOD 4294967296]) ∧
    (∀ n, Number.wrap n = Number.signedBits n) ∧
    ∀ (s : Store) (scope : FrameId) (n : Node) (i : Int), n.unbounded? s scope = some i →
      (n.levels = 0 → -2147483648 ≤ i ∧ i ≤ 2147483647) →
      (∀ (limits : Limits) (depth : Nat),
        Activation.Ends limits ⟨n, scope, depth⟩ s
          (if limits.allows (depth + n.cost limits.costs s scope) then .value (.number (Number.wrap i))
            else .aborted .stack) s) ∧
      ∀ (calls : Nat) (p q : Option Place), Program.nesting calls ≤ Program.maxNesting →
        ∃ steps, Program.execute calls steps (.sequence [.expression n p] q) scope s =
          some (if n.cost Host.costs s scope + 11 + Host.inUse ≤ Program.nesting calls
            then .ok (.number (Number.wrap i)) else .error (.runtime ⟨.evaluationDepth, none⟩), s) := by
  refine ⟨fun n m => Number.eq_wrap_iff, Number.wrap_eq_signedBits, fun s scope n i h hrange => ?_⟩
  have hsettle : n.settle i = Number.wrap i := by
    rw [Node.settle]
    split
    · rename_i hleaf
      exact (Number.wrap_of_mem (hrange hleaf)).symm
    · rfl
  rw [← hsettle]
  refine ⟨fun limits depth => ?_, fun calls p q hcalls => Program.execute_of_unbounded h hcalls p q⟩
  exact Activation.ends_iff.2 ⟨_, Activation.eval_of_unbounded h (Nat.lt_succ_self n.levels)⟩

/-- The least number is its own negation once that is wrapped. -/
theorem arithmetic_wraps_once_least_number :
    let root := Store.empty.newRoot none
    let s := root.2.define root.1 "x" (.number (-2147483648))
    let x := Node.name ⟨"x", none⟩
    let square := Node.binary ⟨"*", some .star⟩ (.number ⟨"65537", none⟩) (.number ⟨"65537", none⟩) none
    let n := Node.binary ⟨"-", some .minus⟩ (.binary ⟨"+", some .plus⟩ (.negate x none) square none) x none
    n.unbounded? s root.1 = some 8590065665 ∧ Number.wrap 8590065665 = 131073 ∧
      Number.wrap 2147483648 = -2147483648 ∧
      ∃ steps, Program.execute 50 steps (.sequence [.expression n none] none) root.1 s =
        some (.ok (.number 131073), s) := by
  intro root s x square n
  have hvalue : n.unbounded? s root.1 = some 8590065665 := by cbv
  obtain ⟨-, -, htree⟩ := arithmetic_wraps_once
  obtain ⟨-, hrun⟩ := htree s root.1 n 8590065665 hvalue fun hleaf => absurd hleaf (Nat.succ_ne_zero _)
  have hcost : n.cost Host.costs s root.1 = 15 := by cbv
  obtain ⟨steps, hrun⟩ := hrun 50 none none (by decide)
  rw [hcost] at hrun
  exact ⟨hvalue, by decide, by decide, steps, hrun⟩

def Node.sumOfOnes : Nat → Node
  | 0 => .number ⟨"1", none⟩
  | k + 1 => .binary ⟨"+", some .plus⟩ (sumOfOnes k) (.number ⟨"1", none⟩) none

theorem Node.cost_sumOfOnes (costs : Costs) (s : Store) (scope : FrameId) (k : Nat) :
    (sumOfOnes k).cost costs s scope = 4 * k + costs.literal := by
  induction k with
  | zero => simp [sumOfOnes, cost]
  | succ k ih =>
    rw [sumOfOnes, cost, ih, cost, Nat.max_eq_left (Nat.le_add_left _ _)]
    omega

theorem Node.unbounded?_sumOfOnes (s : Store) (scope : FrameId) (k : Nat) :
    (sumOfOnes k).unbounded? s scope = some (k + 1) := by
  have hone : (number ⟨"1", none⟩).unbounded? s scope = some 1 := by cbv
  induction k with
  | zero => exact hone
  | succ k ih =>
    rw [sumOfOnes, unbounded?, ih, hone]
    rfl

/-- The sum of three thousand ones is nested more deeply than the host follows if no more than three calls
    may be active: it has no value then. -/
theorem long_sum_has_no_value :
    let root := Store.empty.newRoot none
    let program := Node.sequence [.expression (.sumOfOnes 2999) none] none
    (Node.sumOfOnes 2999).unbounded? root.2 root.1 = some 3000 ∧ Number.wrap 3000 = 3000 ∧
      ∀ [Host], (∃ steps, Program.execute 3 steps program root.1 root.2 =
        some (.error (.runtime ⟨.evaluationDepth, none⟩), root.2)) ∧
        ∀ steps t, Program.execute 3 steps program root.1 root.2 ≠ some (.ok (.number 3000), t) := by
  intro root program
  have hvalue := Node.unbounded?_sumOfOnes root.2 root.1 2999
  have hcalls : Program.nesting 3 ≤ Program.maxNesting := by decide
  refine ⟨hvalue, by decide, fun {host} => ?_⟩
  obtain ⟨steps, hrun⟩ := Program.execute_of_unbounded hvalue hcalls none none
  rw [Node.cost_sumOfOnes, if_neg (by rw [show Program.nesting 3 = 1000 from rfl]; omega)] at hrun
  refine ⟨⟨steps, hrun⟩, fun steps' t hrun' => ?_⟩
  have hsame := Program.execute_unique hrun hrun'
  cases hsame

end Scripting
