/-!
The host's stack. Programs are parsed, evaluated and shown by procedures of the host that are active
inside each other, and the host bounds how many there are. All that is said about this bound stands here.
Evaluation takes four activations a node and, between a node and a child, those that the rule of the node
names. What else is in use, and what a step takes that is not evaluation, differs from one host to the next:
these numbers are fields, and of them nothing is known but the bounds beside them.
-/

set_option autoImplicit false

namespace Scripting

/-- What evaluation takes of a host beyond the activations of the nodes: for a list of items, for the value of
    a literal, for each link that a look-up follows, and for the report of an unknown name. With so many
    activations left, values of so many `levels` can be written. -/
structure Costs where
  list : Nat
  literal : Nat
  link : Nat
  refusal : Nat
  levels : Nat → Nat
  levels_mono : ∀ {m n : Nat}, m ≤ n → levels m ≤ levels n

/-- How deeply calls may be active inside each other, and, if that is bounded too, host activations. -/
structure Limits where
  calls : Nat
  nesting : Option Nat
  costs : Costs

namespace Limits

def ownCost : Nat := 4

/-- The nesting allowance covers a node at this depth. -/
def allows (limits : Limits) (depth : Nat) : Bool :=
  match limits.nesting with
  | none => true
  | some most => depth + ownCost ≤ most

theorem allows_of_unbounded {limits : Limits} (h : limits.nesting = none) (depth : Nat) :
    limits.allows depth := by
  simp only [allows, h]

def levels (limits : Limits) (depth : Nat) : Option Nat :=
  limits.nesting.map fun most => limits.costs.levels (most - (depth + ownCost))

end Limits

def hostNesting : Nat := 1000

/-- What a host decides: the activations in use where a program begins, how deeply the parser may nest, and,
    outside programs, how many levels of a value are shown and how many activations a look-up may take. That a
    value in a program has more than so many levels is noticed in time, or else the stack runs over. -/
class Host where
  costs : Costs
  inUse : Nat
  grammar : Nat
  shown : Nat
  followed : Nat
  notices : Nat → Bool
  list_le : costs.list ≤ 2
  literal_le : costs.literal ≤ 20
  link_pos : 0 < costs.link
  inUse_le : inUse ≤ 100
  grammar_le : grammar ≤ hostNesting
  shown_ge : 100 ≤ shown
  followed_ge : 800 * costs.link + costs.refusal ≤ followed

/-- A host that builds lists and writes values with an activation each, and has the least bounds. -/
instance Host.standard : Host where
  costs := ⟨1, 3, 1, 4, (· / 3), fun h => Nat.div_le_div_right h⟩
  inUse := 4
  grammar := 950
  shown := 332
  followed := 980
  notices _ := true
  list_le := by decide
  literal_le := by decide
  link_pos := by decide
  inUse_le := by decide
  grammar_le := by decide
  shown_ge := by decide
  followed_ge := by decide

namespace Program

def nesting (calls : Nat) : Nat :=
  max hostNesting (40 * calls + 200)

def maxNesting : Nat := 2147483647

def limits [Host] (calls : Nat) : Limits :=
  ⟨calls, some (nesting calls - Host.inUse), Host.costs⟩

end Program

end Scripting
