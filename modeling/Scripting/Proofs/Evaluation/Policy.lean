import Scripting.Evaluation.Rules
import Scripting.Proofs.Store.References

/-!
What a policy asks of the values in a store. A policy says which nodes a program may consist of, which
host functions are in play, and which failures they can lead to. A store is sound if its references
exist, its frames are younger than those around them, and its values keep to the policy; every
operation on a store preserves that.
-/

set_option autoImplicit false

namespace Scripting

namespace Node

/-- The nodes directly under a node; the body of a function is one of them. -/
def children : Node → List Node
  | .number _ | .string _ | .boolean _ _ | .name _ | .malformed _ _ => []
  | .binary _ l r _ => [l, r]
  | .negate e _ => [e]
  | .array items _ => items
  | .record fields _ => fields.map (·.value)
  | .item b k _ => [b, k]
  | .call c args _ _ => c :: args
  | .methodCall r k args _ _ => r :: k :: args
  | .assign _ v _ => [v]
  | .setItem b k v _ => [b, k, v]
  | .sequence body _ | .block body _ => body
  | .expression e _ => [e]
  | .declare _ init _ => init.toList
  | .function _ _ body _ => [body]
  | .print e _ => [e]
  | .giveBack value _ => value.toList
  | .loop c b _ => [c, b]
  | .branch c yes no _ => [c, yes, no]

inductive Within : Node → Node → Prop where
  | refl (n : Node) : Within n n
  | child {m c n : Node} (hc : c ∈ n.children) (h : Within m c) : Within m n

/-- All of the node's parts satisfy the condition, the node itself included. -/
def Everywhere (p : Node → Prop) (n : Node) : Prop :=
  ∀ m, m.Within n → p m

namespace Everywhere

variable {p : Node → Prop} {n c : Node}

theorem here (h : n.Everywhere p) : p n := h n (.refl n)

theorem child (h : n.Everywhere p) (hc : c ∈ n.children) : c.Everywhere p :=
  fun m hm => h m (.child hc hm)

theorem imp {q : Node → Prop} (h : n.Everywhere p) (hq : ∀ m, p m → q m) : n.Everywhere q :=
  fun m hm => hq m (h m hm)

theorem intro (h : p n) (hc : ∀ c ∈ n.children, c.Everywhere p) : n.Everywhere p := by
  intro m hm
  cases hm with
  | refl => exact h
  | child hm hw => exact hc _ hm m hw

theorem leaf (h : p n) (hc : n.children = []) : n.Everywhere p :=
  intro h (by simp [hc])

theorem one {a : Node} (h : p n) (hc : n.children = [a]) (ha : a.Everywhere p) :
    n.Everywhere p :=
  intro h (by simpa [hc] using ha)

theorem two {a b : Node} (h : p n) (hc : n.children = [a, b]) (ha : a.Everywhere p)
    (hb : b.Everywhere p) : n.Everywhere p :=
  intro h (by simpa [hc] using ⟨ha, hb⟩)

theorem three {a b c : Node} (h : p n) (hc : n.children = [a, b, c]) (ha : a.Everywhere p)
    (hb : b.Everywhere p) (hd : c.Everywhere p) : n.Everywhere p :=
  intro h (by simpa [hc] using ⟨ha, hb, hd⟩)

end Everywhere

end Node

/-- A failure that the language knows, other than that of a `push` without an array. -/
def Fault.isOrdinary : Fault → Bool
  | .pushReceiver _ => false
  | fault => fault.kind ≠ .other

structure Policy where
  admits : Node → Prop
  hosts : Native → Prop
  fails : Fault → Prop
  stops : Abort → Prop
  ordinary : ∀ fault : Fault, fault.isOrdinary → fails fault
  stack : ∀ cause : Abort, cause.isStack → stops cause
  push : ∀ a, hosts ⟨"push", .push, some a⟩
  numeral : ∀ w, admits (.number w) → Text.integer? w.text = none → stops .unreadable
  operator : ∀ op l r p, admits (.binary op l r p) → Operation.ofSymbol? op.symbol = none →
    fails (.unknownOperator op.symbol)
  malformed : ∀ defect p, admits (.malformed defect p) → (∀ fault, fails fault) ∧ ∀ cause, stops cause
  receiver : ∀ fn, hosts fn → fn.host = .push → fn.bound = none → ∀ type, fails (.pushReceiver type)
  foreign : ∀ fn type, hosts fn → fn.host = .foreign type → fails (.foreignResult fn.name type)

def Value.Obeys (P : Policy) : Value → Prop
  | .function c => c.body.Everywhere P.admits
  | .native fn => P.hosts fn
  | _ => True

structure Value.Fits (P : Policy) (s : Store) (v : Value) : Prop where
  refs : ∀ ref ∈ v.refs, ref.In s
  obeys : v.Obeys P

def Outcome.Fits (P : Policy) (s : Store) : Outcome → Prop
  | .value v | .returned v => v.Fits P s
  | .failed failure => P.fails failure.fault
  | .aborted cause => P.stops cause

structure Store.Sound (P : Policy) (s : Store) : Prop where
  parent_lt : ∀ f p, (s.frame f).parent = some p → p.index < f.index
  fits : ∀ v, s.Holds v → v.Fits P s

namespace Value.Fits

variable {P : Policy} {s t : Store}

theorem mono {v : Value} (h : s.Extends t) (hv : v.Fits P s) : v.Fits P t :=
  ⟨fun ref hr => (hv.refs ref hr).mono h, hv.obeys⟩

@[simp] theorem nothing : Value.Fits P s .nothing := ⟨by simp [Value.refs], trivial⟩

@[simp] theorem number (n : Int) : (Value.number n).Fits P s := ⟨by simp [Value.refs], trivial⟩

@[simp] theorem string (text : String) : (Value.string text).Fits P s :=
  ⟨by simp [Value.refs], trivial⟩

@[simp] theorem boolean (b : Bool) : (Value.boolean b).Fits P s := ⟨by simp [Value.refs], trivial⟩

theorem array_iff {a : ArrayId} : (Value.array a).Fits P s ↔ a.index < s.arrays.size :=
  ⟨fun h => h.refs (.array a) (by simp [Value.refs]), fun h => ⟨by simpa [Value.refs], trivial⟩⟩

theorem record_iff {r : RecordId} : (Value.record r).Fits P s ↔ r.index < s.records.size :=
  ⟨fun h => h.refs (.record r) (by simp [Value.refs]), fun h => ⟨by simpa [Value.refs], trivial⟩⟩

theorem function_iff {c : Closure} : (Value.function c).Fits P s ↔
    c.scope.index < s.frames.size ∧ c.body.Everywhere P.admits :=
  ⟨fun h => ⟨h.refs (.frame c.scope) (by simp [Value.refs]), h.obeys⟩,
    fun h => ⟨by simpa [Value.refs, Ref.In] using h.1, h.2⟩⟩

end Value.Fits

theorem Store.newArray_fits {P : Policy} (s : Store) (items : Array Value) :
    (Value.array (s.newArray items).1).Fits P (s.newArray items).2 := by
  rw [Value.Fits.array_iff, Store.size_arrays_newArray]
  exact Nat.lt_succ_self _

theorem Store.newRecord_fits {P : Policy} (s : Store) (fields : Table Value) :
    (Value.record (s.newRecord fields).1).Fits P (s.newRecord fields).2 := by
  rw [Value.Fits.record_iff, Store.size_records_newRecord]
  exact Nat.lt_succ_self _

namespace Store

namespace Sound

variable {P : Policy} {s : Store}

theorem of_extends {t : Store} (h : s.Sound P) (he : s.Extends t)
    (hparent : ∀ f p, (t.frame f).parent = some p → p.index < f.index)
    (hholds : ∀ v, t.Holds v → s.Holds v ∨ v.Fits P t) : t.Sound P where
  parent_lt := hparent
  fits v hv := by
    rcases hholds v hv with hv | hv
    · exact (h.fits v hv).mono he
    · exact hv

theorem wellFormed (h : s.Sound P) : s.WellFormed where
  exists_of_refers ref href := by
    cases href with
    | held hv hr => exact (h.fits _ hv).refs ref hr
    | @parent f p hp =>
      have hlt := h.parent_lt f p hp
      have hf : f.index < s.frames.size := by
        apply Nat.lt_of_not_le
        intro hle
        rw [frame_of_size_le hle] at hp
        cases hp
      exact Nat.lt_trans hlt hf
  parent_lt := h.parent_lt

theorem define {v : Value} (h : s.Sound P) (f : FrameId) (name : String) (hv : v.Fits P s) :
    (s.define f name v).Sound P := by
  have he := Extends.define s f name v
  refine h.of_extends he ?_ ?_
  · intro g p hp
    rw [frame_define] at hp
    split at hp
    · exact h.parent_lt g p hp
    · exact h.parent_lt g p hp
  · intro w hw
    rcases hw.of_define with hw | rfl
    · exact .inl hw
    · exact .inr (hv.mono he)

theorem newFrame {parent : Option FrameId} {source : Option String} {depth : Option Int}
    (h : s.Sound P) (hp : ∀ p ∈ parent, p.index < s.frames.size) :
    (s.newFrame parent source depth).2.Sound P := by
  refine h.of_extends (Extends.newFrame s parent source depth) ?_ fun w hw => .inl hw.of_newFrame
  intro f p hf
  rw [frame_newFrame] at hf
  split at hf
  · rename_i hi
    rw [hi]
    exact hp p hf
  · exact h.parent_lt f p hf

theorem newArray {items : Array Value} (h : s.Sound P) (hi : ∀ v ∈ items, v.Fits P s) :
    (s.newArray items).2.Sound P := by
  have he := Extends.newArray s items
  refine h.of_extends he h.parent_lt fun w hw => ?_
  rcases hw.of_newArray with hw | hw
  · exact .inl hw
  · exact .inr ((hi w hw).mono he)

theorem newRecord {fields : Table Value} (h : s.Sound P)
    (hf : ∀ e ∈ fields.entries, e.2.Fits P s) : (s.newRecord fields).2.Sound P := by
  have he := Extends.newRecord s fields
  refine h.of_extends he h.parent_lt fun w hw => ?_
  rcases hw.of_newRecord with hw | ⟨e, hm, rfl⟩
  · exact .inl hw
  · exact .inr ((hf e hm).mono he)

theorem fill {v : Value} (h : s.Sound P) (slot : Slot) (hv : v.Fits P s) :
    (s.fill v slot).Sound P := by
  have he := Extends.fill s v slot
  have hframes : (s.fill v slot).frames = s.frames := by cases slot <;> rfl
  refine h.of_extends he ?_ fun w hw => ?_
  · intro f p hp
    exact h.parent_lt f p (by simpa only [Store.frame, hframes] using hp)
  · rcases hw.of_fill with hw | rfl
    · exact .inl hw
    · exact .inr (hv.mono he)

theorem append {args : List Value} (h : s.Sound P) (a : ArrayId)
    (ha : ∀ v ∈ args, v.Fits P s) : (s.modifyArray a (· ++ args.toArray)).Sound P := by
  have he : s.Extends (s.modifyArray a (· ++ args.toArray)) :=
    .modifyArray s a fun xs => by simp
  refine h.of_extends he h.parent_lt fun w hw => ?_
  rcases hw.of_modifyArray with hw | hw
  · exact .inl hw
  · rcases Array.mem_append.1 hw with hw | hw
    · exact .inl (.item hw)
    · exact .inr ((ha w (by simpa using hw)).mono he)

theorem write (h : s.Sound P) (text : String) : (s.write text).Sound P :=
  h.of_extends (.write s text) h.parent_lt fun _ hw => .inl hw.of_write

theorem bind (h : s.Sound P) (f : FrameId) (names : List String) {vs : List Value}
    (hv : ∀ v ∈ vs, v.Fits P s) : (s.bind f names vs).Sound P := by
  induction names generalizing s vs with
  | nil => exact h
  | cons name names ih =>
    cases vs with
    | nil => exact ih (h.define f name .nothing) (by simp)
    | cons v vs =>
      rw [List.forall_mem_cons] at hv
      exact ih (h.define f name hv.1) fun w hw => (hv.2 w hw).mono (.define s f name v)

/-! What is read from a sound store fits. -/

theorem get? {f : FrameId} {name : String} {v : Value} (h : s.Sound P)
    (hv : s.get? f name = some v) : v.Fits P s :=
  h.fits v (holds_of_get? hv)

theorem getItem {base key v : Value} (h : s.Sound P) (hb : base.Fits P s)
    (hv : s.getItem base key = .ok v) : v.Fits P s := by
  rcases getItem_cases hv with ⟨a, rfl, hm⟩ | ⟨r, name, rfl, hm⟩ | ⟨a, rfl, rfl⟩ | ⟨a, -, rfl⟩
  · exact h.fits v (.item hm)
  · exact h.fits v (.field hm)
  · have ha := Value.Fits.array_iff.1 hb
    exact ⟨by simpa [Value.refs, Ref.In] using ha, P.push a⟩
  · exact .number _

end Sound

end Store

/-! The failures of operations on values. -/

theorem Store.index_ordinary {length : Nat} {i : Int} {fault : Fault}
    (h : Store.index length i = .error fault) : fault.isOrdinary := by
  unfold Store.index at h
  split at h
  · cases h; rfl
  · split at h
    · cases h
    · cases h; rfl

theorem Store.getItem_ordinary {s : Store} {base key : Value} {fault : Fault}
    (h : s.getItem base key = .error fault) : fault.isOrdinary := by
  unfold Store.getItem at h
  split at h
  · rename_i a i
    cases hi : index (s.items a).size i with
    | error fault =>
      rw [hi] at h
      cases h
      exact index_ordinary hi
    | ok k => rw [hi] at h; cases h
  · unfold arrayMember at h
    split at h
    · cases h
    · cases h
    · cases h; rfl
  · split at h
    · cases h
    · cases h; rfl
  · cases h; rfl

theorem Store.slot_ordinary {s : Store} {base key : Value} {fault : Fault}
    (h : s.slot base key = .error fault) : fault.isOrdinary := by
  unfold Store.slot at h
  split at h
  · rename_i a i
    cases hi : index (s.items a).size i with
    | error fault =>
      rw [hi] at h
      cases h
      exact index_ordinary hi
    | ok k => rw [hi] at h; cases h
  · cases h
  · cases h; rfl

theorem Value.toNumber_ordinary {symbol : String} {v : Value} {fault : Fault}
    (h : v.toNumber symbol = .error fault) : fault.isOrdinary := by
  cases v <;> cases h <;> rfl

theorem Value.operate_cases (symbol : String) (left right : Value) :
    (∃ fault, Value.operate symbol left right = .error fault ∧ fault.isOrdinary) ∨
      (Value.operate symbol left right = .error (.unknownOperator symbol) ∧
        Operation.ofSymbol? symbol = none) ∨
      ∃ (operation : Operation) (a b : Int),
        Value.operate symbol left right = .ok (operation.apply a b) := by
  unfold Value.operate
  cases ha : left.toNumber symbol with
  | error fault => exact .inl ⟨fault, rfl, toNumber_ordinary ha⟩
  | ok a =>
    cases hb : right.toNumber symbol with
    | error fault => exact .inl ⟨fault, rfl, toNumber_ordinary hb⟩
    | ok b =>
      cases ho : Operation.ofSymbol? symbol with
      | none => exact .inr (.inl ⟨rfl, rfl⟩)
      | some operation => exact .inr (.inr ⟨operation, a, b, rfl⟩)

end Scripting
