import Mathlib
import Scripting.Proofs.Evaluation.Course
import Scripting.Proofs.Evaluation.Legible

/-!
Numbers are signed 32-bit integers. They come from the numerals of a program, which are in range as tokens,
from operators, which wrap their results, and from the lengths of arrays, which are not wrapped. So a number
is in range wherever it stands, as long as no array has too many items for that.
-/

set_option autoImplicit false

namespace Scripting

def Number.InRange (n : Int) : Prop :=
  -2147483648 ≤ n ∧ n ≤ 2147483647

theorem Number.inRange_wrap (n : Int) : InRange (wrap n) :=
  ⟨le_wrap n, Int.le_of_lt_add_one (wrap_lt n)⟩

/-- No array has more items than the largest number. -/
def Store.Small (s : Store) : Prop :=
  ∀ a, (s.items a).size ≤ 2147483647

namespace Store.Small

theorem of_extends {s t : Store} (ht : t.Small) (he : s.Extends t) : s.Small :=
  fun a => Nat.le_trans (he.items a) (ht a)

theorem of_arrays {s : Store} (h : ∀ items ∈ s.arrays, items.size ≤ 2147483647) : s.Small := by
  intro a
  by_cases ha : a.index < s.arrays.size
  · rw [items, Array.getD_eq_getD_getElem?, Array.getElem?_eq_getElem ha]
    exact h _ (Array.getElem_mem ha)
  · rw [items_of_size_le (Nat.le_of_not_lt ha)]
    exact Nat.zero_le _

end Store.Small

def Node.InRange : Node → Prop
  | .number w => ∀ n, Text.integer? w.text = some n → Number.InRange n
  | _ => True

theorem Node.Readable.inRange {n : Node} (h : n.Readable) : n.InRange := by
  cases n with
  | number w =>
    obtain ⟨n, hle, hn⟩ := h
    intro m hm
    rw [hn] at hm
    cases hm
    have hle : n ≤ 2147483647 := hle
    exact ⟨by omega, by omega⟩
  | _ => trivial

/-- The value is no number out of range, nor anything that yields one when it is called. -/
def Value.InRange : Value → Prop
  | .number n => Number.InRange n
  | .function c => c.body.Everywhere Node.InRange
  | .native fn => fn.host ≠ .argumentCount ∧ fn.host ≠ .callDepth
  | _ => True

/-- Everything is in range in a small store. A store that is small later has been small all along. -/
def Contract.inRange : Contract where
  store s := s.Small → s.AllHold Value.InRange
  value s v := s.Small → v.InRange
  node s _ n := s.Small → n.Everywhere Node.InRange
  value_mono he hv ht := hv (ht.of_extends he)
  node_mono he hn ht := hn (ht.of_extends he)
  operand hn hc hs := (hn hs).child (Node.mem_children_of_operands hc)
  block := by
    intro s f body p hs _ hn
    have he := Store.Extends.newFrame s (some f) none none
    exact ⟨fun ht => (hs (ht.of_extends he)).newFrame _ _ _,
      fun c hc ht => (hn (ht.of_extends he)).child hc⟩
  call := by
    intro s fn args depth hs hfn hargs new
    have he : s.Extends (new.2.bind new.1 fn.params args) :=
      (Store.Extends.newFrame s _ _ _).trans (.bind _ _ _ _)
    refine ⟨fun ht => ?_, fun ht => hfn (ht.of_extends he)⟩
    have hsmall := ht.of_extends he
    exact ((hs hsmall).newFrame _ _ _).bind _ _ trivial fun v hv => hargs v hv hsmall
  write hs ht := (hs ht).write _
  newArray := by
    intro s items hs hv
    refine ⟨fun ht => ?_, fun _ => trivial⟩
    have hsmall := ht.of_extends (.newArray s items)
    exact (hs hsmall).newArray fun v hm => hv v hm hsmall
  newRecord hs hv := ⟨fun ht => (hs ht).newRecord fun e he => hv e he ht, fun _ => trivial⟩
  append := by
    intro s a args hs _ hv ht
    have hsmall := ht.of_extends (.modifyArray s a fun xs => by simp)
    exact (hs hsmall).append a fun v hm => hv v hm hsmall
  fill := by
    intro s base key v slot hs _ _ hv ht
    have hsmall := ht.of_extends (.fill s v slot)
    exact (hs hsmall).fill slot (hv hsmall)
  assign hs _ _ hv ht := (hs ht).define _ _ (hv ht)
  declare hs _ hv ht := (hs ht).define _ _ (hv ht)
  function hs _ hn ht := (hs ht).define _ _ ((hn ht).child (List.mem_singleton_self _))
  nothing _ := trivial
  string _ _ := trivial
  boolean _ _ := trivial
  numeral hn hw hs := (hn hs).here _ hw
  wrapped n _ := Number.inRange_wrap n
  name hs _ hv ht := hs ht _ (Store.holds_of_get? hv)
  item := by
    intro s base key v hs _ hv ht
    refine (hs ht).getItem (fun a => ⟨nofun, nofun⟩) (fun a => ?_) hv
    have hlength := ht a
    exact ⟨by omega, by omega⟩
  bound _ _ _ := trivial
  count := by
    intro s fn n hfn hhost hs
    obtain ⟨hcount, hdepth⟩ := hfn hs
    exact hhost.elim (fun h => (hcount h).elim) fun h => (hdepth h).elim

open Machine (Config)

theorem Session.inRange [Host] {file : Option String} {c : Config}
    (h : Session Program.Accepted (Store.empty.newRoot file).1
      (.idle (Store.empty.newRoot file).1 (Store.empty.newRoot file).2) c) :
    ∃ calls, c.Obeys .inRange calls := by
  have hroot := Store.empty.newRoot_lt file
  have hstart : (Store.empty.newRoot file).2.AllHold Value.InRange := by
    refine (Store.AllHold.newFrame .empty none file none).install _ ?_
    simp [standardNatives, Value.InRange]
  have hidle : (Config.idle (Store.empty.newRoot file).1 (Store.empty.newRoot file).2).Obeys .inRange 0 :=
    .idle (fun _ => hstart) hroot fun _ => .leaf trivial rfl
  refine (h.obeys (fun n s hn _ _ => ?_) hidle hroot).1
  obtain ⟨source, hparse⟩ := hn
  exact (Program.readable_of_parse hparse).imp fun _ => Node.Readable.inRange

theorem Machine.Config.Obeys.inRange {calls : Nat} {c : Config} {out : Outcome} {s : Store} {n : Int}
    (h : c.Obeys .inRange calls) (hsmall : s.Small) (hc : c.task = .done out s)
    (hout : out = .value (.number n) ∨ out = .returned (.number n)) : Number.InRange n := by
  have htask := h.task
  rw [hc] at htask
  rcases hout with rfl | rfl <;> exact htask.2.2 hsmall

/-- In a session of accepted sources in a new root frame, with no array beyond 2 ^ 31 - 1 items, every number
    that is held or that a node ends with is a signed 32-bit integer. -/
theorem session_numbers_in_range [Host] {file : Option String} {c : Config}
    (h : Session Program.Accepted (Store.empty.newRoot file).1
      (.idle (Store.empty.newRoot file).1 (Store.empty.newRoot file).2) c) (hsmall : c.store.Small) :
    (∀ n, c.store.Holds (.number n) → Number.InRange n) ∧
    (∀ out s n, c.task = .done out s → out = .value (.number n) ∨ out = .returned (.number n) →
      Number.InRange n) ∧
    ∀ calls steps source n u,
      Program.run calls steps source (Store.empty.newRoot file).1 c.store = some (.ok (.number n), u) →
        u.Small → Number.InRange n := by
  obtain ⟨calls, hc⟩ := h.inRange
  refine ⟨fun n hn => hc.active.store hsmall _ hn, fun out s n htask hout => ?_, ?_⟩
  · have hs : c.store = s := by rw [Config.store, htask]; rfl
    exact hc.inRange (hs ▸ hsmall) htask hout
  · intro calls steps source n u hr hu
    unfold Program.run at hr
    split at hr
    · cases hr
    · rename_i program hparse
      unfold Program.execute at hr
      split at hr
      · cases hr
      · obtain ⟨⟨out, v⟩, hrun, heq⟩ := Option.map_eq_some_iff.1 hr
        obtain ⟨hresult, rfl⟩ := Prod.mk.inj heq
        obtain ⟨e, last, he, htask, rfl⟩ := h.evaluate (.of_parse hparse) hrun
        obtain ⟨most, hobeys⟩ := he.inRange
        refine hobeys.inRange hu htask ?_
        cases last with
        | value w => exact .inl (by cases hresult; rfl)
        | returned w => exact .inr (by cases hresult; rfl)
        | failed failure => cases hresult
        | aborted cause => cases cause <;> cases hresult

theorem session_numbers_in_range_after_failure :
    ∃ failure t m n,
      Program.run 50 400
        "var a = [2147483647 + 1]; fun f(x) \x7b a.push(x * x); return a[a.length]; \x7d f(65537);"
        (Store.empty.newRoot none).1 (Store.empty.newRoot none).2 = some (.error (.runtime failure), t) ∧
      (t.items ⟨0⟩).toList = [.number m, .number n] ∧ m = -2147483648 ∧ n = 131073 ∧
      ∀ k, t.Holds (.number k) → Number.InRange k := by
  obtain ⟨failure, t, hrun, hitems, hsizes⟩ : ∃ failure t,
      Program.run 50 400
        "var a = [2147483647 + 1]; fun f(x) \x7b a.push(x * x); return a[a.length]; \x7d f(65537);"
        (Store.empty.newRoot none).1 (Store.empty.newRoot none).2 = some (.error (.runtime failure), t) ∧
      (t.items ⟨0⟩).toList = [.number (-2147483648), .number 131073] ∧
      t.arrays.all (fun items => decide (items.size ≤ 2147483647)) = true :=
    ⟨_, _, by cbv, by cbv, by cbv⟩
  obtain ⟨c, hc, rfl⟩ := Session.run_source (.refl (.idle _ _)) (fun _ => Program.Accepted.of_parse) hrun
  have hsmall : c.store.Small := by
    refine .of_arrays fun items hm => of_decide_eq_true ?_
    exact Array.all_eq_true_iff_forall_mem.1 hsizes items hm
  exact ⟨failure, _, _, _, hrun, hitems, rfl, rfl, (session_numbers_in_range hc hsmall).1⟩

end Scripting
