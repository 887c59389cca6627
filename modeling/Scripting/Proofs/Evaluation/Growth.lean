import Mathlib
import Scripting.Proofs.Evaluation.Course
import Scripting.Proofs.Evaluation.Names

/-!
Nothing is taken back. Whatever a program does and however it ends, arrays do not get shorter, records and
frames keep their names where they are, and the printed text goes on; so what can be read once can be read
from then on.
-/

set_option autoImplicit false

namespace Scripting

open Machine (Config)

namespace Store

variable {s t : Store}

/-- There is something to read under the key. -/
def Readable (s : Store) (base key : Value) : Prop :=
  ∃ v, s.getItem base key = .ok v

theorem index_isOk_iff {length : Nat} {i : Int} : (index length i).isOk ↔ 0 ≤ i ∧ i < length := by
  unfold index
  split
  · exact iff_of_false Bool.false_ne_true fun h => absurd h.1 (by omega)
  · split
    · exact iff_of_true rfl (by omega)
    · exact iff_of_false Bool.false_ne_true fun h => absurd h.2 ‹_›

theorem readable_item {a : ArrayId} {i : Int} :
    s.Readable (.array a) (.number i) ↔ 0 ≤ i ∧ i < (s.items a).size := by
  rw [← index_isOk_iff]
  unfold Readable getItem
  dsimp only
  cases index (s.items a).size i with
  | error fault => exact iff_of_false (by rintro ⟨v, ⟨⟩⟩) Bool.false_ne_true
  | ok k => exact iff_of_true ⟨_, rfl⟩ rfl

theorem readable_member {a : ArrayId} {name : String} :
    s.Readable (.array a) (.string name) ↔ name = "length" ∨ name = "push" := by
  unfold Readable getItem arrayMember
  dsimp only
  split <;> simp_all

theorem readable_field {r : RecordId} {name : String} :
    s.Readable (.record r) (.string name) ↔ name ∈ (s.fields r).names := by
  rw [← Table.contains_iff, Table.contains]
  unfold Readable getItem
  dsimp only
  cases (s.fields r).get? name <;> simp

theorem Readable.mono {base key : Value} (h : s.Readable base key) (he : s.Extends t) :
    t.Readable base key := by
  cases base with
  | array a =>
    cases key with
    | number i =>
      obtain ⟨hpos, hlt⟩ := readable_item.1 h
      have hle : ((s.items a).size : Int) ≤ (t.items a).size := Int.ofNat_le.2 (he.items a)
      exact readable_item.2 ⟨hpos, Int.lt_of_lt_of_le hlt hle⟩
    | string name => exact readable_member.2 (readable_member.1 h)
    | _ => obtain ⟨v, ⟨⟩⟩ := h
  | record r =>
    cases key with
    | string name => exact readable_field.2 ((he.fields r).subset (readable_field.1 h))
    | _ => obtain ⟨v, ⟨⟩⟩ := h
  | _ => obtain ⟨v, ⟨⟩⟩ := h

theorem Extends.names (he : s.Extends t) (f : FrameId) : s.names f <+: t.names f := by
  by_cases hf : f.index < s.frames.size
  · exact (he.frame f hf).names
  · rw [Store.names, frame_of_size_le (Nat.le_of_not_lt hf)]
    exact List.nil_prefix

theorem Extends.printed (he : s.Extends t) : s.output.toList <+: t.output.toList := by
  obtain ⟨text, htext⟩ := he.output
  rw [htext, String.toList_append]
  exact List.prefix_append _ _

end Store

theorem Session.extends {root : FrameId} {s : Store} {c d : Config}
    (hroot : root.index < s.frames.size)
    (hc : Session (fun _ => True) root (.idle root s) c) (hd : Session (fun _ => True) root c d) :
    c.store.Extends d.store := by
  have hany (n : Node) (u : Store) (_ : True) (_ : Contract.any.store u) : Contract.any.node u root n :=
    trivial
  have hidle : (Config.idle root s).Obeys .any 0 := .idle trivial hroot trivial
  obtain ⟨⟨calls, hobeys⟩, hextends⟩ := hc.obeys hany hidle hroot
  exact (hd.obeys hany hobeys (Nat.lt_of_lt_of_le hroot hextends.frames_size)).2

/-- However the evaluation of a node ends, arrays have not become shorter, records and frames have kept their
    names in order, and what was printed stands before what came after. -/
theorem nothing_taken_back {scope : FrameId} {s : Store} (hscope : scope.index < s.frames.size) :
    (∀ limits steps n out t, Machine.evaluate limits steps n scope s = some (out, t) →
      (∀ a, (s.items a).size ≤ (t.items a).size) ∧
      (∀ r, (s.fields r).names <+: (t.fields r).names) ∧
      (∀ f, s.names f <+: t.names f) ∧
      s.output.toList <+: t.output.toList) ∧
    ∀ c d, Session (fun _ => True) scope (.idle scope s) c → Session (fun _ => True) scope c d →
      ∀ base key v, c.store.getItem base key = .ok v → ∃ w, d.store.getItem base key = .ok w := by
  constructor
  · intro limits steps n out t h
    obtain ⟨fuel, heval⟩ := Machine.evaluate_iff.1 ⟨steps, h⟩
    have he : s.Extends t := Activation.eval_extends hscope heval
    exact ⟨he.items, he.fields, he.names, he.printed⟩
  · intro c d hc hd base key v hv
    exact Store.Readable.mono ⟨v, hv⟩ (Session.extends hscope hc hd)

theorem nothing_taken_back_after_failure :
    ∃ failure s program out t,
      Program.run 50 400 "var a = [1]; fun f(v) \x7b v.push(2); return v[5]; \x7d f(a);"
        (Store.empty.newRoot none).1 (Store.empty.newRoot none).2 = some (.error (.runtime failure), s) ∧
      Program.parse "a[1] = a; var b; print 3;" = .ok program ∧
      Machine.evaluate (Program.limits 50) 400 program (Store.empty.newRoot none).1 s = some (out, t) ∧
      (∀ a, (s.items a).size ≤ (t.items a).size) ∧
      (∀ r, (s.fields r).names <+: (t.fields r).names) ∧
      (∀ f, s.names f <+: t.names f) ∧
      s.output.toList <+: t.output.toList ∧
      s.getItem (.array ⟨0⟩) (.number 1) = .ok (.number 2) ∧
      ∃ w, t.getItem (.array ⟨0⟩) (.number 1) = .ok w := by
  obtain ⟨failure, s, program, out, t, hfirst, hparse, hsecond, hitem⟩ :
      ∃ failure s program out t,
        Program.run 50 400 "var a = [1]; fun f(v) \x7b v.push(2); return v[5]; \x7d f(a);"
          (Store.empty.newRoot none).1 (Store.empty.newRoot none).2 =
            some (.error (.runtime failure), s) ∧
        Program.parse "a[1] = a; var b; print 3;" = .ok program ∧
        Machine.evaluate (Program.limits 50) 400 program (Store.empty.newRoot none).1 s = some (out, t) ∧
        s.getItem (.array ⟨0⟩) (.number 1) = .ok (.number 2) :=
    ⟨_, _, _, _, _, by cbv, by cbv, by cbv, by cbv⟩
  have hroot := Store.empty.newRoot_lt none
  obtain ⟨c, hc, rfl⟩ := Session.run_source (.refl (.idle _ _)) (fun _ _ => trivial) hfirst
  have hrest : Session (fun _ => True) (Store.empty.newRoot none).1 c c := .refl c
  obtain ⟨d, last, hd, htask, -⟩ := hrest.evaluate trivial hsecond
  have hlast : d.store = t := by
    rw [Config.store, htask]
    rfl
  have hlater : (Store.empty.newRoot none).1.index < c.store.frames.size :=
    Nat.lt_of_lt_of_le hroot (Session.extends hroot (.refl _) hc).frames_size
  obtain ⟨harrays, hrecords, hframes, hprinted⟩ :=
    (nothing_taken_back hlater).1 _ _ _ _ _ hsecond
  refine ⟨failure, c.store, program, out, t, hfirst, hparse, hsecond, harrays, hrecords, hframes,
    hprinted, hitem, ?_⟩
  rw [← hlast]
  exact (nothing_taken_back hroot).2 c d hc hd _ _ _ hitem

end Scripting
