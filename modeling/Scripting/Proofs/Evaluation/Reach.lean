import Mathlib
import Scripting.Proofs.Evaluation.Contract
import Scripting.Proofs.Evaluation.Heap
import Scripting.Proofs.Store.Region

/-!
Evaluation works on what can be reached. Whatever a node does in a frame, it leaves alone all frames,
arrays and records that could not be reached from that frame at the start, and its value refers only to
what could be reached or has been made since.
-/

set_option autoImplicit false

namespace Scripting

/-- Evaluation takes place in a region, and outside of it nothing changes. -/
def Contract.region (s : Store) (region : Ref → Prop) : Contract where
  store t := s.Confined region t
  value _ v := ∀ ref ∈ v.refs, region ref
  node _ f _ := region (.frame f)
  value_mono _ hv := hv
  node_mono _ hn := hn
  operand hn _ := hn
  block := by
    intro t f body p ht _ hf
    refine ⟨ht.newFrame hf none none, fun _ _ => ht.of_not_in ?_⟩
    exact Nat.lt_irrefl _
  call := by
    intro t fn args depth ht hfn hargs new
    have hscope : region (.frame fn.scope) := hfn _ (List.mem_singleton_self _)
    have hnew : region (.frame new.1) := ht.of_not_in (Nat.lt_irrefl _)
    exact ⟨(ht.newFrame hscope none (some depth)).bind hnew fn.params hargs, hnew⟩
  write ht := ht.write _
  newArray := by
    intro t items ht hv
    refine ⟨ht.newArray hv, fun ref hr => ?_⟩
    rw [List.mem_singleton.1 hr]
    exact ht.of_not_in (Nat.lt_irrefl _)
  newRecord := by
    intro t fields ht hv
    refine ⟨ht.newRecord hv, fun ref hr => ?_⟩
    rw [List.mem_singleton.1 hr]
    exact ht.of_not_in (Nat.lt_irrefl _)
  append ht ha hv := ht.append (ha _ (List.mem_singleton_self _)) hv
  fill ht hb hslot hv := ht.fill (hb _ (Store.ref_mem_of_slot hslot)) hv
  assign ht hf hh hv := ht.define (ht.holder? hf hh) _ hv
  declare ht hf hv := ht.define hf _ hv
  function := by
    intro t f w params body p ht _ hf
    refine ht.define hf _ fun ref hr => ?_
    rw [List.mem_singleton.1 hr]
    exact hf
  nothing := nofun
  string _ := nofun
  boolean _ := nofun
  numeral _ _ := nofun
  wrapped _ := nofun
  name ht hf hv := ht.get? hf hv
  item ht hb hv := ht.getItem hb hv
  bound := by
    intro t fn a hfn hb ref hr
    refine hfn ref ?_
    simpa [Value.refs, hb] using hr
  count _ _ _ := nofun

namespace Store

theorem Confined.reach (s : Store) (start : Ref) :
    s.Confined (fun ref => ref.In s → s.Reaches start ref) s where
  closed _ _ ha hab _ := (ha hab.in).tail hab
  same a _ := .refl s a
  outside _ ha := Classical.byContradiction fun hn => ha fun h => (hn h).elim

theorem WellFormed.sound {s : Store} (h : s.WellFormed) : s.Sound .any where
  parent_lt := h.parent_lt
  fits v hv := by
    refine ⟨fun ref hr => h.exists_of_refers ref (.held hv hr), ?_⟩
    cases v with
    | function c => exact c.body.everywhere_any
    | _ => trivial

theorem eq_of_newRoot_reaches {s : Store} {file : Option String} {ref : Ref}
    (h : (s.newRoot file).2.Reaches (.frame (s.newRoot file).1) ref) :
    ref = .frame (s.newRoot file).1 := by
  have hframe : (s.newRoot file).2.frame (s.newRoot file).1 =
      ⟨none, file, 0, ⟨[("println", .native ⟨"println", .printLine, none⟩),
        ("typeof", .native ⟨"typeof", .typeName, none⟩)]⟩⟩ := by
    have hlt := s.newFrame_lt none file none
    simp only [newRoot, install, standardNatives, List.foldl_cons, List.foldl_nil]
    rw [frame_define, if_pos ⟨rfl, by simpa using hlt⟩, frame_define, if_pos ⟨rfl, hlt⟩,
      frame_newFrame_self]
    cases file <;> rfl
  induction h with
  | refl => rfl
  | tail _ hp ih =>
    subst ih
    cases hp with
    | parent h =>
      rw [hframe] at h
      cases h
    | binding h hr =>
      rw [hframe] at h
      simp only [List.mem_cons, List.not_mem_nil, or_false] at h
      rcases h with rfl | rfl <;> cases hr

end Store

/-- Evaluation in a frame leaves everything as it was that could not be reached from there, and its value
    refers only to what could be reached or was made meanwhile. -/
theorem evaluate_within_reach {limits : Limits} {steps : Nat} {n : Node} {scope : FrameId}
    {s t : Store} {out : Outcome} (hs : s.WellFormed) (hscope : scope.index < s.frames.size)
    (h : Machine.evaluate limits steps n scope s = some (out, t)) :
    (∀ ref : Ref, ref.In s → ¬s.Reaches (.frame scope) ref → s.SameAt t ref) ∧
    ∀ v, out = .value v ∨ out = .returned v →
      ∀ ref ∈ v.refs, s.Reaches (.frame scope) ref ∨ ¬ref.In s ∧ ref.In t := by
  obtain ⟨fuel, heval⟩ := Machine.evaluate_iff.1 ⟨steps, h⟩
  have hstart : s.Reaches (.frame scope) (.frame scope) := Relation.ReflTransGen.refl
  obtain ⟨-, hconfined, hout⟩ :=
    Activation.eval_obeys (C := .region s _) ⟨.reach s (.frame scope), hscope, fun _ => hstart⟩ heval
  obtain ⟨-, -, hfits⟩ := Activation.eval_keeps hs.sound ⟨hscope, n.everywhere_any⟩ heval
  refine ⟨fun ref hr hn => hconfined.same ref fun hreach => hn (hreach hr), fun v hv ref hr => ?_⟩
  have hregion : ref.In s → s.Reaches (.frame scope) ref := by
    rcases hv with rfl | rfl <;> exact hout ref hr
  have hin : ref.In t := by
    rcases hv with rfl | rfl <;> exact hfits.refs ref hr
  by_cases hold : ref.In s
  · exact .inl (hregion hold)
  · exact .inr ⟨hold, hin⟩

theorem evaluate_within_reach_of_new_root :
    ∃ v s program a t,
      Program.run 50 400 "var a = [1]; a.push(a);" (Store.rootWith none standardNatives).1
        (Store.rootWith none standardNatives).2 = some (.ok v, s) ∧
      Program.parse "var a = [[], 5]; a.push(a); fun g(x) \x7b x.push(g, a); return x; \x7d return g(a[0]);" =
        .ok program ∧
      Machine.evaluate (Program.limits 50) 400 program (s.newRoot none).1 (s.newRoot none).2 =
        some (.returned (.array a), t) ∧
      t.items ⟨0⟩ = s.items ⟨0⟩ ∧ t.frame ⟨0⟩ = (s.newRoot none).2.frame ⟨0⟩ ∧ a ≠ ⟨0⟩ := by
  obtain ⟨v, s, program, a, t, hfirst, hparse, hsecond, hframes, harrays⟩ : ∃ v s program a t,
      Program.run 50 400 "var a = [1]; a.push(a);" (Store.rootWith none standardNatives).1
        (Store.rootWith none standardNatives).2 = some (.ok v, s) ∧
      Program.parse "var a = [[], 5]; a.push(a); fun g(x) \x7b x.push(g, a); return x; \x7d return g(a[0]);" =
        .ok program ∧
      Machine.evaluate (Program.limits 50) 400 program (s.newRoot none).1 (s.newRoot none).2 =
        some (.returned (.array a), t) ∧
      s.frames.size = 1 ∧ s.arrays.size = 1 :=
    ⟨_, _, _, _, _, by cbv, by cbv, by cbv, by cbv, by cbv⟩
  have hroot := Store.rootWith_lt none standardNatives
  have hstart : (Store.rootWith none standardNatives).2.Sound .any :=
    Store.Sound.rootWith none (by simp [standardNatives, Policy.any])
  obtain ⟨c, hc, rfl⟩ := Session.run_source (.refl (.idle _ _)) (fun _ _ => trivial) hfirst
  have hsound := (hc.keeps_any (.idle hstart hroot trivial) hroot).1.sound
  have hnew : (c.store.newRoot none).2.Sound .any :=
    (hsound.newFrame (by simp)).install _ (by simp [standardNatives, Policy.any])
  have hlt := c.store.newRoot_lt none
  have hold : (Ref.array ⟨0⟩).In (c.store.newRoot none).2 := by
    change 0 < c.store.arrays.size
    rw [harrays]
    exact Nat.one_pos
  have hunreached : ¬(c.store.newRoot none).2.Reaches (.frame (c.store.newRoot none).1) (.array ⟨0⟩) := by
    intro h
    cases Store.eq_of_newRoot_reaches h
  obtain ⟨hsame, hvalue⟩ := evaluate_within_reach hnew.wellFormed hlt hsecond
  refine ⟨v, _, program, a, t, hfirst, hparse, hsecond, ?_, ?_, ?_⟩
  · exact hsame (.array ⟨0⟩) hold hunreached
  · refine hsame (.frame ⟨0⟩) (Nat.lt_of_le_of_lt (Nat.zero_le _) hlt) fun h => ?_
    have hindex : 0 = c.store.frames.size := congrArg FrameId.index (Ref.frame.inj (Store.eq_of_newRoot_reaches h))
    omega
  · rintro rfl
    rcases hvalue _ (.inr rfl) (.array ⟨0⟩) (List.mem_singleton_self _) with h | ⟨h, -⟩
    · exact hunreached h
    · exact h hold

end Scripting
