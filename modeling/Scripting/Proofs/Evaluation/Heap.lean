import Mathlib
import Scripting.Proofs.Evaluation.Session

/-!
The heap of a session, whatever the programs. Every reference leads to something that exists, frames are
younger than the frames around them and stay where they are, and a literal makes an array or a record
that nothing referred to before.
-/

set_option autoImplicit false

namespace Scripting

def Policy.any : Policy where
  admits _ := True
  hosts _ := True
  fails _ := True
  stops _ := True
  ordinary _ _ := trivial
  stack _ _ := trivial
  push _ := trivial
  numeral _ _ _ := trivial
  operator _ _ _ _ _ _ := trivial
  malformed _ _ _ := ⟨fun _ => trivial, fun _ => trivial⟩
  receiver _ _ _ _ _ := trivial
  foreign _ _ _ _ := trivial

theorem Node.everywhere_any (n : Node) : n.Everywhere Policy.any.admits :=
  fun _ _ => trivial

/-! Literals. -/

/-- The nodes have these values when they are evaluated from left to right. -/
inductive EvaluateAll (limits : Limits) (eval : Activation → Store → Option (Outcome × Store))
    (scope : FrameId) (depth : Nat) : List Node → Store → List Value → Store → Prop where
  | nil (s : Store) : EvaluateAll limits eval scope depth [] s [] s
  | cons {n : Node} {nodes : List Node} {v : Value} {vs : List Value} {s t u : Store}
      (ha : limits.allows depth = true) (h : eval ⟨n, scope, depth⟩ s = some (.value v, t))
      (rest : EvaluateAll limits eval scope depth nodes t vs u) :
      EvaluateAll limits eval scope depth (n :: nodes) s (v :: vs) u

def Field.enter (seen : Table Value) : List (Field Node) → List Value → Table Value
  | field :: fields, v :: vs => enter (seen.put field.key.text v) fields vs
  | _, _ => seen

section CarryOut

variable {limits : Limits} {eval : Activation → Store → Option (Outcome × Store)}
  {active : Activation} {cost : Nat} {scope : FrameId} {s t : Store} {v : Value}

theorem Task.carryOut_value {node : Node} {k : Value → Store → Task} :
    (Task.value cost node scope s k).carryOut limits eval active = some (.value v, t) ↔
      limits.allows (active.depth + cost) = true ∧
        ∃ w u, eval ⟨node, scope, active.depth + cost⟩ s = some (.value w, u) ∧
          (k w u).carryOut limits eval active = some (.value v, t) := by
  by_cases ha : limits.allows (active.depth + cost) = true
  · simp only [Task.value, Task.carryOut, ha, if_true, true_and]
    cases he : eval ⟨node, scope, active.depth + cost⟩ s with
    | none => simp
    | some r =>
      obtain ⟨out, u⟩ := r
      cases out with
      | value w => simp [Task.onValue, and_assoc]
      | returned w | failed failure | aborted cause =>
        simp [Task.onValue, Task.carryOut, Outcome.locate]
  · simp [Task.value, Task.carryOut, ha, Task.onValue, Outcome.locate]

theorem Task.carryOut_collect {k : List Value → Store → Task} {nodes : List Node}
    {seen : List Value} :
    (Task.collect cost scope k nodes seen s).carryOut limits eval active = some (.value v, t) ↔
      ∃ vs u, EvaluateAll limits eval scope (active.depth + cost) nodes s vs u ∧
        (k (seen.reverse ++ vs) u).carryOut limits eval active = some (.value v, t) := by
  induction nodes generalizing seen s with
  | nil =>
    rw [Task.collect]
    constructor
    · intro h
      exact ⟨[], s, .nil s, by simpa using h⟩
    · rintro ⟨_, _, ⟨⟩, h⟩
      simpa using h
  | cons n nodes ih =>
    rw [Task.collect, Task.carryOut_value]
    constructor
    · rintro ⟨ha, w, u, he, h⟩
      obtain ⟨vs, x, hall, hk⟩ := ih.1 h
      exact ⟨w :: vs, x, .cons ha he hall, by simpa using hk⟩
    · rintro ⟨_, x, hall, hk⟩
      cases hall with
      | cons ha he rest => exact ⟨ha, _, _, he, ih.2 ⟨_, x, rest, by simpa using hk⟩⟩

theorem Task.carryOut_collectFields {fields : List (Field Node)} {seen : Table Value} :
    (Task.collectFields scope fields seen s).carryOut limits eval active = some (.value v, t) ↔
      ∃ vs u, EvaluateAll limits eval scope (active.depth + 4) (fields.map (·.value)) s vs u ∧
        v = .record (u.newRecord (Field.enter seen fields vs)).1 ∧
        t = (u.newRecord (Field.enter seen fields vs)).2 := by
  induction fields generalizing seen s with
  | nil =>
    constructor
    · intro h
      cases h
      exact ⟨[], s, .nil s, rfl, rfl⟩
    · rintro ⟨_, _, ⟨⟩, rfl, rfl⟩
      rfl
  | cons field fields ih =>
    rw [Task.collectFields, Task.carryOut_value]
    constructor
    · rintro ⟨ha, w, u, he, h⟩
      obtain ⟨vs, x, hall, hv, ht⟩ := ih.1 h
      exact ⟨w :: vs, x, .cons ha he hall, hv, ht⟩
    · rintro ⟨_, x, hall, hv, ht⟩
      cases hall with
      | cons ha he rest => exact ⟨ha, _, _, he, ih.2 ⟨_, x, rest, hv, ht⟩⟩

end CarryOut

section Freshness

variable {P : Policy} {limits : Limits} {fuel depth : Nat} {scope : FrameId} {s u : Store}

theorem EvaluateAll.keeps {nodes : List Node} {vs : List Value} (hs : s.Sound P)
    (hscope : scope.index < s.frames.size) (hn : ∀ n ∈ nodes, n.Everywhere P.admits)
    (h : EvaluateAll limits (Activation.eval limits fuel) scope depth nodes s vs u) :
    s.Extends u ∧ u.Sound P ∧ ∀ v ∈ vs, v.Fits P u := by
  induction h with
  | nil s => exact ⟨.refl s, hs, nofun⟩
  | cons _ he _ ih =>
    rw [List.forall_mem_cons] at hn
    obtain ⟨hst, ht, hv⟩ := Activation.eval_keeps hs ⟨hscope, hn.1⟩ he
    obtain ⟨htu, hu, hvs⟩ := ih ht (Nat.lt_of_lt_of_le hscope hst.frames_size) hn.2
    exact ⟨hst.trans htu, hu, List.forall_mem_cons.2 ⟨Value.Fits.mono htu hv, hvs⟩⟩

/-- Neither the store nor one of the values refers to it. -/
structure Ref.Fresh (s : Store) (vs : List Value) (ref : Ref) : Prop where
  store : ¬s.Refers ref
  values : ∀ v ∈ vs, ref ∉ v.refs

theorem Ref.Fresh.of_not_in {vs : List Value} {ref : Ref} (he : s.Extends u) (hs : s.Sound P)
    (hu : u.Sound P) (hv : ∀ v ∈ vs, v.Fits P u) (hr : ¬ref.In u) :
    ref.Fresh u vs ∧ ¬s.Refers ref := by
  refine ⟨⟨fun h => hr (hu.wellFormed.exists_of_refers ref h), fun v hm h => ?_⟩, fun h => ?_⟩
  · exact hr ((hv v hm).refs ref h)
  · exact hr ((hs.wellFormed.exists_of_refers ref h).mono he)

theorem eval_array (hs : s.Sound .any) (hscope : scope.index < s.frames.size) {items : List Node}
    {place : Option Place} {v : Value} {t : Store} :
    Activation.eval limits (fuel + 1) ⟨.array items place, scope, depth⟩ s = some (.value v, t) ↔
      ∃ vs u, EvaluateAll limits (Activation.eval limits fuel) scope (depth + (4 + limits.costs.list)) items s vs u ∧
        ∃ a, v = .array a ∧ (a, t) = u.newArray vs.toArray ∧
          (Ref.array a).Fresh u vs ∧ ¬s.Refers (.array a) := by
  rw [Activation.eval, Node.start, Task.carryOut_collect]
  refine exists_congr fun vs => exists_congr fun u => and_congr_right fun hall => ?_
  obtain ⟨hsu, hu, hvs⟩ := hall.keeps hs hscope fun n _ => n.everywhere_any
  have hfresh := Ref.Fresh.of_not_in hsu hs hu hvs
    (show ¬(Ref.array (u.newArray vs.toArray).1).In u from Nat.lt_irrefl _)
  constructor
  · intro h
    cases h
    exact ⟨_, rfl, rfl, hfresh⟩
  · rintro ⟨a, rfl, ha, -⟩
    cases ha
    rfl

theorem eval_record (hs : s.Sound .any) (hscope : scope.index < s.frames.size)
    {fields : List (Field Node)} {place : Option Place} {v : Value} {t : Store} :
    Activation.eval limits (fuel + 1) ⟨.record fields place, scope, depth⟩ s = some (.value v, t) ↔
      ∃ vs u, EvaluateAll limits (Activation.eval limits fuel) scope (depth + 4)
          (fields.map (·.value)) s vs u ∧
        ∃ r, v = .record r ∧ (r, t) = u.newRecord (Field.enter .empty fields vs) ∧
          (Ref.record r).Fresh u vs ∧ ¬s.Refers (.record r) := by
  rw [Activation.eval, Node.start, Task.carryOut_collectFields]
  refine exists_congr fun vs => exists_congr fun u => and_congr_right fun hall => ?_
  obtain ⟨hsu, hu, hvs⟩ := hall.keeps hs hscope fun n _ => n.everywhere_any
  have hfresh := Ref.Fresh.of_not_in hsu hs hu hvs
    (show ¬(Ref.record (u.newRecord (Field.enter .empty fields vs)).1).In u from Nat.lt_irrefl _)
  constructor
  · rintro ⟨rfl, rfl⟩
    exact ⟨_, rfl, rfl, hfresh⟩
  · rintro ⟨r, rfl, hr, -⟩
    cases hr
    exact ⟨rfl, rfl⟩

end Freshness

/-! Sessions. -/

open Machine (Config)

theorem Session.keeps_any {root : FrameId} {c d : Config} (hc : c.Keeps .any)
    (hroot : root.index < c.store.frames.size) (h : Session (fun _ => True) root c d) :
    d.Keeps .any ∧ c.store.Extends d.store :=
  h.keeps (fun n _ => n.everywhere_any) hc hroot

theorem Store.WellFormed.exists_chain_lookup {s : Store} (h : s.WellFormed) (f : FrameId) :
    ∃ fs, s.Chain f fs ∧ fs.length ≤ f.index + 1 ∧ ∀ name,
      s.get? f name = (fs.find? fun g => (s.frame g).vars.contains name).bind
        (fun g => (s.frame g).vars.get? name) ∧
      ∀ v, s.set? f name v = (fs.find? fun g => (s.frame g).vars.contains name).map
        fun g => s.define g name v := by
  obtain ⟨fs, hfs, hlength⟩ := exists_chain h.parent_lt f
  refine ⟨fs, hfs, hlength, fun name => ⟨?_, fun v => ?_⟩⟩
  · rw [get?, hfs.holder?_eq h.parent_lt]
  · rw [set?, hfs.holder?_eq h.parent_lt]

/-- The store of a configuration and what a later one keeps of it: references lead to what exists, look-up and
    assignment follow a finite chain of frames, frames stay where they were made, and a literal makes a new
    array or record. -/
structure Machine.Config.Intact (c d : Config) : Prop where
  wellFormed : c.store.WellFormed
  scope_lt : c.active.scope.index < c.store.frames.size
  chain : ∀ f, ∃ fs, c.store.Chain f fs ∧ fs.length ≤ f.index + 1 ∧ ∀ name,
    c.store.get? f name = (fs.find? fun g => (c.store.frame g).vars.contains name).bind
      (fun g => (c.store.frame g).vars.get? name) ∧
    ∀ v, c.store.set? f name v = (fs.find? fun g => (c.store.frame g).vars.contains name).map
      fun g => c.store.define g name v
  frame : ∀ f : FrameId, f.index < c.store.frames.size → f.index < d.store.frames.size ∧
    (d.store.frame f).parent = (c.store.frame f).parent ∧
    (d.store.frame f).depth = (c.store.frame f).depth
  array : ∀ limits fuel depth place v t items, ∀ scope : FrameId, scope.index < c.store.frames.size →
    (Activation.eval limits (fuel + 1) ⟨.array items place, scope, depth⟩ c.store = some (.value v, t) ↔
      ∃ vs u, EvaluateAll limits (Activation.eval limits fuel) scope (depth + (4 + limits.costs.list)) items
          c.store vs u ∧
        ∃ a, v = .array a ∧ (a, t) = u.newArray vs.toArray ∧
          (Ref.array a).Fresh u vs ∧ ¬c.store.Refers (.array a))
  record : ∀ limits fuel depth place v t fields, ∀ scope : FrameId, scope.index < c.store.frames.size →
    (Activation.eval limits (fuel + 1) ⟨.record fields place, scope, depth⟩ c.store = some (.value v, t) ↔
      ∃ vs u, EvaluateAll limits (Activation.eval limits fuel) scope (depth + 4)
          (fields.map (·.value)) c.store vs u ∧
        ∃ r, v = .record r ∧ (r, t) = u.newRecord (Field.enter .empty fields vs) ∧
          (Ref.record r).Fresh u vs ∧ ¬c.store.Refers (.record r))

/-- In a session of any programs in a root frame with any unbound host functions, every configuration is
    intact. -/
theorem session_heap_intact {file : Option String} {natives : List Native}
    (hn : ∀ fn ∈ natives, fn.bound = none) {c d : Config}
    (hc : Session (fun _ => True) (Store.rootWith file natives).1
      (.idle (Store.rootWith file natives).1 (Store.rootWith file natives).2) c)
    (hd : Session (fun _ => True) (Store.rootWith file natives).1 c d) : c.Intact d := by
  have hroot := Store.rootWith_lt file natives
  have hsound : (Store.rootWith file natives).2.Sound .any :=
    Store.Sound.rootWith file fun fn hm => ⟨trivial, hn fn hm⟩
  obtain ⟨hkeeps, hextends⟩ := hc.keeps_any (.idle hsound hroot trivial) hroot
  have hlater := (hd.keeps_any hkeeps (Nat.lt_of_lt_of_le hroot hextends.frames_size)).2
  constructor
  case wellFormed => exact hkeeps.sound.wellFormed
  case scope_lt => exact hkeeps.active.scope
  case chain => exact hkeeps.sound.wellFormed.exists_chain_lookup
  case frame =>
    intro f hf
    have hframe := hlater.frame f hf
    exact ⟨Nat.lt_of_lt_of_le hf hlater.frames_size, hframe.parent, hframe.depth⟩
  case array => exact fun _ _ _ _ _ _ _ _ hscope => eval_array hkeeps.sound hscope
  case record => exact fun _ _ _ _ _ _ _ _ hscope => eval_record hkeeps.sound hscope

theorem session_heap_intact_after_failure :
    ∃ failure v t u,
      Program.run 50 400
        "var a = []; fun f(x) \x7b var g = [x, f]; a.push(a, g); return g[5]; \x7d f(\x7b k: a \x7d);"
        (Store.rootWith none standardNatives).1 (Store.rootWith none standardNatives).2 =
          some (.error (.runtime failure), t) ∧
      Program.run 50 400 "fun h() \x7b a.push(h); return a; \x7d return [h(), a[1]];"
        (Store.rootWith none standardNatives).1 t = some (.ok v, u) ∧
      t.WellFormed ∧ u.WellFormed ∧ t.frames.size = 2 ∧
      ∀ f : FrameId, f.index < 2 → (u.frame f).parent = (t.frame f).parent ∧
        (u.frame f).depth = (t.frame f).depth := by
  have hnatives : ∀ fn ∈ standardNatives, fn.bound = none := by simp [standardNatives]
  obtain ⟨failure, v, t, u, hfirst, hsecond, hsize⟩ : ∃ failure v t u,
      Program.run 50 400
        "var a = []; fun f(x) \x7b var g = [x, f]; a.push(a, g); return g[5]; \x7d f(\x7b k: a \x7d);"
        (Store.rootWith none standardNatives).1 (Store.rootWith none standardNatives).2 =
          some (.error (.runtime failure), t) ∧
      Program.run 50 400 "fun h() \x7b a.push(h); return a; \x7d return [h(), a[1]];"
        (Store.rootWith none standardNatives).1 t = some (.ok v, u) ∧
      t.frames.size = 2 :=
    ⟨_, _, _, _, by cbv, by cbv, by cbv⟩
  obtain ⟨c, hc, rfl⟩ := Session.run_source (.refl (.idle _ _)) (fun _ _ => trivial) hfirst
  obtain ⟨d, hd, rfl⟩ := Session.run_source (.refl c) (fun _ _ => trivial) hsecond
  have hintact := session_heap_intact hnatives hc hd
  have hintact' := session_heap_intact hnatives (hc.trans hd) (.refl d)
  exact ⟨failure, v, _, _, hfirst, hsecond, hintact.wellFormed, hintact'.wellFormed, hsize,
    fun f hf => (hintact.frame f (hsize ▸ hf)).2⟩

end Scripting
