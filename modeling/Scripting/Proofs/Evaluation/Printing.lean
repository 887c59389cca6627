import Mathlib
import Scripting.Proofs.Evaluation.CountedLoop
import Scripting.Proofs.Evaluation.Heap
import Scripting.Proofs.Store.Likeness
import Scripting.Proofs.Store.Nesting

/-!
The texts of values, and what becomes of a value without a text that is to be printed. Where the host
activations are not bounded, the bound on the depth that rendering works with cannot be seen: the text of an
array or a record is made from the texts of its parts, and only what contains itself has no text.
-/

set_option autoImplicit false

namespace Scripting

namespace Store

variable {s : Store} {v w : Value} {n : Nat}

theorem not_deep_of_not_isCollection (hv : v.isCollection = false) : ¬s.Deep n v := by
  intro h
  have hcollection : v.isCollection = true := h.mono (Nat.zero_le n)
  rw [hv] at hcollection
  cases hcollection

theorem deep_deepest_iff : s.Deep s.deepest v ↔ s.Cyclic v := by
  refine ⟨fun h => ?_, fun h => h.deep _⟩
  by_contra hv
  exact absurd (h.le_of_not_cyclic hv) (Nat.not_succ_le_self _)

theorem render_none_eq_none_iff : s.render none v = none ↔ s.Cyclic v := by
  rw [render, renderWithin_eq_none_iff, deep_deepest_iff]

theorem Cyclic.render_eq_none (h : s.Cyclic v) (levels : Option Nat) : s.render levels v = none := by
  cases levels with
  | none => exact render_none_eq_none_iff.2 h
  | some levels => exact render_eq_none_iff.2 (h.deep _)

theorem renderWithin_eq_render (h : ¬s.Deep n v) : s.renderWithin n v = s.render none v := by
  obtain ⟨text, htext⟩ : ∃ text, s.renderWithin (min s.deepest n) v = some text := by
    refine Option.ne_none_iff_exists'.1 fun hnone => h ?_
    exact deep_min_deepest_iff.1 (renderWithin_eq_none_iff.1 hnone)
  rw [s.renderWithin_mono (Nat.min_le_right _ _) htext, render,
    s.renderWithin_mono (Nat.min_le_left _ _) htext]

theorem render_eq_render_none {levels : Nat} (h : ¬s.Deep levels v) :
    s.render (some levels) v = s.render none v := by
  rw [render]
  exact renderWithin_eq_render fun hdeep => h (deep_min_deepest_iff.1 hdeep)

theorem display_eq_none_iff {levels : Option Nat} : s.display levels v = none ↔ s.render levels v = none := by
  cases v with
  | string text =>
    have hdeep (n : Nat) : ¬s.Deep n (.string text) := not_deep_of_not_isCollection rfl
    cases levels with
    | none => simp [display, render, renderWithin_eq_none_iff, hdeep]
    | some levels => simp [display, render_eq_none_iff, hdeep]
  | _ => exact Iff.rfl

theorem Cyclic.display_eq_none (h : s.Cyclic v) (levels : Option Nat) : s.display levels v = none :=
  display_eq_none_iff.2 (h.render_eq_none levels)

theorem exists_textless {vs : List Value} (h : ∃ v ∈ vs, s.Cyclic v) (levels : Option Nat) :
    ∃ v ∈ vs, s.display levels v = none := by
  obtain ⟨v, hv, hcyclic⟩ := h
  exact ⟨v, hv, hcyclic.display_eq_none levels⟩

theorem display_eq_of_render_eq {levels levels' : Option Nat} (h : s.render levels v = s.render levels' v) :
    s.display levels v = s.display levels' v := by
  cases v with
  | string text => rfl
  | _ => exact h

/-! The text of an array or a record, from the texts of its parts. -/

theorem renderWithin_part (hv : ¬s.Cyclic v) (hw : w ∈ s.parts v) :
    s.renderWithin (s.arrays.size + s.records.size) w = s.render none w :=
  renderWithin_eq_render fun hdeep => hv (deep_deepest_iff.1 ⟨w, hw, hdeep⟩)

theorem render_array (s : Store) (a : ArrayId) : s.render none (.array a) = do
    let texts ← (s.items a).toList.mapM (s.render none)
    return "[" ++ ", ".intercalate texts ++ "]" := by
  by_cases hv : s.Cyclic (.array a)
  · obtain ⟨w, hw, hcyclic⟩ := hv.exists_part
    rw [hv.render_eq_none]
    exact (bind_pure_eq_none_iff.2 (mapM_eq_none_iff.2 ⟨w, hw, hcyclic.render_eq_none _⟩)).symm
  · have hparts : List.Forall₂ (fun w w' => s.renderWithin (s.arrays.size + s.records.size) w' = s.render none w)
        (s.items a).toList (s.items a).toList :=
      List.forall₂_same.2 fun w hw => renderWithin_part hv hw
    rw [render, deepest, renderWithin, mapM_eq_of_forall₂ hparts fun _ _ h => h]

theorem render_record (s : Store) (r : RecordId) : s.render none (.record r) = do
    let texts ← (s.fields r).entries.mapM fun e => do
      return e.1 ++ ": " ++ (← s.render none e.2)
    return "\x7b" ++ ", ".intercalate texts ++ "\x7d" := by
  by_cases hv : s.Cyclic (.record r)
  · obtain ⟨w, hw, hcyclic⟩ := hv.exists_part
    obtain ⟨e, he, rfl⟩ := List.mem_map.1 hw
    rw [hv.render_eq_none]
    refine (bind_pure_eq_none_iff.2 (mapM_eq_none_iff.2 ⟨e, he, ?_⟩)).symm
    exact bind_pure_eq_none_iff.2 (hcyclic.render_eq_none _)
  · have hparts : List.Forall₂ (fun e e' => e' = e ∧
          s.renderWithin (s.arrays.size + s.records.size) e.2 = s.render none e.2)
        (s.fields r).entries (s.fields r).entries :=
      List.forall₂_same.2 fun e he => ⟨rfl, renderWithin_part hv (List.mem_map_of_mem he)⟩
    rw [render, deepest, renderWithin, mapM_eq_of_forall₂ hparts]
    rintro e _ ⟨rfl, h⟩
    rw [h]

end Store

/-! Printing. -/

section Evaluation

variable {limits : Limits} {a : Activation} {f : FrameId} {depth fuel : Nat} {e : Node} {args : List Node}
  {fn : Native} {v : Value} {vs : List Value} {s₀ s₁ s t : Store} {out : Outcome}

theorem Activation.ends_print {text : String} (room : limits.allows (depth + 4))
    (he : Activation.Ends limits ⟨e, f, depth + 4⟩ s₀ (.value v) s)
    (h : s.display (limits.levels depth) v = some text) (p : Option Place) :
    Activation.Ends limits ⟨.print e p, f, depth⟩ s₀ (.value v) (s.write (text ++ "\n")) := by
  refine Activation.ends_iff_start.2 (Task.ends_value_of_ends room he ?_)
  simp only [h]
  exact Task.ends_done.2 ⟨rfl, rfl⟩

theorem Activation.ends_print_textless (room : limits.allows (depth + 4))
    (he : Activation.Ends limits ⟨e, f, depth + 4⟩ s₀ (.value v) s)
    (h : s.display (limits.levels depth) v = none) (p : Option Place) :
    Activation.Ends limits ⟨.print e p, f, depth⟩ s₀ (.aborted (.text (limits.levels depth))) s := by
  refine Activation.ends_iff_start.2 (Task.ends_value_of_ends room he ?_)
  simp only [h]
  exact Task.ends_done.2 ⟨rfl, rfl⟩

theorem EvaluateAll.ends_collect {nodes : List Node} {cost : Nat} {k : List Value → Store → Task}
    (hall : EvaluateAll limits (Activation.eval limits fuel) f (a.depth + cost) nodes s vs t) {seen : List Value}
    {u : Store} (hk : (k (seen.reverse ++ vs) t).Ends limits a out u) :
    (Task.collect cost f k nodes seen s).Ends limits a out u := by
  induction hall generalizing seen with
  | nil s => simpa [Task.collect] using hk
  | cons ha h _ ih =>
    refine Task.ends_value_of_ends ha (Activation.ends_iff.2 ⟨fuel, h⟩) (ih ?_)
    simpa using hk

theorem Native.call_printLine (hfn : fn.host = .printLine) {levels : Option Nat}
    (h : ∃ v ∈ vs, s.display levels v = none) (receiver : Option Value) :
    fn.call levels f receiver vs s = .done (.aborted (.text levels)) s := by
  simp only [Native.call, hfn, Store.mapM_eq_none_iff.2 h]

theorem Task.ends_apply_printLine (hfn : fn.host = .printLine)
    (hall : EvaluateAll limits (Activation.eval limits fuel) f (a.depth + (5 + limits.costs.list)) args s₁ vs s)
    (h : ∃ v ∈ vs, s.display (limits.levels a.depth) v = none) (receiver : Option Value) :
    (Task.apply limits a.depth (.native fn) receiver args f s₁).Ends limits a
      (.aborted (.text (limits.levels a.depth))) s := by
  refine hall.ends_collect ?_
  rw [Value.call, Native.call_printLine hfn (by simpa using h)]
  exact Task.ends_done.2 ⟨rfl, rfl⟩

theorem Activation.ends_call {callee : Value} {ps p : Option Place} (room : limits.allows (depth + 4))
    (he : Activation.Ends limits ⟨e, f, depth + 4⟩ s₀ (.value callee) s₁)
    (h : (Task.apply limits depth callee none args f s₁).Ends limits ⟨.call e args ps p, f, depth⟩ out s) :
    Activation.Ends limits ⟨.call e args ps p, f, depth⟩ s₀ out s :=
  Activation.ends_iff_start.2 (Task.ends_value_of_ends room he h)

theorem Activation.ends_methodCall {e' : Node} {s₂ : Store} {object key callee : Value} {ps p : Option Place}
    (room : limits.allows (depth + 4)) (he : Activation.Ends limits ⟨e, f, depth + 4⟩ s₀ (.value object) s₁)
    (he' : Activation.Ends limits ⟨e', f, depth + 4⟩ s₁ (.value key) s₂) (hitem : s₂.getItem object key = .ok callee)
    (h : (Task.apply limits depth callee (some object) args f s₂).Ends limits
      ⟨.methodCall e e' args ps p, f, depth⟩ out s) :
    Activation.Ends limits ⟨.methodCall e e' args ps p, f, depth⟩ s₀ out s := by
  refine Activation.ends_iff_start.2 (Task.ends_value_of_ends room he (Task.ends_value_of_ends room he' ?_))
  simpa only [hitem] using h

end Evaluation

/-- What has a text, and what becomes of values that are to be printed when the store is as given. -/
structure Store.Prints [Host] (s : Store) : Prop where
  render_iff (v : Value) : (∃ text, s.render none v = some text) ↔ ¬s.Cyclic v
  display_iff (v : Value) : (∃ text, s.display none v = some text) ↔ ¬s.Cyclic v
  array (a : ArrayId) : s.render none (.array a) = do
    let texts ← (s.items a).toList.mapM (s.render none)
    return "[" ++ ", ".intercalate texts ++ "]"
  record (r : RecordId) : s.render none (.record r) = do
    let texts ← (s.fields r).entries.mapM fun e => do
      return e.1 ++ ": " ++ (← s.render none e.2)
    return "\x7b" ++ ", ".intercalate texts ++ "\x7d"
  -- texts of a bounded number of levels
  cyclic {v : Value} (levels : Nat) : s.Cyclic v →
    s.render (some levels) v = none ∧ s.display (some levels) v = none
  shallow {v : Value} {levels : Nat} : ¬s.Deep levels v →
    s.render (some levels) v = s.render none v ∧ s.display (some levels) v = s.display none v
  -- the store is what the evaluation of the values has left
  print {limits : Limits} {f : FrameId} {depth : Nat} {e : Node} {s₀ : Store} {v : Value} {text : String}
      (p : Option Place) : limits.allows (depth + 4) →
    Activation.Ends limits ⟨e, f, depth + 4⟩ s₀ (.value v) s → s.display (limits.levels depth) v = some text →
    Activation.Ends limits ⟨.print e p, f, depth⟩ s₀ (.value v) (s.write (text ++ "\n"))
  printCyclic {limits : Limits} {f : FrameId} {depth : Nat} {e : Node} {s₀ : Store} {v : Value}
      (p : Option Place) : limits.allows (depth + 4) →
    Activation.Ends limits ⟨e, f, depth + 4⟩ s₀ (.value v) s → s.Cyclic v →
    Activation.Ends limits ⟨.print e p, f, depth⟩ s₀ (.aborted (.text (limits.levels depth))) s
  printLine {limits : Limits} {f : FrameId} {depth fuel : Nat} {e : Node} {args : List Node} {vs : List Value}
      {fn : Native} {s₀ s₁ : Store} (ps p : Option Place) : fn.host = .printLine → limits.allows (depth + 4) →
    Activation.Ends limits ⟨e, f, depth + 4⟩ s₀ (.value (.native fn)) s₁ →
    EvaluateAll limits (Activation.eval limits fuel) f (depth + (5 + limits.costs.list)) args s₁ vs s →
    (∃ v ∈ vs, s.Cyclic v) →
    Activation.Ends limits ⟨.call e args ps p, f, depth⟩ s₀ (.aborted (.text (limits.levels depth))) s
  printLineMethod {limits : Limits} {f : FrameId} {depth fuel : Nat} {e e' : Node} {args : List Node}
      {vs : List Value} {fn : Native} {r k : Value} {s₀ s₁ s₂ : Store} (ps p : Option Place) :
    fn.host = .printLine → limits.allows (depth + 4) →
    Activation.Ends limits ⟨e, f, depth + 4⟩ s₀ (.value r) s₁ →
    Activation.Ends limits ⟨e', f, depth + 4⟩ s₁ (.value k) s₂ → s₂.getItem r k = .ok (.native fn) →
    EvaluateAll limits (Activation.eval limits fuel) f (depth + (5 + limits.costs.list)) args s₂ vs s →
    (∃ v ∈ vs, s.Cyclic v) →
    Activation.Ends limits ⟨.methodCall e e' args ps p, f, depth⟩ s₀ (.aborted (.text (limits.levels depth))) s
  program {calls : Nat} {f : FrameId} {e : Node} {s₀ : Store} {levels : Option Nat} (rest : List Node)
      (p : Option Place) : Program.nesting calls ≤ Program.maxNesting →
    Activation.Ends (Program.limits calls) ⟨e, f, 4⟩ s₀ (.aborted (.text levels)) s →
    ∃ steps, Program.execute calls steps (.sequence (e :: rest) p) f s₀ =
      some (.error (.runtime ⟨.textDepth levels, none⟩), s)

/-- Exactly the values in which nothing contains itself have a text. If a value to be printed contains itself,
    the statement or the call fails and leaves everything as it was when the values were known. -/
theorem printing_fails_on_cycles [Host] (s : Store) : s.Prints where
  render_iff v := by rw [← Option.ne_none_iff_exists', Ne, Store.render_none_eq_none_iff]
  display_iff v := by
    rw [← Option.ne_none_iff_exists', Ne, Store.display_eq_none_iff, Store.render_none_eq_none_iff]
  array := s.render_array
  record := s.render_record
  cyclic levels hv := ⟨hv.render_eq_none _, hv.display_eq_none _⟩
  shallow hv := by
    have hrender := Store.render_eq_render_none hv
    exact ⟨hrender, Store.display_eq_of_render_eq hrender⟩
  print p room he h := Activation.ends_print room he h p
  printCyclic p room he hv := Activation.ends_print_textless room he (hv.display_eq_none _) p
  printLine _ _ hfn room he hall hcyclic :=
    Activation.ends_call room he (Task.ends_apply_printLine hfn hall (Store.exists_textless hcyclic _) _)
  printLineMethod _ _ hfn room he he' hitem hall hcyclic :=
    Activation.ends_methodCall room he he' hitem
      (Task.ends_apply_printLine hfn hall (Store.exists_textless hcyclic _) _)
  program rest p hcalls h := Program.execute_of_aborted hcalls h rest p

/-- An array that contains itself through a record cannot be printed, not even between others. -/
theorem printing_fails_on_cycles_between_others :
    let x : Value := .array ⟨0⟩
    let y : Value := .array ⟨1⟩
    let println : Native := ⟨"println", .printLine, none⟩
    let s : Store := ⟨#[⟨none, none, 0, ⟨[("println", .native println), ("x", x), ("y", y)]⟩⟩],
      #[#[.number 1, .record ⟨0⟩],
        #[.native ⟨"push", .push, some ⟨1⟩⟩, .function ⟨"f", [], .sequence [] none, ⟨0⟩⟩, .record ⟨1⟩, .record ⟨1⟩]],
      #[⟨[("back", x)]⟩, .empty], "before\n"⟩
    let name (w : String) : Node := .name ⟨w, none⟩
    s.Cyclic x ∧ ¬s.Cyclic y ∧
    s.render none y = some "[<native fn push>, <fn f>, \x7b\x7d, \x7b\x7d]" ∧
    Activation.Ends (Program.limits 50) ⟨.call (name "println") [name "y", name "x", name "y"] none none, ⟨0⟩, 7⟩ s
      (.aborted (.text ((Program.limits 50).levels 7))) s ∧
    ∃ steps, Program.execute 50 steps (.sequence [.print (name "x") none, .print (name "y") none] none) ⟨0⟩ s =
      some (.error (.runtime ⟨.textDepth ((Program.limits 50).levels 4), none⟩), s) := by
  intro x y println s name
  have hcyclic : s.Cyclic x := by
    have hdown : s.HasPart x (.record ⟨0⟩) := List.mem_cons_of_mem _ List.mem_cons_self
    have hup : s.HasPart (.record ⟨0⟩) x := List.mem_cons_self
    exact ⟨x, .refl, .head hdown (.single hup)⟩
  have hends (w : String) (v : Value) (depth : Nat) (hw : s.get? ⟨0⟩ w = some v)
      (hroom : (Program.limits 50).allows (depth + (Program.limits 50).costs.search s ⟨0⟩ w)) :
      Activation.eval (Program.limits 50) 1 ⟨name w, ⟨0⟩, depth⟩ s = some (.value v, s) := by
    simp only [Activation.eval, name, Node.start, Task.within_of_allows hroom, hw]
    rfl
  have hrender : s.render none y = some "[<native fn push>, <fn f>, \x7b\x7d, \x7b\x7d]" := by cbv
  have hargs : EvaluateAll (Program.limits 50) (Activation.eval (Program.limits 50) 1) ⟨0⟩ 13
      [name "y", name "x", name "y"] s [y, x, y] s :=
    .cons (by decide) (hends _ _ _ (by cbv) (by cbv)) (.cons (by decide) (hends _ _ _ (by cbv) (by cbv))
      (.cons (by decide) (hends _ _ _ (by cbv) (by cbv)) (.nil s)))
  have hlaws := printing_fails_on_cycles s
  refine ⟨hcyclic, (hlaws.render_iff y).1 ⟨_, hrender⟩, hrender, ?_, ?_⟩
  · have hcallee : Activation.Ends (Program.limits 50) ⟨name "println", ⟨0⟩, 11⟩ s (.value (.native println)) s :=
      Activation.ends_iff.2 ⟨1, hends _ _ _ (by cbv) (by cbv)⟩
    exact hlaws.printLine none none rfl (by decide) hcallee hargs ⟨x, by simp, hcyclic⟩
  · have hx : Activation.Ends (Program.limits 50) ⟨name "x", ⟨0⟩, 8⟩ s (.value x) s :=
      Activation.ends_iff.2 ⟨1, hends _ _ _ (by cbv) (by cbv)⟩
    exact hlaws.program _ none (by decide) (hlaws.printCyclic none (by decide) hx hcyclic)

end Scripting
