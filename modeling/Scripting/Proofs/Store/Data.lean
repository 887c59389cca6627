import Mathlib
import Scripting.Store.Render
import Scripting.Proofs.Store.Extension

/-!
Data apart from any store: booleans, numbers, strings, and arrays and records of such. A value shows a
datum if one comes to the datum by looking up what the value refers to; a value that contains itself shows
none. The text of a value is that of the datum it shows, and there is always room for it.
-/

set_option autoImplicit false

namespace Scripting

inductive Datum where
  | boolean (b : Bool)
  | number (n : Int)
  | string (text : String)
  | array (items : List Datum)
  | record (fields : List (String × Datum))

theorem sizeOf_snd_lt {α : Type} [SizeOf α] {fields : List (String × α)} {field : String × α}
    (h : field ∈ fields) : sizeOf field.2 < sizeOf fields := by
  have hlt := List.sizeOf_lt_of_mem h
  obtain ⟨name, value⟩ := field
  simp only [Prod.mk.sizeOf_spec] at hlt
  change sizeOf value < _
  omega

namespace Datum

@[elab_as_elim, induction_eliminator]
theorem inductionOn {motive : Datum → Prop} (boolean : ∀ b, motive (.boolean b))
    (number : ∀ n, motive (.number n)) (string : ∀ text, motive (.string text))
    (array : ∀ items, (∀ d ∈ items, motive d) → motive (.array items))
    (record : ∀ fields, (∀ f ∈ fields, motive f.2) → motive (.record fields)) : ∀ d, motive d
  | .boolean b => boolean b
  | .number n => number n
  | .string text => string text
  | .array items => array items fun d _ => inductionOn boolean number string array record d
  | .record fields =>
    record fields fun f hf =>
      have := sizeOf_snd_lt hf
      inductionOn boolean number string array record f.2

/-- How many arrays and records are nested in each other. -/
def depth : Datum → Nat
  | .boolean _ | .number _ | .string _ => 0
  | .array items => (items.map depth).foldr max 0 + 1
  | .record fields => (fields.map fun f => f.2.depth).foldr max 0 + 1
decreasing_by
  · decreasing_tactic
  · have := sizeOf_snd_lt ‹_ ∈ fields›
    decreasing_tactic

def text : Datum → String
  | .boolean b => if b then "true" else "false"
  | .number n => toString n
  | .string text => "\"" ++ text ++ "\""
  | .array items => "[" ++ ", ".intercalate (items.map text) ++ "]"
  | .record fields => "\x7b" ++ ", ".intercalate (fields.map fun f => f.1 ++ ": " ++ f.2.text) ++ "\x7d"
decreasing_by
  · decreasing_tactic
  · have := sizeOf_snd_lt ‹_ ∈ fields›
    decreasing_tactic

end Datum

/-- The value shows the datum. Items and fields go by their order, and a record has no name twice. -/
inductive Store.Shows (s : Store) : Value → Datum → Prop where
  | boolean (b : Bool) : Shows s (.boolean b) (.boolean b)
  | number (n : Int) : Shows s (.number n) (.number n)
  | string (text : String) : Shows s (.string text) (.string text)
  | array {a : ArrayId} {items : Array Value} {data : List Datum}
      (found : s.arrays[a.index]? = some items) (shown : List.Forall₂ (Shows s) items.toList data) :
      Shows s (.array a) (.array data)
  | record {r : RecordId} {table : Table Value} {fields : List (String × Datum)}
      (found : s.records[r.index]? = some table) (names : table.names = fields.map (·.1))
      (distinct : table.names.Nodup)
      (shown : List.Forall₂ (Shows s) (table.entries.map (·.2)) (fields.map (·.2))) :
      Shows s (.record r) (.record fields)

/-! Lists side by side. -/

section Lists

variable {α β : Type} {R S : α → β → Prop} {xs : List α} {ys : List β}

theorem forall₂_imp_of_mem (himp : ∀ x, ∀ y ∈ ys, R x y → S x y) (h : List.Forall₂ R xs ys) :
    List.Forall₂ S xs ys := by
  induction h with
  | nil => exact .nil
  | cons hhead _ ih =>
    exact .cons (himp _ _ List.mem_cons_self hhead) (ih fun x y hy => himp x y (List.mem_cons_of_mem _ hy))

theorem exists_of_mem_right {y : β} (h : List.Forall₂ R xs ys) (hy : y ∈ ys) : ∃ x, R x y := by
  induction h with
  | nil => cases hy
  | cons hhead _ ih =>
    rcases List.mem_cons.1 hy with rfl | hy
    · exact ⟨_, hhead⟩
    · exact ih hy

theorem mapM_eq_some {f : α → Option β} (h : List.Forall₂ (fun x y => f x = some y) xs ys) :
    xs.mapM f = some ys := by
  induction h with
  | nil => rfl
  | cons hhead _ ih =>
    rw [List.mapM_cons, hhead, ih]
    rfl

end Lists

/-! Depth. -/

theorem foldr_max_le_iff {ns : List Nat} {k : Nat} : ns.foldr max 0 ≤ k ↔ ∀ n ∈ ns, n ≤ k := by
  induction ns with
  | nil => simp
  | cons n ns ih => simp [ih]

namespace Datum

def parts : Datum → List Datum
  | .array items => items
  | .record fields => fields.map (·.2)
  | _ => []

theorem depth_array_le_iff {items : List Datum} {k : Nat} :
    (array items).depth ≤ k + 1 ↔ ∀ d ∈ items, d.depth ≤ k := by
  rw [depth, Nat.add_le_add_iff_right, foldr_max_le_iff, List.forall_mem_map]

theorem depth_record_le_iff {fields : List (String × Datum)} {k : Nat} :
    (record fields).depth ≤ k + 1 ↔ ∀ f ∈ fields, f.2.depth ≤ k := by
  rw [depth, Nat.add_le_add_iff_right, foldr_max_le_iff, List.forall_mem_map]

theorem depth_lt_array {items : List Datum} {d : Datum} (h : d ∈ items) : d.depth < (array items).depth := by
  rw [depth]
  exact Nat.lt_succ_of_le (foldr_max_le_iff.1 (Nat.le_refl _) _ (List.mem_map_of_mem h))

theorem depth_lt_record {fields : List (String × Datum)} {f : String × Datum} (h : f ∈ fields) :
    f.2.depth < (record fields).depth := by
  rw [depth]
  exact Nat.lt_succ_of_le (foldr_max_le_iff.1 (Nat.le_refl _) _ (List.mem_map.2 ⟨f, h, rfl⟩))

theorem exists_part_of_lt_depth {d : Datum} {k : Nat} (h : k + 1 < d.depth) : ∃ e ∈ d.parts, k < e.depth := by
  by_contra hnone
  have hall : ∀ e ∈ d.parts, e.depth ≤ k := by
    intro e he
    by_contra hlt
    exact hnone ⟨e, he, Nat.lt_of_not_le hlt⟩
  cases d with
  | boolean | number | string => simp [depth] at h
  | array items => exact absurd (depth_array_le_iff.2 hall) (Nat.not_le.2 h)
  | record fields =>
    have hvalues : ∀ f ∈ fields, f.2.depth ≤ k := List.forall_mem_map.1 hall
    exact absurd (depth_record_le_iff.2 hvalues) (Nat.not_le.2 h)

end Datum

namespace Store

structure Grows (s t : Store) : Prop where
  arrays : ∀ (i : Nat) items, s.arrays[i]? = some items → t.arrays[i]? = some items
  records : ∀ (i : Nat) table, s.records[i]? = some table → t.records[i]? = some table

variable {s t : Store} {v : Value} {d : Datum}

theorem Grows.refl (s : Store) : s.Grows s :=
  ⟨fun _ _ h => h, fun _ _ h => h⟩

theorem Grows.trans {u : Store} (h : s.Grows t) (h' : t.Grows u) : s.Grows u :=
  ⟨fun i items hi => h'.arrays i items (h.arrays i items hi),
    fun i table hi => h'.records i table (h.records i table hi)⟩

theorem Grows.newArray (s : Store) (items : Array Value) : s.Grows (s.newArray items).2 := by
  refine ⟨fun i old hi => ?_, fun _ _ h => h⟩
  obtain ⟨hlt, rfl⟩ := Array.getElem?_eq_some_iff.1 hi
  exact Array.getElem?_push_lt hlt

theorem Grows.newRecord (s : Store) (table : Table Value) : s.Grows (s.newRecord table).2 := by
  refine ⟨fun _ _ h => h, fun i old hi => ?_⟩
  obtain ⟨hlt, rfl⟩ := Array.getElem?_eq_some_iff.1 hi
  exact Array.getElem?_push_lt hlt

namespace Shows

theorem unique_all {vs : List Value} {data data' : List Datum}
    (hunique : ∀ d ∈ data, ∀ v d', s.Shows v d → s.Shows v d' → d = d')
    (h : List.Forall₂ s.Shows vs data) (h' : List.Forall₂ s.Shows vs data') : data = data' := by
  induction h generalizing data' with
  | nil =>
    cases h'
    rfl
  | cons hhead htail ih =>
    cases h' with
    | cons hhead' htail' =>
      rw [List.forall_mem_cons] at hunique
      rw [hunique.1 _ _ hhead hhead', ih hunique.2 htail']

theorem unique {d' : Datum} (h : s.Shows v d) (h' : s.Shows v d') : d = d' := by
  induction d generalizing v d' with
  | boolean | number | string =>
    cases h
    cases h'
    rfl
  | array data ih =>
    cases h with
    | array found shown =>
      cases h' with
      | array found' shown' =>
        cases found.symm.trans found'
        rw [unique_all (fun d hd v d' => ih d hd) shown shown']
  | record fields ih =>
    cases h with
    | record found names distinct shown =>
      cases h' with
      | record found' names' distinct' shown' =>
        cases found.symm.trans found'
        have hvalues := unique_all (List.forall_mem_map.2 fun f hf v d' => ih f hf) shown shown'
        have hnames := names.symm.trans names'
        rw [← List.zip_unzip fields, List.unzip_eq_map, hnames, hvalues, ← List.unzip_eq_map, List.zip_unzip]

theorem mono (hst : s.Grows t) (h : s.Shows v d) : t.Shows v d := by
  induction d generalizing v with
  | boolean | number | string =>
    cases h
    constructor
  | array data ih =>
    cases h with
    | array found shown =>
      exact .array (hst.arrays _ _ found) (forall₂_imp_of_mem (fun v d hd => ih d hd) shown)
  | record fields ih =>
    cases h with
    | record found names distinct shown =>
      refine .record (hst.records _ _ found) names distinct (forall₂_imp_of_mem (fun v d hd => ?_) shown)
      obtain ⟨f, hf, rfl⟩ := List.mem_map.1 hd
      exact ih f hf

theorem entries {r : RecordId} {fields : List (String × Datum)} (h : s.Shows (.record r) (.record fields)) :
    List.Forall₂ (fun e f => e.1 = f.1 ∧ s.Shows e.2 f.2) (s.fields r).entries fields := by
  cases h with
  | @record _ table _ found names distinct shown =>
    rw [Store.fields, Array.getD_eq_getD_getElem?, found, Option.getD_some]
    rw [Table.names, ← List.forall₂_eq_eq_eq, List.forall₂_map_left_iff, List.forall₂_map_right_iff] at names
    rw [List.forall₂_map_left_iff, List.forall₂_map_right_iff] at shown
    exact names.mp (fun e f hname hvalue => ⟨hname, hvalue⟩) shown

end Shows

/-! Room. -/

def target (s : Store) : Fin s.arrays.size ⊕ Fin s.records.size → Value
  | .inl a => .array ⟨a⟩
  | .inr r => .record ⟨r⟩

theorem exists_target_of_depth (h : s.Shows v d) (hd : 0 < d.depth) : ∃ ref, s.target ref = v := by
  cases h with
  | boolean | number | string => simp [Datum.depth] at hd
  | @array a items data found shown =>
    obtain ⟨hlt, -⟩ := Array.getElem?_eq_some_iff.1 found
    exact ⟨.inl ⟨a.index, hlt⟩, rfl⟩
  | @record r table fields found names distinct shown =>
    obtain ⟨hlt, -⟩ := Array.getElem?_eq_some_iff.1 found
    exact ⟨.inr ⟨r.index, hlt⟩, rfl⟩

theorem Shows.exists_part (h : s.Shows v d) {e : Datum} (he : e ∈ d.parts) : ∃ w, s.Shows w e := by
  cases h with
  | boolean | number | string => cases he
  | array found shown => exact exists_of_mem_right shown he
  | record found names distinct shown => exact exists_of_mem_right shown he

theorem Shows.exists_depth {k : Nat} (h : s.Shows v d) (hk : k < d.depth) :
    ∃ ref e, s.Shows (s.target ref) e ∧ e.depth = k + 1 := by
  have hdown {v : Value} {d : Datum} (h : s.Shows v d) (hk : k < d.depth)
      (ih : ∀ e ∈ d.parts, ∀ w, s.Shows w e → k < e.depth →
        ∃ ref e', s.Shows (s.target ref) e' ∧ e'.depth = k + 1) :
      ∃ ref e, s.Shows (s.target ref) e ∧ e.depth = k + 1 := by
    rcases Nat.eq_or_lt_of_le (Nat.succ_le_of_lt hk) with heq | hlt
    · obtain ⟨ref, rfl⟩ := exists_target_of_depth h (by omega)
      exact ⟨ref, d, h, heq.symm⟩
    · obtain ⟨e, he, hke⟩ := Datum.exists_part_of_lt_depth hlt
      obtain ⟨w, hw⟩ := h.exists_part he
      exact ih e he w hw hke
  induction d generalizing v with
  | boolean | number | string => simp [Datum.depth] at hk
  | array data ih => exact hdown h hk fun e he w hw hke => ih e he hw hke
  | record fields ih => exact hdown h hk (List.forall_mem_map.2 fun f hf w hw hke => ih f hf hw hke)

theorem Shows.depth_le (h : s.Shows v d) : d.depth ≤ s.arrays.size + s.records.size := by
  have hall : ∀ k : Fin d.depth, ∃ ref e, s.Shows (s.target ref) e ∧ e.depth = k + 1 :=
    fun k => h.exists_depth k.2
  choose ref datum hshows hdepth using hall
  have hinjective : Function.Injective ref := by
    intro k l hkl
    have hsame : datum k = datum l := (hshows k).unique (hkl ▸ hshows l)
    have hk := hdepth k
    rw [hsame, hdepth l] at hk
    exact Fin.ext (by omega)
  simpa using Fintype.card_le_of_injective ref hinjective

/-! Rendering. -/

theorem Shows.renderWithin_eq {depth : Nat} (h : s.Shows v d) (hdepth : d.depth ≤ depth) :
    s.renderWithin depth v = some d.text := by
  induction d generalizing v depth with
  | boolean | number =>
    cases h
    rw [renderWithin, Datum.text]
  | string =>
    cases h
    rw [renderWithin, Datum.text]
    rfl
  | array data ih =>
    cases depth with
    | zero => simp [Datum.depth] at hdepth
    | succ depth =>
      cases h with
      | @array a items _ found shown =>
        have hitems : s.items a = items := by
          rw [Store.items, Array.getD_eq_getD_getElem?, found, Option.getD_some]
        have htexts : items.toList.mapM (s.renderWithin depth) = some (data.map Datum.text) := by
          apply mapM_eq_some
          rw [List.forall₂_map_right_iff]
          exact forall₂_imp_of_mem
            (fun v d hd hshows => ih d hd hshows (Datum.depth_array_le_iff.1 hdepth d hd)) shown
        rw [renderWithin, hitems, htexts, Datum.text]
        rfl
  | record fields ih =>
    cases depth with
    | zero => simp [Datum.depth] at hdepth
    | succ depth =>
      cases v with
      | record r =>
        have htexts : (s.fields r).entries.mapM (fun e => do
            return e.1 ++ ": " ++ (← s.renderWithin depth e.2)) =
            some (fields.map fun f => f.1 ++ ": " ++ f.2.text) := by
          apply mapM_eq_some
          rw [List.forall₂_map_right_iff]
          refine forall₂_imp_of_mem (fun e f hf hentry => ?_) h.entries
          rw [ih f hf hentry.2 (Datum.depth_record_le_iff.1 hdepth f hf), hentry.1]
          rfl
        rw [renderWithin, htexts, Datum.text]
        rfl
      | _ => cases h

theorem Shows.render_eq (h : s.Shows v d) {levels : Option Nat}
    (hlevels : ∀ most ∈ levels, d.depth ≤ most) : s.render levels v = some d.text := by
  have hdeepest : d.depth ≤ s.deepest := Nat.le_succ_of_le h.depth_le
  cases levels with
  | none => exact h.renderWithin_eq hdeepest
  | some most => exact h.renderWithin_eq (Nat.le_min.2 ⟨hdeepest, hlevels most rfl⟩)

end Store

end Scripting
