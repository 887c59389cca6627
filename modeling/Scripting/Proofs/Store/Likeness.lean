import Mathlib.Data.List.Forall2
import Scripting.Number
import Scripting.Proofs.Store.Extension
import Scripting.Store.Render

/-!
Stores that differ in the functions they hold. Two values are alike if they are the same or both are
functions of which a given relation holds; two stores have like contents if their arrays and records hold
like values in the same places. What a program can read and print of values does not tell them apart, as
long as like functions have the same name, and writing like values keeps the contents alike.
-/

set_option autoImplicit false

namespace Scripting

/-- The values are the same, or functions of which the relation holds. -/
inductive Value.Alike (R : Closure → Closure → Prop) : Value → Value → Prop where
  | same {v : Value} (h : ∀ c, v ≠ .function c) : Alike R v v
  | function {c c' : Closure} (h : R c c') : Alike R (.function c) (.function c')

inductive ExceptAlike {ε α : Type} (V : α → α → Prop) : Except ε α → Except ε α → Prop where
  | ok {a a' : α} (h : V a a') : ExceptAlike V (.ok a) (.ok a')
  | error (e : ε) : ExceptAlike V (.error e) (.error e)

namespace Value.Alike

variable {R : Closure → Closure → Prop} {v v' : Value}

theorem mono {S : Closure → Closure → Prop} (hR : ∀ c c', R c c' → S c c') (h : v.Alike R v') :
    v.Alike S v' := by
  cases h with
  | same h => exact .same h
  | function h => exact .function (hR _ _ h)

theorem nothing : Value.Alike R .nothing .nothing := .same nofun

theorem typeName_eq (h : v.Alike R v') : v'.typeName = v.typeName := by
  cases h <;> rfl

theorem isCallable_eq (h : v.Alike R v') : v'.isCallable = v.isCallable := by
  cases h <;> rfl

theorem toNumber_eq (h : v.Alike R v') (symbol : String) :
    v'.toNumber symbol = v.toNumber symbol := by
  cases h <;> rfl

theorem operate {w w' : Value} (h : v.Alike R v') (hw : w.Alike R w') (symbol : String) :
    ExceptAlike (Value.Alike R) (Value.operate symbol v w) (Value.operate symbol v' w') := by
  unfold Value.operate
  rw [h.toNumber_eq, hw.toNumber_eq]
  cases v.toNumber symbol with
  | error fault => exact .error fault
  | ok a =>
    cases w.toNumber symbol with
    | error fault => exact .error fault
    | ok b =>
      cases Operation.ofSymbol? symbol with
      | none => exact .error _
      | some operation => exact .ok (.same (by cases operation <;> exact nofun))

theorem negate (h : v.Alike R v') : ExceptAlike (Value.Alike R) v.negate v'.negate := by
  unfold Value.negate
  rw [h.toNumber_eq]
  cases v.toNumber "-" with
  | error fault => exact .error fault
  | ok a => exact .ok (.same nofun)

end Value.Alike

/-! Tables with like entries, where the names of the second come from those of the first. -/

section Tables

variable {α : Type}

def Table.Alike (name : String → String) (V : α → α → Prop) (t t' : Table α) : Prop :=
  List.Forall₂ (fun e e' => e'.1 = name e.1 ∧ V e.2 e'.2) t.entries t'.entries

namespace Table.Alike

variable {name : String → String} {V : α → α → Prop} {t t' : Table α}

theorem empty : Table.Alike name V .empty .empty := .nil

theorem mono {W : α → α → Prop} (hV : ∀ a a', V a a' → W a a') (h : t.Alike name V t') :
    t.Alike name W t' :=
  h.imp fun _ _ he => ⟨he.1, hV _ _ he.2⟩

theorem names_eq (h : t.Alike name V t') : t'.names = t.names.map name := by
  obtain ⟨entries⟩ := t
  obtain ⟨entries'⟩ := t'
  change List.Forall₂ _ entries entries' at h
  change entries'.map (·.1) = (entries.map (·.1)).map name
  induction h with
  | nil => rfl
  | cons he _ ih => simp only [List.map_cons, he.1, ih]

theorem get? (h : t.Alike name V t') (key : String)
    (hkey : ∀ n ∈ t.names, name n = name key → n = key) :
    Option.Rel V (t.get? key) (t'.get? (name key)) := by
  obtain ⟨entries⟩ := t
  obtain ⟨entries'⟩ := t'
  change List.Forall₂ _ entries entries' at h
  change Option.Rel V (entries.lookup key) (entries'.lookup (name key))
  change ∀ n ∈ entries.map (·.1), _ at hkey
  induction h with
  | nil => exact .none
  | @cons e e' rest rest' he _ ih =>
    obtain ⟨n, a⟩ := e
    obtain ⟨n', a'⟩ := e'
    obtain ⟨rfl, hv⟩ := he
    rw [List.map_cons, List.forall_mem_cons] at hkey
    rw [lookup_cons, lookup_cons]
    by_cases hn : key = n
    · rw [if_pos hn, if_pos (congrArg name hn)]
      exact .some hv
    · rw [if_neg hn, if_neg (fun hc => hn (hkey.1 hc.symm).symm)]
      exact ih hkey.2

theorem put {key : String} {a a' : α} (h : t.Alike name V t') (ha : V a a')
    (hkey : ∀ n ∈ t.names, name n = name key → n = key) :
    (t.put key a).Alike name V (t'.put (name key) a') := by
  obtain ⟨entries⟩ := t
  obtain ⟨entries'⟩ := t'
  change ∀ n ∈ entries.map (·.1), _ at hkey
  change List.Forall₂ _ entries entries' at h
  change List.Forall₂ _ (replace key a entries) (replace (name key) a' entries')
  induction h with
  | nil => exact .cons ⟨rfl, ha⟩ .nil
  | @cons e e' rest rest' he hrest ih =>
    obtain ⟨n, b⟩ := e
    obtain ⟨n', b'⟩ := e'
    obtain ⟨rfl, hv⟩ := he
    rw [List.map_cons, List.forall_mem_cons] at hkey
    rw [replace, replace]
    by_cases hn : n = key
    · rw [if_pos hn, if_pos (congrArg name hn)]
      exact .cons ⟨rfl, ha⟩ hrest
    · rw [if_neg hn, if_neg (fun hc => hn (hkey.1 hc))]
      exact .cons ⟨rfl, hv⟩ (ih hkey.2)

end Table.Alike

end Tables

structure Store.Alike (V : Value → Value → Prop) (s s' : Store) : Prop where
  output : s'.output = s.output
  arrays_size : s'.arrays.size = s.arrays.size
  items : ∀ a, List.Forall₂ V (s.items a).toList (s'.items a).toList
  records_size : s'.records.size = s.records.size
  fields : ∀ r, (s.fields r).Alike id V (s'.fields r)

namespace Store.Alike

variable {V : Value → Value → Prop} {s s' : Store}

theorem mono {W : Value → Value → Prop} (hV : ∀ v v', V v v' → W v v') (h : s.Alike V s') :
    s.Alike W s' where
  output := h.output
  arrays_size := h.arrays_size
  items a := (h.items a).imp hV
  records_size := h.records_size
  fields r := (h.fields r).mono hV

theorem empty : Store.empty.Alike V .empty where
  output := rfl
  arrays_size := rfl
  items a := by
    rw [items_of_size_le (Nat.zero_le _)]
    exact .nil
  records_size := rfl
  fields r := by
    rw [fields_of_size_le (Nat.zero_le _)]
    exact .empty

/-! Writing. -/

theorem write (h : s.Alike V s') (text : String) : (s.write text).Alike V (s'.write text) :=
  { h with output := congrArg (· ++ text) h.output }

theorem define (h : s.Alike V s') (f f' : FrameId) (name name' : String) (v v' : Value) :
    (s.define f name v).Alike V (s'.define f' name' v') :=
  ⟨h.output, h.arrays_size, h.items, h.records_size, h.fields⟩

theorem bind (h : s.Alike V s') (f f' : FrameId) (names names' : List String)
    (vs vs' : List Value) : (s.bind f names vs).Alike V (s'.bind f' names' vs') := by
  have hself (t : Store) (f : FrameId) (names : List String) (vs : List Value) :
      (t.bind f names vs).output = t.output ∧ (t.bind f names vs).arrays = t.arrays ∧
        (t.bind f names vs).records = t.records := by
    induction names generalizing t vs with
    | nil => exact ⟨rfl, rfl, rfl⟩
    | cons name names ih => cases vs <;> exact ih _ _
  obtain ⟨ho, ha, hr⟩ := hself s f names vs
  obtain ⟨ho', ha', hr'⟩ := hself s' f' names' vs'
  constructor
  · rw [ho, ho', h.output]
  · rw [ha, ha', h.arrays_size]
  · intro a
    simpa only [Store.items, ha, ha'] using h.items a
  · rw [hr, hr', h.records_size]
  · intro r
    simpa only [Store.fields, hr, hr'] using h.fields r

theorem newFrame (h : s.Alike V s') (parent parent' : Option FrameId)
    (source source' : Option String) (depth depth' : Option Int) :
    (s.newFrame parent source depth).2.Alike V (s'.newFrame parent' source' depth').2 :=
  ⟨h.output, h.arrays_size, h.items, h.records_size, h.fields⟩

theorem newArray {items items' : Array Value} (h : s.Alike V s')
    (hi : List.Forall₂ V items.toList items'.toList) :
    (s.newArray items).2.Alike V (s'.newArray items').2 :=
  { h with
    arrays_size := by rw [size_arrays_newArray, size_arrays_newArray, h.arrays_size]
    items := fun a => by
      rw [items_newArray, items_newArray, h.arrays_size]
      split
      · exact hi
      · exact h.items a }

theorem newRecord {fields fields' : Table Value} (h : s.Alike V s')
    (hf : fields.Alike id V fields') : (s.newRecord fields).2.Alike V (s'.newRecord fields').2 :=
  { h with
    records_size := by rw [size_records_newRecord, size_records_newRecord, h.records_size]
    fields := fun r => by
      rw [fields_newRecord, fields_newRecord, h.records_size]
      split
      · exact hf
      · exact h.fields r }

theorem modifyArray {g g' : Array Value → Array Value} (h : s.Alike V s') (a : ArrayId)
    (hg : ∀ xs xs' : Array Value, List.Forall₂ V xs.toList xs'.toList →
      List.Forall₂ V (g xs).toList (g' xs').toList) :
    (s.modifyArray a g).Alike V (s'.modifyArray a g') :=
  { h with
    arrays_size := by rw [size_arrays_modifyArray, size_arrays_modifyArray, h.arrays_size]
    items := fun b => by
      rw [items_modifyArray, items_modifyArray, h.arrays_size]
      split
      · exact hg _ _ (h.items b)
      · exact h.items b }

theorem append {args args' : List Value} (h : s.Alike V s') (a : ArrayId)
    (ha : List.Forall₂ V args args') :
    (s.modifyArray a (· ++ args.toArray)).Alike V (s'.modifyArray a (· ++ args'.toArray)) := by
  refine h.modifyArray a fun xs xs' hx => ?_
  rw [Array.toList_append, Array.toList_append]
  exact List.rel_append hx ha

theorem fill {v v' : Value} (h : s.Alike V s') (slot : Slot) (hv : V v v') :
    (s.fill v slot).Alike V (s'.fill v' slot) := by
  cases slot with
  | item a k =>
    refine h.modifyArray a fun xs xs' hx => ?_
    rw [Array.toList_setIfInBounds, Array.toList_setIfInBounds]
    generalize xs.toList = l, xs'.toList = l' at hx
    induction hx generalizing k with
    | nil => exact .nil
    | cons hx hrest ih =>
      cases k with
      | zero => exact .cons hv hrest
      | succ k => exact .cons hx (ih k)
  | field r name =>
    exact { h with
      records_size := by
        rw [Store.fill, size_records_modifyRecord, Store.fill, size_records_modifyRecord,
          h.records_size]
      fields := fun q => by
        rw [Store.fill, fields_modifyRecord, Store.fill, fields_modifyRecord, h.records_size]
        split
        · exact (h.fields q).put hv fun _ _ hn => hn
        · exact h.fields q }

end Store.Alike

/-! Reading. -/

theorem map_eq_of_forall₂ {α β : Type} {V : α → α → Prop} {g : α → β} {l l' : List α}
    (h : List.Forall₂ V l l') (hg : ∀ a a', V a a' → g a' = g a) : l'.map g = l.map g := by
  induction h with
  | nil => rfl
  | cons ha _ ih => rw [List.map_cons, List.map_cons, hg _ _ ha, ih]

theorem mapM_eq_of_forall₂ {α β : Type} {V : α → α → Prop} {f f' : α → Option β} {l l' : List α}
    (h : List.Forall₂ V l l') (hf : ∀ a a', V a a' → f' a' = f a) : l'.mapM f' = l.mapM f := by
  induction h with
  | nil => rfl
  | cons ha _ ih => rw [List.mapM_cons, List.mapM_cons, hf _ _ ha, ih]

namespace Store.Alike

variable {R : Closure → Closure → Prop} {s s' : Store} {base base' key key' : Value}

theorem size_items (h : s.Alike (Value.Alike R) s') (a : ArrayId) :
    (s'.items a).size = (s.items a).size :=
  (h.items a).length_eq.symm

theorem getD_items (h : s.Alike (Value.Alike R) s') (a : ArrayId) (k : Nat) :
    ((s.items a).getD k .nothing).Alike R ((s'.items a).getD k .nothing) := by
  simp only [Array.getD_eq_getD_getElem?, ← Array.getElem?_toList]
  have hi := h.items a
  generalize (s.items a).toList = l, (s'.items a).toList = l' at hi
  induction hi generalizing k with
  | nil => exact .nothing
  | cons hv _ ih =>
    cases k with
    | zero => exact hv
    | succ k => exact ih k

theorem getItem (h : s.Alike (Value.Alike R) s') (hb : base.Alike R base')
    (hk : key.Alike R key') :
    ExceptAlike (Value.Alike R) (s.getItem base key) (s'.getItem base' key') := by
  unfold Store.getItem
  cases hb with
  | function => cases hk <;> exact .error _
  | same hb =>
    cases hk with
    | function => cases base <;> exact .error _
    | same hk =>
      split
      · rename_i a i
        rw [h.size_items]
        cases index (s.items a).size i with
        | error fault => exact .error fault
        | ok k => exact .ok (h.getD_items a k)
      · rename_i a name
        unfold arrayMember
        rw [h.size_items]
        split
        · exact .ok (.same nofun)
        · exact .ok (.same nofun)
        · exact .error _
      · rename_i r name
        have hget : Option.Rel (Value.Alike R) ((s.fields r).get? name) ((s'.fields r).get? name) :=
          (h.fields r).get? name fun _ _ hn => hn
        generalize (s.fields r).get? name = found, (s'.fields r).get? name = found' at hget
        cases hget with
        | none => exact .error _
        | some hv => exact .ok hv
      · exact .error _

theorem slot_eq (h : s.Alike (Value.Alike R) s') (hb : base.Alike R base')
    (hk : key.Alike R key') : s'.slot base' key' = s.slot base key := by
  unfold Store.slot
  cases hb with
  | function => cases hk <;> rfl
  | same =>
    cases hk with
    | function => cases base <;> rfl
    | same =>
      split
      · rw [h.size_items]
      · rfl
      · rfl

/-- Like values have the same text: of a function it shows the name only. -/
theorem renderWithin_eq (h : s.Alike (Value.Alike R) s') (hR : ∀ c c', R c c' → c'.name = c.name)
    (depth : Nat) {v v' : Value} (hv : v.Alike R v') :
    s'.renderWithin depth v' = s.renderWithin depth v := by
  induction depth generalizing v v' with
  | zero =>
    cases hv with
    | same => cases v <;> rfl
    | function hc => simp only [renderWithin, hR _ _ hc]
  | succ depth ih =>
    cases hv with
    | function hc => simp only [renderWithin, hR _ _ hc]
    | same =>
      cases v with
      | array a =>
        simp only [renderWithin]
        rw [mapM_eq_of_forall₂ (h.items a) fun v v' hv => ih hv]
      | record r =>
        simp only [renderWithin]
        rw [mapM_eq_of_forall₂ (h.fields r) ?_]
        rintro ⟨n, v⟩ ⟨n', v'⟩ ⟨rfl, hv⟩
        rw [ih hv]
      | _ => rfl

theorem display_eq (h : s.Alike (Value.Alike R) s') (hR : ∀ c c', R c c' → c'.name = c.name)
    (room : Option Nat) {v v' : Value} (hv : v.Alike R v') :
    s'.display room v' = s.display room v := by
  have hdeepest : s'.deepest = s.deepest := by
    rw [deepest, h.arrays_size, h.records_size, deepest]
  have hrender : s'.render room v' = s.render room v := by
    unfold render
    rw [hdeepest]
    cases room with
    | none => exact h.renderWithin_eq hR _ hv
    | some room => exact h.renderWithin_eq hR _ hv
  cases hv with
  | function => exact hrender
  | same =>
    cases v with
    | string text => rfl
    | _ => exact hrender

end Store.Alike

end Scripting
