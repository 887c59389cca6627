import Mathlib
import Scripting.Proofs.Evaluation.CountedLoop
import Scripting.Proofs.Evaluation.Names

/-!
The laws of scopes. A name is looked up along the chain of frames that leads outwards, and the first frame
that binds it counts. Many chains run through one frame, so the effect of an assignment or a definition is
stated for what is seen from every frame: it is seen exactly where the chain comes to the changed frame
before any other that binds the name. Each link that is followed takes room on the stack of the host; where
there is none left, the name is neither read nor assigned, although a frame binds it.
-/

set_option autoImplicit false

namespace Scripting

open Relation (ReflTransGen TransGen)

theorem exists_numbering {ι : Type} [Finite ι] {r : ι → ι → Prop} (h : ∀ i, ¬TransGen r i i) :
    ∃ number : ι ≃ Fin (Nat.card ι), ∀ i j, r i j → number j < number i := by
  -- A linear extension of the order that the relation generates numbers the elements.
  let order : PartialOrder ι :=
    { le := fun i j => ReflTransGen r j i
      le_refl := fun _ => .refl
      le_trans := fun _ _ _ hij hjk => hjk.trans hij
      le_antisymm := fun i j hij hji => by
        rcases Relation.reflTransGen_iff_eq_or_transGen.1 hji with heq | hji
        · exact heq.symm
        · exact (h i (hji.trans_left hij)).elim }
  have : Fintype (LinearExtension ι) := @Fintype.ofFinite _ (inferInstanceAs (Finite ι))
  have hcard : Fintype.card (LinearExtension ι) = Nat.card ι := Fintype.card_eq_nat_card
  refine ⟨(Fintype.orderIsoFinOfCardEq (LinearExtension ι) hcard).symm.toEquiv, fun i j hij => ?_⟩
  have hle : j ≤ i := ReflTransGen.single hij
  have hne : j ≠ i := by
    rintro rfl
    exact h j (.single hij)
  have hlt : toLinearExtension j < toLinearExtension i := lt_of_le_of_ne (toLinearExtension.monotone hle) hne
  exact (Fintype.orderIsoFinOfCardEq (LinearExtension ι) hcard).symm.strictMono hlt

namespace Store

/-- Every frame is younger than the frame around it. -/
def Ordered (s : Store) : Prop :=
  ∀ f p, (s.frame f).parent = some p → p.index < f.index

def binds (s : Store) (name : String) (f : FrameId) : Bool :=
  (s.frame f).vars.contains name

/-- The frames of the store are those of a family, each under its own number. -/
structure Numbers {ι : Type} (s : Store) (number : ι → FrameId) (frame : ι → Frame) (parent : ι → Option ι) :
    Prop where
  ordered : s.Ordered
  injective : Function.Injective number
  size : s.frames.size = Nat.card ι
  lt : ∀ i, (number i).index < s.frames.size
  frame_eq : ∀ i, s.frame (number i) = { frame i with parent := (parent i).map number }

theorem exists_numbers {ι : Type} [Finite ι] (frame : ι → Frame) (parent : ι → Option ι)
    (hacyclic : ∀ i, ¬TransGen (fun i j => parent i = some j) i i) :
    ∃ (s : Store) (number : ι → FrameId), s.Numbers number frame parent := by
  obtain ⟨e, he⟩ := exists_numbering hacyclic
  let number (i : ι) : FrameId := ⟨e i⟩
  let s : Store := { Store.empty with
    frames := Array.ofFn fun k => { frame (e.symm k) with parent := (parent (e.symm k)).map number } }
  have hsize : s.frames.size = Nat.card ι := Array.size_ofFn
  have hframe (i : ι) : s.frame (number i) = { frame i with parent := (parent i).map number } := by
    rw [Store.frame, Array.getD_eq_getD_getElem?]
    simp [s, number]
  refine ⟨s, number, fun f p hp => ?_, fun i j hij => ?_, hsize, fun i => hsize ▸ (e i).isLt, hframe⟩
  · by_cases hf : f.index < Nat.card ι
    · obtain ⟨i, rfl⟩ : ∃ i, number i = f := ⟨e.symm ⟨f.index, hf⟩, by simp [number]⟩
      rw [hframe] at hp
      obtain ⟨j, hj, rfl⟩ := Option.map_eq_some_iff.1 hp
      exact he i j hj
    · rw [frame_of_size_le (hsize ▸ Nat.le_of_not_lt hf)] at hp
      cases hp
  · exact e.injective (Fin.ext (congrArg FrameId.index hij))

/-! Chains. -/

variable {s t : Store} {f g h : FrameId} {fs gs : List FrameId} {x y : String} {v : Value}

theorem Chain.unique (hf : s.Chain f fs) (hg : s.Chain f gs) : gs = fs := by
  induction hf generalizing gs with
  | last hp =>
    cases hg with
    | last => rfl
    | more hp' => cases hp.symm.trans hp'
  | more hp _ ih =>
    cases hg with
    | last hp' => cases hp.symm.trans hp'
    | more hp' rest =>
      cases hp.symm.trans hp'
      rw [ih rest]

theorem Chain.congr (hc : s.Chain f fs) (hparent : ∀ g, (t.frame g).parent = (s.frame g).parent) :
    t.Chain f fs := by
  induction hc with
  | last hp => exact .last ((hparent _).trans hp)
  | more hp _ ih => exact .more ((hparent _).trans hp) ih

/-! Looking up. -/

theorem binds_iff : s.binds x f ↔ x ∈ s.names f :=
  Table.contains_iff

theorem lt_of_binds (hb : s.binds x f) : f.index < s.frames.size := by
  by_contra hge
  rw [binds, frame_of_size_le (Nat.le_of_not_lt hge)] at hb
  cases hb

theorem Chain.length_pos (hc : s.Chain f fs) : 0 < fs.length := by
  cases hc <;> exact Nat.succ_pos _

theorem Chain.reach_eq (hs : s.Ordered) (hc : s.Chain f fs) (x : String) :
    s.reach f x = min (fs.findIdx (s.binds x)) (fs.length - 1) := by
  induction hc with
  | last hp =>
    rw [reach, hp]
    split <;> simp
  | @more f p fs hp rest ih =>
    by_cases hf : (s.frame f).vars.contains x
    · rw [reach, if_pos hf, List.findIdx_cons, binds, hf]
      simp
    · have hlength := rest.length_pos
      rw [reach_of_not_contains hf hp (hs f p hp), ih, List.findIdx_cons, binds, Bool.eq_false_iff.2 hf,
        List.length_cons, cond_false]
      omega

theorem Chain.search_eq (hs : s.Ordered) (hc : s.Chain f fs) (costs : Costs) (x : String) :
    costs.search s f x = costs.link * min (fs.findIdx (s.binds x)) (fs.length - 1) +
      if fs.any (s.binds x) then 0 else costs.refusal := by
  have hany : (s.holder? f x).isSome = fs.any (s.binds x) := by
    rw [hc.holder?_eq hs, List.isSome_find?]
    rfl
  rw [Costs.search, hc.reach_eq hs, hany]

theorem Chain.get?_eq (hs : s.Ordered) (hc : s.Chain f fs) (x : String) :
    s.get? f x = (fs.find? (s.binds x)).bind fun h => (s.frame h).vars.get? x := by
  rw [Store.get?, hc.holder?_eq hs]
  rfl

theorem Chain.set?_eq (hs : s.Ordered) (hc : s.Chain f fs) (x : String) (v : Value) :
    s.set? f x v = (fs.find? (s.binds x)).map fun h => s.define h x v := by
  rw [Store.set?, hc.holder?_eq hs]
  rfl

theorem Chain.get?_eq_none_iff (hs : s.Ordered) (hc : s.Chain f fs) :
    s.get? f x = none ↔ ∀ g ∈ fs, x ∉ s.names g := by
  rw [hc.get?_eq hs]
  cases hfind : fs.find? (s.binds x) with
  | none =>
    simp only [Option.bind_none, true_iff, ← binds_iff]
    exact List.find?_eq_none.1 hfind
  | some h =>
    have hb : s.binds x h := List.find?_some hfind
    have hmem : h ∈ fs := List.mem_of_find?_eq_some hfind
    refine iff_of_false (fun hnone => ?_) fun hnone => hnone h hmem (binds_iff.1 hb)
    rw [binds, Table.contains, show (s.frame h).vars.get? x = none from hnone] at hb
    cases hb

theorem Chain.set?_eq_none_iff (hs : s.Ordered) (hc : s.Chain f fs) :
    s.set? f x v = none ↔ ∀ g ∈ fs, x ∉ s.names g := by
  rw [hc.set?_eq hs, Option.map_eq_none_iff, List.find?_eq_none]
  simp only [binds_iff]

/-! Defining. -/

theorem parent_define (s : Store) (f : FrameId) (x : String) (v : Value) (g : FrameId) :
    ((s.define f x v).frame g).parent = (s.frame g).parent := by
  rw [frame_define]
  split <;> rfl

theorem Ordered.define (hs : s.Ordered) (f : FrameId) (x : String) (v : Value) : (s.define f x v).Ordered := by
  intro g p hp
  rw [parent_define] at hp
  exact hs g p hp

theorem get?_vars_define (hf : f.index < s.frames.size) (x y : String) (v : Value) (g : FrameId) :
    ((s.define f x v).frame g).vars.get? y =
      if g = f ∧ y = x then some v else (s.frame g).vars.get? y := by
  by_cases hg : g = f
  · subst hg
    rw [s.frame_define_self hf, Table.get?_put]
    simp
  · rw [s.frame_define_of_ne (Ne.symm hg), if_neg fun h => hg h.1]

theorem binds_define (hf : f.index < s.frames.size) (x y : String) (v : Value) (g : FrameId) :
    (s.define f x v).binds y g = (decide (g = f ∧ y = x) || s.binds y g) := by
  rw [binds, Table.contains, get?_vars_define hf]
  by_cases h : g = f ∧ y = x
  · simp [h]
  · rw [if_neg h, decide_eq_false h]
    rfl

theorem find?_or_eq {α : Type} [DecidableEq α] {a : α} {p : α → Bool} {l : List α}
    (h : l.find? (fun b => decide (b = a) || p b) ≠ some a) :
    l.find? (fun b => decide (b = a) || p b) = l.find? p := by
  induction l with
  | nil => rfl
  | cons b l ih =>
    by_cases hb : b = a
    · simp [hb] at h
    · cases hp : p b with
      | true => simp [hp]
      | false =>
        simp only [List.find?_cons, hb, hp, decide_false, Bool.or_false] at h ⊢
        exact ih h

theorem Chain.get?_define (hs : s.Ordered) (hf : f.index < s.frames.size) (hc : s.Chain g gs) (x y : String)
    (v : Value) : (s.define f x v).get? g y =
      if y = x ∧ gs.find? (fun h => decide (h = f) || s.binds x h) = some f then some v else s.get? g y := by
  rw [(hc.congr (s.parent_define f x v)).get?_eq (hs.define f x v), hc.get?_eq hs]
  by_cases hy : y = x
  · subst hy
    have hbinds : (s.define f y v).binds y = fun h => decide (h = f) || s.binds y h := by
      funext h
      rw [binds_define hf]
      simp
    rw [hbinds]
    by_cases hfind : gs.find? (fun h => decide (h = f) || s.binds y h) = some f
    · rw [if_pos ⟨rfl, hfind⟩, hfind, Option.bind_some, get?_vars_define hf, if_pos ⟨rfl, rfl⟩]
    · -- Another frame that binds the name comes first, and it has kept its value.
      have hsame := find?_or_eq hfind
      rw [if_neg fun h => hfind h.2]
      rw [hsame] at hfind ⊢
      cases hfound : gs.find? (s.binds y) with
      | none => rfl
      | some h =>
        have hne : h ≠ f := by
          rintro rfl
          exact hfind hfound
        rw [Option.bind_some, Option.bind_some, get?_vars_define hf, if_neg fun hc => hne hc.1]
  · have hbinds : (s.define f x v).binds y = s.binds y := by
      funext h
      rw [binds_define hf]
      simp [hy]
    rw [hbinds, if_neg fun h => hy h.1]
    simp only [get?_vars_define hf, hy, and_false, if_false]

theorem Chain.search_define_le (hs : s.Ordered) (hf : f.index < s.frames.size) (hc : s.Chain g gs)
    (costs : Costs) (x y : String) (v : Value) :
    costs.search (s.define f x v) g y ≤ costs.search s g y := by
  have hbinds {h : FrameId} (hb : s.binds y h) : (s.define f x v).binds y h := by
    rw [binds_define hf, hb, Bool.or_true]
  have hle : gs.findIdx ((s.define f x v).binds y) ≤ gs.findIdx (s.binds y) :=
    List.findIdx_le_findIdx fun _ _ => hbinds
  rw [(hc.congr (s.parent_define f x v)).search_eq (hs.define f x v), hc.search_eq hs]
  refine Nat.add_le_add (Nat.mul_le_mul_left _ (min_le_min_right _ hle)) ?_
  by_cases hany : gs.any (s.binds y)
  · obtain ⟨h, hmem, hb⟩ := List.any_eq_true.1 hany
    rw [if_pos (List.any_eq_true.2 ⟨h, hmem, hbinds hb⟩)]
    exact Nat.zero_le _
  · rw [if_neg hany]
    split
    · exact Nat.zero_le _
    · exact Nat.le_refl _

/-- The second store is the first one with a value entered under a name in one frame. -/
structure Entered (s : Store) (f : FrameId) (x : String) (v : Value) (t : Store) : Prop where
  value : (t.frame f).vars.get? x = some v
  otherNames : ∀ y, y ≠ x → (t.frame f).vars.get? y = (s.frame f).vars.get? y
  links : ∀ g, (t.frame g).parent = (s.frame g).parent ∧ (t.frame g).source = (s.frame g).source ∧
    (t.frame g).depth = (s.frame g).depth
  otherFrames : ∀ g, g ≠ f → t.frame g = s.frame g
  size : t.frames.size = s.frames.size
  rest : t.arrays = s.arrays ∧ t.records = s.records ∧ t.output = s.output

theorem entered_define (hf : f.index < s.frames.size) (x : String) (v : Value) :
    s.Entered f x v (s.define f x v) where
  value := by rw [get?_vars_define hf, if_pos ⟨rfl, rfl⟩]
  otherNames y hy := by rw [get?_vars_define hf, if_neg fun h => hy h.2]
  links g := by
    rw [frame_define]
    split <;> exact ⟨rfl, rfl, rfl⟩
  otherFrames g hg := s.frame_define_of_ne (Ne.symm hg) x v
  size := s.size_frames_define f x v
  rest := ⟨rfl, rfl, rfl⟩

theorem Chain.forall_get?_define_iff (hs : s.Ordered) (hf : f.index < s.frames.size) (hc : s.Chain g gs) :
    (∀ w, (s.define f x w).get? g x = some w) ↔
      gs.find? (fun h => decide (h = f) || s.binds x h) = some f := by
  constructor
  · intro h
    by_contra hfind
    have hold (w : Value) : s.get? g x = some w := by
      rw [← h w, hc.get?_define hs hf, if_neg fun hc => hfind hc.2]
    cases (hold .nothing).symm.trans (hold (.boolean true))
  · intro hfind w
    rw [hc.get?_define hs hf, if_pos ⟨rfl, hfind⟩]

/-! Assigning. -/

structure Assigned (s : Store) (h : FrameId) (x : String) (v : Value) (t : Store) : Prop
    extends Entered s h x v t where
  names : ∀ g, t.names g = s.names g
  search : ∀ (costs : Costs) g gs y, s.Chain g gs → costs.search t g y = costs.search s g y
  seen : ∀ g gs y, s.Chain g gs →
    t.get? g y = if y = x ∧ gs.find? (s.binds x) = some h then some v else s.get? g y

theorem assigned_define (hs : s.Ordered) (hb : s.binds x h) (v : Value) : s.Assigned h x v (s.define h x v) := by
  have hlt := lt_of_binds hb
  have hbinds (y : String) : (s.define h x v).binds y = s.binds y := by
    funext g
    rw [binds_define hlt]
    by_cases hg : g = h ∧ y = x
    · rw [hg.1, hg.2, hb, Bool.or_true]
    · rw [decide_eq_false hg, Bool.false_or]
  have hmeets : (fun g => decide (g = h) || s.binds x g) = s.binds x := by
    funext g
    by_cases hg : g = h
    · rw [hg, hb, Bool.or_true]
    · rw [decide_eq_false hg, Bool.false_or]
  refine ⟨entered_define hlt x v, s.names_define_of_mem (binds_iff.1 hb) v, fun costs g gs y hc => ?_,
    fun g gs y hc => ?_⟩
  · rw [(hc.congr (s.parent_define h x v)).search_eq (hs.define h x v), hc.search_eq hs, hbinds]
  · rw [hc.get?_define hs hlt, hmeets]

/-! The laws. -/

/-- What a name stands for in a frame with the given chain, what its look-up takes, and what an assignment and
    a definition change. -/
structure ScopeLaws (s : Store) (f : FrameId) (fs : List FrameId) (x : String) (v : Value) : Prop where
  search (costs : Costs) : costs.search s f x = costs.link * min (fs.findIdx (s.binds x)) (fs.length - 1) +
    if fs.any (s.binds x) then 0 else costs.refusal
  unknown : s.get? f x = none ↔ ∀ g ∈ fs, x ∉ s.names g
  known {h : FrameId} : fs.find? (s.binds x) = some h → s.get? f x = (s.frame h).vars.get? x
  unassigned : s.set? f x v = none ↔ ∀ g ∈ fs, x ∉ s.names g
  assigned {t : Store} : s.set? f x v = some t → ∃ h, fs.find? (s.binds x) = some h ∧ s.Assigned h x v t
  defined : f.index < s.frames.size → s.Entered f x v (s.define f x v)
  nearer {g : FrameId} {gs : List FrameId} (costs : Costs) (y : String) : f.index < s.frames.size →
    s.Chain g gs → costs.search (s.define f x v) g y ≤ costs.search s g y
  seen {g : FrameId} {gs : List FrameId} (y : String) : f.index < s.frames.size → s.Chain g gs →
    (s.define f x v).get? g y =
      if y = x ∧ gs.find? (fun h => decide (h = f) || s.binds x h) = some f then some v else s.get? g y
  seenFrom {g : FrameId} {gs : List FrameId} : f.index < s.frames.size → s.Chain g gs →
    ((∀ w, (s.define f x w).get? g x = some w) ↔
      gs.find? (fun h => decide (h = f) || s.binds x h) = some f)

theorem Chain.scopeLaws (hs : s.Ordered) (hc : s.Chain f fs) (x : String) (v : Value) : s.ScopeLaws f fs x v where
  search costs := hc.search_eq hs costs x
  unknown := hc.get?_eq_none_iff hs
  known hfind := by rw [hc.get?_eq hs, hfind, Option.bind_some]
  unassigned := hc.set?_eq_none_iff hs
  assigned ht := by
    rw [hc.set?_eq hs] at ht
    obtain ⟨h, hfind, rfl⟩ := Option.map_eq_some_iff.1 ht
    exact ⟨h, hfind, assigned_define hs (List.find?_some hfind) v⟩
  defined hf := entered_define hf x v
  nearer costs y hf hg := hg.search_define_le hs hf costs x y v
  seen y hf hg := hg.get?_define hs hf x y v
  seenFrom hf hg := hg.forall_get?_define_iff hs hf

end Store

/-! Names in programs. -/

section Evaluation

variable {limits : Limits} {depth : Nat} {f : FrameId} {x : String} {s₀ s t : Store} {e : Node} {v : Value}

theorem Activation.ends_name (room : limits.allows (depth + limits.costs.search s f x)) (h : s.get? f x = some v)
    (p : Option Place) : Activation.Ends limits ⟨.name ⟨x, p⟩, f, depth⟩ s (.value v) s := by
  refine Activation.ends_iff_start.2 ?_
  simp only [Node.start, Task.within_of_allows room, h]
  exact Task.ends_done.2 ⟨rfl, rfl⟩

theorem Activation.ends_name_unknown (room : limits.allows (depth + limits.costs.search s f x))
    (h : s.get? f x = none) (p : Option Place) :
    Activation.Ends limits ⟨.name ⟨x, p⟩, f, depth⟩ s (.failed ⟨.unknownName x, p⟩) s := by
  refine Activation.ends_iff_start.2 ?_
  simp only [Node.start, Task.within_of_allows room, h]
  exact Task.ends_done.2 ⟨rfl, rfl⟩

theorem Activation.ends_name_far (far : limits.allows (depth + limits.costs.search s f x) = false)
    (p : Option Place) : Activation.Ends limits ⟨.name ⟨x, p⟩, f, depth⟩ s (.aborted .stack) s := by
  refine Activation.ends_iff_start.2 ?_
  simp only [Node.start, Task.within_of_not_allows far]
  exact Task.ends_done.2 ⟨rfl, rfl⟩

section Assigning

variable (roomBelow : limits.allows (depth + 4)) (he : Activation.Ends limits ⟨e, f, depth + 4⟩ s₀ (.value v) s)

include roomBelow he

theorem Activation.ends_assign (room : limits.allows (depth + (1 + limits.costs.search s f x)))
    (h : s.set? f x v = some t) (q p : Option Place) :
    Activation.Ends limits ⟨.assign ⟨x, q⟩ e p, f, depth⟩ s₀ (.value v) t := by
  refine Activation.ends_iff_start.2 (Task.ends_value_of_ends roomBelow he ?_)
  obtain ⟨holder, hholder, rfl⟩ := Option.map_eq_some_iff.1 h
  simp only [Task.within_of_allows room, hholder]
  exact Task.ends_done.2 ⟨rfl, rfl⟩

theorem Activation.ends_assign_unknown (room : limits.allows (depth + (1 + limits.costs.search s f x)))
    (h : s.set? f x v = none) (q p : Option Place) :
    Activation.Ends limits ⟨.assign ⟨x, q⟩ e p, f, depth⟩ s₀ (.failed ⟨.unknownName x, p⟩) s := by
  refine Activation.ends_iff_start.2 (Task.ends_value_of_ends roomBelow he ?_)
  simp only [Task.within_of_allows room, Option.map_eq_none_iff.1 h]
  exact Task.ends_done.2 ⟨rfl, rfl⟩

theorem Activation.ends_assign_far (far : limits.allows (depth + (1 + limits.costs.search s f x)) = false)
    (q p : Option Place) : Activation.Ends limits ⟨.assign ⟨x, q⟩ e p, f, depth⟩ s₀ (.aborted .stack) s := by
  refine Activation.ends_iff_start.2 (Task.ends_value_of_ends roomBelow he ?_)
  simp only [Task.within_of_not_allows far]
  exact Task.ends_done.2 ⟨rfl, rfl⟩

theorem Activation.ends_declare (q p : Option Place) :
    Activation.Ends limits ⟨.declare ⟨x, q⟩ (some e) p, f, depth⟩ s₀ (.value v) (s.define f x v) :=
  Activation.ends_iff_start.2 (Task.ends_value_of_ends roomBelow he (Task.ends_done.2 ⟨rfl, rfl⟩))

end Assigning

/-- Who reads a name or assigns to it gets what the chain gives, as long as the host follows the links: from
    outside programs, and in a name, an assignment and a declaration of a program. -/
structure Store.AccessLaws [Host] (s : Store) (f : FrameId) (fs : List FrameId) (x : String) (v : Value) :
    Prop where
  near : fs.length ≤ 800 → Host.costs.search s f x ≤ Host.followed
  fetch {w : Value} : s.fetch f x = .ok w ↔ Host.costs.search s f x ≤ Host.followed ∧ s.get? f x = some w
  fetchUnknown : s.fetch f x = .error (.runtime ⟨.unknownName x, none⟩) ↔
    Host.costs.search s f x ≤ Host.followed ∧ s.get? f x = none
  fetchFar : s.fetch f x = .error (.crash .recursion) ↔ Host.followed < Host.costs.search s f x
  assign {t : Store} : s.assign f x v = .ok t ↔
    Host.costs.search s f x ≤ Host.followed ∧ s.set? f x v = some t
  assignUnknown : s.assign f x v = .error (.runtime ⟨.unknownName x, none⟩) ↔
    Host.costs.search s f x ≤ Host.followed ∧ s.set? f x v = none
  assignFar : s.assign f x v = .error (.crash .recursion) ↔ Host.followed < Host.costs.search s f x
  name {limits : Limits} {depth : Nat} {w : Value} (p : Option Place) :
    limits.allows (depth + limits.costs.search s f x) → s.get? f x = some w →
      Activation.Ends limits ⟨.name ⟨x, p⟩, f, depth⟩ s (.value w) s
  nameUnknown {limits : Limits} {depth : Nat} (p : Option Place) :
    limits.allows (depth + limits.costs.search s f x) → s.get? f x = none →
      Activation.Ends limits ⟨.name ⟨x, p⟩, f, depth⟩ s (.failed ⟨.unknownName x, p⟩) s
  nameFar {limits : Limits} {depth : Nat} (p : Option Place) :
    limits.allows (depth + limits.costs.search s f x) = false →
      Activation.Ends limits ⟨.name ⟨x, p⟩, f, depth⟩ s (.aborted .stack) s
  assignment {limits : Limits} {depth : Nat} {e : Node} {s₀ t : Store} (q p : Option Place) :
    limits.allows (depth + 4) → Activation.Ends limits ⟨e, f, depth + 4⟩ s₀ (.value v) s →
      limits.allows (depth + (1 + limits.costs.search s f x)) → s.set? f x v = some t →
        Activation.Ends limits ⟨.assign ⟨x, q⟩ e p, f, depth⟩ s₀ (.value v) t
  assignmentUnknown {limits : Limits} {depth : Nat} {e : Node} {s₀ : Store} (q p : Option Place) :
    limits.allows (depth + 4) → Activation.Ends limits ⟨e, f, depth + 4⟩ s₀ (.value v) s →
      limits.allows (depth + (1 + limits.costs.search s f x)) → s.set? f x v = none →
        Activation.Ends limits ⟨.assign ⟨x, q⟩ e p, f, depth⟩ s₀ (.failed ⟨.unknownName x, p⟩) s
  assignmentFar {limits : Limits} {depth : Nat} {e : Node} {s₀ : Store} (q p : Option Place) :
    limits.allows (depth + 4) → Activation.Ends limits ⟨e, f, depth + 4⟩ s₀ (.value v) s →
      limits.allows (depth + (1 + limits.costs.search s f x)) = false →
        Activation.Ends limits ⟨.assign ⟨x, q⟩ e p, f, depth⟩ s₀ (.aborted .stack) s
  declaration {limits : Limits} {depth : Nat} {e : Node} {s₀ : Store} (q p : Option Place) :
    limits.allows (depth + 4) → Activation.Ends limits ⟨e, f, depth + 4⟩ s₀ (.value v) s →
      Activation.Ends limits ⟨.declare ⟨x, q⟩ (some e) p, f, depth⟩ s₀ (.value v) (s.define f x v)

theorem Store.Chain.accessLaws [Host] {fs : List FrameId} (hs : s.Ordered) (hc : s.Chain f fs) (x : String)
    (v : Value) : s.AccessLaws f fs x v where
  near hlength := by
    have hlinks : Host.costs.link * min (fs.findIdx (s.binds x)) (fs.length - 1) ≤ 800 * Host.costs.link := by
      rw [Nat.mul_comm]
      exact Nat.mul_le_mul_right _ (by omega)
    rw [hc.search_eq hs]
    refine Nat.le_trans (Nat.add_le_add hlinks ?_) Host.followed_ge
    split
    · exact Nat.zero_le _
    · exact Nat.le_refl _
  fetch := Store.answer_eq_ok_iff
  fetchUnknown := Store.answer_eq_unknown_iff
  fetchFar := Store.answer_eq_recursion_iff
  assign := Store.answer_eq_ok_iff
  assignUnknown := Store.answer_eq_unknown_iff
  assignFar := Store.answer_eq_recursion_iff
  name p room h := Activation.ends_name room h p
  nameUnknown p room h := Activation.ends_name_unknown room h p
  nameFar p far := Activation.ends_name_far far p
  assignment q p roomBelow he room h := Activation.ends_assign roomBelow he room h q p
  assignmentUnknown q p roomBelow he room h := Activation.ends_assign_unknown roomBelow he room h q p
  assignmentFar q p roomBelow he far := Activation.ends_assign_far roomBelow he far q p
  declaration q p roomBelow he := Activation.ends_declare roomBelow he q p

end Evaluation

/-- Frames of which none is around itself can be numbered so that every frame is younger than the frame around
    it. Then one finite chain leads outwards from each, and the laws of scopes hold. -/
theorem scope_chain_laws [Host] :
    (∀ (ι : Type) [Finite ι] (frame : ι → Frame) (parent : ι → Option ι),
      (∀ i, ¬TransGen (fun i j => parent i = some j) i i) →
      ∃ (s : Store) (number : ι → FrameId), s.Numbers number frame parent) ∧
    ∀ s : Store, s.Ordered → ∀ f, ∃ fs, (∀ gs, s.Chain f gs ↔ gs = fs) ∧
      ∀ x v, s.ScopeLaws f fs x v ∧ s.AccessLaws f fs x v := by
  refine ⟨fun ι _ frame parent => Store.exists_numbers frame parent, fun s hs f => ?_⟩
  obtain ⟨fs, hfs, -⟩ := Store.exists_chain hs f
  refine ⟨fs, fun gs => ⟨hfs.unique, ?_⟩, fun x v => ⟨hfs.scopeLaws hs x v, hfs.accessLaws hs x v⟩⟩
  rintro rfl
  exact hfs

theorem scope_chain_laws_shadowing :
    let s : Store := ⟨#[⟨none, none, 0, ⟨[("y", .nothing), ("x", .number 1)]⟩⟩, ⟨some ⟨0⟩, none, 0, .empty⟩,
      ⟨some ⟨0⟩, none, 0, ⟨[("x", .number 2)]⟩⟩, ⟨some ⟨2⟩, none, 0, .empty⟩], #[], #[], ""⟩
    s.Ordered ∧ s.Chain ⟨1⟩ [⟨1⟩, ⟨0⟩] ∧ s.Chain ⟨3⟩ [⟨3⟩, ⟨2⟩, ⟨0⟩] ∧
    Host.costs.search s ⟨3⟩ "y" = 2 ∧
    (∃ t, s.assign ⟨1⟩ "x" (.number 7) = .ok t ∧ t.get? ⟨1⟩ "x" = some (.number 7) ∧
      t.get? ⟨0⟩ "x" = some (.number 7) ∧ t.get? ⟨3⟩ "x" = some (.number 2) ∧ t.names ⟨0⟩ = ["y", "x"]) ∧
    (s.define ⟨1⟩ "x" (.number 7)).get? ⟨1⟩ "x" = some (.number 7) ∧
    (s.define ⟨1⟩ "x" (.number 7)).get? ⟨0⟩ "x" = some (.number 1) ∧
    s.fetch ⟨3⟩ "z" = .error (.runtime ⟨.unknownName "z", none⟩) ∧
    ∃ (t : Store) (number : Bool → FrameId), t.Ordered ∧
      (t.frame (number false)).parent = some (number true) ∧ (number true).index < (number false).index := by
  intro s
  have hs : s.Ordered := by
    rintro ⟨i⟩ p hp
    rcases i with _ | _ | _ | _ | i <;> cases hp <;> decide
  have h₀ : s.Chain ⟨0⟩ [⟨0⟩] := .last rfl
  have h₁ : s.Chain ⟨1⟩ [⟨1⟩, ⟨0⟩] := .more rfl h₀
  have h₃ : s.Chain ⟨3⟩ [⟨3⟩, ⟨2⟩, ⟨0⟩] := .more rfl (.more rfl h₀)
  have hacyclic (i : Bool) : ¬TransGen (fun i j => (if i then none else some true) = some j) i i := by
    intro h
    obtain ⟨j, hfirst, -⟩ := TransGen.head'_iff.1 h
    obtain ⟨k, -, hlast⟩ := TransGen.tail'_iff.1 h
    cases i with
    | true => cases hfirst
    | false => cases k <;> cases hlast
  obtain ⟨hnumbered, hlaws⟩ := scope_chain_laws
  obtain ⟨u, number, hu⟩ := hnumbered Bool (fun _ => ⟨none, none, 0, .empty⟩) _ hacyclic
  have hparent : (u.frame (number false)).parent = some (number true) := by
    rw [hu.frame_eq false]
    rfl
  have laws {f : FrameId} {fs : List FrameId} (hc : s.Chain f fs) (x : String) (v : Value) :
      s.ScopeLaws f fs x v ∧ s.AccessLaws f fs x v := by
    obtain ⟨gs, hgs, h⟩ := hlaws s hs f
    rw [(hgs fs).1 hc]
    exact h x v
  obtain ⟨hscope, haccess⟩ := laws h₁ "x" (.number 7)
  obtain ⟨t, ht⟩ : ∃ t, s.set? ⟨1⟩ "x" (.number 7) = some t :=
    Option.ne_none_iff_exists'.1 fun h => hscope.unassigned.1 h ⟨0⟩ (by simp) (by decide)
  obtain ⟨h, hfind, hassigned⟩ := hscope.assigned ht
  obtain rfl : h = ⟨0⟩ := (Option.some.inj hfind).symm
  obtain ⟨hscope', haccess'⟩ := laws h₃ "z" .nothing
  refine ⟨hs, h₁, h₃, (laws h₃ "y" .nothing).1.search Host.costs,
    ⟨t, haccess.assign.2 ⟨haccess.near (by decide), ht⟩, ?_, ?_, ?_, hassigned.names _⟩, ?_, ?_,
    haccess'.fetchUnknown.2 ⟨haccess'.near (by decide), hscope'.unknown.2 (by decide)⟩,
    ⟨u, number, hu.ordered, hparent, hu.ordered _ _ hparent⟩⟩
  · exact (hassigned.seen _ _ "x" h₁).trans (if_pos (by decide))
  · exact (hassigned.seen _ _ "x" h₀).trans (if_pos (by decide))
  · exact (hassigned.seen _ _ "x" h₃).trans ((if_neg (by decide)).trans (h₃.get?_eq hs "x"))
  · exact (hscope.seen "x" (by decide) h₁).trans (if_pos (by decide))
  · exact (hscope.seen "x" (by decide) h₀).trans ((if_neg (by decide)).trans (h₀.get?_eq hs "x"))

/-! Names that are far away. -/

namespace Store

variable {s : Store} {f : FrameId} {x : String}

def nested (s : Store) (f : FrameId) : Nat → FrameId × Store
  | 0 => (f, s)
  | k + 1 => (s.newFrame (some f) none none).2.nested (s.newFrame (some f) none none).1 k

theorem holder?_newFrame (hf : f.index < s.frames.size) (parent : Option FrameId) (source : Option String)
    (depth : Option Int) : (s.newFrame parent source depth).2.holder? f x = s.holder? f x := by
  have hframe {g : FrameId} (hg : g.index < s.frames.size) :
      (s.newFrame parent source depth).2.frame g = s.frame g := by
    rw [frame_newFrame, if_neg (Nat.ne_of_lt hg)]
  fun_induction s.holder? f x with
  | case1 f h => rw [holder?, hframe hf, if_pos h]
  | case2 f h hp => rw [holder?, hframe hf, if_neg h, hp]
  | case3 f h p hp hlt ih =>
    rw [holder?_of_not_contains (hframe hf ▸ h) ((congrArg Frame.parent (hframe hf)).trans hp) hlt]
    exact ih (hlt.trans hf)
  | case4 f h p hp hlt =>
    rw [holder?, hframe hf, if_neg h, hp]
    exact if_neg hlt

section Inside

variable (hf : f.index < s.frames.size)

include hf

theorem holder?_inside : (s.newFrame (some f) none none).2.holder? (s.newFrame (some f) none none).1 x =
    s.holder? f x := by
  rw [holder?_of_not_contains (by rw [frame_newFrame_self]; exact Bool.false_ne_true)
    (congrArg Frame.parent (s.frame_newFrame_self (some f) none none)) hf, holder?_newFrame hf]

theorem get?_inside : (s.newFrame (some f) none none).2.get? (s.newFrame (some f) none none).1 x =
    s.get? f x := by
  rw [Store.get?, holder?_inside hf, Store.get?]
  refine Option.bind_congr fun g hg => ?_
  rw [frame_newFrame, if_neg (Nat.ne_of_lt (Nat.lt_of_le_of_lt (index_le_of_holder? hg) hf))]

theorem reach_inside : (s.newFrame (some f) none none).2.reach (s.newFrame (some f) none none).1 x =
    s.reach f x + 1 := by
  have hparent (g : FrameId) (hg : g.index ≤ f.index) :
      ((s.newFrame (some f) none none).2.frame g).parent = (s.frame g).parent := by
    rw [frame_newFrame, if_neg (Nat.ne_of_lt (Nat.lt_of_le_of_lt hg hf))]
  rw [reach_of_not_contains (by rw [frame_newFrame_self]; exact Bool.false_ne_true)
    (congrArg Frame.parent (s.frame_newFrame_self (some f) none none)) hf,
    reach_eq_of_holder?_eq hparent (holder?_newFrame hf _ _ _)]

theorem get?_nested (k : Nat) : (s.nested f k).2.get? (s.nested f k).1 x = s.get? f x := by
  induction k generalizing s f with
  | zero => rfl
  | succ k ih => rw [nested, ih (s.newFrame_lt _ _ _), get?_inside hf]

theorem reach_nested (k : Nat) : (s.nested f k).2.reach (s.nested f k).1 x = s.reach f x + k := by
  induction k generalizing s f with
  | zero => rfl
  | succ k ih =>
    rw [nested, ih (s.newFrame_lt _ _ _), reach_inside hf]
    omega

end Inside

end Store

def Node.blocks (n : Node) : Nat → Node
  | 0 => .expression n none
  | k + 1 => .block [n.blocks k] none

section Blocks

variable {limits : Limits} {a : Activation} {f : FrameId} {s : Store}

theorem Task.exists_ends_stack {cost : Nat} {n : Node} {k : Value → Store → Task}
    (h : ∃ t, Activation.Ends limits ⟨n, f, a.depth + cost⟩ s (.aborted .stack) t) :
    ∃ t, (Task.value cost n f s k).Ends limits a (.aborted .stack) t := by
  by_cases hroom : limits.allows (a.depth + cost)
  · obtain ⟨t, ht⟩ := h
    exact ⟨t, Task.ends_visit_of_ends hroom ht (Task.ends_done.2 ⟨rfl, rfl⟩)⟩
  · refine ⟨s, 0, ?_⟩
    rw [Task.value, Task.carryOut, if_neg hroom]
    rfl

theorem Activation.exists_ends_blocks {x : String} {depth : Nat} (hf : f.index < s.frames.size) (k : Nat)
    (far : limits.allows (depth + (5 * k + 3 + limits.costs.link * (s.reach f x + k))) = false)
    (p : Option Place) :
    ∃ t, Activation.Ends limits ⟨(Node.name ⟨x, p⟩).blocks k, f, depth⟩ s (.aborted .stack) t := by
  -- Each block takes the room of its own evaluation, and that of one more link of the look-up.
  induction k generalizing s f depth with
  | zero =>
    have hfar : limits.allows (depth + 3 + limits.costs.search s f x) = false := by
      refine Bool.eq_false_iff.2 fun h => Bool.eq_false_iff.1 far (Limits.allows_mono ?_ h)
      simp only [Costs.search, Nat.add_zero]
      omega
    obtain ⟨t, ht⟩ := Task.exists_ends_stack (a := ⟨.expression (.name ⟨x, p⟩) none, f, depth⟩) (k := .yield)
      ⟨s, Activation.ends_name_far hfar p⟩
    exact ⟨t, Activation.ends_iff_start.2 ht⟩
  | succ k ih =>
    have hfar : limits.allows (depth + 5 + (5 * k + 3 + limits.costs.link *
        ((s.newFrame (some f) none none).2.reach (s.newFrame (some f) none none).1 x + k))) = false := by
      rw [Store.reach_inside hf, ← far, Nat.add_assoc (s.reach f x), Nat.add_comm 1 k]
      exact congrArg limits.allows (by omega)
    obtain ⟨t, ht⟩ := Task.exists_ends_stack (a := ⟨(Node.name ⟨x, p⟩).blocks (k + 1), f, depth⟩)
      (k := fun v s => .sequence 5 _ [] v s) (ih (s.newFrame_lt _ _ _) hfar)
    exact ⟨t, Activation.ends_iff_start.2 ht⟩

end Blocks

/-- A name is bound, but the host does not follow the links that lead to it: neither from the innermost of many
    frames, nor in a program with many blocks inside each other if no more than three calls may be active. -/
theorem far_name_is_not_read :
    let root := Store.empty.newRoot none
    let s := root.2.define root.1 "x" (.number 7)
    s.get? root.1 "x" = some (.number 7) ∧
      ∀ [Host], (let inner := s.nested root.1 (Host.followed + 1)
        inner.2.get? inner.1 "x" = some (.number 7) ∧ inner.2.fetch inner.1 "x" = .error (.crash .recursion)) ∧
        ∃ steps t, Program.execute 3 steps (.sequence [(Node.name ⟨"x", none⟩).blocks 190] none) root.1 s =
          some (.error (.runtime ⟨.evaluationDepth, none⟩), t) := by
  intro root s
  have hroot : root.1.index < s.frames.size := by decide
  have hvalue : s.get? root.1 "x" = some (.number 7) := by cbv
  refine ⟨hvalue, fun {host} => ⟨⟨(Store.get?_nested hroot _).trans hvalue, ?_⟩, ?_⟩⟩
  · refine Store.answer_eq_recursion_iff.2 ?_
    rw [Costs.search, Store.reach_nested hroot]
    have hlinks := Nat.le_mul_of_pos_left (s.reach root.1 "x" + (Host.followed + 1)) Host.link_pos
    omega
  · have hfar : (Program.limits 3).allows
        (4 + (5 * 190 + 3 + (Program.limits 3).costs.link * (s.reach root.1 "x" + 190))) = false := by
      -- On every host a link takes at least one activation.
      have hlink : 190 ≤ (Program.limits 3).costs.link * (s.reach root.1 "x" + 190) :=
        (Nat.le_add_left _ _).trans (Nat.le_mul_of_pos_left _ Host.link_pos)
      refine decide_eq_false (Nat.not_le.2 ?_)
      change 1000 - Host.inUse < _
      omega
    obtain ⟨t, ht⟩ := Activation.exists_ends_blocks hroot 190 hfar none
    obtain ⟨steps, hrun⟩ := Program.execute_of_aborted (by decide) ht [] none
    exact ⟨steps, t, hrun⟩

end Scripting
