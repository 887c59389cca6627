import Mathlib
import Scripting.Proofs.Evaluation.Heap
import Scripting.Proofs.Evaluation.Limits
import Scripting.Proofs.Grammar.Data
import Scripting.Proofs.Node.Relocation

/-!
Rendered data reads back. The literal of a datum, wherever its nodes stand, evaluates to a value that shows
the datum; so a source that returns the text of a value ends with a value that shows the same.
-/

set_option autoImplicit false

namespace Scripting

/-! Numerals. -/

theorem Text.integer?_repr {n : Nat} (h : n ≤ Token.maxNumber) : integer? n.repr = some (n : Int) := by
  obtain ⟨hdigits, hlength⟩ := Token.digits_of_le h
  have hvalue := Token.numeral_toDigits n
  rw [Nat.repr_eq_ofList_toDigits]
  cases hcs : Nat.toDigits 10 n with
  | nil => exact absurd hcs Nat.toDigits_ne_nil
  | cons c cs =>
    rw [hcs] at hdigits hlength hvalue
    rw [integer?_of_isDigit hdigits hlength]
    exact congrArg (fun k : Nat => some (k : Int)) hvalue

theorem Number.wrap_neg {n : Nat} (h : n ≤ Token.maxNumber) : wrap (-(n : Int)) = -n := by
  have hmax : n ≤ 2147483647 := h
  rw [wrap, Int.bmod_eq_of_le] <;> omega

/-! Tables of distinct names. -/

theorem Table.replace_of_not_mem {α : Type} {name : String} {entries : List (String × α)}
    (h : name ∉ entries.map (·.1)) (a : α) : replace name a entries = entries ++ [(name, a)] := by
  induction entries with
  | nil => rfl
  | cons e entries ih =>
    rw [List.map_cons, List.mem_cons, not_or] at h
    rw [replace, if_neg (Ne.symm h.1), ih h.2]
    rfl

theorem Field.enter_eq {fields : List (Field Node)} {vs : List Value} {seen : Table Value}
    (hlength : vs.length = fields.length)
    (hnames : (seen.names ++ fields.map (·.key.text)).Nodup) :
    (enter seen fields vs).entries = seen.entries ++ (fields.map (·.key.text)).zip vs := by
  induction fields generalizing vs seen with
  | nil => simp [enter]
  | cons f fields ih =>
    cases vs with
    | nil => cases hlength
    | cons v vs =>
      have hnew : f.key.text ∉ seen.entries.map (·.1) := by
        intro hmem
        exact (List.nodup_append.1 hnames).2.2 _ hmem _ List.mem_cons_self rfl
      have hput : (seen.put f.key.text v).entries = seen.entries ++ [(f.key.text, v)] :=
        Table.replace_of_not_mem hnew v
      rw [enter, ih (Nat.succ.inj hlength), hput, List.append_assoc]
      · rfl
      · rw [Table.names, hput, List.map_append, List.append_assoc]
        exact hnames

/-! Nesting. -/

theorem Node.need_le_needAsItems {n : Node} {ns : List Node} (h : n ∈ ns) :
    n.need + n.rank.depth + 1 ≤ needAsItems ns := by
  induction ns with
  | nil => cases h
  | cons m ns ih =>
    rw [needAsItems]
    rcases List.mem_cons.1 h with rfl | h
    · exact Nat.le_max_left _ _
    · exact Nat.le_trans (ih h) (Nat.le_max_right _ _)

theorem Node.need_le_needAsFields {f : Field Node} {fs : List (Field Node)} (h : f ∈ fs) :
    f.value.need + f.value.rank.depth + 1 ≤ needAsFields fs := by
  induction fs with
  | nil => cases h
  | cons g fs ih =>
    rw [needAsFields]
    rcases List.mem_cons.1 h with rfl | h
    · exact Nat.le_max_left _ _
    · exact Nat.le_trans (ih h) (Nat.le_max_right _ _)

namespace Datum

def room (d : Datum) : Nat :=
  d.literal.need + d.literal.rank.depth

theorem room_array (items : List Datum) : (array items).room = Node.needAsItems (items.map literal) + 12 := by
  rw [room, literal]
  rfl

theorem room_record (fields : List (String × Datum)) :
    (record fields).room = Node.needAsFields (fields.map fun f => ⟨⟨f.1, none⟩, f.2.literal, none⟩) + 13 := by
  rw [room, literal]
  rfl

theorem room_lt_array {items : List Datum} {d : Datum} (h : d ∈ items) : d.room + 12 < (array items).room := by
  have hneed := Node.need_le_needAsItems (List.mem_map_of_mem (f := literal) h)
  rw [room_array, room]
  omega

theorem room_lt_record {fields : List (String × Datum)} {f : String × Datum} (h : f ∈ fields) :
    f.2.room + 12 < (record fields).room := by
  have hneed := Node.need_le_needAsFields (List.mem_map_of_mem
    (f := fun f : String × Datum => (⟨⟨f.1, none⟩, f.2.literal, none⟩ : Field Node)) h)
  dsimp only at hneed
  rw [room_record, room]
  omega

theorem depth_le_room (d : Datum) : 12 * d.depth ≤ d.room := by
  induction d with
  | boolean | number | string => simp [depth]
  | array items ih =>
    have hdepth : (array items).depth ≤ ((array items).room - 12) / 12 + 1 := by
      rw [depth_array_le_iff]
      intro d hd
      have hroom := room_lt_array hd
      have hd := ih d hd
      omega
    rw [room_array] at hdepth ⊢
    omega
  | record fields ih =>
    have hdepth : (record fields).depth ≤ ((record fields).room - 12) / 12 + 1 := by
      rw [depth_record_le_iff]
      intro f hf
      have hroom := room_lt_record hf
      have hf := ih f hf
      omega
    rw [room_record] at hdepth ⊢
    omega

/-- The host activations that the evaluation of the literal takes below its own. -/
def cost (costs : Costs) (d : Datum) : Nat :=
  (4 + costs.list) * d.depth + (4 + costs.literal)

theorem cost_of_depth_lt (costs : Costs) {d e : Datum} (h : d.depth < e.depth) :
    d.cost costs + (4 + costs.list) ≤ e.cost costs := by
  have hlevel : (4 + costs.list) * (d.depth + 1) ≤ (4 + costs.list) * e.depth := Nat.mul_le_mul_left _ h
  rw [Nat.mul_succ] at hlevel
  unfold cost
  omega

theorem cost_array_ge (costs : Costs) (items : List Datum) : 4 + costs.list ≤ (array items).cost costs := by
  have hlevel : 4 + costs.list ≤ (4 + costs.list) * (array items).depth := by
    rw [depth]
    exact Nat.le_mul_of_pos_right _ (Nat.succ_pos _)
  unfold cost
  omega

end Datum

/-! Evaluation. -/

section Evaluation

variable {limits : Limits} {fuel depth : Nat} {scope : FrameId}

/-- In any store the node evaluates to a value that shows the datum, and nothing else changes. -/
def Node.Yields (limits : Limits) (fuel : Nat) (scope : FrameId) (depth : Nat) (n : Node) (d : Datum) : Prop :=
  ∀ s : Store, ∃ v t, Activation.eval limits fuel ⟨n, scope, depth⟩ s = some (.value v, t) ∧ s.Grows t ∧
    t.Shows v d

theorem EvaluateAll.of_yields {ns : List Node} {data : List Datum} (ha : limits.allows depth)
    (h : List.Forall₂ (Node.Yields limits fuel scope depth) ns data) (s : Store) :
    ∃ vs t, EvaluateAll limits (Activation.eval limits fuel) scope depth ns s vs t ∧ s.Grows t ∧
      List.Forall₂ t.Shows vs data := by
  induction h generalizing s with
  | nil => exact ⟨[], s, .nil s, .refl s, .nil⟩
  | cons hhead _ ih =>
    obtain ⟨v, t, heval, hgrows, hshows⟩ := hhead s
    obtain ⟨vs, u, hall, hgrows', hshows'⟩ := ih t
    exact ⟨v :: vs, u, .cons ha heval hall, hgrows.trans hgrows', .cons (hshows.mono hgrows') hshows'⟩

theorem Store.shows_newArray {s : Store} {vs : List Value} {data : List Datum}
    (h : List.Forall₂ s.Shows vs data) :
    (s.newArray vs.toArray).2.Shows (.array (s.newArray vs.toArray).1) (.array data) := by
  have hitems : (s.newArray vs.toArray).2.arrays[(s.newArray vs.toArray).1.index]? = some vs.toArray :=
    Array.getElem?_push_size
  exact .array hitems (h.imp fun v d hd => hd.mono (.newArray s _))

theorem Store.shows_newRecord {s : Store} {table : Table Value} {fields : List (String × Datum)}
    (hnames : table.names = fields.map (·.1)) (hdistinct : table.names.Nodup)
    (h : List.Forall₂ s.Shows (table.entries.map (·.2)) (fields.map (·.2))) :
    (s.newRecord table).2.Shows (.record (s.newRecord table).1) (.record fields) := by
  have htable : (s.newRecord table).2.records[(s.newRecord table).1.index]? = some table :=
    Array.getElem?_push_size
  exact .record htable hnames hdistinct (h.imp fun v d hd => hd.mono (.newRecord s _))

theorem eval_numeral {w : Word} {n : Nat} (ha : limits.allows (depth + limits.costs.literal))
    (hn : n ≤ Token.maxNumber) (hw : w.text = n.repr) (s : Store) :
    Activation.eval limits (fuel + 1) ⟨.number w, scope, depth⟩ s = some (.value (.number n), s) := by
  rw [Activation.eval, Node.start, hw, Text.integer?_repr hn, Task.within_of_allows ha]
  rfl

theorem eval_negative {w : Word} {p : Option Place} {n : Nat}
    (ha : limits.allows (depth + 4 + limits.costs.literal)) (hn : n ≤ Token.maxNumber) (hw : w.text = n.repr)
    (s : Store) :
    Activation.eval limits (fuel + 2) ⟨.negate (.number w) p, scope, depth⟩ s =
      some (.value (.number (-n)), s) := by
  rw [Activation.eval, Node.start, Task.carryOut_value]
  refine ⟨Limits.allows_mono (Nat.le_add_right _ _) ha, _, _, eval_numeral ha hn hw s, ?_⟩
  change some (Outcome.value (.number (Number.wrap (-(n : Int)))), s) = _
  rw [Number.wrap_neg hn]

namespace Node.Yields

theorem array {ms : List Node} {p : Option Place} {items : List Datum}
    (ha : limits.allows (depth + (4 + limits.costs.list)))
    (h : List.Forall₂ (Node.Yields limits fuel scope (depth + (4 + limits.costs.list))) ms items) :
    (Node.array ms p).Yields limits (fuel + 1) scope depth (.array items) := by
  intro s
  obtain ⟨vs, t, hall, hgrows, hshows⟩ := EvaluateAll.of_yields ha h s
  refine ⟨_, _, ?_, hgrows.trans (.newArray t _), Store.shows_newArray hshows⟩
  rw [Activation.eval, Node.start, Task.carryOut_collect]
  exact ⟨vs, t, hall, rfl⟩

theorem record {fs : List (Field Node)} {p : Option Place} {fields : List (String × Datum)}
    (ha : limits.allows (depth + 4)) (hkeys : fs.map (·.key.text) = fields.map (·.1))
    (hdistinct : (fields.map (·.1)).Nodup)
    (h : List.Forall₂ (Node.Yields limits fuel scope (depth + 4)) (fs.map (·.value)) (fields.map (·.2))) :
    (Node.record fs p).Yields limits (fuel + 1) scope depth (.record fields) := by
  intro s
  obtain ⟨vs, t, hall, hgrows, hshows⟩ := EvaluateAll.of_yields ha h s
  have hlength : fields.length = vs.length := by
    simpa using hshows.length_eq.symm
  have hlength' : vs.length = fs.length := by
    rw [← hlength]
    simpa using (congrArg List.length hkeys).symm
  have hentries : (Field.enter .empty fs vs).entries = (fields.map (·.1)).zip vs := by
    rw [Field.enter_eq hlength' (by rw [hkeys]; exact hdistinct), hkeys]
    rfl
  have hnames : (Field.enter .empty fs vs).names = fields.map (·.1) := by
    rw [Table.names, hentries]
    exact List.map_fst_zip (by simp [hlength])
  have hvalues : (Field.enter .empty fs vs).entries.map (·.2) = vs := by
    rw [hentries]
    exact List.map_snd_zip (by simp [hlength])
  refine ⟨_, _, ?_, hgrows.trans (.newRecord t _),
    Store.shows_newRecord hnames (hnames ▸ hdistinct) (hvalues.symm ▸ hshows)⟩
  rw [Activation.eval, Node.start, Task.carryOut_collectFields]
  exact ⟨vs, t, hall, rfl, rfl⟩

theorem number {n : Int} {m : Node} (range : n.natAbs ≤ Token.maxNumber)
    (hm : Grammar.like (Datum.number n).literal m) (ha : limits.allows (depth + 4 + limits.costs.literal)) :
    m.Yields limits (fuel + 2) scope depth (.number n) := by
  refine fun s => ⟨.number n, s, ?_, .refl s, .number n⟩
  rw [Datum.literal] at hm
  by_cases hn : n < 0
  · rw [if_pos hn] at hm
    cases Node.parallel_of_unplaced_eq hm with
    | negate he =>
      cases Node.parallel_of_unplaced_eq he with
      | number ht => rw [eval_negative ha range ht, show -(n.natAbs : Int) = n by omega]
  · rw [if_neg hn] at hm
    cases Node.parallel_of_unplaced_eq hm with
    | number ht =>
      have hless := Limits.allows_mono (show depth + limits.costs.literal ≤ _ by omega) ha
      rw [eval_numeral hless range ht, show (n.natAbs : Int) = n by omega]

end Node.Yields

/-- The literal of a datum that some value shows yields it, wherever the nodes of the literal stand. -/
theorem Datum.Writable.yields {d : Datum} (h : d.Writable) {s₀ : Store} {v₀ : Value} (h₀ : s₀.Shows v₀ d)
    {m : Node} (hm : Grammar.like d.literal m) (hfuel : d.depth + 2 ≤ fuel)
    (hroom : limits.allows (depth + d.cost limits.costs)) : m.Yields limits fuel scope depth d := by
  have hliteral {depth : Nat} {d : Datum} (hroom : limits.allows (depth + d.cost limits.costs)) :
      limits.allows (depth + 4 + limits.costs.literal) :=
    Limits.allows_mono (by unfold Datum.cost; omega) hroom
  have hless {depth : Nat} {d : Datum} (hroom : limits.allows (depth + d.cost limits.costs)) :
      limits.allows (depth + limits.costs.literal) :=
    Limits.allows_mono (by omega) (hliteral hroom)
  -- Each level of the datum takes a unit of fuel and its part of the room.
  induction d generalizing v₀ m fuel depth with
  | boolean b =>
    obtain ⟨fuel, rfl⟩ : ∃ k, fuel = k + 1 := ⟨fuel - 1, by omega⟩
    rw [literal] at hm
    cases Node.parallel_of_unplaced_eq hm
    refine fun s => ⟨_, s, ?_, .refl s, .boolean b⟩
    rw [Activation.eval, Node.start, Task.within_of_allows (hless hroom)]
    rfl
  | string text =>
    obtain ⟨fuel, rfl⟩ : ∃ k, fuel = k + 1 := ⟨fuel - 1, by omega⟩
    rw [literal] at hm
    cases Node.parallel_of_unplaced_eq hm with
    | string ht =>
      refine fun s => ⟨_, s, ?_, .refl s, .string text⟩
      rw [Activation.eval, Node.start, Task.within_of_allows (hless hroom), ht]
      rfl
  | number n =>
    obtain ⟨fuel, rfl⟩ := Nat.exists_eq_add_of_le' hfuel
    cases h with
    | number range => exact .number range hm (hliteral hroom)
  | array items ih =>
    obtain ⟨fuel, rfl⟩ : ∃ k, fuel = k + 1 := ⟨fuel - 1, by omega⟩
    cases h with
    | array writable =>
      cases h₀ with
      | array found shown =>
        rw [literal] at hm
        cases Node.parallel_of_unplaced_eq hm with
        | array hi =>
          rw [List.forall₂_map_left_iff] at hi
          refine .array (Limits.allows_mono ?_ hroom) (forall₂_imp_of_mem (fun n d hd hlike => ?_) hi.flip)
          · exact Nat.add_le_add_left (cost_array_ge _ _) _
          · obtain ⟨v, hv⟩ := exists_of_mem_right shown hd
            have hdepth := depth_lt_array hd
            have hneed := cost_of_depth_lt limits.costs hdepth
            exact ih d hd (writable d hd) hv hlike (by omega) (Limits.allows_mono (by omega) hroom)
  | record fields ih =>
    obtain ⟨fuel, rfl⟩ : ∃ k, fuel = k + 1 := ⟨fuel - 1, by omega⟩
    cases h with
    | record _ writable =>
      cases h₀ with
      | record found names distinct shown =>
        rw [literal] at hm
        cases Node.parallel_of_unplaced_eq hm with
        | record hk hv =>
          rw [List.forall₂_map_left_iff] at hk
          rw [List.map_map, List.forall₂_map_left_iff] at hv
          refine .record (Limits.allows_mono ?_ hroom) ?_ (names ▸ distinct) ?_
          · unfold cost
            omega
          · rw [← List.forall₂_eq_eq_eq, List.forall₂_map_left_iff, List.forall₂_map_right_iff]
            exact hk.flip.imp fun f f' hf => hf.1
          · rw [List.forall₂_map_right_iff]
            refine forall₂_imp_of_mem (fun n f hf hlike => ?_) hv.flip
            obtain ⟨v, hv⟩ := exists_of_mem_right shown (List.mem_map_of_mem hf)
            have hdepth := depth_lt_record hf
            have hneed := cost_of_depth_lt limits.costs hdepth
            exact ih f hf (writable f hf) hv hlike (by omega) (Limits.allows_mono (by omega) hroom)

end Evaluation

/-! The room that every host has. -/

section Room

variable [Host]

theorem Datum.depth_le_of_need {d : Datum} (h : (Node.giveBack (some d.literal) none).need ≤ Host.grammar) :
    d.depth ≤ 83 := by
  have hdepth := d.depth_le_room
  have hroom : d.room + 3 ≤ Host.grammar := h
  have hgrammar := Host.grammar_le
  unfold hostNesting at hgrammar
  omega

theorem Datum.cost_le_of_depth_le {d : Datum} (h : d.depth ≤ 83) : d.cost Host.costs ≤ 522 := by
  have hlist := Host.list_le
  have hliteral := Host.literal_le
  have hlevels : (4 + Host.costs.list) * d.depth ≤ 6 * 83 := Nat.mul_le_mul (by omega) h
  unfold cost
  omega

end Room

theorem Node.Yields.eval_giveBack {limits : Limits} {fuel : Nat} {scope : FrameId} {m : Node} {d : Datum}
    {p q : Option Place} (h : m.Yields limits fuel scope 8 d) (ha : limits.allows 4) (ha' : limits.allows 8)
    (s : Store) :
    ∃ w t, Activation.eval limits (fuel + 2) ⟨.sequence [.giveBack (some m) p] q, scope, 0⟩ s =
      some (.returned w, t) ∧ t.Shows w d := by
  obtain ⟨w, t, heval, -, hshows⟩ := h s
  refine ⟨w, t, ?_, hshows⟩
  simp only [Activation.eval, Node.start, Task.sequence, Task.value, Task.carryOut, Nat.zero_add, ha,
    Nat.reduceAdd, ha', if_true, heval, Task.onValue, Outcome.locate]

/-- Data that a source can write is rendered to a text that reads back: the source that returns it, run in a
    new root frame, ends with a value that shows the same datum, unless it is nested too deeply for the
    parser. -/
theorem rendered_data_reads_back [Host] {s : Store} {v : Value} {d : Datum} (hshows : s.Shows v d)
    (hwritable : d.Writable) :
    s.render none v = some d.text ∧
    ((∃ place, Program.parse ("return " ++ d.text ++ ";") = .error (.syntactic (.nestingTooDeep place))) ↔
      Host.grammar < (Node.giveBack (some d.literal) none).need) ∧
    ((Node.giveBack (some d.literal) none).need ≤ Host.grammar →
      s.render (some Host.shown) v = some d.text ∧
      ∀ (calls : Nat) (file : Option String) (start : Store), Program.nesting calls ≤ Program.maxNesting →
        ∃ steps w t, Program.run calls steps ("return " ++ d.text ++ ";") (start.newRoot file).1
            (start.newRoot file).2 = some (.ok w, t) ∧
          t.Shows w d) := by
  obtain ⟨m, p, q, hm, hparse, hrefused⟩ := hwritable.parse_eq
  refine ⟨hshows.render_eq (by simp), ?_, fun hneed => ⟨?_, fun calls file start hcalls => ?_⟩⟩
  · refine ⟨?_, hrefused⟩
    rintro ⟨place, hplace⟩
    refine Nat.lt_of_not_le fun hneed => ?_
    rw [hparse hneed] at hplace
    cases hplace
  · apply hshows.render_eq
    rintro _ ⟨⟩
    exact Nat.le_trans (d.depth_le_of_need hneed) (Nat.le_trans (by decide) Host.shown_ge)
  · have hcost := d.cost_le_of_depth_le (d.depth_le_of_need hneed)
    -- What the parser can read takes less room than every host grants.
    have hlimits := Program.allows_limits calls
    have hyields : m.Yields (Program.limits calls) (d.depth + 2) (start.newRoot file).1 8 d :=
      hwritable.yields hshows hm (Nat.le_refl _)
        (Limits.allows_mono (show 8 + d.cost Host.costs ≤ 896 by omega) hlimits)
    obtain ⟨w, t, heval, hw⟩ := hyields.eval_giveBack (p := p) (q := q) (Limits.allows_mono (by omega) hlimits)
      (Limits.allows_mono (by omega) hlimits) (start.newRoot file).2
    obtain ⟨steps, hsteps⟩ := Machine.evaluate_iff.2 ⟨_, heval⟩
    refine ⟨steps, w, t, ?_, hw⟩
    rw [Program.run, hparse hneed]
    dsimp only
    rw [Program.execute, if_neg (Nat.not_lt.2 hcalls), hsteps]
    rfl

theorem rendered_data_reads_back_nested :
    let d := Datum.array
      [.number (-2147483647), .record [("k_1", .string "a\n//b"), ("é", .boolean true)], .array [], .array []]
    let s : Store :=
      ⟨#[], #[#[.number (-2147483647), .record ⟨0⟩, .array ⟨1⟩, .array ⟨1⟩], #[]],
        #[⟨[("k_1", .string "a\n//b"), ("é", .boolean true)]⟩], ""⟩
    s.Shows (.array ⟨0⟩) d ∧ d.Writable ∧
      s.render (some Host.shown) (.array ⟨0⟩) =
        some "[-2147483647, \x7bk_1: \"a\n//b\", é: true\x7d, [], []]" ∧
      ∃ steps w t, Program.run 50 steps "return [-2147483647, \x7bk_1: \"a\n//b\", é: true\x7d, [], []];"
          (Store.empty.newRoot none).1 (Store.empty.newRoot none).2 = some (.ok w, t) ∧
        t.Shows w d := by
  intro d s
  have hshows : s.Shows (.array ⟨0⟩) d := by
    refine .array rfl (.cons (.number _) (.cons (.record rfl rfl (by decide) ?_) (.cons ?_ (.cons ?_ .nil))))
    · exact .cons (.string _) (.cons (.boolean _) .nil)
    · exact .array rfl .nil
    · exact .array rfl .nil
  have hnames : Token.isIdentifier "k_1" ∧ Token.isIdentifier "é" := ⟨by cbv, by decide +kernel⟩
  have hwritable : d.Writable := by
    have hrecord : Datum.Writable (.record [("k_1", .string "a\n//b"), ("é", .boolean true)]) := by
      refine .record (List.forall_mem_cons.2 ⟨hnames.1, List.forall_mem_singleton.2 hnames.2⟩) ?_
      refine List.forall_mem_cons.2 ⟨.string ?_, List.forall_mem_singleton.2 (.boolean true)⟩
      simp
    have hempty : Datum.Writable (.array []) := .array (List.forall_mem_nil _)
    refine .array (List.forall_mem_cons.2 ⟨.number (by decide), List.forall_mem_cons.2 ⟨hrecord, ?_⟩⟩)
    exact List.forall_mem_cons.2 ⟨hempty, List.forall_mem_singleton.2 hempty⟩
  have htext : d.text = "[-2147483647, \x7bk_1: \"a\n//b\", é: true\x7d, [], []]" := by
    cbv
  obtain ⟨-, -, hread⟩ := rendered_data_reads_back hshows hwritable
  obtain ⟨hrender, hrun⟩ := hread (by cbv)
  rw [htext] at hrender hrun
  exact ⟨hshows, hwritable, hrender, hrun 50 none .empty (by decide)⟩

end Scripting
