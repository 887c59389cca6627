import Scripting.Program
import Scripting.Proofs.Grammar.Printing
import Scripting.Proofs.Grammar.Relocation
import Scripting.Proofs.Token.Tiling

/-!
Where the nodes of a program stand. A tree that was read from a text is that of its statements, and every
node in it, those that no phrase was written for included, stands at a token of the text.
-/

set_option autoImplicit false

namespace Scripting

/-! From a text to the statements in it. -/

namespace Token

theorem Kind.ofWord_ne_eof (word : String) : Kind.ofWord word ≠ .eof := by
  unfold Kind.ofWord
  cases hw : keywords.lookup word with
  | none => decide
  | some kind =>
    obtain ⟨before, after, heq, -⟩ := List.lookup_eq_some_iff.1 hw
    have hall : ∀ e ∈ keywords, e.2 ≠ .eof := by decide
    exact hall (word, kind) (by simp [heq])

theorem Spells.kind_ne_eof {cs rest : List Char} {kind : Kind} {text : String}
    (h : Spells cs rest kind text) : kind ≠ .eof := by
  cases h with
  | string | number => decide
  | word => exact Kind.ofWord_ne_eof _
  | sign h =>
    have hall : ∀ e ∈ signs, e.2 ≠ .eof := by decide
    exact hall _ h

theorem Tiled.kind_ne_eof {read rest : List Char} {tiles : List (Nat × Token)}
    (h : Tiled read rest tiles) : ∀ t ∈ tiles.map (·.2), t.kind ≠ .eof := by
  induction h with
  | nil => exact List.forall_mem_nil _
  | gap _ _ ih => exact ih
  | lexeme _ hspells ih =>
    rw [List.map_append, List.forall_mem_append]
    exact ⟨ih, List.forall_mem_singleton.2 hspells.kind_ne_eof⟩

end Token

namespace Grammar

theorem program_append_eq_ok_iff {body : List Token} {mark : Token}
    (hbody : ∀ t ∈ body, t.kind ≠ .eof) (hmark : mark.kind = .eof) {depth : Nat} {n : Node} :
    program depth (body ++ [mark]) = .ok n ↔
      ∃ ns, Derives depth .statements body ns ∧ n = .sequence ns (startOf (body ++ [mark])) := by
  constructor
  · intro h
    have hsound := program_sound h
    rw [Stream.ahead_append hbody hmark, Stream.endOf_append hbody hmark] at hsound
    obtain ⟨d, hd⟩ := hsound
    obtain ⟨us, last, ns, e, heq, rfl, hheight⟩ := d.program_inv
    obtain ⟨rfl, -⟩ := List.append_inj' heq rfl
    exact ⟨ns, ⟨e, hheight ▸ hd⟩, rfl⟩
  · rintro ⟨ns, ⟨d, hd⟩, rfl⟩
    exact eq_of_settled_within (program_eq_of_derivation (Stream.ahead_append hbody hmark)
      (Stream.endOf_append hbody hmark) (.program d ⟨mark, hmark⟩) depth) hd

end Grammar

theorem Program.parse_eq_ok_iff [Host] {source : String} {n : Node} :
    parse source = .ok n ↔ ∃ tiles ns, Token.Tiled source.toList [] tiles ∧
      Grammar.Derives Host.grammar .statements (tiles.map (·.2)) ns ∧
      n = .sequence ns (Grammar.startOf (tiles.map (·.2) ++ [Token.endMark (.behind source.toList)])) := by
  have hparse {tokens : List Token} (h : Token.scan source = .ok tokens) :
      parse source = .ok n ↔ Grammar.program Host.grammar tokens = .ok n := by
    rw [parse, h]
    change Except.mapError _ (Grammar.program Host.grammar tokens) = _ ↔ _
    cases Grammar.program Host.grammar tokens with
    | error e => simp [Except.mapError]
    | ok m => simp [Except.mapError]
  constructor
  · intro h
    cases hs : Token.scan source with
    | error e =>
      rw [parse, hs] at h
      cases h
    | ok tokens =>
      obtain ⟨tiles, ht, rfl⟩ := Token.scan_eq_ok_iff.1 hs
      obtain ⟨ns, hns, rfl⟩ := (Grammar.program_append_eq_ok_iff ht.kind_ne_eof rfl).1 ((hparse hs).1 h)
      exact ⟨tiles, ns, ht, hns, rfl⟩
  · rintro ⟨tiles, ns, ht, hns, rfl⟩
    rw [hparse (Token.scan_of_tiled ht)]
    exact (Grammar.program_append_eq_ok_iff ht.kind_ne_eof rfl).2 ⟨ns, hns, rfl⟩

/-! Nodes that a relocation leaves where they are. -/

namespace Node

theorem Parallel.self_child {P : Option Place → Option Place → Prop} {N : Word → Word → Prop}
    {R : Node → Node → Prop} {n : Node} (h : n.Parallel P N R R n) : ∀ c ∈ n.children, R c c := by
  cases h with
  | array hi | sequence hi | block hi => exact List.forall₂_same.1 hi
  | record _ hv => exact List.forall₂_same.1 hv
  | call hc ha => exact List.forall_mem_cons.2 ⟨hc, List.forall₂_same.1 ha⟩
  | methodCall hr hk ha =>
    exact List.forall_mem_cons.2 ⟨hr, List.forall_mem_cons.2 ⟨hk, List.forall₂_same.1 ha⟩⟩
  | declare _ hi | giveBack hi =>
    intro c hc
    cases hi with
    | none => cases hc
    | some he => rwa [List.mem_singleton.1 hc]
  | _ => simp [children, *]

variable {f : Option Place → Option Place} {n : Node}

theorem place_relocate : (n.relocate f).place = f n.place :=
  (parallel_relocate f n).place

theorem everywhere_of_relocate_eq (h : n.relocate f = n) : n.Everywhere fun m => f m.place = m.place := by
  intro m hm
  induction hm with
  | refl => exact (place_relocate (f := f)).symm.trans (congrArg place h)
  | @child c n hc _ ih =>
    have hn := parallel_relocate f n
    rw [h] at hn
    exact ih (hn.self_child c hc).symm

end Node

/-- The tokens stay where they are, and all else goes to one position. -/
def Relocation.keeping (tokens : List Token) (away : Position) : Relocation where
  position p := if p ∈ tokens.map (·.position) then p else away
  place q := if q ∈ tokens.map Token.place then q else some away.place
  place_eq p := by
    have hmem : some p.place ∈ tokens.map Token.place ↔ p ∈ tokens.map (·.position) := by
      simp only [List.mem_map]
      refine exists_congr fun t => and_congr_right fun _ => ⟨fun h => ?_, fun h => h ▸ rfl⟩
      obtain ⟨hline, hcolumn⟩ := Place.mk.inj (Option.some.inj h)
      exact congrArg₂ Position.mk hline (Option.some.inj hcolumn)
    by_cases h : p ∈ tokens.map (·.position)
    · rw [if_pos h, if_pos (hmem.2 h)]
    · rw [if_neg h, if_neg (mt hmem.1 h)]

namespace Grammar

variable {depth : Nat} {n : Node}

theorem relocate_keeping_eq {tokens : List Token} (hne : tokens ≠ []) (h : program depth tokens = .ok n)
    (away : Position) : n.relocate (Relocation.keeping tokens away).place = n := by
  have hsame : tokens.map (Token.relocate (Relocation.keeping tokens away).position) = tokens := by
    conv_rhs => rw [← List.map_id tokens]
    refine List.map_congr_left fun t ht => ?_
    have hmem : t.position ∈ tokens.map (·.position) := List.mem_map_of_mem ht
    exact congrArg (Token.mk t.kind t.text) (if_pos hmem)
  have hmoved := program_relocate (.keeping tokens away) depth fun h => absurd h hne
  rw [hsame, h] at hmoved
  exact (Except.ok.inj hmoved).symm

/-- A node that stands where no token does would move with every relocation that keeps the tokens. -/
theorem placed_of_program {tokens : List Token} (hne : tokens ≠ []) (h : program depth tokens = .ok n) :
    n.Everywhere fun m => ∃ t ∈ tokens, m.place = t.place := by
  intro m hm
  have hfirst := Node.everywhere_of_relocate_eq (relocate_keeping_eq hne h ⟨0, 0⟩) m hm
  have hsecond := Node.everywhere_of_relocate_eq (relocate_keeping_eq hne h ⟨0, 1⟩) m hm
  by_cases hplace : m.place ∈ tokens.map Token.place
  · obtain ⟨t, ht, heq⟩ := List.mem_map.1 hplace
    exact ⟨t, ht, heq.symm⟩
  · simp only [Relocation.keeping, if_neg hplace] at hfirst hsecond
    rw [← hfirst] at hsecond
    cases hsecond

theorem Derives.exists_cons {ts : List Token} {ns : List Node} (h : Derives depth .statements ts ns)
    (hne : ns ≠ []) : ∃ t us, ts = t :: us := by
  obtain ⟨d, -⟩ := h
  cases d with
  | noStatements => exact absurd rfl hne
  | @moreStatements _ ts _ us _ first =>
    obtain ⟨t, vs, rfl, -⟩ := first.starts rfl
    exact ⟨t, vs ++ us, rfl⟩

theorem Derives.placed {ts : List Token} {ns : List Node} (h : Derives depth .statements ts ns) :
    ∀ n ∈ ns, n.Everywhere fun m => ∃ t ∈ ts, m.place = t.place := by
  intro n hn m hm
  obtain ⟨t, us, rfl⟩ := h.exists_cons (List.ne_nil_of_mem hn)
  obtain ⟨d, hd⟩ := h
  -- with an end mark at the first token, the end of the program is no place of its own
  have hprogram : program depth (t :: us ++ [Token.endMark t.position]) =
      .ok (.sequence ns (Grammar.startOf (t :: us ++ [Token.endMark t.position]))) :=
    (program_append_eq_ok_iff (d.ne_eof (by simp)) rfl).2 ⟨ns, ⟨d, hd⟩, rfl⟩
  obtain ⟨u, hu, hplace⟩ := placed_of_program (by simp) hprogram m (.child hn hm)
  rcases List.mem_append.1 hu with hu | hu
  · exact ⟨u, hu, hplace⟩
  · rw [List.mem_singleton.1 hu] at hplace
    exact ⟨t, List.mem_cons_self, hplace⟩

end Grammar

theorem Program.placed_of_parse [Host] {source : String} {n : Node} (h : parse source = .ok n)
    (hne : n.statements ≠ []) :
    ∃ tokens, Token.scan source = .ok tokens ∧
      n.Everywhere fun m => ∃ t ∈ tokens, t.kind ≠ .eof ∧ m.place = t.place := by
  obtain ⟨tiles, ns, ht, hns, rfl⟩ := parse_eq_ok_iff.1 h
  have hbody {m : Node} : (∃ t ∈ tiles.map (·.2), m.place = t.place) →
      ∃ t ∈ tiles.map (·.2) ++ [Token.endMark (.behind source.toList)], t.kind ≠ .eof ∧ m.place = t.place := by
    rintro ⟨t, hmem, hplace⟩
    exact ⟨t, List.mem_append_left _ hmem, ht.kind_ne_eof t hmem, hplace⟩
  refine ⟨_, Token.scan_of_tiled ht, fun m hm => hbody ?_⟩
  cases hm with
  | refl =>
    obtain ⟨t, us, heq⟩ := hns.exists_cons hne
    rw [heq]
    exact ⟨t, List.mem_cons_self, rfl⟩
  | child hc hm => exact hns.placed _ hc m hm

end Scripting
