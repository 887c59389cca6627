import Scripting.Proofs.Grammar.Places

/-!
Two texts with a line feed between them. What each of them is read to does not change, except that the
second one stands lower: nothing at the end of the first text goes on in the second one.
-/

set_option autoImplicit false

namespace Scripting

def Position.lower (lines : Nat) (p : Position) : Position := ⟨p.line + lines, p.column⟩

def Place.lower (lines : Nat) (p : Place) : Place := ⟨p.line + lines, p.column⟩

def Relocation.lower (lines : Nat) : Relocation where
  position := .lower lines
  place := Option.map (.lower lines)
  place_eq _ := rfl

def Program.lines (source : String) : Nat := source.toList.count '\n' + 1

theorem Position.behind_lower (text cs : List Char) :
    behind (text ++ '\n' :: cs) = (behind cs).lower (text.count '\n' + 1) := by
  have hcolumn : (text ++ '\n' :: cs).reverse.takeWhile (· ≠ '\n') = cs.reverse.takeWhile (· ≠ '\n') := by
    rw [List.reverse_append, List.reverse_cons, List.append_assoc, List.takeWhile_append]
    split
    · rename_i hall
      have heq := (List.takeWhile_prefix _).eq_of_length hall
      rw [heq]
      simp
    · rfl
  have hline : (text ++ '\n' :: cs).count '\n' = cs.count '\n' + (text.count '\n' + 1) := by
    rw [List.count_append, List.count_cons_self]
    omega
  rw [behind, hline, hcolumn]
  exact congrArg (Position.mk · _) (Nat.add_assoc 1 _ _).symm

namespace Token

/-! Scanning. -/

section Follow

variable {cs rest : List Char} (after : List Char)

theorem head_append_newline {p : Char → Prop} (h : ∀ c ∈ rest.head?, p c) (hp : p '\n') :
    ∀ c ∈ (rest ++ '\n' :: after).head?, p c := by
  cases rest with
  | nil =>
    rintro _ ⟨⟩
    exact hp
  | cons c rest => exact h

theorem prefix_of_append_newline {l : List Char} (h : l <+: cs ++ '\n' :: after) (hl : '\n' ∉ l) :
    l <+: cs := by
  rcases Nat.lt_or_ge cs.length l.length with hlt | hge
  · -- the line feed would be part of a longer prefix
    have hwhole : cs ++ ['\n'] <+: l :=
      List.prefix_of_prefix_length_le (by simp) h (by rw [List.length_append]; exact hlt)
    exact absurd (hwhole.mem (by simp)) hl
  · exact List.prefix_of_prefix_length_le h (List.prefix_append _ _) hge

theorem Gap.append_newline (h : Gap cs rest) : Gap cs (rest ++ '\n' :: after) := by
  cases h with
  | blank h => exact .blank h
  | comment htext stop => exact .comment htext (head_append_newline after stop (.inl rfl))

theorem Spells.append_newline {kind : Kind} {text : String} (h : Spells cs rest kind text) :
    Spells cs (rest ++ '\n' :: after) kind text := by
  cases h with
  | string h => exact .string h
  | number hne hdigits hlength hmax stop =>
    exact .number hne hdigits hlength hmax (head_append_newline after stop (by decide))
  | word hc hcs stop => exact .word hc hcs (head_append_newline after stop (by decide))
  | sign h longest =>
    refine .sign h fun e he hpre => longest e he ?_
    have hall : ∀ e ∈ signs, '\n' ∉ e.1 := by decide
    rw [← List.append_assoc] at hpre
    exact prefix_of_append_newline after hpre (hall e he)

end Follow

namespace Tiled

variable {read rest before : List Char} {tiles seen : List (Nat × Token)}

theorem append_newline (h : Tiled read rest tiles) (after : List Char) :
    Tiled read (rest ++ '\n' :: after) tiles := by
  induction h with
  | nil => exact .nil _
  | gap _ hgap ih =>
    rw [List.append_assoc] at ih
    exact ih.gap (hgap.append_newline after)
  | lexeme _ hspells ih =>
    rw [List.append_assoc] at ih
    exact ih.lexeme (hspells.append_newline after)

/-- What is tiled is tiled in the same way below another text. -/
theorem lowered (h : Tiled read rest tiles) (hbefore : Tiled (before ++ ['\n']) (read ++ rest) seen) :
    ∃ more, Tiled (before ++ '\n' :: read) rest (seen ++ more) ∧
      more.map (·.2) = (tiles.map (·.2)).map (Token.relocate (.lower (before.count '\n' + 1))) := by
  induction h with
  | nil => exact ⟨[], by rwa [List.append_nil], rfl⟩
  | @gap read cs rest tiles _ hgap ih =>
    rw [List.append_assoc] at hbefore
    obtain ⟨more, hmore, hface⟩ := ih hbefore
    refine ⟨more, ?_, hface⟩
    have hall := hmore.gap hgap
    rwa [List.append_assoc] at hall
  | @lexeme read cs rest tiles kind text _ hspells ih =>
    rw [List.append_assoc] at hbefore
    obtain ⟨more, hmore, hface⟩ := ih hbefore
    have hall := hmore.lexeme hspells
    rw [List.append_assoc, List.append_assoc, Position.behind_lower] at hall
    refine ⟨_, hall, ?_⟩
    rw [List.map_append, hface, List.map_append, List.map_append]
    rfl

end Tiled

end Token

namespace Grammar

theorem Derives.append {depth : Nat} {ts us : List Token} {ns ms : List Node}
    (h : Derives depth .statements ts ns) (h' : Derives depth .statements us ms) :
    Derives depth .statements (ts ++ us) (ns ++ ms) := by
  obtain ⟨d, hd⟩ := h
  induction ns generalizing ts with
  | nil =>
    cases d
    exact h'
  | cons n ns ih =>
    cases d with
    | moreStatements first others =>
      obtain ⟨hfirst, hothers⟩ := Nat.max_le.1 hd
      rw [List.append_assoc]
      exact .moreStatements ⟨first, hfirst⟩ (ih others hothers)

theorem Derives.relocate {depth : Nat} {ts : List Token} {ns : List Node} (r : Relocation)
    (h : Derives depth .statements ts ns) :
    Derives depth .statements (ts.map (Token.relocate r.position)) (ns.map (Node.relocate r.place)) := by
  obtain ⟨d, hd⟩ := h
  have hts := d.ne_eof (by simp)
  have hts' : ∀ t ∈ ts.map (Token.relocate r.position), t.kind ≠ .eof := List.forall_mem_map.2 hts
  have hmark (p : Position) : (Token.endMark p).kind = .eof := rfl
  have hprogram := (program_append_eq_ok_iff hts (hmark .start)).2 ⟨ns, ⟨d, hd⟩, rfl⟩
  have hmoved : program depth (ts.map (Token.relocate r.position) ++ [Token.endMark (r.position .start)]) =
      .ok (.sequence (ns.map (Node.relocate r.place))
        (r.place (Grammar.startOf (ts ++ [Token.endMark .start])))) := by
    have hmap : program depth ((ts ++ [Token.endMark .start]).map (Token.relocate r.position)) = _ :=
      program_relocate r depth (by simp)
    rw [hprogram, List.map_append] at hmap
    rw [← Node.relocateAll_eq_map]
    exact hmap
  obtain ⟨ms, hms, heq⟩ := (program_append_eq_ok_iff hts' (hmark _)).1 hmoved
  rwa [(Node.sequence.inj heq).1]

end Grammar

/-- Texts that are accepted are accepted together, with a line feed between them, and the statements of the
    second one follow those of the first, lower by its lines. -/
theorem Program.parse_join [Host] {a b : String} {m n : Node} (ha : parse a = .ok m) (hb : parse b = .ok n) :
    ∃ p, parse (a ++ "\n" ++ b) =
      .ok (.sequence (m.statements ++ n.statements.map (.relocate (Relocation.lower (lines a)).place)) p) := by
  obtain ⟨tiles, ms, htiles, hms, rfl⟩ := parse_eq_ok_iff.1 ha
  obtain ⟨tiles', ns, htiles', hns, rfl⟩ := parse_eq_ok_iff.1 hb
  have htext : (a ++ "\n" ++ b).toList = a.toList ++ '\n' :: b.toList := by
    simp
  have hfirst : Token.Tiled (a.toList ++ ['\n']) (b.toList ++ []) tiles := by
    have hnewline : Token.Tiled a.toList (['\n'] ++ b.toList) tiles := htiles.append_newline b.toList
    rw [List.append_nil]
    exact hnewline.gap (.blank (by decide))
  obtain ⟨more, hmore, hface⟩ := htiles'.lowered hfirst
  refine ⟨_, parse_eq_ok_iff.2 ⟨_, _, htext ▸ hmore, ?_, rfl⟩⟩
  rw [List.map_append, hface]
  exact hms.append (hns.relocate (.lower (lines a)))

end Scripting
