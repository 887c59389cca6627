import Mathlib.Data.List.Forall2
import Scripting.Proofs.Evaluation.Contract

/-!
Nodes of the same form. Two nodes are parallel if they follow the same rule of evaluation and agree in
everything but places, names and the nodes under them; what is to hold of those is left open.
-/

set_option autoImplicit false

namespace Scripting.Node

/-- The nodes have the same form. `P` holds of their places, `N` of the names they use, `R` of the nodes
    under them that are evaluated in the same frame, and `Q` of the others: statements of a block and
    the body of a function. -/
inductive Parallel (P : Option Place → Option Place → Prop) (N : Word → Word → Prop)
    (R Q : Node → Node → Prop) : Node → Node → Prop where
  | number {w w' : Word} (ht : w'.text = w.text) (hp : P w.place w'.place) :
      Parallel P N R Q (.number w) (.number w')
  | string {w w' : Word} (ht : w'.text = w.text) (hp : P w.place w'.place) :
      Parallel P N R Q (.string w) (.string w')
  | boolean {b : Bool} {w w' : Word} (ht : w'.text = w.text) (hp : P w.place w'.place) :
      Parallel P N R Q (.boolean b w) (.boolean b w')
  | name {w w' : Word} (hw : N w w') (hp : P w.place w'.place) :
      Parallel P N R Q (.name w) (.name w')
  | binary {op : Operator} {l l' r r' : Node} {p p' : Option Place} (hl : R l l') (hr : R r r')
      (hp : P p p') : Parallel P N R Q (.binary op l r p) (.binary op l' r' p')
  | negate {e e' : Node} {p p' : Option Place} (he : R e e') (hp : P p p') :
      Parallel P N R Q (.negate e p) (.negate e' p')
  | array {items items' : List Node} {p p' : Option Place} (hi : List.Forall₂ R items items')
      (hp : P p p') : Parallel P N R Q (.array items p) (.array items' p')
  | record {fields fields' : List (Field Node)} {p p' : Option Place}
      (hk : List.Forall₂ (fun f f' => f'.key.text = f.key.text ∧ P f.key.place f'.key.place ∧
        P f.place f'.place) fields fields')
      (hv : List.Forall₂ R (fields.map (·.value)) (fields'.map (·.value))) (hp : P p p') :
      Parallel P N R Q (.record fields p) (.record fields' p')
  | item {b b' k k' : Node} {p p' : Option Place} (hb : R b b') (hk : R k k') (hp : P p p') :
      Parallel P N R Q (.item b k p) (.item b' k' p')
  | call {c c' : Node} {args args' : List Node} {q q' p p' : Option Place} (hc : R c c')
      (ha : List.Forall₂ R args args') (hq : P q q') (hp : P p p') :
      Parallel P N R Q (.call c args q p) (.call c' args' q' p')
  | methodCall {r r' k k' : Node} {args args' : List Node} {q q' p p' : Option Place} (hr : R r r')
      (hk : R k k') (ha : List.Forall₂ R args args') (hq : P q q') (hp : P p p') :
      Parallel P N R Q (.methodCall r k args q p) (.methodCall r' k' args' q' p')
  | assign {w w' : Word} {v v' : Node} {p p' : Option Place} (hw : N w w') (hv : R v v')
      (hp : P p p') : Parallel P N R Q (.assign w v p) (.assign w' v' p')
  | setItem {b b' k k' v v' : Node} {p p' : Option Place} (hb : R b b') (hk : R k k') (hv : R v v')
      (hp : P p p') : Parallel P N R Q (.setItem b k v p) (.setItem b' k' v' p')
  | sequence {body body' : List Node} {p p' : Option Place} (hb : List.Forall₂ R body body')
      (hp : P p p') : Parallel P N R Q (.sequence body p) (.sequence body' p')
  | block {body body' : List Node} {p p' : Option Place} (hb : List.Forall₂ Q body body')
      (hp : P p p') : Parallel P N R Q (.block body p) (.block body' p')
  | expression {e e' : Node} {p p' : Option Place} (he : R e e') (hp : P p p') :
      Parallel P N R Q (.expression e p) (.expression e' p')
  | declare {w w' : Word} {init init' : Option Node} {p p' : Option Place} (hw : N w w')
      (hi : Option.Rel R init init') (hp : P p p') :
      Parallel P N R Q (.declare w init p) (.declare w' init' p')
  | function {w w' : Word} {params params' : Parameters} {body body' : Node} {p p' : Option Place}
      (hw : N w w') (hn : List.Forall₂ N params.names params'.names)
      (hq : P params.place params'.place) (hb : Q body body') (hp : P p p') :
      Parallel P N R Q (.function w params body p) (.function w' params' body' p')
  | print {e e' : Node} {p p' : Option Place} (he : R e e') (hp : P p p') :
      Parallel P N R Q (.print e p) (.print e' p')
  | giveBack {value value' : Option Node} {p p' : Option Place} (hv : Option.Rel R value value')
      (hp : P p p') : Parallel P N R Q (.giveBack value p) (.giveBack value' p')
  | loop {c c' b b' : Node} {p p' : Option Place} (hc : R c c') (hb : R b b') (hp : P p p') :
      Parallel P N R Q (.loop c b p) (.loop c' b' p')
  | branch {c c' yes yes' no no' : Node} {p p' : Option Place} (hc : R c c') (hy : R yes yes')
      (hn : R no no') (hp : P p p') : Parallel P N R Q (.branch c yes no p) (.branch c' yes' no' p')
  | malformed {defect : Defect} {p p' : Option Place} (hp : P p p') :
      Parallel P N R Q (.malformed defect p) (.malformed defect p')

def marks : Node → List (Option Place)
  | .record fields p => p :: fields.flatMap fun f => [f.key.place, f.place]
  | .call _ _ q p | .methodCall _ _ _ q p => [p, q]
  | .function _ params _ p => [p, params.place]
  | n => [n.place]

namespace Parallel

variable {P : Option Place → Option Place → Prop} {N : Word → Word → Prop} {R Q : Node → Node → Prop}
  {n n' : Node}

theorem place (h : n.Parallel P N R Q n') : P n.place n'.place := by
  cases h <;> assumption

theorem refl (hP : ∀ p, P p p) (hN : ∀ w, N w w) (hR : ∀ c ∈ n.operands, R c c)
    (hQ : ∀ c ∈ n.children, Q c c) : n.Parallel P N R Q n := by
  cases n with
  | array items p => exact .array (List.forall₂_same.2 hR) (hP p)
  | record fields p =>
    refine .record (List.forall₂_same.2 fun f _ => ⟨rfl, hP _, hP _⟩) ?_ (hP p)
    exact List.forall₂_same.2 hR
  | call c args q p =>
    exact .call (hR c List.mem_cons_self)
      (List.forall₂_same.2 fun a ha => hR a (List.mem_cons_of_mem _ ha)) (hP q) (hP p)
  | methodCall r k args q p =>
    refine .methodCall (hR r List.mem_cons_self) (hR k (List.mem_cons_of_mem _ List.mem_cons_self))
      (List.forall₂_same.2 fun a ha => hR a ?_) (hP q) (hP p)
    exact List.mem_cons_of_mem _ (List.mem_cons_of_mem _ ha)
  | sequence body p => exact .sequence (List.forall₂_same.2 hR) (hP p)
  | block body p => exact .block (List.forall₂_same.2 hQ) (hP p)
  | declare w init p =>
    refine .declare (hN w) ?_ (hP p)
    cases init with
    | none => exact .none
    | some e => exact .some (hR e (List.mem_singleton_self e))
  | giveBack value p =>
    refine .giveBack ?_ (hP p)
    cases value with
    | none => exact .none
    | some e => exact .some (hR e (List.mem_singleton_self e))
  | function w params body p =>
    exact .function (hN w) (List.forall₂_same.2 fun v _ => hN v) (hP _)
      (hQ body (List.mem_singleton_self body)) (hP p)
  | _ =>
    constructor <;> first
      | rfl
      | exact hP _
      | exact hN _
      | exact hR _ (by simp [operands, children])

theorem forall₂_imp_mem {R' : Node → Node → Prop} {l l' : List Node} (h : List.Forall₂ R l l')
    (hR : ∀ c c', c ∈ l → R c c' → R' c c') : List.Forall₂ R' l l' :=
  ((List.forall₂_and_left _ _).2 ⟨fun _ hc => hc, h⟩).imp fun c c' hc => hR c c' hc.1 hc.2

theorem exchange {P' : Option Place → Option Place → Prop} {N' : Word → Word → Prop}
    {R' Q' : Node → Node → Prop} (h : n.Parallel P N R Q n')
    (hP : ∀ p p', p ∈ n.marks → P p p' → P' p p') (hN : ∀ w w', N w w' → N' w w')
    (hR : ∀ c c', c ∈ n.operands → R c c' → R' c c') (hQ : ∀ c c', c ∈ n.children → Q c c' → Q' c c') :
    n.Parallel P' N' R' Q' n' := by
  cases h with
  | array hi hp => exact .array (forall₂_imp_mem hi hR) (hP _ _ (List.mem_singleton_self _) hp)
  | @record fields fields' p p' hk hv hp =>
    refine .record ?_ (forall₂_imp_mem hv hR) (hP _ _ List.mem_cons_self hp)
    refine ((List.forall₂_and_left _ _).2 ⟨fun f hf => hf, hk⟩).imp ?_
    rintro f f' ⟨hf, ht, hkey, hplace⟩
    refine ⟨ht, hP _ _ (List.mem_cons_of_mem _ ?_) hkey, hP _ _ (List.mem_cons_of_mem _ ?_) hplace⟩ <;>
      exact List.mem_flatMap.2 ⟨f, hf, by simp⟩
  | call hc ha hq hp =>
    exact .call (hR _ _ List.mem_cons_self hc)
      (forall₂_imp_mem ha fun a a' hm => hR a a' (List.mem_cons_of_mem _ hm))
      (hP _ _ (by simp [marks]) hq) (hP _ _ (by simp [marks]) hp)
  | methodCall hr hk ha hq hp =>
    refine .methodCall (hR _ _ List.mem_cons_self hr)
      (hR _ _ (List.mem_cons_of_mem _ List.mem_cons_self) hk)
      (forall₂_imp_mem ha fun a a' hm => hR a a' ?_)
      (hP _ _ (by simp [marks]) hq) (hP _ _ (by simp [marks]) hp)
    exact List.mem_cons_of_mem _ (List.mem_cons_of_mem _ hm)
  | sequence hb hp => exact .sequence (forall₂_imp_mem hb hR) (hP _ _ (List.mem_singleton_self _) hp)
  | block hb hp => exact .block (forall₂_imp_mem hb hQ) (hP _ _ (List.mem_singleton_self _) hp)
  | declare hw hi hp =>
    refine .declare (hN _ _ hw) ?_ (hP _ _ (List.mem_singleton_self _) hp)
    cases hi with
    | none => exact .none
    | some he => exact .some (hR _ _ (List.mem_singleton_self _) he)
  | giveBack hv hp =>
    refine .giveBack ?_ (hP _ _ (List.mem_singleton_self _) hp)
    cases hv with
    | none => exact .none
    | some he => exact .some (hR _ _ (List.mem_singleton_self _) he)
  | function hw hn hq hb hp =>
    exact .function (hN _ _ hw) (hn.imp hN) (hP _ _ (by simp [marks]) hq)
      (hQ _ _ (List.mem_singleton_self _) hb) (hP _ _ (by simp [marks]) hp)
  | _ =>
    constructor <;> first
      | assumption
      | (apply hN; assumption)
      | (apply hR
         · simp [operands, children]
         · assumption)
      | exact hP _ _ (List.mem_singleton_self _) ‹_›

theorem imp {N' : Word → Word → Prop} {R' Q' : Node → Node → Prop} (h : n.Parallel P N R Q n')
    (hN : ∀ w w', N w w' → N' w w') (hR : ∀ c c', c ∈ n.operands → R c c' → R' c c')
    (hQ : ∀ c c', Q c c' → Q' c c') : n.Parallel P N' R' Q' n' :=
  h.exchange (fun _ _ _ hp => hp) hN hR fun c c' _ => hQ c c'

end Parallel

end Scripting.Node
