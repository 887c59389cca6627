import Mathlib
import Scripting.Program
import Scripting.Proofs.Evaluation.Strictness

/-!
Limits only cut runs off. Under higher limits every rule takes the same step, unless it runs into the lower
ones; and since no rule handles a failure, a run that does not end for want of resources has not run into
them anywhere.
-/

set_option autoImplicit false

namespace Scripting

structure Limits.AtMost (low high : Limits) : Prop where
  costs : low.costs = high.costs
  calls : low.calls ≤ high.calls
  nesting {most : Nat} : high.nesting = some most → ∃ least ≤ most, low.nesting = some least

namespace Outcome

def isCutOff : Outcome → Bool
  | .aborted cause => cause.isStack
  | _ => false

def isExhausted : Outcome → Bool
  | .failed failure => failure.fault.kind = .resourceExhausted
  | out => out.isCutOff

theorem isFailure_of_isCutOff {out : Outcome} (h : out.isCutOff) : out.isFailure := by
  cases out with
  | aborted => rfl
  | _ => cases h

theorem isCutOff_locate (out : Outcome) (place : Option Place) :
    (out.locate place).isCutOff = out.isCutOff := by
  cases out <;> rfl

theorem isFailure_of_isExhausted {out : Outcome} (h : out.isExhausted) : out.isFailure := by
  cases out with
  | failed | aborted => rfl
  | _ => cases h

theorem isExhausted_locate (out : Outcome) (place : Option Place) :
    (out.locate place).isExhausted = out.isExhausted := by
  cases out <;> rfl

end Outcome

/-! More room lets the same text be printed. -/

theorem mapM_of_imp {α β : Type} {f g : α → Option β} (h : ∀ a b, f a = some b → g a = some b)
    {l : List α} {r : List β} (hr : l.mapM f = some r) : l.mapM g = some r := by
  induction l generalizing r with
  | nil => exact hr
  | cons a l ih =>
    rw [List.mapM_cons] at hr ⊢
    obtain ⟨b, hb, hr⟩ := Option.bind_eq_some_iff.1 hr
    obtain ⟨bs, hbs, hr⟩ := Option.bind_eq_some_iff.1 hr
    rw [h a b hb, ih hbs]
    exact hr

namespace Store

theorem renderWithin_mono (s : Store) {depth more : Nat} (hle : depth ≤ more) {v : Value}
    {text : String} (h : s.renderWithin depth v = some text) : s.renderWithin more v = some text := by
  induction depth generalizing more v text with
  | zero =>
    cases v with
    | array | record => cases h
    | _ => cases more <;> exact h
  | succ depth ih =>
    obtain ⟨more, rfl⟩ := Nat.exists_eq_succ_of_ne_zero (Nat.ne_of_gt (Nat.lt_of_lt_of_le depth.succ_pos hle))
    have hle := Nat.le_of_succ_le_succ hle
    cases v with
    | array a =>
      obtain ⟨texts, htexts, h⟩ := Option.bind_eq_some_iff.1 h
      exact Option.bind_eq_some_iff.2 ⟨texts, mapM_of_imp (fun _ _ => ih hle) htexts, h⟩
    | record r =>
      obtain ⟨texts, htexts, h⟩ := Option.bind_eq_some_iff.1 h
      refine Option.bind_eq_some_iff.2 ⟨texts, mapM_of_imp (fun e b he => ?_) htexts, h⟩
      obtain ⟨text, htext, hb⟩ := Option.bind_eq_some_iff.1 he
      exact Option.bind_eq_some_iff.2 ⟨text, ih hle htext, hb⟩
    | _ => exact h

end Store

/-! More of the allowance. -/

theorem Limits.allows_mono {limits : Limits} {low high : Nat} (hle : low ≤ high) (h : limits.allows high) :
    limits.allows low := by
  unfold Limits.allows at h ⊢
  cases hmost : limits.nesting with
  | none => rfl
  | some most =>
    rw [hmost] at h
    exact decide_eq_true (Nat.le_trans (Nat.add_le_add_right hle _) (of_decide_eq_true h))

namespace Limits.AtMost

variable {low high : Limits} {depth : Nat}

theorem allows (hle : low.AtMost high) (h : low.allows depth) : high.allows depth := by
  unfold Limits.allows at h ⊢
  cases hmost : high.nesting with
  | none => rfl
  | some most =>
    obtain ⟨least, hleast, hlow⟩ := hle.nesting hmost
    simp only [hlow, decide_eq_true_eq] at h ⊢
    omega

theorem display (hle : low.AtMost high) {s : Store} {v : Value} {text : String}
    (h : s.display (low.levels depth) v = some text) : s.display (high.levels depth) v = some text := by
  have hrender (h : s.render (low.levels depth) v = some text) :
      s.render (high.levels depth) v = some text := by
    unfold Limits.levels Store.render at h ⊢
    cases hmost : high.nesting with
    | none =>
      cases hlow : low.nesting with
      | none => simpa [hlow] using h
      | some least =>
        simp only [hlow, Option.map_some] at h
        exact s.renderWithin_mono (Nat.min_le_left _ _) h
    | some most =>
      obtain ⟨least, hleast, hlow⟩ := hle.nesting hmost
      simp only [hlow, Option.map_some, hle.costs] at h ⊢
      refine s.renderWithin_mono ?_ h
      have hlevels := high.costs.levels_mono (Nat.sub_le_sub_right hleast (depth + Limits.ownCost))
      omega
  cases v with
  | string text => exact h
  | _ => exact hrender h

end Limits.AtMost

/-- The second limits are at least as high, and `cut` holds of every way in which the first ones can end a
    run that goes on under the second ones. -/
structure Limits.Cuts (low high : Limits) (cut : Outcome → Prop) : Prop where
  atMost : low.AtMost high
  stack {cause : Abort} : low.nesting ≠ high.nesting → cause.isStack → cut (.aborted cause)
  call (name : String) : low.calls ≠ high.calls → cut (.failed ⟨.callDepth low.calls name, none⟩)
  isFailure {out : Outcome} : cut out → out.isFailure
  locate {out : Outcome} {place : Option Place} : cut (out.locate place) ↔ cut out

theorem Limits.AtMost.cuts {low high : Limits} (hle : low.AtMost high) :
    low.Cuts high (·.isExhausted) where
  atMost := hle
  stack _ h := h
  call _ _ := rfl
  isFailure := Outcome.isFailure_of_isExhausted
  locate := by
    intro out place
    rw [Outcome.isExhausted_locate]

theorem Limits.AtMost.cuts_stack {low high : Limits} (hle : low.AtMost high) (hcalls : low.calls = high.calls) :
    low.Cuts high (·.isCutOff) where
  atMost := hle
  stack _ h := h
  call _ hne := absurd hcalls hne
  isFailure := Outcome.isFailure_of_isCutOff
  locate := by
    intro out place
    rw [Outcome.isCutOff_locate]

namespace Limits

variable {low high : Limits} {cut : Outcome → Prop} {depth : Nat}

theorem Cuts.stack_of_allows (hcut : low.Cuts high cut) (hlow : low.allows depth = false)
    (hhigh : high.allows depth) : cut (.aborted .stack) := by
  refine hcut.stack (fun heq => ?_) rfl
  unfold allows at hlow hhigh
  rw [heq] at hlow
  exact absurd (hhigh.symm.trans hlow) (by decide)

theorem Cuts.levels_eq_or (hcut : low.Cuts high cut) (depth : Nat) :
    high.levels depth = low.levels depth ∨ ∀ {cause : Abort}, cause.isStack → cut (.aborted cause) := by
  by_cases heq : low.nesting = high.nesting
  · exact .inl (by rw [levels, levels, heq, hcut.atMost.costs])
  · exact .inr (hcut.stack heq)

theorem Cuts.not_value (hcut : low.Cuts high cut) (v : Value) : ¬cut (.value v) :=
  fun h => nomatch hcut.isFailure h

def unbounded (limits : Limits) : Limits :=
  ⟨limits.calls, none, limits.costs⟩

theorem cuts_unbounded (limits : Limits) : limits.Cuts limits.unbounded (·.isCutOff) :=
  AtMost.cuts_stack ⟨rfl, Nat.le_refl _, nofun⟩ rfl

/-- Where the first limits allow a node, the second ones allow it so much deeper. -/
structure Spares (low high : Limits) (slack : Nat) (cut : Outcome → Prop) : Prop extends low.Cuts high cut where
  stop {depth : Nat} : low.allows depth = false → cut (.aborted .stack)
  spare {depth : Nat} : low.allows depth → high.allows (depth + slack)

theorem spares_unbounded (limits : Limits) (slack : Nat) :
    limits.unbounded.Spares limits.unbounded slack fun _ => False where
  atMost := ⟨rfl, Nat.le_refl _, fun h => ⟨_, Nat.le_refl _, h⟩⟩
  stack hne _ := hne rfl
  call _ hne := hne rfl
  isFailure := False.elim
  locate := Iff.rfl
  stop := nofun
  spare _ := rfl

/-- The same limits with less room on the stack of the host. -/
def less (limits : Limits) (slack : Nat) : Limits :=
  { limits with nesting := limits.nesting.map (· - slack) }

theorem allows_less (limits : Limits) (slack depth : Nat) :
    (limits.less slack).allows depth = limits.allows (depth + slack) := by
  unfold allows less
  cases limits.nesting with
  | none => rfl
  | some most =>
    refine decide_eq_decide.2 ?_
    change depth + ownCost ≤ most - slack ↔ _
    unfold ownCost
    omega

theorem spares_less (limits : Limits) (slack : Nat) :
    (limits.less slack).Spares limits slack (·.isCutOff) where
  toCuts := by
    refine AtMost.cuts_stack ⟨rfl, Nat.le_refl _, fun {most} h => ⟨most - slack, Nat.sub_le _ _, ?_⟩⟩ rfl
    rw [less, h]
    rfl
  stop _ := rfl
  spare h := limits.allows_less slack _ ▸ h

theorem spares_self (limits : Limits) : limits.Spares limits 0 (·.isCutOff) where
  toCuts := AtMost.cuts_stack ⟨rfl, Nat.le_refl _, fun h => ⟨_, Nat.le_refl _, h⟩⟩ rfl
  stop _ := rfl
  spare h := h

end Limits

/-- The first task ends in a way of which `cut` holds where it does not take the same step as the second. -/
def Task.Below (cut : Outcome → Prop) : Task → Task → Prop
  | .done out s, task => cut out ∨ task = .done out s
  | .visit cost n f s resume, .visit cost' n' f' s' resume' =>
    cost' = cost ∧ n' = n ∧ f' = f ∧ s' = s ∧ ∀ out t, (resume out t).Below cut (resume' out t)
  | .again s, .again s' => s' = s
  | _, _ => False

namespace Task

variable {cut : Outcome → Prop} {low high : Limits} {cost depth : Nat} {scope : FrameId} {s : Store}

theorem Below.refl (task : Task) : task.Below cut task := by
  induction task with
  | done out s => exact .inr rfl
  | visit cost n f s resume ih => exact ⟨rfl, rfl, rfl, rfl, ih⟩
  | again s => rfl

theorem below_value {n : Node} {k k' : Value → Store → Task} (hk : ∀ v t, (k v t).Below cut (k' v t)) :
    (value cost n scope s k).Below cut (value cost n scope s k') := by
  refine ⟨rfl, rfl, rfl, rfl, fun out t => ?_⟩
  cases out with
  | value v => exact hk v t
  | _ => exact .refl _

theorem below_collect {k k' : List Value → Store → Task} (hk : ∀ vs t, (k vs t).Below cut (k' vs t))
    (nodes : List Node) (seen : List Value) :
    (collect cost scope k nodes seen s).Below cut (collect cost scope k' nodes seen s) := by
  induction nodes generalizing seen s with
  | nil => exact hk _ s
  | cons n nodes ih => exact below_value fun v t => ih (v :: seen)

theorem below_within (hcut : low.Cuts high cut) (more : Nat) {task task' : Task} (h : task.Below cut task') :
    (within low depth more s task).Below cut (within high depth more s task') := by
  unfold within
  cases hlow : low.allows (depth + more) with
  | true =>
    rw [if_pos rfl, if_pos (hcut.atMost.allows hlow)]
    exact h
  | false =>
    cases hhigh : high.allows (depth + more) with
    | true => exact .inl (hcut.stack_of_allows hlow hhigh)
    | false => exact .inr rfl

theorem below_native (hcut : low.Cuts high cut) (fn : Native) (caller : FrameId) (receiver : Option Value)
    (args : List Value) :
    (fn.call (low.levels depth) caller receiver args s).Below cut
      (fn.call (high.levels depth) caller receiver args s) := by
  unfold Native.call
  cases fn.host with
  | printLine =>
    dsimp only
    cases htexts : args.mapM (s.display (low.levels depth)) with
    | none =>
      obtain hsame | hstack := hcut.levels_eq_or depth
      · rw [hsame, htexts]
        exact .refl _
      · exact .inl (hstack rfl)
    | some texts =>
      rw [mapM_of_imp (fun _ _ => hcut.atMost.display) htexts]
      exact .refl _
  | _ => exact .refl _

theorem below_function (hcut : low.Cuts high cut) (fn : Closure) (caller : FrameId) (args : List Value) :
    (fn.call low caller args s).Below cut (fn.call high caller args s) := by
  unfold Closure.call
  dsimp only
  split
  · rename_i hlow
    by_cases hcalls : low.calls = high.calls
    · rw [if_pos (show (high.calls : Int) < (s.frame caller).depth + 1 by omega), hcalls]
      exact .refl _
    · exact .inl (hcut.call fn.name hcalls)
  · rename_i hlow
    have hcalls : (low.calls : Int) ≤ high.calls := Int.ofNat_le.2 hcut.atMost.calls
    rw [if_neg (show ¬(high.calls : Int) < (s.frame caller).depth + 1 by omega)]
    exact .refl _

theorem below_apply (hcut : low.Cuts high cut) (callee : Value) (receiver : Option Value)
    (args : List Node) :
    (apply low depth callee receiver args scope s).Below cut
      (apply high depth callee receiver args scope s) := by
  unfold apply
  rw [hcut.atMost.costs]
  split
  · refine below_collect (fun vs t => ?_) args []
    cases callee with
    | native fn => exact below_native hcut fn scope receiver vs
    | function fn => exact below_function hcut fn scope vs
    | _ => exact .refl _
  · exact .refl _

end Task

theorem Node.start_below {cut : Outcome → Prop} {low high : Limits} (hcut : low.Cuts high cut) (depth : Nat)
    (scope : FrameId) (s : Store) (n : Node) :
    (n.start low depth scope s).Below cut (n.start high depth scope s) := by
  -- Only literals, look-ups, calls and print statements look at the limits.
  cases n with
  | number w | string w | boolean b w =>
    rw [Node.start, hcut.atMost.costs]
    exact Task.below_within hcut _ (.refl _)
  | name w =>
    rw [Node.start, hcut.atMost.costs]
    exact Task.below_within hcut _ (.refl _)
  | array items p =>
    rw [Node.start, hcut.atMost.costs]
    exact .refl _
  | assign w value p =>
    rw [Node.start, hcut.atMost.costs]
    exact Task.below_value fun v t => Task.below_within hcut _ (.refl _)
  | call callee args q p => exact Task.below_value fun v t => Task.below_apply hcut v none args
  | methodCall receiver key args q p =>
    refine Task.below_value fun r t => Task.below_value fun k u => ?_
    cases u.getItem r k with
    | ok callee => exact Task.below_apply hcut callee (some r) args
    | error fault => exact .refl _
  | print e p =>
    refine Task.below_value fun v t => ?_
    cases htext : t.display (low.levels depth) v with
    | none =>
      obtain hsame | hstack := hcut.levels_eq_or depth
      · rw [hsame, htext]
        exact .refl _
      · exact .inl (hstack rfl)
    | some text =>
      rw [hcut.atMost.display htext]
      exact .refl _
  | declare w init p => cases init <;> exact .refl _
  | giveBack value p => cases value <;> exact .refl _
  | _ => exact .refl _

section Recursion

variable {cut : Outcome → Prop} {low high : Limits}

/-- A child that was cut off would have ended the task, so the second run goes on where the first one does. -/
theorem Task.carryOut_visit_uncut (hcut : low.Cuts high cut)
    {eval eval' : Activation → Store → Option (Outcome × Store)} {a a' : Activation} {cost : Nat} {n : Node}
    {f f' : FrameId} {s t : Store} {out : Outcome} {resume resume' : Outcome → Store → Task}
    (hstrict : (Task.visit cost n f s resume).Strict)
    (hr : (Task.visit cost n f s resume).carryOut low eval a = some (out, t)) (hout : ¬cut out)
    (hdepth : a'.depth = a.depth)
    (heval : ∀ last u, eval ⟨n, f, a.depth + cost⟩ s = some (last, u) → ¬cut last →
      eval' ⟨n, f', a.depth + cost⟩ s = some (last, u))
    (hresume : ∀ last u, eval ⟨n, f, a.depth + cost⟩ s = some (last, u) ∨ u = s →
      (resume last u).carryOut low eval a = some (out, t) →
      (resume' last u).carryOut high eval' a' = some (out, t)) :
    (Task.visit cost n f' s resume').carryOut high eval' a' = some (out, t) := by
  have hchild {last : Outcome} {u : Store} (hr : (resume last u).carryOut low eval a = some (out, t)) :
      ¬cut last := by
    intro hlast
    rw [hstrict.1 last u (hcut.isFailure hlast)] at hr
    cases hr
    exact hout (hcut.locate.2 hlast)
  rw [Task.carryOut] at hr ⊢
  rw [hdepth]
  cases hlow : low.allows (a.depth + cost) with
  | true =>
    rw [if_pos hlow] at hr
    rw [if_pos (hcut.atMost.allows hlow)]
    cases hfirst : eval ⟨n, f, a.depth + cost⟩ s with
    | none => simp [hfirst] at hr
    | some r =>
      obtain ⟨last, u⟩ := r
      simp only [hfirst] at hr
      simp only [heval _ _ hfirst (hchild hr)]
      exact hresume last u (.inl hfirst) hr
  | false =>
    rw [if_neg (by simp [hlow])] at hr
    cases hhigh : high.allows (a.depth + cost) with
    | true => exact (hchild hr (hcut.stack_of_allows hlow hhigh)).elim
    | false => exact hresume _ _ (.inr rfl) hr

theorem Task.Below.carryOut (hcut : low.Cuts high cut)
    {eval eval' : Activation → Store → Option (Outcome × Store)}
    (heval : ∀ a s out t, eval a s = some (out, t) → ¬cut out → eval' a s = some (out, t))
    {a : Activation} {task task' : Task} (h : task.Below cut task') (hstrict : task.Strict) {out : Outcome}
    {t : Store} (hr : task.carryOut low eval a = some (out, t)) (hout : ¬cut out) :
    task'.carryOut high eval' a = some (out, t) := by
  induction task generalizing task' with
  | done last s =>
    cases hr
    rw [hcut.locate] at hout
    rw [h.resolve_left hout]
    rfl
  | visit cost n f s resume ih =>
    cases task' with
    | visit cost' n' f' s' resume' =>
      obtain ⟨rfl, rfl, rfl, rfl, hresume⟩ := h
      exact Task.carryOut_visit_uncut hcut hstrict hr hout rfl (fun _ _ => heval _ _ _ _)
        fun last u _ hr => ih last u (hresume last u) (hstrict.2 last u) hr
    | _ => exact h.elim
  | again s =>
    cases task' with
    | again s' =>
      obtain rfl : s' = s := h
      exact heval a s' out t hr hout
    | _ => exact h.elim

theorem Activation.eval_uncut (hcut : low.Cuts high cut) (fuel : Nat) (a : Activation) (s : Store)
    (out : Outcome) (t : Store) (hr : a.eval low fuel s = some (out, t)) (hout : ¬cut out) :
    a.eval high fuel s = some (out, t) := by
  induction fuel generalizing a s out t with
  | zero => cases hr
  | succ fuel ih =>
    exact (a.node.start_below hcut a.depth a.scope s).carryOut hcut ih
      (a.node.start_strict low a.depth a.scope s) hr hout

theorem Activation.eval_below (hle : low.AtMost high) (fuel : Nat) (a : Activation) (s : Store)
    (out : Outcome) (t : Store) (hr : a.eval low fuel s = some (out, t)) (hout : ¬out.isExhausted) :
    a.eval high fuel s = some (out, t) :=
  Activation.eval_uncut hle.cuts fuel a s out t hr hout

theorem Task.Below.carryOut_low (hcut : low.Cuts high cut)
    {eval eval' : Activation → Store → Option (Outcome × Store)}
    (heval : ∀ a s r, eval' a s = some r → ∃ r', eval a s = some r' ∧ (cut r'.1 ∨ r' = r))
    {a : Activation} {task task' : Task} (h : task.Below cut task') (hstrict : task.Strict)
    {r : Outcome × Store} (hr : task'.carryOut high eval' a = some r) :
    ∃ r', task.carryOut low eval a = some r' ∧ (cut r'.1 ∨ r' = r) := by
  induction task generalizing task' with
  | done last s =>
    rcases h with hlast | rfl
    · exact ⟨_, rfl, .inl (hcut.locate.2 hlast)⟩
    · cases hr
      exact ⟨_, rfl, .inr rfl⟩
  | visit cost n f s resume ih =>
    cases task' with
    | visit cost' n' f' s' resume' =>
      obtain ⟨rfl, rfl, rfl, rfl, hresume⟩ := h
      -- a node that is cut off ends the task
      have hstop {last : Outcome} {u : Store} (hlast : cut last) :
          ∃ r', (resume last u).carryOut low eval a = some r' ∧ (cut r'.1 ∨ r' = r) := by
        rw [hstrict.1 last u (hcut.isFailure hlast)]
        exact ⟨_, rfl, .inl (hcut.locate.2 hlast)⟩
      rw [Task.carryOut] at hr ⊢
      by_cases hroom : low.allows (a.depth + cost') = true
      · rw [if_pos (hcut.atMost.allows hroom)] at hr
        rw [if_pos hroom]
        cases hfirst : eval' ⟨n', f', a.depth + cost'⟩ s' with
        | none => simp [hfirst] at hr
        | some r₁ =>
          obtain ⟨last, u⟩ := r₁
          simp only [hfirst] at hr
          obtain ⟨⟨last', u'⟩, hlow, hlast | heq⟩ := heval _ _ _ hfirst
          · simp only [hlow]
            exact hstop hlast
          · cases heq
            simp only [hlow]
            exact ih last u (hresume last u) (hstrict.2 last u) hr
      · rw [if_neg hroom]
        cases hhigh : high.allows (a.depth + cost') with
        | true => exact hstop (hcut.stack_of_allows (Bool.eq_false_iff.2 hroom) hhigh)
        | false =>
          rw [if_neg (by simp [hhigh])] at hr
          exact ih _ _ (hresume _ _) (hstrict.2 _ _) hr
    | _ => exact h.elim
  | again s =>
    cases task' with
    | again s' =>
      obtain rfl : s' = s := h
      exact heval a s' r hr
    | _ => exact h.elim

theorem Activation.eval_low (hcut : low.Cuts high cut) (fuel : Nat) (a : Activation) (s : Store)
    (r : Outcome × Store) (hr : a.eval high fuel s = some r) :
    ∃ r', a.eval low fuel s = some r' ∧ (cut r'.1 ∨ r' = r) := by
  induction fuel generalizing a s r with
  | zero => cases hr
  | succ fuel ih =>
    exact (a.node.start_below hcut a.depth a.scope s).carryOut_low hcut ih
      (a.node.start_strict low a.depth a.scope s) hr

end Recursion

section Programs

variable [Host]

theorem Program.limits_atMost {calls more : Nat} (hle : calls ≤ more) :
    (Program.limits calls).AtMost (Program.limits more) where
  costs := rfl
  calls := hle
  nesting := by
    rintro _ ⟨⟩
    refine ⟨Program.nesting calls - Host.inUse, ?_, rfl⟩
    unfold Program.nesting
    omega

theorem Program.allows_limits (calls : Nat) : (Program.limits calls).allows 896 := by
  have huse := Host.inUse_le
  refine decide_eq_true ?_
  unfold nesting Limits.ownCost hostNesting
  omega

namespace Program

def OutOfRoom (r : Except Error Value) : Prop :=
  ∃ cause : Abort, cause.isStack ∧ r = result (.aborted cause)

omit [Host] in
theorem outOfRoom_of_isCutOff {out : Outcome} (h : out.isCutOff) : OutOfRoom (result out) := by
  cases out with
  | aborted cause => exact ⟨cause, h, rfl⟩
  | _ => cases h

/-- If with unlimited room whatever one program ends with is related to what the other one ends with, then
    so it is in the room that the host grants, unless one of them runs out of it. -/
theorem exists_execute_of_unbounded {R : Except Error Value × Store → Except Error Value × Store → Prop}
    {calls : Nat} {n n' : Node} {scope : FrameId} {s : Store}
    (heval : ∀ fuel r, Activation.eval (limits calls).unbounded fuel ⟨n, scope, 0⟩ s = some r → ∃ fuel' r',
      Activation.eval (limits calls).unbounded fuel' ⟨n', scope, 0⟩ s = some r' ∧
        R (result r.1, r.2) (result r'.1, r'.2))
    (hlimit : R (.error (.crash .limit), s) (.error (.crash .limit), s)) {steps : Nat}
    {r : Except Error Value × Store} (hrun : execute calls steps n scope s = some r) (hr : ¬OutOfRoom r.1) :
    ∃ steps' r', execute calls steps' n' scope s = some r' ∧ (OutOfRoom r'.1 ∨ R r r') := by
  have hcut := (limits calls).cuts_unbounded
  by_cases hmax : maxNesting < nesting calls
  · rw [execute, if_pos hmax] at hrun
    obtain rfl := Option.some.inj hrun
    exact ⟨0, _, if_pos hmax, .inr hlimit⟩
  · simp only [execute, if_neg hmax, Option.map_eq_some_iff] at hrun ⊢
    obtain ⟨⟨out, t⟩, hend, rfl⟩ := hrun
    have hout : ¬out.isCutOff := fun h => hr (outOfRoom_of_isCutOff h)
    obtain ⟨fuel, hlow⟩ := Machine.evaluate_iff.1 ⟨steps, hend⟩
    have hhigh := Activation.eval_uncut hcut fuel _ s out t hlow hout
    obtain ⟨fuel', r', hhigh', hR⟩ := heval fuel _ hhigh
    obtain ⟨r₁, hlow', hcase⟩ := Activation.eval_low hcut fuel' _ s r' hhigh'
    obtain ⟨steps', hend'⟩ := Machine.evaluate_iff.2 ⟨fuel', hlow'⟩
    refine ⟨steps', _, ⟨r₁, hend', rfl⟩, ?_⟩
    rcases hcase with hstack | rfl
    · exact .inl (outOfRoom_of_isCutOff hstack)
    · exact .inr hR

end Program

/-- What ends under a call depth limit, and not for want of resources, ends in the same way and in the same
    store under every higher limit that the host can grant. -/
theorem higher_limit_keeps_end {calls more steps : Nat} {program : Node} {scope : FrameId}
    {s t : Store} {result : Except Error Value} (hle : calls ≤ more)
    (hmore : more * 40 + 200 ≤ Program.maxNesting)
    (hrun : Program.execute calls steps program scope s = some (result, t))
    (hresult : ∀ failure, result = .error (.runtime failure) → failure.fault.kind ≠ .resourceExhausted) :
    ∃ steps', Program.execute more steps' program scope s = some (result, t) := by
  have hgranted : ¬Program.maxNesting < Program.nesting more := by
    unfold Program.nesting Program.maxNesting hostNesting at *
    omega
  have hgranted' : ¬Program.maxNesting < Program.nesting calls := by
    unfold Program.nesting at *
    omega
  rw [Program.execute, if_neg hgranted'] at hrun
  obtain ⟨⟨out, u⟩, hend, heq⟩ := Option.map_eq_some_iff.1 hrun
  obtain ⟨rfl, rfl⟩ := Prod.mk.inj heq
  have hout : ¬out.isExhausted := by
    cases out with
    | failed failure => exact fun h => hresult failure rfl (of_decide_eq_true h)
    | aborted cause =>
      cases cause with
      | stack | text => exact fun _ => hresult _ rfl rfl
      | unreadable => exact nofun
    | _ => exact nofun
  obtain ⟨fuel, heval⟩ := Machine.evaluate_iff.1 ⟨steps, hend⟩
  obtain ⟨steps', hrun'⟩ :=
    Machine.evaluate_iff.2 ⟨fuel, Activation.eval_below (Program.limits_atMost hle) fuel _ _ _ _ heval hout⟩
  refine ⟨steps', ?_⟩
  rw [Program.execute, if_neg hgranted, hrun']
  rfl

end Programs

theorem higher_limit_keeps_end_of_failure :
    ∃ program failure t steps,
      Program.parse
          "fun f(n) \x7b print [n]; if (n == 0) return n + typeof(n); return f(n - 1); \x7d f(2);" =
        .ok program ∧
      Program.execute 3 400 program (Store.empty.newRoot none).1 (Store.empty.newRoot none).2 =
        some (.error (.runtime failure), t) ∧
      failure.fault = .operandType "+" "string" ∧ t.output = "[2]\n[1]\n[0]\n" ∧
      Program.execute 9 steps program (Store.empty.newRoot none).1 (Store.empty.newRoot none).2 =
        some (.error (.runtime failure), t) := by
  obtain ⟨program, failure, t, hparse, hend, hfault, houtput⟩ : ∃ program failure t,
      Program.parse
          "fun f(n) \x7b print [n]; if (n == 0) return n + typeof(n); return f(n - 1); \x7d f(2);" =
        .ok program ∧
      Program.execute 3 400 program (Store.empty.newRoot none).1 (Store.empty.newRoot none).2 =
        some (.error (.runtime failure), t) ∧
      failure.fault = .operandType "+" "string" ∧ t.output = "[2]\n[1]\n[0]\n" :=
    ⟨_, _, _, by cbv, by cbv, by cbv, by cbv⟩
  have hkind : ∀ other, Except.error (Error.runtime failure) = (.error (.runtime other) : Except Error Value) →
      other.fault.kind ≠ .resourceExhausted := by
    rintro _ ⟨⟩
    rw [hfault]
    decide
  obtain ⟨steps, hsteps⟩ := higher_limit_keeps_end (show 3 ≤ 9 by decide) (by decide) hend hkind
  exact ⟨program, failure, t, steps, hparse, hend, hfault, houtput, hsteps⟩

end Scripting
