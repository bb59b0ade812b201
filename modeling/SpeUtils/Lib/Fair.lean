import SpeUtils.Lib.Run
import Mathlib.Order.Filter.AtTopBot.Basic

open Filter

namespace run

variable {S L : Type*}

/-- A system with idle steps, while those who drive it are busy with something else. -/
def stutter (step : S → L → Option S) (state : S) : Option L → Option S
  | none => some state
  | some label => step state label

theorem stutter_eq_some {step : S → L → Option S} {state after : S} {label : Option L} :
    stutter step state label = some after ↔
      (label = none ∧ after = state) ∨ ∃ taken, label = some taken ∧ step state taken = some after := by
  cases label with
  | none => simp [stutter, eq_comm]
  | some taken => simp [stutter]

/-- A run without end: the state before each step and the label of the step. -/
structure Execution (step : S → L → Option S) where
  state : Nat → S
  label : Nat → L
  next : ∀ n, step (state n) (label n) = some (state (n + 1))

namespace Execution

variable {step : S → L → Option S} (x : Execution step)

/-- Labels of some kind come again and again. -/
def Recurs (kind : L → Prop) : Prop := ∃ᶠ n in atTop, kind (x.label n)

/-- What is left of an execution after some steps. -/
def drop (k : Nat) : Execution step where
  state := fun n => x.state (k + n)
  label := fun n => x.label (k + n)
  next := fun n => x.next (k + n)

@[simp] theorem drop_state (k n : Nat) : (x.drop k).state n = x.state (k + n) := rfl

@[simp] theorem drop_label (k n : Nat) : (x.drop k).label n = x.label (k + n) := rfl

theorem Recurs.drop {x : Execution step} {kind : L → Prop} (h : x.Recurs kind) (k : Nat) : (x.drop k).Recurs kind := by
  refine frequently_atTop.mpr fun n => ?_
  obtain ⟨m, hm, hkind⟩ := frequently_atTop.mp h (k + n)
  obtain ⟨j, rfl⟩ := Nat.exists_eq_add_of_le hm
  exact ⟨n + j, Nat.le_add_right n j, by rwa [drop_label, ← Nat.add_assoc]⟩

/-- What survives every step from some state on holds from that state on. -/
theorem eventually_of_stable {P : S → Prop} {k : Nat} (hnow : P (x.state k))
    (hstable : ∀ n ≥ k, P (x.state n) → P (x.state (n + 1))) : ∀ᶠ n in atTop, P (x.state n) := by
  refine eventually_atTop.mpr ⟨k, fun n hn => ?_⟩
  induction n, hn using Nat.le_induction with
  | base => exact hnow
  | succ n hn ih => exact hstable n hn ih

/-- An invariant of all steps that an execution takes. -/
theorem always_of_stable {P : S → Prop} (hstart : P (x.state 0))
    (hstable : ∀ n, P (x.state n) → P (x.state (n + 1))) (n : Nat) : P (x.state n) := by
  induction n with
  | zero => exact hstart
  | succ n ih => exact hstable n ih

/-- Variant rule. From some time on, no step away from the goal raises the variant, and
each step of a kind that recurs lowers it. -/
theorem eventually_of_variant (goal : S → Prop) {help : L → Prop} (variant : S → Nat)
    (hhelp : x.Recurs help)
    (hkeep : ∀ᶠ n in atTop, ¬ goal (x.state n) → variant (x.state (n + 1)) ≤ variant (x.state n))
    (hlower : ∀ᶠ n in atTop, ¬ goal (x.state n) → help (x.label n) →
      variant (x.state (n + 1)) < variant (x.state n))
    (hstable : ∀ᶠ n in atTop, goal (x.state n) → goal (x.state (n + 1))) :
    ∀ᶠ n in atTop, goal (x.state n) := by
  obtain ⟨k, hk⟩ := eventually_atTop.mp (hkeep.and (hlower.and hstable))
  suffices hreached : ∃ n ≥ k, goal (x.state n) by
    obtain ⟨n, hn, hgoal⟩ := hreached
    exact x.eventually_of_stable hgoal fun m hm => (hk m (hn.trans hm)).2.2
  by_contra hnever
  have haway : ∀ n ≥ k, ¬ goal (x.state n) := fun n hn hgoal => hnever ⟨n, hn, hgoal⟩
  have hmono : ∀ n ≥ k, ∀ m ≥ n, variant (x.state m) ≤ variant (x.state n) := by
    intro n hn m hm
    induction m, hm using Nat.le_induction with
    | base => exact Nat.le_refl _
    | succ m hm ih => exact ((hk m (hn.trans hm)).1 (haway m (hn.trans hm))).trans ih
  -- The variant can be brought down by any amount, more than it has at the start.
  have hdown : ∀ amount, ∃ n ≥ k, variant (x.state n) + amount ≤ variant (x.state k) := by
    intro amount
    induction amount with
    | zero => exact ⟨k, Nat.le_refl k, Nat.le_refl _⟩
    | succ amount ih =>
      obtain ⟨n, hn, hle⟩ := ih
      obtain ⟨m, hm, hhelps⟩ := frequently_atTop.mp hhelp n
      have hlt := (hk m (hn.trans hm)).2.1 (haway m (hn.trans hm)) hhelps
      have hle' := hmono n hn m hm
      exact ⟨m + 1, (hn.trans hm).trans (Nat.le_succ m), by omega⟩
  obtain ⟨n, _, hle⟩ := hdown (variant (x.state k) + 1)
  omega

/-- What never rises is constant in the end. -/
theorem exists_constant (f : S → Nat) (hfalls : ∀ n, f (x.state (n + 1)) ≤ f (x.state n)) :
    ∃ k, ∀ n ≥ k, f (x.state n) = f (x.state k) := by
  refine ⟨Function.argmin (f ∘ x.state), fun n hn => Nat.le_antisymm ?_ (Function.argmin_le (f ∘ x.state) n)⟩
  induction n, hn using Nat.le_induction with
  | base => exact Nat.le_refl _
  | succ n _ ih => exact (hfalls n).trans ih

/-- A list that only loses elements, each of them at some time, is empty in the end. -/
theorem eventually_nil {A : Type*} (list : S → List A)
    (hshrink : ∀ᶠ n in atTop, (list (x.state (n + 1))).Sublist (list (x.state n)))
    (hleave : ∀ n, ∀ a ∈ list (x.state n), ∃ m ≥ n, a ∉ list (x.state m)) :
    ∀ᶠ n in atTop, list (x.state n) = [] := by
  obtain ⟨k, hk⟩ := eventually_atTop.mp hshrink
  have hsub : ∀ n ≥ k, ∀ m ≥ n, (list (x.state m)).Sublist (list (x.state n)) := by
    intro n hn m hm
    induction m, hm using Nat.le_induction with
    | base => exact .refl _
    | succ m hm ih => exact (hk m (hn.trans hm)).trans ih
  have hempty : ∀ length, ∀ n ≥ k, (list (x.state n)).length ≤ length → ∃ m ≥ k, list (x.state m) = [] := by
    intro length
    induction length with
    | zero => exact fun n hn hle => ⟨n, hn, List.eq_nil_of_length_eq_zero (Nat.le_zero.mp hle)⟩
    | succ length ih =>
      intro n hn hle
      cases hlist : list (x.state n) with
      | nil => exact ⟨n, hn, hlist⟩
      | cons a rest =>
        obtain ⟨m, hm, hgone⟩ := hleave n a (by simp [hlist])
        have hshorter := hsub n hn m hm
        refine ih m (hn.trans hm) ?_
        have hlength := hshorter.length_le
        by_contra hlong
        have hsame := hshorter.eq_of_length (by omega)
        rw [hsame, hlist] at hgone
        exact hgone (List.mem_cons_self ..)
  obtain ⟨m, hm, hnil⟩ := hempty _ k (Nat.le_refl k) (Nat.le_refl _)
  refine eventually_atTop.mpr ⟨m, fun n hn => ?_⟩
  have hlast := hsub m hm n hn
  rw [hnil] at hlast
  exact List.sublist_nil.mp hlast

section Rest

variable {step : S → L → Option S}

/-- A step that cannot be taken, or changes nothing. -/
def Still (step : S → L → Option S) (state : S) (label : L) : Prop :=
  ∀ after, step state label = some after → after = state

/-- A step that can be taken and changes what is observed is not still. -/
theorem Still.false_of_change {A : Type*} {state after : S} {label : L} (h : Still step state label)
    (hstep : step state label = some after) (observe : S → A) (hchange : observe after ≠ observe state) : False :=
  hchange (congrArg observe (h after hstep))

/-- Weak fairness. A step of the kind is not put off for ever while it would change
something. -/
def WeaklyFair (x : Execution (stutter step)) (kind : L → Prop) : Prop :=
  ∀ label, kind label → ∃ᶠ n in atTop, x.label n = some label ∨ Still step (x.state n) label

variable {x : Execution (stutter step)} {kind : L → Prop}

/-- A relation that holds across each step, and of a state with itself, holds across any
two states in a row. -/
theorem stutter_next {R : S → S → Prop} {n : Nat} (hidle : R (x.state n) (x.state n))
    (hstep : ∀ label after, step (x.state n) label = some after → R (x.state n) after) :
    R (x.state n) (x.state (n + 1)) := by
  obtain ⟨_, hsame⟩ | ⟨label, _, htaken⟩ := stutter_eq_some.mp (x.next n)
  · rwa [hsame]
  · exact hstep label _ htaken

theorem stutter_always {P : S → Prop} (hstart : P (x.state 0))
    (hstep : ∀ state label after, P state → step state label = some after → P after) (n : Nat) : P (x.state n) :=
  x.always_of_stable hstart
    (fun _ hn => stutter_next (R := fun _ after => P after) hn fun label after => hstep _ label after hn) n

/-- Where no step can be taken, an execution stays. -/
theorem stutter_final {k : Nat} (hlast : ∀ label, step (x.state k) label = none) : ∀ n ≥ k, x.state n = x.state k := by
  intro n hn
  induction n, hn using Nat.le_induction with
  | base => rfl
  | succ n hn ih =>
    refine stutter_next (R := fun _ after => after = x.state k) ih fun label after hafter => ?_
    rw [ih, hlast label] at hafter
    cases hafter

/-- Rest rule. When each step that changes something lowers a variant, the state is
constant in the end, and there no step of the kind would change it. -/
theorem WeaklyFair.exists_rest (hfair : x.WeaklyFair kind) (variant : S → Nat)
    (hfalls : ∀ n, x.state (n + 1) = x.state n ∨ variant (x.state (n + 1)) < variant (x.state n)) :
    ∃ k, (∀ n ≥ k, x.state n = x.state k) ∧ ∀ label, kind label → Still step (x.state k) label := by
  have hmono : ∀ n, variant (x.state (n + 1)) ≤ variant (x.state n) := by
    intro n
    obtain hsame | hless := hfalls n
    · rw [hsame]
    · exact Nat.le_of_lt hless
  obtain ⟨k, hk⟩ := x.exists_constant variant hmono
  have hrest : ∀ n ≥ k, x.state n = x.state k := by
    intro n hn
    induction n, hn using Nat.le_induction with
    | base => rfl
    | succ n hn ih =>
      obtain hsame | hless := hfalls n
      · exact hsame.trans ih
      · rw [hk n hn, hk (n + 1) (hn.trans (Nat.le_succ n))] at hless
        exact absurd hless (Nat.lt_irrefl _)
  refine ⟨k, hrest, fun label hkind => ?_⟩
  obtain ⟨n, hn, htaken | hstill⟩ := frequently_atTop.mp (hfair label hkind) k
  · have hnext := x.next n
    rw [htaken, hrest n hn, hrest (n + 1) (hn.trans (Nat.le_succ n))] at hnext
    intro after hafter
    exact Option.some.inj (hafter.symm.trans hnext)
  · rwa [hrest n hn] at hstill

theorem WeaklyFair.of_rest {state : S} {k : Nat} (hrest : ∀ n ≥ k, x.state n = state)
    (hstill : ∀ label, kind label → Still step state label) : x.WeaklyFair kind := by
  intro label hkind
  refine frequently_atTop.mpr fun n => ⟨k + n, Nat.le_add_left n k, .inr ?_⟩
  rw [hrest _ (Nat.le_add_right k n)]
  exact hstill label hkind

end Rest

section Schedules

variable {step : S → L → Option S}

/-- The states that a schedule of labels leads through. -/
def states (step : S → L → Option S) (start : S) (schedule : Nat → L) : Nat → S
  | 0 => start
  | n + 1 => (step (states step start schedule n) (schedule n)).getD (states step start schedule n)

/-- A schedule that can always go on gives an execution. -/
theorem exists_of_schedule (step : S → L → Option S) {P : S → Prop} {start : S} (schedule : Nat → L) (hstart : P start)
    (hlive : ∀ s n, P s → ∃ s', step s (schedule n) = some s' ∧ P s') :
    ∃ x : Execution step, x.state 0 = start ∧ x.label = schedule ∧ ∀ n, P (x.state n) := by
  have hstates : ∀ n, P (states step start schedule n) := by
    intro n
    induction n with
    | zero => exact hstart
    | succ n ih =>
      obtain ⟨s', hstep, hnext⟩ := hlive _ n ih
      rw [states, hstep]
      exact hnext
  refine ⟨⟨states step start schedule, schedule, fun n => ?_⟩, rfl, rfl, hstates⟩
  obtain ⟨s', hstep, _⟩ := hlive _ n (hstates n)
  rw [states, hstep]
  rfl

/-- A finite run that leads to an execution is the beginning of one. -/
theorem exists_of_reaches (x : Execution step) {start : S} {labels : List L}
    (hrun : Reaches step start labels (x.state 0)) :
    ∃ y : Execution step, y.state 0 = start ∧ ∀ n,
      y.state (labels.length + n) = x.state n ∧ y.label (labels.length + n) = x.label n ∧
        (n < labels.length → labels[n]? = some (y.label n)) := by
  induction labels generalizing start with
  | nil =>
    rw [reaches_nil] at hrun
    exact ⟨x, hrun.symm, fun n => by simp⟩
  | cons label labels ih =>
    obtain ⟨middle, hfirst, hrest⟩ := reaches_cons.mp hrun
    obtain ⟨y, hmiddle, hlater⟩ := ih hrest
    let state : Nat → S
      | 0 => start
      | n + 1 => y.state n
    let tail : Nat → L
      | 0 => label
      | n + 1 => y.label n
    refine ⟨⟨state, tail, ?_⟩, rfl, ?_⟩
    · intro n
      cases n with
      | zero =>
        rw [← hmiddle] at hfirst
        exact hfirst
      | succ n => exact y.next n
    · intro n
      have hshift : (label :: labels).length + n = labels.length + n + 1 := by
        rw [List.length_cons]
        omega
      rw [hshift]
      refine ⟨(hlater n).1, (hlater n).2.1, ?_⟩
      intro hn
      cases n with
      | zero => rfl
      | succ n =>
        rw [List.getElem?_cons_succ]
        exact (hlater n).2.2 (Nat.lt_of_succ_lt_succ hn)

/-- A finite run that nothing follows. -/
theorem exists_of_finite {start stop : S} {labels : List L} (hrun : Reaches step start labels stop) :
    ∃ x : Execution (stutter step), x.state 0 = start ∧ ∀ n ≥ labels.length, x.state n = stop := by
  have hpadded : Reaches (stutter step) start (labels.map some) stop := by
    rw [Reaches, List.foldlM_map]
    exact hrun
  let rest : Execution (stutter step) := ⟨fun _ => stop, fun _ => none, fun _ => rfl⟩
  obtain ⟨x, hstart, hlater⟩ := rest.exists_of_reaches hpadded
  refine ⟨x, hstart, fun n hn => ?_⟩
  obtain ⟨m, rfl⟩ := Nat.exists_eq_add_of_le hn
  have hstate := (hlater m).1
  rwa [List.length_map] at hstate

end Schedules

end Execution

end run
