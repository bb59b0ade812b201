import Mathlib.Data.List.Infix

namespace run

variable {S L : Type*}

/-- The run of a partial step function along a list of labels. Steps are
deterministic once the label is fixed, so all interleavings of a system are its
label lists. -/
def Reaches (step : S → L → Option S) (start : S) (labels : List L) (stop : S) : Prop :=
  labels.foldlM step start = some stop

/-- A property of every state that a run passes through, its ends included. -/
def Always (step : S → L → Option S) (start : S) (labels : List L) (P : S → Prop) : Prop :=
  ∀ done state, done <+: labels → Reaches step start done state → P state

/-- A property of every step that a run takes, read in the state before it. -/
def EachStep (step : S → L → Option S) (start : S) (labels : List L) (Q : S → L → Prop) : Prop :=
  ∀ done label state, done ++ [label] <+: labels → Reaches step start done state → Q state label

/-- The steps allowed by a discipline that the environment keeps. -/
def restrict (ok : S → L → Bool) (step : S → L → Option S) (state : S) (label : L) : Option S :=
  if ok state label then step state label else none

section Runs

variable {step : S → L → Option S} {start stop state : S} {labels more : List L} {label : L}

@[simp] theorem reaches_nil : Reaches step start [] stop ↔ start = stop := by
  simp [Reaches]

theorem reaches_append :
    Reaches step start (labels ++ more) stop ↔
      ∃ middle, Reaches step start labels middle ∧ Reaches step middle more stop := by
  simp [Reaches, List.foldlM_append, Option.bind_eq_some_iff]

theorem reaches_cons :
    Reaches step start (label :: labels) stop ↔
      ∃ middle, step start label = some middle ∧ Reaches step middle labels stop := by
  simp [Reaches, Option.bind_eq_some_iff]

theorem reaches_snoc :
    Reaches step start (labels ++ [label]) stop ↔
      ∃ middle, Reaches step start labels middle ∧ step middle label = some stop := by
  simp [reaches_append, reaches_cons]

theorem Reaches.unique {other : S} (hrun : Reaches step start labels stop)
    (hother : Reaches step start labels other) : stop = other := by
  unfold Reaches at hrun hother
  rw [hrun] at hother
  exact Option.some.inj hother

theorem Reaches.exists_prefix {done : List L} (hrun : Reaches step start labels stop)
    (hdone : done <+: labels) : ∃ middle, Reaches step start done middle := by
  obtain ⟨rest, rfl⟩ := hdone
  obtain ⟨middle, hmiddle, _⟩ := reaches_append.mp hrun
  exact ⟨middle, hmiddle⟩

/-- A run cut at one of its steps. -/
theorem Reaches.split {done : List L} (hrun : Reaches step start labels stop)
    (hdone : done ++ [label] <+: labels) :
    ∃ before after rest, Reaches step start done before ∧ step before label = some after ∧
      Reaches step after rest stop := by
  obtain ⟨rest, rfl⟩ := hdone
  obtain ⟨after, hfirst, hrest⟩ := reaches_append.mp hrun
  obtain ⟨before, hbefore, hstep⟩ := reaches_snoc.mp hfirst
  exact ⟨before, after, rest, hbefore, hstep, hrest⟩

/-- What holds at the start and survives every step holds wherever a run ends. -/
theorem Reaches.invariant {I : S → Prop} (hrun : Reaches step start labels stop)
    (hstart : I start)
    (hstep : ∀ before label after, I before → step before label = some after → I after) :
    I stop := by
  induction labels generalizing start with
  | nil =>
    rw [reaches_nil] at hrun
    exact hrun ▸ hstart
  | cons label labels ih =>
    obtain ⟨middle, hmiddle, hrest⟩ := reaches_cons.mp hrun
    exact ih hrest (hstep start label middle hstart hmiddle)

/-- A property indexed by how often one label has occurred. -/
theorem Reaches.count [DecidableEq L] {I : Nat → S → Prop} {n : Nat}
    (hrun : Reaches step start labels stop) (tick : L) (hstart : I n start)
    (hstep : ∀ n before label after, I n before → step before label = some after →
      I (n + if label = tick then 1 else 0) after) :
    I (n + labels.count tick) stop := by
  induction labels generalizing start n with
  | nil =>
    rw [reaches_nil] at hrun
    exact hrun ▸ hstart
  | cons label labels ih =>
    obtain ⟨middle, hmiddle, hrest⟩ := reaches_cons.mp hrun
    have hlast := ih hrest (hstep n start label middle hstart hmiddle)
    have hcount : (label :: labels).count tick =
        (if label = tick then 1 else 0) + labels.count tick := by
      rw [List.count_cons, Nat.add_comm]
      simp
    rwa [hcount, ← Nat.add_assoc]

/-- A concrete run is evaluated through what is observed at its end. -/
theorem exists_reaches_of_observe {A : Type*} {observe : S → A} {value : A}
    (hvalue : (labels.foldlM step start).map observe = some value) :
    ∃ stop, Reaches step start labels stop ∧ observe stop = value :=
  Option.map_eq_some_iff.mp hvalue

theorem restrict_eq_some {ok : S → L → Bool} {after : S} :
    restrict ok step state label = some after ↔ ok state label ∧ step state label = some after := by
  unfold restrict
  split <;> simp_all

/-- A disciplined run is a run whose every step the discipline allows. -/
theorem reaches_restrict_iff {ok : S → L → Bool} :
    Reaches (restrict ok step) start labels stop ↔
      Reaches step start labels stop ∧ EachStep step start labels (fun state label => ok state label) := by
  induction labels using List.reverseRecOn generalizing stop with
  | nil =>
    have hnone : EachStep step start [] (fun state label => ok state label) := by
      intro done label state hdone
      simp at hdone
    simp [hnone]
  | append_singleton labels label ih =>
    constructor
    · intro hrun
      obtain ⟨middle, hmiddle, hlast⟩ := reaches_snoc.mp hrun
      obtain ⟨hok, hlast⟩ := restrict_eq_some.mp hlast
      obtain ⟨hbase, heach⟩ := ih.mp hmiddle
      refine ⟨reaches_snoc.mpr ⟨middle, hbase, hlast⟩, ?_⟩
      intro done label' state hdone hstate
      obtain heq | hearlier := List.prefix_concat_iff.mp hdone
      · obtain ⟨rfl, heq⟩ := List.append_inj' heq rfl
        obtain rfl : label' = label := by simpa using heq
        rwa [← hbase.unique hstate]
      · exact heach done label' state hearlier hstate
    · rintro ⟨hrun, heach⟩
      obtain ⟨middle, hmiddle, hlast⟩ := reaches_snoc.mp hrun
      have hearlier : EachStep step start labels (fun state label => ok state label) :=
        fun done label' state hdone => heach done label' state (hdone.trans (List.prefix_append _ _))
      exact reaches_snoc.mpr ⟨middle, ih.mpr ⟨hmiddle, hearlier⟩,
        restrict_eq_some.mpr ⟨heach labels label middle (List.prefix_refl _) hmiddle, hlast⟩⟩

/-- A property of labels alone holds of each step of a run when it holds of each label. -/
theorem Reaches.eachStep_iff {Q : L → Prop} (hrun : Reaches step start labels stop) :
    EachStep step start labels (fun _ label => Q label) ↔ ∀ label ∈ labels, Q label := by
  constructor
  · intro heach label hlabel
    obtain ⟨done, rest, rfl⟩ := List.append_of_mem hlabel
    have hdone : done ++ [label] <+: done ++ label :: rest := ⟨rest, by simp⟩
    obtain ⟨state, hstate⟩ := hrun.exists_prefix ((List.prefix_append done [label]).trans hdone)
    exact heach done label state hdone hstate
  · intro hall done label _ hdone _
    exact hall label (hdone.subset (by simp))

/-- An invariant that good steps keep holds throughout a run of good steps. -/
theorem EachStep.always {I : S → Prop} {good : S → L → Prop} (heach : EachStep step start labels good)
    (hstart : I start)
    (hgood : ∀ before label after, I before → good before label →
      step before label = some after → I after) :
    Always step start labels I := by
  intro done
  induction done using List.reverseRecOn with
  | nil =>
    intro state _ hstate
    rw [reaches_nil] at hstate
    exact hstate ▸ hstart
  | append_singleton done label ih =>
    intro state hdone hstate
    obtain ⟨middle, hmiddle, hlast⟩ := reaches_snoc.mp hstate
    exact hgood middle label state (ih middle ((List.prefix_append _ _).trans hdone) hmiddle)
      (heach done label middle hdone hmiddle) hlast

/-- First-failure rule. When good steps keep an invariant that implies `P` and
a bad step out of it breaks `P` at once, a run keeps `P` throughout exactly when
all its steps are good. -/
theorem Reaches.always_iff_eachStep {I P : S → Prop} {good : S → L → Prop}
    (hrun : Reaches step start labels stop) (hstart : I start)
    (hgood : ∀ before label after, I before → good before label →
      step before label = some after → I after)
    (hbad : ∀ before label after, I before → ¬ good before label →
      step before label = some after → ¬ P after)
    (himplies : ∀ state, I state → P state) :
    Always step start labels P ↔ EachStep step start labels good := by
  -- Along a run that keeps `P` the invariant travels with the prefix.
  have hinv : Always step start labels P → Always step start labels I := by
    intro halways done
    induction done using List.reverseRecOn with
    | nil =>
      intro state _ hstate
      rw [reaches_nil] at hstate
      exact hstate ▸ hstart
    | append_singleton done label ih =>
      intro state hdone hstate
      obtain ⟨middle, hmiddle, hlast⟩ := reaches_snoc.mp hstate
      have hbefore := ih middle ((List.prefix_append _ _).trans hdone) hmiddle
      by_cases h : good middle label
      · exact hgood middle label state hbefore h hlast
      · exact absurd (halways _ state hdone hstate) (hbad middle label state hbefore h hlast)
  constructor
  · intro halways done label state hdone hstate
    obtain ⟨after, hafter⟩ := hrun.exists_prefix hdone
    obtain ⟨middle, hmiddle, hlast⟩ := reaches_snoc.mp hafter
    obtain rfl := hmiddle.unique hstate
    by_contra h
    have hbefore := hinv halways done middle ((List.prefix_append _ _).trans hdone) hstate
    exact hbad middle label after hbefore h hlast (halways _ after hdone hafter)
  · intro heach done state hdone hstate
    exact himplies state (heach.always hstart hgood done state hdone hstate)

end Runs

/-- Two systems that answer every label alike, from related states, run in lockstep:
one can take a sequence of labels exactly when the other can, and they end in related
states. -/
theorem lockstep {S' : Type*} {R : S → S' → Prop} {step : S → L → Option S} {step' : S' → L → Option S'}
    (hstep : ∀ s s' label, R s s' → Option.Rel R (step s label) (step' s' label))
    {start : S} {start' : S'} (hstart : R start start') (labels : List L) :
    Option.Rel R (labels.foldlM step start) (labels.foldlM step' start') := by
  induction labels generalizing start start' with
  | nil => exact .some hstart
  | cons label labels ih =>
    rw [List.foldlM_cons, List.foldlM_cons]
    have hfirst := hstep start start' label hstart
    cases hleft : step start label with
    | none =>
      rw [hleft] at hfirst
      cases hright : step' start' label with
      | none => exact .none
      | some t' =>
        rw [hright] at hfirst
        cases hfirst
    | some t =>
      rw [hleft] at hfirst
      cases hright : step' start' label with
      | none =>
        rw [hright] at hfirst
        cases hfirst
      | some t' =>
        rw [hright] at hfirst
        cases hfirst with
        | some hnext => exact ih hnext

/-- The run that a system in lockstep takes along with a given one. -/
theorem Reaches.of_lockstep {S' : Type*} {R : S → S' → Prop} {step : S → L → Option S}
    {step' : S' → L → Option S'} {start stop : S} {start' : S'} {labels : List L}
    (hrun : Reaches step start labels stop)
    (hrel : Option.Rel R (labels.foldlM step start) (labels.foldlM step' start')) :
    ∃ stop', Reaches step' start' labels stop' ∧ R stop stop' := by
  unfold Reaches at hrun ⊢
  rw [hrun] at hrel
  cases hother : labels.foldlM step' start' with
  | none =>
    rw [hother] at hrel
    cases hrel
  | some stop' =>
    rw [hother] at hrel
    cases hrel with
    | some h => exact ⟨stop', rfl, h⟩

end run
