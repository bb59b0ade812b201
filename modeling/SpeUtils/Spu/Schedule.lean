import SpeUtils.Spu.Pipeline

open speutils.fifo

namespace speutils.taskmanager

namespace Launch

variable {world : Type} (l : Launch world)

/-- The context whose turn it is to be fetched into in iteration `t`. -/
def turn (t : Nat) : Fin 4 := contextOf (-BitVec.ofNat 32 t) 0

theorem turn_mod (t : Nat) : ((turn t).val + t) % 4 = 0 := contextOf_neg t 0

private theorem eq_turn {t : Nat} {x : Fin 4} (hx : (x.val + t) % 4 = 0) : x = turn t := by
  have hturn := turn_mod t
  apply Fin.ext
  omega

theorem acting_fetch {t : Nat} {x : Fin 4} (hact : l.acting (4 * t) = some x) : x = turn t := by
  have hturn := l.acting_turn hact
  exact eq_turn (by omega)

private theorem contextOf_turn (t : Nat) {n j : Nat} (hn : n / 4 = t + j) :
    contextOf (-BitVec.ofNat 32 (n / 4)) j = turn t := by
  have h := contextOf_neg (n / 4) j
  exact eq_turn (by omega)

/-- Between its fetch and its acknowledgement a context is out of reach of every
stage that could change its flag or its entry. The same holds of a context that
the fetch left empty. -/
theorem turn_kept (t : Nat) {n : Nat} (hfrom : 4 * t + 1 ≤ n) (hto : n ≤ 4 * t + 15) :
    ((l.run n).pipe (turn t)).active = ((l.run (4 * t + 1)).pipe (turn t)).active ∧
      ((l.run n).pipe (turn t)).entry = ((l.run (4 * t + 1)).pipe (turn t)).entry := by
  induction n, hfrom using Nat.le_induction with
  | base => exact ⟨rfl, rfl⟩
  | succ n hfrom ih =>
    obtain ⟨hactive, hentry⟩ := ih (by omega)
    -- In this window the context's turn comes only at its second and third stage.
    have hmiddle : (l.run n).control.acting (l.fifo n).atomic = some (turn t) →
        (l.run n).control.stage = .stage2 ∨ (l.run n).control.stage = .stage3 := by
      intro hact
      have hturn := l.acting_turn hact
      have hmod := turn_mod t
      have hcases : n % 4 = 1 ∨ n % 4 = 2 := by omega
      exact hcases.imp l.stage_iff.mpr l.stage_iff.mpr
    have hstep := Control.step_keeps hmiddle
    rw [← run_control] at hstep
    exact ⟨hstep.1.trans hactive, hstep.2.trans hentry⟩

/-- The fourth stage of the iteration before has emptied the context that is to
be fetched into, and at the start all contexts are empty. -/
theorem turn_inactive (t : Nat) : ((l.run (4 * t)).pipe (turn t)).active = false := by
  cases t with
  | zero => rfl
  | succ t =>
    have hstage : (l.run (4 * t + 3)).control.stage = .stage4 :=
      l.stage_iff.mpr (by simp [Stage.offset])
    have hretire := Control.step_retire (l.fifo (4 * t + 3)).atomic hstage
    rw [← run_control, Spu.control_cycle, (l.run_clock _).2] at hretire
    have hcontext : contextOf (-BitVec.ofNat 32 ((4 * t + 3) / 4)) 3 = turn (t + 1) := by
      have h := contextOf_neg ((4 * t + 3) / 4) 3
      exact eq_turn (by omega)
    rwa [hcontext] at hretire

/-- A context that has not had a turn since the start is still empty. -/
theorem early_inactive {n t : Nat} {x : Fin 4} (ht : t < 3) (hx : (x.val + t) % 4 = 3)
    (hn : n ≤ 4 * t + 3) : ((l.run n).pipe x).active = false := by
  induction n with
  | zero => rfl
  | succ n ih =>
    have hfetch : (l.run n).control.stage = .stage1 →
        (l.run n).control.acting (l.fifo n).atomic ≠ some x := by
      intro hstage hact
      have hturn := l.acting_turn hact
      have hoffset : n % 4 = 0 := l.stage_iff.mp hstage
      omega
    have hstep := Control.step_inactive (ih (by omega)) hfetch
    rw [← run_control] at hstep
    exact hstep

/-- The later stages of a context's passage act exactly when the fetch did. -/
theorem acting_later (t : Nat) {k : Nat} (hk : 0 < k) (hk3 : k ≤ 3) :
    l.acting (4 * (t + k) + k) =
      if ((l.run (4 * t + 1)).pipe (turn t)).active then some (turn t) else none := by
  have hstage : (l.run (4 * (t + k) + k)).control.stage ≠ .stage1 := by
    intro h
    have hoffset : (4 * (t + k) + k) % 4 = 0 := l.stage_iff.mp h
    omega
  have hcontext : contextOf (l.run (4 * (t + k) + k)).cycle (l.run (4 * (t + k) + k)).stage.offset =
      turn t := by
    rw [(l.run_clock _).1, (l.run_clock _).2, stageAt_offset, show (4 * (t + k) + k) % 4 = k by omega]
    exact contextOf_turn t (by omega)
  have hact := Control.acting_of_ne_stage1 (l.fifo (4 * (t + k) + k)).atomic hstage
  rw [Spu.control_cycle, Spu.control_stage, hcontext, Spu.control_active,
    (l.turn_kept t (n := 4 * (t + k) + k) (by omega) (by omega)).1] at hact
  exact hact

theorem fetch_stage (t : Nat) : (l.run (4 * t)).stage = .stage1 :=
  l.stage_iff.mpr (by simp [Stage.offset])

theorem retire_stage (t : Nat) : (l.run (4 * t + 3)).stage = .stage4 :=
  l.stage_iff.mpr (by simp [Stage.offset])

/-- Whether the fetch of iteration `t` acted can be read off the flag behind it. -/
theorem acting_fetch_iff (t : Nat) :
    l.acting (4 * t) = some (turn t) ↔ ((l.run (4 * t + 1)).pipe (turn t)).active = true := by
  constructor
  · intro hact
    have hstep := (Control.step_fetch (l.fetch_stage t) hact).1
    rwa [← run_control] at hstep
  · intro hactive
    by_contra hact
    have hstep := Control.step_inactive (l.turn_inactive t) (fun _ => hact)
    rw [← run_control] at hstep
    simp_all

/-- The acknowledgement of a task comes three iterations after its admission. -/
theorem acks_eq_admits (t : Nat) : l.acks (4 * (t + 3) + 3) = l.admits (4 * t) := by
  have hentry := (l.turn_kept t (n := 4 * (t + 3) + 3) (by omega) (by omega)).2
  unfold acks admits
  rw [if_pos (l.retire_stage (t + 3)), if_pos (l.fetch_stage t), l.acting_later t (by omega) (by omega)]
  by_cases hactive : ((l.run (4 * t + 1)).pipe (turn t)).active
  · rw [if_pos hactive, (l.acting_fetch_iff t).mpr hactive]
    simp [hentry]
  · have hidle : l.acting (4 * t) = none := by
      cases hact : l.acting (4 * t) with
      | none => rfl
      | some x =>
        obtain rfl := l.acting_fetch hact
        exact absurd ((l.acting_fetch_iff t).mp hact) hactive
    rw [if_neg hactive, hidle]
    rfl

theorem admitted_iteration (t : Nat) :
    l.admitted (4 * (t + 1)) = l.admitted (4 * t) ++ (l.admits (4 * t)).toList := by
  have hlater : ∀ j, 0 < j → j < 4 → l.admits (4 * t + j) = none := by
    intro j hj hj4
    refine if_neg fun h => ?_
    have hoffset : (4 * t + j) % 4 = 0 := l.stage_iff.mp h
    omega
  rw [show 4 * (t + 1) = 4 * t + 1 + 1 + 1 + 1 by omega, admitted_succ, admitted_succ, admitted_succ,
    admitted_succ, hlater 1 (by omega) (by omega), hlater 2 (by omega) (by omega),
    hlater 3 (by omega) (by omega)]
  simp

theorem acked_iteration (t : Nat) :
    l.acked (4 * (t + 1)) = l.acked (4 * t) ++ (l.acks (4 * t + 3)).toList := by
  have hearlier : ∀ j, j < 3 → l.acks (4 * t + j) = none := by
    intro j hj
    refine if_neg fun h => ?_
    have hoffset : (4 * t + j) % 4 = 3 := l.stage_iff.mp h
    omega
  rw [show 4 * (t + 1) = 4 * t + 1 + 1 + 1 + 1 by omega, acked_succ, acked_succ, acked_succ,
    acked_succ, hearlier 1 (by omega), hearlier 2 (by omega), ← Nat.add_zero (4 * t),
    hearlier 0 (by omega)]
  simp

/-- Tasks leave `stage4` in the order in which `stage1` admitted them, none
skipped and none twice: what has been acknowledged after `t + 3` iterations is
what had been admitted after `t`. -/
theorem acked_eq_admitted (t : Nat) : l.acked (4 * (t + 3)) = l.admitted (4 * t) := by
  induction t with
  | zero =>
    have hnone : ∀ t < 3, l.acks (4 * t + 3) = none := by
      intro t ht
      have hstage : (l.run (4 * t + 3)).control.stage ≠ .stage1 := by
        rw [Spu.control_stage, l.retire_stage]
        decide
      have hcontext := contextOf_neg ((4 * t + 3) / 4) ((4 * t + 3) % 4)
      have hidle : l.acting (4 * t + 3) = none := by
        have hact := Control.acting_of_ne_stage1 (l.fifo (4 * t + 3)).atomic hstage
        rw [Spu.control_cycle, Spu.control_stage, (l.run_clock _).1, (l.run_clock _).2, stageAt_offset,
          Spu.control_active, l.early_inactive ht (by omega) (Nat.le_refl _)] at hact
        exact hact
      unfold acks
      rw [hidle]
      split <;> rfl
    rw [show 4 * (0 + 3) = 4 * (2 + 1) by omega, l.acked_iteration 2, l.acked_iteration 1, l.acked_iteration 0,
      hnone 0 (by omega), hnone 1 (by omega), hnone 2 (by omega)]
    rfl
  | succ t ih =>
    rw [show t + 1 + 3 = t + 3 + 1 by omega, acked_iteration, ih, acks_eq_admits, admitted_iteration]

/-- The pipeline schedule, for every launch, any task bodies, any published counts
and any length of run. Stage `n` is stage `n % 4 + 1` of iteration `n / 4`. When
`stage1` activates a context in iteration `t`, the context was inactive, `stage2`
acts on it in iteration `t + 1`, `stage3` in `t + 2` and `stage4` in `t + 3`, after
which it is inactive again; nothing else acts on it in between, and its entry does
not change. Tasks are acknowledged in the order of their admission. To act is to do
the stage's work: it starts its transfer and calls its task body for the context that
it acts on, and does neither where it acts on none. -/
theorem pipeline_schedule :
    (∀ n stage, (l.run n).stage = stage ↔ n % 4 = stage.offset) ∧
    (∀ t x, l.acting (4 * t) = some x →
      ((l.run (4 * t)).pipe x).active = false ∧
      ((l.run (4 * t + 1)).pipe x).active = true ∧
      l.acting (4 * (t + 1) + 1) = some x ∧
      l.acting (4 * (t + 2) + 2) = some x ∧
      l.acting (4 * (t + 3) + 3) = some x ∧
      ((l.run (4 * (t + 3) + 4)).pipe x).active = false ∧
      (∀ n, 4 * t < n → n < 4 * (t + 3) + 4 → l.acting n = some x →
        n = 4 * (t + 1) + 1 ∨ n = 4 * (t + 2) + 2 ∨ n = 4 * (t + 3) + 3) ∧
      (∀ n, 4 * t < n → n ≤ 4 * (t + 3) + 3 →
        ((l.run n).pipe x).entry = ((l.run (4 * t + 1)).pipe x).entry)) ∧
    (∀ t, l.acked (4 * (t + 3)) = l.admitted (4 * t)) ∧
    (∀ n, Acted l.bodies (l.found n) (l.acting n) (l.run (n + 1))) := by
  refine ⟨fun n stage => l.stage_iff, ?_, l.acked_eq_admitted, l.run_acted⟩
  intro t x hact
  obtain rfl := l.acting_fetch hact
  have hactive := (l.acting_fetch_iff t).mp hact
  have hlater : ∀ k, 0 < k → k ≤ 3 → l.acting (4 * (t + k) + k) = some (turn t) := by
    intro k hk hk3
    rw [l.acting_later t hk hk3, if_pos hactive]
  refine ⟨l.turn_inactive t, hactive, hlater 1 (by omega) (by omega), hlater 2 (by omega) (by omega),
    hlater 3 (by omega) (by omega), ?_, ?_, ?_⟩
  · have hturn : turn t = turn (t + 4) := by
      have h := turn_mod t
      exact eq_turn (by omega)
    rw [hturn]
    exact l.turn_inactive (t + 4)
  · intro n hfrom hto hother
    have hturn := l.acting_turn hother
    have hmod := turn_mod t
    have hiteration : n / 4 = t ∨ n / 4 = t + 1 ∨ n / 4 = t + 2 ∨ n / 4 = t + 3 := by omega
    rcases hiteration with h | h | h | h <;> omega
  · intro n hfrom hto
    exact (l.turn_kept t (by omega) (by omega)).2

end Launch

end speutils.taskmanager
