import SpeUtils.Spu.Schedule
import SpeUtils.Spu.Occupancy

open cyclic speutils.fifo

namespace speutils.taskmanager

/-- The atomic line after the host has published `published` tasks in all: the
count is the ring index of the last of them. -/
def Publishes (size published : Nat) (atomic : atomic_s) : Prop :=
  if published = 0 then atomic.state = 0
  else atomic.state ≠ 0 ∧ atomic.count = behind size published

namespace Control

theorem step_front (atomic : atomic_s) (c : Control) :
    (c.step atomic).tstate.front = if c.stage = .stage1 then c.front atomic else c.tstate.front := by
  unfold step
  cases hstage : c.stage with
  | stage1 =>
    simp only [if_true]
    split <;> rfl
  | stage2 | stage3 => rfl
  | stage4 =>
    simp only [reduceCtorEq, if_false]
    split <;> rfl

/-- Reading the line leaves `front` just behind the last published task. Before
the first publication it keeps its initial value. -/
theorem front_of_publishes {size published seen : Nat} {atomic : atomic_s} {c : Control}
    (hpublished : Publishes size published atomic) (hseen : seen ≤ published)
    (hfront : c.tstate.front = behind size seen) : c.front atomic = behind size published := by
  unfold Publishes at hpublished
  split at hpublished
  · rename_i hzero
    obtain rfl : seen = 0 := by omega
    simp [front, hpublished, hfront, hzero]
  · simp [front, hpublished.1, hpublished.2]

end Control

namespace Launch

variable {world : Type} (l : Launch world)

/-- `pipeline`, entered at an iteration of the run: the body is executed, then the
loop test decides. The result is the number of the iteration after the last. -/
def pipeline : Nat → Nat → Option Nat
  | 0, _ => none
  | fuel + 1, iteration =>
    if pipelineContinues (l.run (4 * (iteration + 1))) then pipeline fuel (iteration + 1)
    else some (iteration + 1)

theorem pipeline_return {fuel iteration stop : Nat} (hreturn : l.pipeline fuel iteration = some stop) :
    iteration < stop ∧ pipelineContinues (l.run (4 * stop)) = false := by
  induction fuel generalizing iteration with
  | zero => cases hreturn
  | succ fuel ih =>
    unfold pipeline at hreturn
    split at hreturn
    · obtain ⟨hlt, hstop⟩ := ih hreturn
      exact ⟨by omega, hstop⟩
    · rename_i hdone
      obtain rfl := Option.some.inj hreturn
      exact ⟨by omega, by simpa using hdone⟩

/-- The loop is left at the latest where its test is known to fail. -/
theorem pipeline_of_done {fuel iteration count : Nat} (hcount : count < fuel)
    (hdone : pipelineContinues (l.run (4 * (iteration + (count + 1)))) = false) :
    ∃ stop, l.pipeline fuel iteration = some stop ∧ stop ≤ iteration + (count + 1) := by
  induction fuel generalizing iteration count with
  | zero => omega
  | succ fuel ih =>
    unfold pipeline
    split
    · rename_i hcontinues
      cases count with
      | zero =>
        rw [Nat.zero_add] at hdone
        rw [hdone] at hcontinues
        cases hcontinues
      | succ count =>
        rw [show iteration + (count + 1 + 1) = iteration + 1 + (count + 1) by omega] at hdone
        obtain ⟨stop, hstop, hle⟩ := ih (by omega) hdone
        exact ⟨stop, hstop, by omega⟩
    · exact ⟨iteration + 1, rfl, by omega⟩

/-- The control state follows the numbers of admitted and acknowledged tasks. -/
theorem run_at {size : Nat} (hsize : 0 < size) (hmax : l.max_entries = size) (n : Nat) :
    (l.run n).control.At size (l.admitted n).length (l.acked n).length := by
  induction n with
  | zero =>
    rw [← hmax]
    exact Spu.init_at _ _ _ (by omega)
  | succ n ih =>
    rw [run_control, admitted_succ, acked_succ]
    by_cases hfetch : (l.run n).stage = .stage1
    · have hacks : l.acks n = none := by simp [acks, hfetch]
      rw [hacks]
      cases hact : l.acting n with
      | none =>
        have hadmits : l.admits n = none := by simp [admits, hact]
        rw [hadmits]
        simpa using ih.other (fun _ => hact)
      | some x =>
        have hadmits : l.admits n = some (((l.run (n + 1)).pipe x).entry) := by simp [admits, hfetch, hact]
        rw [hadmits]
        simpa using (ih.fetch hsize hfetch hact).1
    · have hadmits : l.admits n = none := by simp [admits, hfetch]
      rw [hadmits]
      by_cases hretire : (l.run n).stage = .stage4
      · cases hact : l.acting n with
        | none =>
          have hacks : l.acks n = none := by simp [acks, hact]
          rw [hacks]
          simpa using ih.other (fun _ => hact)
        | some x =>
          have hacks : l.acks n = some (((l.run n).pipe x).entry) := by simp [acks, hretire, hact]
          rw [hacks]
          simpa using (ih.retire hsize hretire hact).1
      · have hacks : l.acks n = none := by simp [acks, hretire]
        rw [hacks]
        have hneither : ¬ ((l.run n).control.stage = .stage1 ∨ (l.run n).control.stage = .stage4) := by
          rintro (h | h)
          · exact hfetch h
          · exact hretire h
        simpa using ih.other (fun h => absurd h hneither)

/-- Between two fetches `front` does not change. -/
theorem front_kept (t : Nat) {n : Nat} (hfrom : 4 * t + 1 ≤ n) (hto : n ≤ 4 * t + 4) :
    (l.run n).tstate.front = (l.run (4 * t + 1)).tstate.front := by
  induction n, hfrom using Nat.le_induction with
  | base => rfl
  | succ n hfrom ih =>
    have hstage : (l.run n).stage ≠ .stage1 := by
      intro h
      have hoffset : n % 4 = 0 := l.stage_iff.mp h
      omega
    have hfront := congrArg (fun c => c.tstate.front) (l.run_control n)
    simp only [Control.step_front, Spu.control_stage, hstage, if_false, Spu.control_tstate] at hfront
    exact hfront.trans (ih (by omega))

/-- The number of tasks published when iteration `t - 1` read the line. -/
def seenBy (published : Nat → Nat) : Nat → Nat
  | 0 => 0
  | t + 1 => published t

section Published

variable {size : Nat} {published : Nat → Nat} (hsize : 2 ≤ size) (hmax : l.max_entries = size)
  (hmono : Monotone published)
  (hpublished : ∀ t, Publishes size (published t) (l.fifo (4 * t)).atomic)
  (hwindow : ∀ t, published t ≤ (l.acked (4 * t)).length + (size - 1))

include hmono in
theorem seenBy_le (t : Nat) : seenBy published t ≤ published t := by
  cases t with
  | zero => exact Nat.zero_le _
  | succ t => exact hmono (Nat.le_succ t)

include hmono hpublished in
/-- The fetch of an iteration leaves `front` behind the last published task. -/
theorem front_after_fetch {t : Nat} (hfront : (l.run (4 * t)).tstate.front = behind size (seenBy published t)) :
    (l.run (4 * t + 1)).tstate.front = behind size (published t) := by
  have hstep := congrArg (fun c => c.tstate.front) (l.run_control (4 * t))
  simp only [Control.step_front, Spu.control_stage, l.fetch_stage, if_true, Spu.control_tstate] at hstep
  rw [hstep]
  exact Control.front_of_publishes (hpublished t) (seenBy_le hmono t) hfront

include hsize hmax hmono hpublished in
theorem front_eq (t : Nat) : (l.run (4 * t)).tstate.front = behind size (seenBy published t) := by
  induction t with
  | zero =>
    rw [seenBy, behind_zero (by omega), ← hmax]
    rfl
  | succ t ih =>
    rw [l.front_kept t (n := 4 * (t + 1)) (by omega) (by omega)]
    exact l.front_after_fetch hmono hpublished ih

include hsize hmax hmono hpublished in
/-- A task is fetched exactly when the indices differ. -/
theorem admits_isSome_iff (t : Nat) :
    (l.admits (4 * t)).isSome ↔
      behind size (l.admitted (4 * t)).length ≠ behind size (published t) := by
  have hfront := l.front_eq hsize hmax hmono hpublished t
  have hread := Control.front_of_publishes (c := (l.run (4 * t)).control) (hpublished t)
    (seenBy_le hmono t) hfront
  have hat := l.run_at (by omega) hmax (4 * t)
  simp only [admits, l.fetch_stage, if_true, Option.isSome_map, acting, Spu.acting, Control.acting,
    Spu.control_stage, hread, hat.in_back]
  split <;> simp_all

include hsize hmax hmono hpublished hwindow in
/-- Counting through an iteration: a task is admitted exactly while one is left
that the count covers. -/
theorem admitted_count (t : Nat) :
    (l.admitted (4 * t)).length ≤ published t ∧
      (l.admitted (4 * (t + 1))).length =
        if (l.admitted (4 * t)).length = published t then (l.admitted (4 * t)).length
        else (l.admitted (4 * t)).length + 1 := by
  have hcount : ∀ t, (l.admitted (4 * t)).length ≤ published t →
      (l.admitted (4 * (t + 1))).length =
        if (l.admitted (4 * t)).length = published t then (l.admitted (4 * t)).length
        else (l.admitted (4 * t)).length + 1 := by
    intro t hle
    have hlap : published t < (l.admitted (4 * t)).length + size := by
      have := hwindow t
      have := (l.run_at (by omega) hmax (4 * t)).le
      omega
    have hiff := l.admits_isSome_iff hsize hmax hmono hpublished t
    rw [admitted_iteration, List.length_append]
    split
    · rename_i heq
      rw [heq] at hiff
      cases hadmits : l.admits (4 * t) with
      | none => simp [heq]
      | some entry => simp [hadmits] at hiff
    · rename_i hne
      cases hadmits : l.admits (4 * t) with
      | none =>
        have heq : behind size (l.admitted (4 * t)).length = behind size (published t) := by
          simpa [hadmits] using hiff
        exact absurd (eq_of_behind_eq hle hlap heq) hne
      | some entry => simp
  suffices hle : ∀ t, (l.admitted (4 * t)).length ≤ published t from ⟨hle t, hcount t (hle t)⟩
  intro t
  induction t with
  | zero => exact Nat.zero_le _
  | succ t ih =>
    have hnext := hcount t ih
    have hgrow : published t ≤ published (t + 1) := hmono (Nat.le_succ t)
    split at hnext <;> omega

include hsize hmax hmono hpublished hwindow in
/-- While the count stands still, the backlog shrinks by one each iteration. -/
theorem admitted_backlog {t : Nat} (hstill : ∀ u, t ≤ u → published u = published t) (j : Nat) :
    (l.admitted (4 * (t + j))).length = min ((l.admitted (4 * t)).length + j) (published t) := by
  induction j with
  | zero =>
    have h := (l.admitted_count hsize hmax hmono hpublished hwindow t).1
    simp only [Nat.add_zero]
    omega
  | succ j ih =>
    have h := (l.admitted_count hsize hmax hmono hpublished hwindow (t + j)).2
    rw [hstill (t + j) (by omega), ih] at h
    rw [show t + (j + 1) = t + j + 1 by omega, h]
    split <;> omega

include hsize hmax hmono hpublished hwindow in
/-- When the loop test fails nothing is in the pipe and all three indices agree:
less than a lap separates them, so equal indices are equal positions. -/
theorem drained_of_done {t : Nat} (hdone : pipelineContinues (l.run (4 * (t + 1))) = false) :
    (∀ x, ((l.run (4 * (t + 1))).pipe x).active = false) ∧
      (l.run (4 * (t + 1))).tstate.in_back = (l.run (4 * (t + 1))).tstate.out_back ∧
      (l.run (4 * (t + 1))).tstate.out_back = (l.run (4 * (t + 1))).tstate.front ∧
      (l.acked (4 * (t + 1))).length = (l.admitted (4 * (t + 1))).length := by
  have hat := l.run_at (by omega) hmax (4 * (t + 1))
  have hfront := l.front_eq hsize hmax hmono hpublished (t + 1)
  have htest : (l.run (4 * (t + 1))).tstate.front = (l.run (4 * (t + 1))).tstate.out_back := by
    simpa [pipelineContinues] using hdone
  have hin := hat.in_back
  have hout := hat.out_back
  rw [Spu.control_tstate] at hin hout
  have hadmitted : (l.admitted (4 * (t + 1))).length ≤ published t := by
    obtain ⟨hle, hcount⟩ := l.admitted_count hsize hmax hmono hpublished hwindow t
    split at hcount <;> omega
  have hlap : published t < (l.acked (4 * (t + 1))).length + size := by
    have := hwindow t
    rw [acked_iteration, List.length_append]
    omega
  have hacked : (l.acked (4 * (t + 1))).length = published t := by
    have hle := hat.le
    apply eq_of_behind_eq (by omega) hlap
    rw [← hout, ← htest, hfront]
    rfl
  have hequal : (l.admitted (4 * (t + 1))).length = (l.acked (4 * (t + 1))).length := by
    have hle := hat.le
    omega
  exact ⟨hat.empty hequal, by rw [hin, hout, hequal], htest.symm, hequal.symm⟩

include hsize hmax hmono hpublished hwindow in
/-- Pipeline drain. Whenever `pipeline` returns, no context is active, as many tasks
have been acknowledged as admitted, and `in_back`, `out_back` and `front` agree. Once
the published count stands still with `m` tasks unfetched, `pipeline` returns after
at most `m + 3` further iterations. What is admitted and acknowledged is what the
stages fetch, hand to their task bodies and put. -/
theorem pipeline_drains :
    (∀ fuel iteration stop, l.pipeline fuel iteration = some stop →
      (∀ x, ((l.run (4 * stop)).pipe x).active = false) ∧
      (l.run (4 * stop)).tstate.in_back = (l.run (4 * stop)).tstate.out_back ∧
      (l.run (4 * stop)).tstate.out_back = (l.run (4 * stop)).tstate.front ∧
      (l.acked (4 * stop)).length = (l.admitted (4 * stop)).length) ∧
    (∀ t m, (∀ u, t ≤ u → published u = published t) → published t = (l.admitted (4 * t)).length + m →
      ∃ stop, l.pipeline (m + 3) t = some stop ∧ stop ≤ t + (m + 3)) ∧
    (∀ n, Acted l.bodies (l.found n) (l.acting n) (l.run (n + 1))) := by
  refine ⟨?_, ?_, l.run_acted⟩
  · intro fuel iteration stop hreturn
    obtain ⟨hlt, hdone⟩ := l.pipeline_return hreturn
    cases stop with
    | zero => omega
    | succ t => exact l.drained_of_done hsize hmax hmono hpublished hwindow hdone
  · intro t m hstill hbacklog
    have hadmitted := l.admitted_backlog hsize hmax hmono hpublished hwindow hstill m
    have hacked : (l.acked (4 * (t + m + 3))).length = published t := by
      rw [acked_eq_admitted, hadmitted]
      omega
    have hdone : pipelineContinues (l.run (4 * (t + (m + 2 + 1)))) = false := by
      rw [show t + (m + 2 + 1) = t + m + 3 by omega]
      have hout := (l.run_at (by omega) hmax (4 * (t + m + 3))).out_back
      have hfront := l.front_eq hsize hmax hmono hpublished (t + m + 3)
      rw [Spu.control_tstate, hacked] at hout
      have hseen : seenBy published (t + m + 3) = published t := hstill (t + m + 2) (by omega)
      simp [pipelineContinues, hout, hfront, hseen]
    exact l.pipeline_of_done (by omega) hdone

end Published

/-- A ring of two slots whose first task was published before the SPU started. -/
def onePublished : Launch Unit where
  bodies := ⟨fun world _ _ => world, fun world _ task ack => (world, task, ack)⟩
  task := fun _ _ => 0
  ack := fun _ => ⟨0, 0, 0⟩
  world₀ := ()
  max_entries := 2
  fifo := fun _ => ⟨fun _ => 0, fun _ => ⟨0, 0, 0⟩, ⟨0, 1⟩, 2⟩
  arrivals := fun _ => []

theorem pipeline_drains_onePublished : ∃ stop,
    onePublished.pipeline 4 0 = some stop ∧ stop ≤ 4 ∧
      (∀ x, ((onePublished.run (4 * stop)).pipe x).active = false) ∧
      (onePublished.run (4 * stop)).tstate.out_back = (onePublished.run (4 * stop)).tstate.front := by
  have hmono : Monotone (fun _ : Nat => 1) := monotone_const
  have hline : Publishes 2 1 ⟨0, 1⟩ := ⟨by decide, rfl⟩
  have hdrains := onePublished.pipeline_drains (Nat.le_refl 2) rfl hmono (fun _ => hline)
    (fun _ => Nat.le_add_left 1 _)
  obtain ⟨stop, hstop, hle⟩ := hdrains.2.1 0 1 (fun _ _ => rfl) rfl
  obtain ⟨hidle, _, hout, _⟩ := hdrains.1 4 0 stop hstop
  exact ⟨stop, hstop, hle, hidle, hout⟩

end Launch

end speutils.taskmanager
