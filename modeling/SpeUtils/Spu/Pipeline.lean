import SpeUtils.Spu.Control

open speutils.fifo

namespace speutils.taskmanager

/-- The stage that runs at a step of an uninterrupted pipeline. -/
def stageAt (n : Nat) : Stage :=
  if n % 4 = 0 then .stage1 else if n % 4 = 1 then .stage2 else if n % 4 = 2 then .stage3 else .stage4

/-- The offset of a stage in `(cycle + offset) % STAGES`. -/
def Stage.offset : Stage → Nat
  | .stage1 => 0
  | .stage2 => 1
  | .stage3 => 2
  | .stage4 => 3

theorem stageAt_offset (n : Nat) : (stageAt n).offset = n % 4 := by
  have hcases : n % 4 = 0 ∨ n % 4 = 1 ∨ n % 4 = 2 ∨ n % 4 = 3 := by omega
  rcases hcases with h | h | h | h <;> simp [stageAt, Stage.offset, h]

namespace Control

theorem acting_context {atomic : atomic_s} {c : Control} {x : Fin 4}
    (hact : c.acting atomic = some x) : x = contextOf c.cycle c.stage.offset := by
  unfold acting at hact
  cases hstage : c.stage with
  | stage1 | stage2 | stage3 | stage4 =>
    simp only [hstage] at hact
    split at hact
    · exact (Option.some.inj hact).symm
    · cases hact

/-- After the fetch the active flag alone decides whether a stage acts. -/
theorem acting_of_ne_stage1 (atomic : atomic_s) {c : Control} (hstage : c.stage ≠ .stage1) :
    c.acting atomic = if c.active (contextOf c.cycle c.stage.offset) then
      some (contextOf c.cycle c.stage.offset) else none := by
  unfold acting
  cases h : c.stage with
  | stage1 => exact absurd h hstage
  | stage2 | stage3 | stage4 => rfl

theorem acting_active {atomic : atomic_s} {c : Control} {x : Fin 4} (hstage : c.stage ≠ .stage1)
    (hact : c.acting atomic = some x) : c.active x = true := by
  rw [acting_of_ne_stage1 atomic hstage] at hact
  split at hact
  · rename_i hactive
    obtain rfl := Option.some.inj hact
    exact hactive
  · cases hact

theorem step_stage_cycle (atomic : atomic_s) {c : Control} {n : Nat} (hstage : c.stage = stageAt n)
    (hcycle : c.cycle = -BitVec.ofNat 32 (n / 4)) :
    (c.step atomic).stage = stageAt (n + 1) ∧
      (c.step atomic).cycle = -BitVec.ofNat 32 ((n + 1) / 4) := by
  have hcases : n % 4 = 0 ∨ n % 4 = 1 ∨ n % 4 = 2 ∨ n % 4 = 3 := by omega
  obtain h | h | h | h := hcases
  · have hnext : (n + 1) % 4 = 1 := by omega
    have hdiv : (n + 1) / 4 = n / 4 := by omega
    have hs : c.stage = .stage1 := by simp [hstage, stageAt, h]
    unfold step
    simp only [hs, hdiv, stageAt, hnext]
    split <;> simp [hcycle]
  · have hnext : (n + 1) % 4 = 2 := by omega
    have hdiv : (n + 1) / 4 = n / 4 := by omega
    have hs : c.stage = .stage2 := by simp [hstage, stageAt, h]
    simp [step, hs, hdiv, stageAt, hnext, hcycle]
  · have hnext : (n + 1) % 4 = 3 := by omega
    have hdiv : (n + 1) / 4 = n / 4 := by omega
    have hs : c.stage = .stage3 := by simp [hstage, stageAt, h]
    simp [step, hs, hdiv, stageAt, hnext, hcycle]
  · have hnext : (n + 1) % 4 = 0 := by omega
    have hdiv : (n + 1) / 4 = n / 4 + 1 := by omega
    have hs : c.stage = .stage4 := by simp [hstage, stageAt, h]
    have hdown : -BitVec.ofNat 32 (n / 4) - 1#32 = -BitVec.ofNat 32 (n / 4 + 1) := by
      apply BitVec.eq_of_toNat_eq
      simp only [BitVec.toNat_sub, BitVec.toNat_neg, BitVec.toNat_ofNat]
      omega
    unfold step
    simp only [hs, hdiv, stageAt, hnext]
    split <;> simp [hcycle, hdown]

theorem step_max_entries (atomic : atomic_s) (c : Control) :
    (c.step atomic).max_entries = c.max_entries := by
  unfold step
  split
  · split <;> rfl
  · rfl
  · rfl
  · split <;> rfl

/-- A context that the stage does not act on, or that it acts on between fetch
and acknowledgement, keeps its flag and its entry. -/
theorem step_keeps {atomic : atomic_s} {c : Control} {x : Fin 4}
    (hx : c.acting atomic = some x → c.stage = .stage2 ∨ c.stage = .stage3) :
    (c.step atomic).active x = c.active x ∧ (c.step atomic).entry x = c.entry x := by
  unfold step
  unfold acting at hx
  cases hstage : c.stage with
  | stage1 =>
    simp only [hstage] at hx ⊢
    split
    · rename_i hfetch
      have hne : x ≠ contextOf c.cycle 0 := by
        rintro rfl
        simp [hfetch] at hx
      simp [hne]
    · exact ⟨rfl, rfl⟩
  | stage2 => exact ⟨rfl, rfl⟩
  | stage3 => exact ⟨rfl, rfl⟩
  | stage4 =>
    simp only [hstage] at hx ⊢
    split
    · rename_i hactive
      have hne : x ≠ contextOf c.cycle 3 := by
        rintro rfl
        simp [hactive] at hx
      simp [hne]
    · exact ⟨rfl, rfl⟩

/-- Only `stage1` activates a context. -/
theorem step_inactive {atomic : atomic_s} {c : Control} {x : Fin 4} (hx : c.active x = false)
    (hfetch : c.stage = .stage1 → c.acting atomic ≠ some x) :
    (c.step atomic).active x = false := by
  by_cases hact : c.acting atomic = some x
  · unfold acting at hact
    cases hstage : c.stage with
    | stage1 =>
      refine absurd ?_ (hfetch hstage)
      unfold acting
      exact hact
    | stage2 | stage3 | stage4 =>
      simp only [hstage] at hact
      split at hact
      · obtain rfl := Option.some.inj hact
        simp_all
      · cases hact
  · rw [(step_keeps (fun h => absurd h hact)).1, hx]

theorem step_fetch {atomic : atomic_s} {c : Control} {x : Fin 4} (hstage : c.stage = .stage1)
    (hact : c.acting atomic = some x) :
    (c.step atomic).active x = true ∧
      (c.step atomic).entry x = increment c.tstate.in_back c.max_entries := by
  simp only [acting, hstage] at hact
  split at hact
  · rename_i hfetch
    obtain rfl := Option.some.inj hact
    simp [step, hstage, hfetch]
  · cases hact

/-- The fourth stage leaves its context inactive whether it acted or not. -/
theorem step_retire (atomic : atomic_s) {c : Control} (hstage : c.stage = .stage4) :
    (c.step atomic).active (contextOf c.cycle 3) = false := by
  unfold step
  simp only [hstage]
  split
  · simp
  · simp_all

end Control

/-- The contexts turn against the iterations: in iteration `t` the stage with
offset `j` owns the context congruent to `j - t`, also past the wrap of the
32-bit counter. -/
theorem contextOf_neg (t j : Nat) :
    ((contextOf (-BitVec.ofNat 32 t) j).val + t) % 4 = j % 4 := by
  simp only [contextOf, STAGES, BitVec.toNat_add, BitVec.toNat_neg, BitVec.toNat_ofNat]
  omega

section

variable {world : Type}

/-- Completion of some outstanding transfers, one after another. -/
def arriveAll (indices : List Nat) (m : Spu world × fifo_s) : Spu world × fifo_s :=
  indices.foldl (fun m index => (arrive index m).getD m) m

theorem arriveAll_kept (indices : List Nat) (m : Spu world × fifo_s) : Kept m (arriveAll indices m) := by
  induction indices generalizing m with
  | nil => exact .refl m
  | cons index indices ih =>
    have hfirst : Kept m ((arrive index m).getD m) := by
      cases harrive : arrive index m with
      | none => exact .refl m
      | some n => exact arrive_kept harrive
    exact hfirst.trans (ih _)

theorem arriveAll_queue (indices : List Nat) (m : Spu world × fifo_s) :
    (arriveAll indices m).1.queue.Sublist m.1.queue := by
  induction indices generalizing m with
  | nil => exact .refl _
  | cons index indices ih =>
    have hfirst : ((arrive index m).getD m).1.queue.Sublist m.1.queue := by
      cases harrive : arrive index m with
      | none => exact .refl _
      | some n =>
        rw [Option.getD_some, arrive_queue harrive]
        exact List.eraseIdx_sublist _ _
    exact (ih _).trans hfirst

end

/-- One launch of the task manager: the task bodies, what `memalign` and the
task bodies start from, the shared memory that the `n`-th stage finds, and the
queue positions of the transfers that complete just before it. -/
structure Launch (world : Type) where
  bodies : TaskBodies world
  task : Fin 4 → Task
  ack : Fin 4 → ack_s
  world₀ : world
  max_entries : Nat
  fifo : Nat → fifo_s
  arrivals : Nat → List Nat

namespace Launch

variable {world : Type}

/-- The SPU after `n` stages: four to an iteration of `pipeline`, however often
`pipeline` has returned and been called again. -/
def run (l : Launch world) : Nat → Spu world
  | 0 => .init l.task l.ack l.world₀ l.max_entries
  | n + 1 => (runStage l.bodies (arriveAll (l.arrivals n) (l.run n, l.fifo n))).1

/-- The state in which the `n`-th stage runs. -/
def found (l : Launch world) (n : Nat) : Spu world × fifo_s :=
  arriveAll (l.arrivals n) (l.run n, l.fifo n)

/-- The context that the `n`-th stage acts on, if it acts at all. -/
def acting (l : Launch world) (n : Nat) : Option (Fin 4) := (l.run n).acting (l.fifo n)

/-- The entry that the `n`-th stage, if it is a `stage1`, gives to the task it
admits. -/
def admits (l : Launch world) (n : Nat) : Option Nat :=
  if (l.run n).stage = .stage1 then (l.acting n).map fun x => ((l.run (n + 1)).pipe x).entry else none

/-- The entry that the `n`-th stage, if it is a `stage4`, acknowledges. -/
def acks (l : Launch world) (n : Nat) : Option Nat :=
  if (l.run n).stage = .stage4 then (l.acting n).map fun x => ((l.run n).pipe x).entry else none

/-- The entries admitted in the first `n` stages, in order. -/
def admitted (l : Launch world) (n : Nat) : List Nat := (List.range n).filterMap l.admits

/-- The entries acknowledged in the first `n` stages, in order. -/
def acked (l : Launch world) (n : Nat) : List Nat := (List.range n).filterMap l.acks

variable (l : Launch world)

theorem found_kept (n : Nat) : Kept (l.run n, l.fifo n) (l.found n) := arriveAll_kept _ _

theorem run_succ (n : Nat) : l.run (n + 1) = (runStage l.bodies (l.found n)).1 := rfl

theorem found_acting (n : Nat) : (l.found n).1.acting (l.found n).2 = l.acting n := by
  have hkept := l.found_kept n
  simp only [Spu.acting, hkept.control, hkept.atomic, acting]

/-- The `n`-th stage does the work of the source's stage for the context that `acting`
names. -/
theorem run_acted (n : Nat) : Acted l.bodies (l.found n) (l.acting n) (l.run (n + 1)) := by
  rw [run_succ, ← found_acting]
  exact runStage_acted l.bodies (l.found n)

theorem run_control (n : Nat) :
    (l.run (n + 1)).control = (l.run n).control.step (l.fifo n).atomic := by
  have hkept := l.found_kept n
  rw [run_succ, runStage_control, hkept.control, hkept.atomic]

theorem run_clock (n : Nat) :
    (l.run n).stage = stageAt n ∧ (l.run n).cycle = -BitVec.ofNat 32 (n / 4) := by
  induction n with
  | zero => exact ⟨rfl, rfl⟩
  | succ n ih =>
    have h := Control.step_stage_cycle (c := (l.run n).control) (l.fifo n).atomic ih.1 ih.2
    rwa [← run_control] at h

theorem stage_iff {n : Nat} {stage : Stage} : (l.run n).stage = stage ↔ n % 4 = stage.offset := by
  rw [(l.run_clock n).1, ← stageAt_offset]
  constructor
  · intro h
    rw [h]
  · intro h
    generalize stageAt n = found at h ⊢
    cases found <;> cases stage <;> simp_all [Stage.offset]

theorem admitted_succ (n : Nat) : l.admitted (n + 1) = l.admitted n ++ (l.admits n).toList := by
  simp only [admitted, List.range_succ, List.filterMap_append]
  cases h : l.admits n <;> simp [h]

theorem acked_succ (n : Nat) : l.acked (n + 1) = l.acked n ++ (l.acks n).toList := by
  simp only [acked, List.range_succ, List.filterMap_append]
  cases h : l.acks n <;> simp [h]

/-- A stage can act only on the context that is its turn. -/
theorem acting_turn {n : Nat} {x : Fin 4} (hact : l.acting n = some x) :
    (x.val + n / 4) % 4 = n % 4 := by
  obtain ⟨hstage, hcycle⟩ := l.run_clock n
  have hx := Control.acting_context hact
  rw [Spu.control_cycle, Spu.control_stage, hcycle, hstage, stageAt_offset] at hx
  rw [hx, contextOf_neg, Nat.mod_mod]

end Launch

end speutils.taskmanager
