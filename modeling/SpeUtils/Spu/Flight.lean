import SpeUtils.Spu.Occupancy

open cyclic speutils.fifo

namespace speutils.taskmanager

namespace Control

/-- The number of tasks at an offset, none or one. -/
def taken (c : Control) (offset : Nat) : Nat := (c.active (contextOf c.cycle offset)).toNat

/-- The number of tasks at later offsets, which were fetched before. -/
def older (c : Control) : Nat → Nat
  | 0 => c.taken 3 + c.taken 2 + c.taken 1
  | 1 => c.taken 3 + c.taken 2
  | 2 => c.taken 3
  | _ => 0

variable {atomic : atomic_s} {c : Control} {x : Fin 4}

theorem taken_eq_one {offset : Nat} (hactive : c.active (contextOf c.cycle offset) = true) :
    c.taken offset = 1 := by
  rw [taken, hactive]
  rfl

theorem taken_eq_zero {offset : Nat} (hidle : c.active (contextOf c.cycle offset) = false) :
    c.taken offset = 0 := by
  rw [taken, hidle]
  rfl

/-- A stage that acts behind the fetch finds its task at its own offset. -/
theorem taken_of_acting (hstage : c.stage ≠ .stage1) (hact : c.acting atomic = some x) :
    c.taken c.stage.offset = 1 := by
  have hactive := acting_active hstage hact
  rw [acting_context hact] at hactive
  exact taken_eq_one hactive

/-- Where a later stage does not act there is no task. -/
theorem taken_of_idle (hstage : c.stage ≠ .stage1) (hact : c.acting atomic = none) :
    c.taken c.stage.offset = 0 := by
  rw [acting_of_ne_stage1 atomic hstage] at hact
  split at hact
  · cases hact
  · rename_i hidle
    exact taken_eq_zero (Bool.eq_false_iff.mpr hidle)

section Step

theorem cycle_of_ne_stage4 (hstage : c.stage ≠ .stage4) : (c.step atomic).cycle = c.cycle := by
  unfold step
  cases h : c.stage with
  | stage1 =>
    simp only
    split <;> rfl
  | stage2 | stage3 => rfl
  | stage4 => exact absurd h hstage

theorem cycle_of_stage4 (hstage : c.stage = .stage4) : (c.step atomic).cycle = c.cycle - 1#32 := by
  simp only [step, hstage]
  split <;> rfl

/-- `stage1` leaves the older tasks alone. -/
theorem taken_fetch (hstage : c.stage = .stage1) {offset : Nat} (hpos : 0 < offset) (hlt : offset < 4) :
    (c.step atomic).taken offset = c.taken offset := by
  have hcycle : (c.step atomic).cycle = c.cycle := cycle_of_ne_stage4 (by simp [hstage])
  have hkeeps : (c.step atomic).active (contextOf c.cycle offset) = c.active (contextOf c.cycle offset) := by
    refine (step_keeps fun hact => ?_).1
    have hcontext := acting_context hact
    rw [hstage] at hcontext
    exact absurd hcontext (contextOf_ne c.cycle hlt (by decide) (Nat.ne_of_gt hpos))
  rw [taken, taken, hcycle, hkeeps]

theorem taken_fetch_zero (hstage : c.stage = .stage1) (hact : c.acting atomic = some x) :
    (c.step atomic).taken 0 = 1 := by
  have hcontext := acting_context hact
  rw [hstage] at hcontext
  have hactive := (step_fetch hstage hact).1
  rw [hcontext] at hactive
  refine taken_eq_one ?_
  rw [cycle_of_ne_stage4 (by simp [hstage])]
  exact hactive

theorem taken_fetch_none (hstage : c.stage = .stage1) (hact : c.acting atomic = none) :
    (c.step atomic).taken 0 = c.taken 0 := by
  have hkeeps : (c.step atomic).active (contextOf c.cycle 0) = c.active (contextOf c.cycle 0) := by
    refine (step_keeps fun hsome => ?_).1
    rw [hact] at hsome
    cases hsome
  rw [taken, taken, cycle_of_ne_stage4 (by simp [hstage]), hkeeps]

theorem taken_middle (hstage : c.stage = .stage2 ∨ c.stage = .stage3) (offset : Nat) :
    (c.step atomic).taken offset = c.taken offset := by
  obtain hstage | hstage := hstage
  · simp [taken, step, hstage]
  · simp [taken, step, hstage]

/-- Behind `stage4` the younger tasks have moved on by one offset. -/
theorem taken_retire (hstage : c.stage = .stage4) {offset : Nat} (hlt : offset < 3) :
    (c.step atomic).taken (offset + 1) = c.taken offset := by
  have hcycle : (c.step atomic).cycle = c.cycle - 1#32 := cycle_of_stage4 hstage
  have hkeeps : (c.step atomic).active (contextOf c.cycle offset) = c.active (contextOf c.cycle offset) := by
    refine (step_keeps fun hact => ?_).1
    have hcontext := acting_context hact
    rw [hstage] at hcontext
    exact absurd hcontext (contextOf_ne c.cycle (by omega) (by decide) (Nat.ne_of_lt hlt))
  rw [taken, taken, hcycle, contextOf_pred, hkeeps]

theorem taken_retire_zero (hstage : c.stage = .stage4) : (c.step atomic).taken 0 = 0 := by
  have hcycle : (c.step atomic).cycle = c.cycle - 1#32 := cycle_of_stage4 hstage
  refine taken_eq_zero ?_
  rw [hcycle, contextOf_pred_zero]
  exact step_retire atomic hstage

end Step

section Position

variable {size fetched acked : Nat}

/-- The tasks in the pipe are those between the two positions. -/
theorem At.sum (hat : At size fetched acked c) :
    acked + (c.older 0 + c.taken 0) = fetched := by
  have hlength := congrArg List.length hat.flight
  have hpart : ∀ offset, (c.part offset).length = c.taken offset := by
    intro offset
    unfold part taken
    cases c.active (contextOf c.cycle offset) <;> rfl
  simp only [Control.flight, List.length_append, hpart, List.length_map, List.length_range'] at hlength
  have hle := hat.le
  simp only [older]
  omega

theorem At.taken_zero (hat : At size fetched acked c) (hstage : c.stage = .stage1) : c.taken 0 = 0 :=
  taken_eq_zero (hat.idle hstage)

/-- A task in the pipe comes before the next one to be fetched. -/
theorem At.position_lt (hat : At size fetched acked c) {offset : Nat} (hlt : offset < 4) (hone : c.taken offset = 1) :
    acked + c.older offset < fetched := by
  have hsum := hat.sum
  simp only [older] at hsum
  obtain rfl | rfl | rfl | rfl : offset = 0 ∨ offset = 1 ∨ offset = 2 ∨ offset = 3 := by omega
  · simp only [older]
    omega
  · simp only [older]
    omega
  · simp only [older]
    omega
  · simp only [older]
    omega

/-- A task is entered under the position that the number of older tasks gives it. -/
theorem At.entry_eq (hat : At size fetched acked c) {offset : Nat} (hlt : offset < 4)
    (hactive : c.active (contextOf c.cycle offset) = true) :
    c.entry (contextOf c.cycle offset) = (acked + c.older offset) % size := by
  have hentry : c.flight[c.older offset]? = some (c.entry (contextOf c.cycle offset)) := by
    have hcases : offset = 0 ∨ offset = 1 ∨ offset = 2 ∨ offset = 3 := by omega
    obtain rfl | rfl | rfl | rfl := hcases
    · cases h3 : c.active (contextOf c.cycle 3) <;> cases h2 : c.active (contextOf c.cycle 2) <;>
        cases h1 : c.active (contextOf c.cycle 1) <;> simp [Control.flight, part, older, taken, hactive, h3, h2, h1]
    · cases h3 : c.active (contextOf c.cycle 3) <;> cases h2 : c.active (contextOf c.cycle 2) <;>
        simp [Control.flight, part, older, taken, hactive, h3, h2]
    · cases h3 : c.active (contextOf c.cycle 3) <;> simp [Control.flight, part, older, taken, hactive, h3]
    · simp [Control.flight, part, older, hactive]
  rw [hat.flight, List.getElem?_map] at hentry
  obtain ⟨position, hposition, heq⟩ := Option.map_eq_some_iff.mp hentry
  obtain ⟨_, hvalue⟩ := List.getElem?_eq_some_iff.mp hposition
  rw [List.getElem_range', Nat.one_mul] at hvalue
  rw [← heq, hvalue]

end Position

section Work

/-- Stages until a task at an offset has been acknowledged. -/
def remaining (c : Control) (offset : Nat) : Nat := 4 * (3 - offset) + (4 - c.stage.offset)

/-- A bound for the stages until `unfetched` further tasks and those in the pipe have all
been acknowledged. While there is something to fetch, the stages until the next fetch
count as well. -/
def work (c : Control) (unfetched : Nat) : Nat :=
  c.taken 0 * c.remaining 0 + c.taken 1 * c.remaining 1 + c.taken 2 * c.remaining 2 + c.taken 3 * c.remaining 3 +
    (if unfetched = 0 then 0 else 20 * unfetched + (4 - c.stage.offset) % 4)

theorem stage_step (atomic : atomic_s) (c : Control) : (c.step atomic).stage.offset = (c.stage.offset + 1) % 4 := by
  unfold step
  cases hstage : c.stage with
  | stage1 | stage4 =>
    simp only
    split <;> rfl
  | stage2 | stage3 => rfl

/-- Each stage brings the work down, as long as there is any: a fetch trades an unfetched
task for one in the pipe. -/
theorem work_step_lt {unfetched left : Nat} (hidle : c.stage = .stage1 → c.taken 0 = 0)
    (hfetch : c.stage = .stage1 → c.acting atomic ≠ none → unfetched = left + 1)
    (hsame : c.stage = .stage1 → c.acting atomic = none → unfetched = 0 ∧ left = 0)
    (hother : c.stage ≠ .stage1 → left = unfetched) (hwork : 0 < c.older 0 + c.taken 0 + unfetched) :
    (c.step atomic).work left < c.work unfetched := by
  have hnext := stage_step atomic c
  simp only [older] at hwork
  cases hstage : c.stage with
  | stage1 =>
    have hnow : c.stage.offset = 0 := by
      rw [hstage]
      rfl
    have hafter : (c.step atomic).stage.offset = 1 := by rw [hnext, hnow]
    have h1 : (c.step atomic).taken 1 = c.taken 1 := taken_fetch hstage (by decide) (by decide)
    have h2 : (c.step atomic).taken 2 = c.taken 2 := taken_fetch hstage (by decide) (by decide)
    have h3 : (c.step atomic).taken 3 = c.taken 3 := taken_fetch hstage (by decide) (by decide)
    have h0 := hidle hstage
    cases hact : c.acting atomic with
    | none =>
      have hnone := taken_fetch_none hstage hact
      obtain ⟨rfl, rfl⟩ := hsame hstage hact
      simp only [work, remaining, hafter, hnow, h1, h2, h3, hnone, h0, if_true]
      omega
    | some x =>
      have hnew := taken_fetch_zero hstage hact
      obtain rfl := hfetch hstage (by simp [hact])
      simp only [work, remaining, hafter, hnow, h1, h2, h3, hnew, h0, Nat.succ_ne_zero, if_false]
      split <;> omega
  | stage2 =>
    have hnow : c.stage.offset = 1 := by
      rw [hstage]
      rfl
    have hafter : (c.step atomic).stage.offset = 2 := by rw [hnext, hnow]
    have htaken : ∀ offset, (c.step atomic).taken offset = c.taken offset := taken_middle (.inl hstage)
    obtain rfl := hother (by simp [hstage])
    simp only [work, remaining, hafter, hnow, htaken]
    split <;> omega
  | stage3 =>
    have hnow : c.stage.offset = 2 := by
      rw [hstage]
      rfl
    have hafter : (c.step atomic).stage.offset = 3 := by rw [hnext, hnow]
    have htaken : ∀ offset, (c.step atomic).taken offset = c.taken offset := taken_middle (.inr hstage)
    obtain rfl := hother (by simp [hstage])
    simp only [work, remaining, hafter, hnow, htaken]
    split <;> omega
  | stage4 =>
    have hnow : c.stage.offset = 3 := by
      rw [hstage]
      rfl
    have hafter : (c.step atomic).stage.offset = 0 := by rw [hnext, hnow]
    have h0 : (c.step atomic).taken 0 = 0 := taken_retire_zero hstage
    have h1 : (c.step atomic).taken 1 = c.taken 0 := taken_retire hstage (by decide)
    have h2 : (c.step atomic).taken 2 = c.taken 1 := taken_retire hstage (by decide)
    have h3 : (c.step atomic).taken 3 = c.taken 2 := taken_retire hstage (by decide)
    obtain rfl := hother (by simp [hstage])
    simp only [work, remaining, hafter, hnow, h0, h1, h2, h3]
    split <;> omega

end Work

end Control

end speutils.taskmanager
