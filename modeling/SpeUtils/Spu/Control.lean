import SpeUtils.Spu.TaskManager

open speutils.fifo

namespace speutils.taskmanager

/-- The part of the SPU state that the schedule depends on. Buffers, task bodies
and the transfer queue are left out. -/
structure Control where
  tstate : task_state_s
  cycle : BitVec 32
  active : Fin 4 → Bool
  entry : Fin 4 → Nat
  max_entries : Nat
  stage : Stage

namespace Control

/-- The value of `tstate.front` after `check_tasks`. -/
def front (atomic : atomic_s) (c : Control) : Nat :=
  if atomic.state ≠ 0 then atomic.count else c.tstate.front

/-- The context that the coming stage acts on, if it acts at all. -/
def acting (atomic : atomic_s) (c : Control) : Option (Fin 4) :=
  match c.stage with
  | .stage1 => if c.tstate.in_back ≠ c.front atomic then some (contextOf c.cycle 0) else none
  | .stage2 => if c.active (contextOf c.cycle 1) then some (contextOf c.cycle 1) else none
  | .stage3 => if c.active (contextOf c.cycle 2) then some (contextOf c.cycle 2) else none
  | .stage4 => if c.active (contextOf c.cycle 3) then some (contextOf c.cycle 3) else none

/-- One stage, on the control part alone. -/
def step (atomic : atomic_s) (c : Control) : Control :=
  match c.stage with
  | .stage1 =>
    if c.tstate.in_back ≠ c.front atomic then
      let in_back := increment c.tstate.in_back c.max_entries
      { c with
        tstate := { c.tstate with in_back, front := c.front atomic }
        active := Function.update c.active (contextOf c.cycle 0) true
        entry := Function.update c.entry (contextOf c.cycle 0) in_back
        stage := .stage2 }
    else { c with tstate := { c.tstate with front := c.front atomic }, stage := .stage2 }
  | .stage2 => { c with stage := .stage3 }
  | .stage3 => { c with stage := .stage4 }
  | .stage4 =>
    if c.active (contextOf c.cycle 3) then
      { c with
        tstate := { c.tstate with out_back := increment c.tstate.out_back c.max_entries }
        active := Function.update c.active (contextOf c.cycle 3) false
        cycle := c.cycle - 1
        stage := .stage1 }
    else { c with cycle := c.cycle - 1, stage := .stage1 }

end Control

section

variable {world : Type}

namespace Spu

def control (s : Spu world) : Control where
  tstate := s.tstate
  cycle := s.cycle
  active := fun x => (s.pipe x).active
  entry := fun x => (s.pipe x).entry
  max_entries := s.max_entries
  stage := s.stage

/-- The context that the coming stage acts on when it finds `fifo` in memory. -/
def acting (fifo : fifo_s) (s : Spu world) : Option (Fin 4) := s.control.acting fifo.atomic

@[simp] theorem control_tstate (s : Spu world) : s.control.tstate = s.tstate := rfl
@[simp] theorem control_cycle (s : Spu world) : s.control.cycle = s.cycle := rfl
@[simp] theorem control_active (s : Spu world) (x : Fin 4) : s.control.active x = (s.pipe x).active := rfl
@[simp] theorem control_stage (s : Spu world) : s.control.stage = s.stage := rfl

end Spu

/-- Replacing one context by one with the same projection leaves the projection
of every context alone. -/
private theorem update_proj {A B : Type} (f : A → B) (pipe : Fin 4 → A) {context : Fin 4} {entry : A}
    (hf : f entry = f (pipe context)) (x : Fin 4) :
    f (Function.update pipe context entry x) = f (pipe x) := by
  by_cases hx : x = context
  · subst hx
    rw [Function.update_self, hf]
  · rw [Function.update_of_ne hx]

/-- What carrying out transfers never touches: everything but task buffers on
the SPU side, everything but ack entries in shared memory. -/
structure Kept (m n : Spu world × fifo_s) : Prop where
  control : n.1.control = m.1.control
  id : ∀ x, (n.1.pipe x).id = (m.1.pipe x).id
  ack : ∀ x, (n.1.pipe x).ack = (m.1.pipe x).ack
  world : n.1.world = m.1.world
  gets : n.1.gets = m.1.gets
  puts : n.1.puts = m.1.puts
  atomic : n.2.atomic = m.2.atomic
  task_fifo : n.2.task_fifo = m.2.task_fifo
  max_entries : n.2.max_entries = m.2.max_entries

theorem Kept.refl (m : Spu world × fifo_s) : Kept m m :=
  ⟨rfl, fun _ => rfl, fun _ => rfl, rfl, rfl, rfl, rfl, rfl, rfl⟩

theorem Kept.trans {m n o : Spu world × fifo_s} (hmn : Kept m n) (hno : Kept n o) : Kept m o where
  control := hno.control.trans hmn.control
  id := fun x => (hno.id x).trans (hmn.id x)
  ack := fun x => (hno.ack x).trans (hmn.ack x)
  world := hno.world.trans hmn.world
  gets := hno.gets.trans hmn.gets
  puts := hno.puts.trans hmn.puts
  atomic := hno.atomic.trans hmn.atomic
  task_fifo := hno.task_fifo.trans hmn.task_fifo
  max_entries := hno.max_entries.trans hmn.max_entries

theorem perform_kept (t : Transfer) (m : Spu world × fifo_s) : Kept m (t.perform m) := by
  unfold Transfer.perform
  cases t.dir with
  | put => exact ⟨rfl, fun _ => rfl, fun _ => rfl, rfl, rfl, rfl, rfl, rfl, rfl⟩
  | get =>
    refine ⟨?_, update_proj pipe_entry_s.id _ rfl, update_proj pipe_entry_s.ack _ rfl,
      rfl, rfl, rfl, rfl, rfl, rfl⟩
    simp only [Spu.control]
    congr 1
    · funext x
      exact update_proj pipe_entry_s.active m.1.pipe (by rfl) x
    · funext x
      exact update_proj pipe_entry_s.entry m.1.pipe (by rfl) x

@[simp] theorem perform_queue (t : Transfer) (m : Spu world × fifo_s) :
    (t.perform m).1.queue = m.1.queue := by
  unfold Transfer.perform
  cases t.dir <;> rfl

theorem foldl_perform_kept (ts : List Transfer) (m : Spu world × fifo_s) :
    Kept m (ts.foldl (fun m t => t.perform m) m) := by
  induction ts generalizing m with
  | nil => exact .refl m
  | cons t ts ih => exact (perform_kept t m).trans (ih (t.perform m))

theorem foldl_perform_queue (ts : List Transfer) (m : Spu world × fifo_s) :
    (ts.foldl (fun m t => t.perform m) m).1.queue = m.1.queue := by
  induction ts generalizing m with
  | nil => rfl
  | cons t ts ih =>
    rw [List.foldl_cons, ih, perform_queue]

theorem arrive_kept {index : Nat} {m n : Spu world × fifo_s} (harrive : arrive index m = some n) :
    Kept m n := by
  unfold arrive at harrive
  cases ht : m.1.queue[index]? with
  | none => simp [ht] at harrive
  | some t =>
    simp only [ht, Option.some.injEq] at harrive
    subst n
    obtain ⟨hcontrol, hid, hack, hworld, hgets, hputs, hatomic, htask, hmax⟩ := perform_kept t m
    exact ⟨hcontrol, hid, hack, hworld, hgets, hputs, hatomic, htask, hmax⟩

theorem arrive_queue {index : Nat} {m n : Spu world × fifo_s} (harrive : arrive index m = some n) :
    n.1.queue = m.1.queue.eraseIdx index := by
  unfold arrive at harrive
  cases ht : m.1.queue[index]? with
  | none => simp [ht] at harrive
  | some t =>
    simp only [ht, Option.some.injEq] at harrive
    subst n
    simp

theorem dmaWaitTag_kept (tag : Nat) (m : Spu world × fifo_s) : Kept m (dmaWaitTag tag m) := by
  obtain ⟨hcontrol, hid, hack, hworld, hgets, hputs, hatomic, htask, hmax⟩ :=
    foldl_perform_kept (m.1.queue.filter (·.tag = tag)) m
  exact ⟨hcontrol, hid, hack, hworld, hgets, hputs, hatomic, htask, hmax⟩

theorem dmaWaitTag_queue (tag : Nat) (m : Spu world × fifo_s) :
    (dmaWaitTag tag m).1.queue = m.1.queue.filter (·.tag ≠ tag) := by
  simp [dmaWaitTag, foldl_perform_queue]

theorem check_tasks_eq (fifo : fifo_s) (s : Spu world) :
    check_tasks fifo s = { s with tstate := { s.tstate with front := s.control.front fifo.atomic } } := by
  unfold check_tasks Control.front
  split <;> rfl

/-- `stage1` fetches the slot at the old `in_back` and enters the new one in the
context. -/
theorem stage1_eq (fifo : fifo_s) (s : Spu world) :
    stage1 fifo s =
      if s.tstate.in_back ≠ s.control.front fifo.atomic then
        { s with
          tstate := { s.tstate with
            in_back := increment s.tstate.in_back s.max_entries
            front := s.control.front fifo.atomic }
          pipe := Function.update s.pipe (s.context 0) { s.pipe (s.context 0) with
            active := true, entry := increment s.tstate.in_back s.max_entries }
          queue := s.queue ++ [{
            dir := .get, context := s.context 0, slot := s.tstate.in_back
            tag := (s.pipe (s.context 0)).id, serial := s.gets }]
          gets := s.gets + 1 }
      else { s with tstate := { s.tstate with front := s.control.front fifo.atomic } } := by
  simp only [stage1, check_tasks_eq, in_tasks_remaining, Spu.dmaGet, Spu.context]
  by_cases h : s.tstate.in_back = s.control.front fifo.atomic <;> simp [h]

theorem stage4_eq (s : Spu world) :
    stage4 s =
      if (s.pipe (s.context 3)).active then
        { s with
          tstate := { s.tstate with out_back := increment s.tstate.out_back s.max_entries }
          pipe := Function.update s.pipe (s.context 3) { s.pipe (s.context 3) with active := false }
          queue := s.queue ++ [{
            dir := .put, context := s.context 3, slot := (s.pipe (s.context 3)).entry
            tag := (s.pipe (s.context 3)).id, serial := s.puts }]
          puts := s.puts + 1 }
      else s := by
  simp only [stage4, Spu.dmaPut, Spu.context]

theorem stage2_eq (bodies : TaskBodies world) (m : Spu world × fifo_s) :
    stage2 bodies m =
      if (m.1.pipe (m.1.context 1)).active then
        let n := dmaWaitTag (m.1.pipe (m.1.context 1)).id m
        let entry := n.1.pipe (m.1.context 1)
        ({ n.1 with world := bodies.stage2 n.1.world entry.id entry.task }, n.2)
      else m := rfl

theorem stage3_eq (bodies : TaskBodies world) (s : Spu world) :
    stage3 bodies s =
      if (s.pipe (s.context 2)).active then
        let entry := s.pipe (s.context 2)
        let done := bodies.stage3 s.world entry.id entry.task entry.ack
        { s with
          world := done.1
          pipe := Function.update s.pipe (s.context 2) { entry with task := done.2.1, ack := done.2.2 } }
      else s := rfl

theorem stage2_control (bodies : TaskBodies world) (m : Spu world × fifo_s) :
    (stage2 bodies m).1.control = m.1.control := by
  rw [stage2_eq]
  split
  · exact (dmaWaitTag_kept _ m).control
  · rfl

theorem stage3_control (bodies : TaskBodies world) (s : Spu world) :
    (stage3 bodies s).control = s.control := by
  rw [stage3_eq]
  split
  · simp only [Spu.control]
    congr 1
    · funext x
      exact update_proj pipe_entry_s.active s.pipe (by rfl) x
    · funext x
      exact update_proj pipe_entry_s.entry s.pipe (by rfl) x
  · rfl

/-- The control part of the machine is a machine of its own: no task body and no
transfer can influence it. -/
theorem runStage_control (bodies : TaskBodies world) (m : Spu world × fifo_s) :
    (runStage bodies m).1.control = m.1.control.step m.2.atomic := by
  cases hstage : m.1.stage with
  | stage1 =>
    simp only [runStage, hstage, Control.step, Spu.control_stage, stage1_eq, Spu.control_tstate]
    by_cases h : m.1.tstate.in_back = m.1.control.front m.2.atomic
    · simp only [h, ne_eq, not_true_eq_false, ite_false]
      rfl
    · simp only [ne_eq, h, not_false_eq_true, ite_true]
      simp only [Spu.control, Spu.context]
      congr 1
      · funext x
        by_cases hx : x = contextOf m.1.cycle 0 <;> simp [hx]
      · funext x
        by_cases hx : x = contextOf m.1.cycle 0 <;> simp [hx]
  | stage2 =>
    simp only [runStage, hstage, Control.step, Spu.control_stage]
    exact congrArg (fun c : Control => { c with stage := .stage3 }) (stage2_control bodies m)
  | stage3 =>
    simp only [runStage, hstage, Control.step, Spu.control_stage]
    exact congrArg (fun c : Control => { c with stage := .stage4 }) (stage3_control bodies m.1)
  | stage4 =>
    simp only [runStage, hstage, Control.step, Spu.control_stage, stage4_eq, Spu.control_active,
      Spu.control_cycle, Spu.context]
    by_cases h : (m.1.pipe (contextOf m.1.cycle 3)).active
    · simp only [h, ite_true]
      simp only [Spu.control]
      congr 1
      · funext x
        by_cases hx : x = contextOf m.1.cycle 3 <;> simp [hx]
      · funext x
        by_cases hx : x = contextOf m.1.cycle 3 <;> simp [hx]
    · simp only [h, Bool.false_eq_true, ite_false]
      rfl

/-- Only `stage2` lets transfers through, and these leave the published count and the
task slots alone. -/
theorem runStage_host (bodies : TaskBodies world) (m : Spu world × fifo_s) :
    (runStage bodies m).2.atomic = m.2.atomic ∧ (runStage bodies m).2.task_fifo = m.2.task_fifo := by
  cases hstage : m.1.stage with
  | stage2 =>
    simp only [runStage, hstage, stage2_eq]
    split
    · have hkept := dmaWaitTag_kept (m.1.pipe (m.1.context 1)).id m
      exact ⟨hkept.atomic, hkept.task_fifo⟩
    · exact ⟨rfl, rfl⟩
  | stage1 | stage3 | stage4 => simp only [runStage, hstage, and_self]

theorem runStage_atomic (bodies : TaskBodies world) (m : Spu world × fifo_s) :
    (runStage bodies m).2.atomic = m.2.atomic := (runStage_host bodies m).1

/-- Contexts and tags stay paired as `allocate_pipe_entries` paired them. -/
theorem runStage_id (bodies : TaskBodies world) (m : Spu world × fifo_s) (x : Fin 4) :
    ((runStage bodies m).1.pipe x).id = (m.1.pipe x).id := by
  cases hstage : m.1.stage with
  | stage1 =>
    simp only [runStage, hstage, stage1_eq]
    split
    · exact update_proj pipe_entry_s.id m.1.pipe (by rfl) x
    · rfl
  | stage2 =>
    simp only [runStage, hstage, stage2_eq]
    split
    · exact (dmaWaitTag_kept _ m).id x
    · rfl
  | stage3 =>
    simp only [runStage, hstage, stage3_eq]
    split
    · exact update_proj pipe_entry_s.id m.1.pipe (by rfl) x
    · rfl
  | stage4 =>
    simp only [runStage, hstage, stage4_eq]
    split
    · exact update_proj pipe_entry_s.id m.1.pipe (by rfl) x
    · rfl

/-- The transfers that a stage starts or waits for. -/
theorem runStage_queue (bodies : TaskBodies world) (m : Spu world × fifo_s) :
    (runStage bodies m).1.queue =
      match m.1.stage, m.1.acting m.2 with
      | .stage1, some x => m.1.queue ++ [{
          dir := .get, context := x, slot := m.1.tstate.in_back
          tag := (m.1.pipe x).id, serial := m.1.gets }]
      | .stage2, some x => m.1.queue.filter (·.tag ≠ (m.1.pipe x).id)
      | .stage4, some x => m.1.queue ++ [{
          dir := .put, context := x, slot := (m.1.pipe x).entry
          tag := (m.1.pipe x).id, serial := m.1.puts }]
      | _, _ => m.1.queue := by
  cases hstage : m.1.stage with
  | stage1 =>
    simp only [runStage, hstage, stage1_eq, Spu.acting, Control.acting, Spu.control_stage, Spu.control_tstate]
    by_cases h : m.1.tstate.in_back = m.1.control.front m.2.atomic
    · simp only [h, ne_eq, not_true_eq_false, if_false]
    · simp only [h, ne_eq, not_false_eq_true, if_true]
      rfl
  | stage2 =>
    simp only [runStage, hstage, stage2_eq, Spu.acting, Control.acting, Spu.control_stage]
    by_cases h : (m.1.pipe (m.1.context 1)).active
    · have hactive : m.1.control.active (contextOf m.1.control.cycle 1) = true := h
      simp only [h, hactive, if_true]
      exact dmaWaitTag_queue _ m
    · have hactive : ¬ m.1.control.active (contextOf m.1.control.cycle 1) = true := h
      simp only [h, hactive, Bool.false_eq_true, if_false]
  | stage3 =>
    simp only [runStage, hstage, stage3_eq]
    split <;> rfl
  | stage4 =>
    simp only [runStage, hstage, stage4_eq, Spu.acting, Control.acting, Spu.control_stage]
    by_cases h : (m.1.pipe (m.1.context 3)).active
    · have hactive : m.1.control.active (contextOf m.1.control.cycle 3) = true := h
      simp only [h, hactive, if_true]
      rfl
    · have hactive : ¬ m.1.control.active (contextOf m.1.control.cycle 3) = true := h
      simp only [h, hactive, Bool.false_eq_true, if_false]

theorem runStage_puts (bodies : TaskBodies world) (m : Spu world × fifo_s) :
    (runStage bodies m).1.puts =
      match m.1.stage, m.1.acting m.2 with
      | .stage4, some _ => m.1.puts + 1
      | _, _ => m.1.puts := by
  cases hstage : m.1.stage with
  | stage1 =>
    simp only [runStage, hstage, stage1_eq]
    split <;> rfl
  | stage2 =>
    simp only [runStage, hstage, stage2_eq]
    split
    · exact (dmaWaitTag_kept _ m).puts
    · rfl
  | stage3 =>
    simp only [runStage, hstage, stage3_eq]
    split <;> rfl
  | stage4 =>
    simp only [runStage, hstage, stage4_eq, Spu.acting, Control.acting, Spu.control_stage]
    by_cases h : (m.1.pipe (m.1.context 3)).active
    · have hactive : m.1.control.active (contextOf m.1.control.cycle 3) = true := h
      simp only [h, hactive, if_true]
    · have hactive : ¬ m.1.control.active (contextOf m.1.control.cycle 3) = true := h
      simp only [h, hactive, Bool.false_eq_true, if_false]

/-- Acknowledgements reach shared memory during a stage only where `stage2` waits
for them. -/
theorem runStage_ack_fifo (bodies : TaskBodies world) (m : Spu world × fifo_s) :
    (runStage bodies m).2.ack_fifo =
      match m.1.stage, m.1.acting m.2 with
      | .stage2, some x => (dmaWaitTag (m.1.pipe x).id m).2.ack_fifo
      | _, _ => m.2.ack_fifo := by
  cases hstage : m.1.stage with
  | stage2 =>
    simp only [runStage, hstage, stage2_eq, Spu.acting, Control.acting, Spu.control_stage]
    by_cases h : (m.1.pipe (m.1.context 1)).active
    · have hactive : m.1.control.active (contextOf m.1.control.cycle 1) = true := h
      simp only [h, hactive, if_true]
      rfl
    · have hactive : ¬ m.1.control.active (contextOf m.1.control.cycle 1) = true := h
      simp only [h, hactive, Bool.false_eq_true, if_false]
  | stage1 | stage3 | stage4 => simp only [runStage, hstage]

/-- What the task bodies keep between tasks changes through them alone. -/
theorem runStage_world (bodies : TaskBodies world) (m : Spu world × fifo_s) :
    (runStage bodies m).1.world = m.1.world ∨
      (∃ tag task, (runStage bodies m).1.world = bodies.stage2 m.1.world tag task) ∨
      ∃ tag task ack, (runStage bodies m).1.world = (bodies.stage3 m.1.world tag task ack).1 := by
  cases hstage : m.1.stage with
  | stage1 =>
    simp only [runStage, hstage, stage1_eq]
    left
    split <;> rfl
  | stage2 =>
    simp only [runStage, hstage, stage2_eq]
    split
    · rw [← (dmaWaitTag_kept (m.1.pipe (m.1.context 1)).id m).world]
      exact .inr (.inl ⟨_, _, rfl⟩)
    · exact .inl rfl
  | stage3 =>
    simp only [runStage, hstage, stage3_eq]
    split
    · exact .inr (.inr ⟨_, _, _, rfl⟩)
    · exact .inl rfl
  | stage4 =>
    simp only [runStage, hstage, stage4_eq]
    left
    split <;> rfl

/-- A stage that finds no task starts nothing and waits for nothing. -/
theorem runStage_idle (bodies : TaskBodies world) {m : Spu world × fifo_s} (hact : m.1.acting m.2 = none) :
    (runStage bodies m).1.queue = m.1.queue ∧ (runStage bodies m).1.puts = m.1.puts ∧
      (runStage bodies m).2.ack_fifo = m.2.ack_fifo := by
  rw [runStage_queue, runStage_puts, runStage_ack_fifo, hact]
  cases m.1.stage <;> exact ⟨rfl, rfl, rfl⟩

/-- What a stage does for the context it acts on: `stage1` starts the get of the next
slot, `stage2` waits for the context's tag and gives its task body the words that are then
in the buffer, `stage3` lets its task body change both buffers, and `stage4` starts the put
of the acknowledgement. Without a context a stage does nothing. -/
structure Acted (bodies : TaskBodies world) (m : Spu world × fifo_s) (acting : Option (Fin 4)) (s : Spu world) :
    Prop where
  idle : acting = none → s.queue = m.1.queue ∧ s.world = m.1.world
  fetch : ∀ x, m.1.stage = .stage1 → acting = some x →
    s.queue = m.1.queue ++ [{
        dir := .get, context := x, slot := m.1.tstate.in_back, tag := (m.1.pipe x).id, serial := m.1.gets }] ∧
      s.world = m.1.world
  load : ∀ x, m.1.stage = .stage2 → acting = some x →
    s.queue = (dmaWaitTag (m.1.pipe x).id m).1.queue ∧ s.pipe = (dmaWaitTag (m.1.pipe x).id m).1.pipe ∧
      s.world = bodies.stage2 m.1.world (m.1.pipe x).id (s.pipe x).task
  execute : ∀ x, m.1.stage = .stage3 → acting = some x →
    s.queue = m.1.queue ∧ (s.world, (s.pipe x).task, (s.pipe x).ack) =
      bodies.stage3 m.1.world (m.1.pipe x).id (m.1.pipe x).task (m.1.pipe x).ack
  acknowledge : ∀ x, m.1.stage = .stage4 → acting = some x →
    s.queue = m.1.queue ++ [{
        dir := .put, context := x, slot := (m.1.pipe x).entry, tag := (m.1.pipe x).id, serial := m.1.puts }] ∧
      s.world = m.1.world

theorem acting_stage2 {m : Spu world × fifo_s} (hstage : m.1.stage = .stage2) :
    m.1.acting m.2 = if (m.1.pipe (m.1.context 1)).active then some (m.1.context 1) else none := by
  simp only [Spu.acting, Control.acting, Spu.control_stage, hstage]
  rfl

theorem acting_stage3 {m : Spu world × fifo_s} (hstage : m.1.stage = .stage3) :
    m.1.acting m.2 = if (m.1.pipe (m.1.context 2)).active then some (m.1.context 2) else none := by
  simp only [Spu.acting, Control.acting, Spu.control_stage, hstage]
  rfl

/-- `acting` names the context that the code of the stage works on. -/
theorem runStage_acted (bodies : TaskBodies world) (m : Spu world × fifo_s) :
    Acted bodies m (m.1.acting m.2) (runStage bodies m).1 := by
  have hqueue := runStage_queue bodies m
  refine ⟨?_, ?_, ?_, ?_, ?_⟩
  · intro hidle
    refine ⟨(runStage_idle bodies hidle).1, ?_⟩
    cases hstage : m.1.stage with
    | stage1 =>
      simp only [runStage, hstage, stage1_eq]
      split <;> rfl
    | stage2 =>
      rw [acting_stage2 hstage, ite_eq_right_iff] at hidle
      simp only [runStage, hstage, stage2_eq]
      split
      · next hactive => cases hidle hactive
      · rfl
    | stage3 =>
      rw [acting_stage3 hstage, ite_eq_right_iff] at hidle
      simp only [runStage, hstage, stage3_eq]
      split
      · next hactive => cases hidle hactive
      · rfl
    | stage4 =>
      simp only [runStage, hstage, stage4_eq]
      split <;> rfl
  · intro x hstage hact
    simp only [hstage, hact] at hqueue
    refine ⟨hqueue, ?_⟩
    simp only [runStage, hstage, stage1_eq]
    split <;> rfl
  · intro x hstage hact
    rw [acting_stage2 hstage, Option.ite_none_right_eq_some, Option.some.injEq] at hact
    obtain ⟨hactive, rfl⟩ := hact
    have hkept := dmaWaitTag_kept (m.1.pipe (m.1.context 1)).id m
    simp only [runStage, hstage, stage2_eq, hactive, if_true, hkept.id, hkept.world, and_self]
  · intro x hstage hact
    simp only [hstage] at hqueue
    refine ⟨hqueue, ?_⟩
    rw [acting_stage3 hstage, Option.ite_none_right_eq_some, Option.some.injEq] at hact
    obtain ⟨hactive, rfl⟩ := hact
    simp only [runStage, hstage, stage3_eq, hactive, if_true, Function.update_self]
  · intro x hstage hact
    simp only [hstage, hact] at hqueue
    refine ⟨hqueue, ?_⟩
    simp only [runStage, hstage, stage4_eq]
    split <;> rfl

end

end speutils.taskmanager
