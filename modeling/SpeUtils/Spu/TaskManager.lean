import SpeUtils.Fifo.Basic

open speutils.fifo

namespace speutils.taskmanager

/-- `STAGES`, the number of pipe contexts. -/
def STAGES : Nat := 4

/-- `struct task_state_s` without the unused `current`. -/
structure task_state_s where
  in_back : Nat
  out_back : Nat
  front : Nat
  deriving DecidableEq, Repr

/-- `struct pipe_entry_s` with the content of its two buffers; `stage` is never
read. -/
structure pipe_entry_s where
  task : Task
  entry : Nat
  id : Nat
  ack : ack_s
  active : Bool

/-- A DMA transfer moves one task slot in, or one acknowledgement out. -/
inductive Direction where
  | get
  | put
  deriving DecidableEq, Repr

/-- A transfer started on the memory flow controller and not yet complete.
`context` owns the local buffer, `slot` indexes `task_fifo` or `ack_fifo`, and
`serial` counts the earlier commands of the same direction. -/
structure Transfer where
  dir : Direction
  context : Fin 4
  slot : Nat
  tag : Nat
  serial : Nat
  deriving DecidableEq, Repr

/-- The stage that the pipeline executes next. -/
inductive Stage where
  | stage1
  | stage2
  | stage3
  | stage4
  deriving DecidableEq, Repr

/-- The task-specific bodies of `stage2` and `stage3`. `world` is whatever they
keep between tasks. A loaded program gets pointers to both buffers, so `stage3`
may change either. -/
structure TaskBodies (world : Type) where
  stage2 : world → Nat → Task → world
  stage3 : world → Nat → Task → ack_s → world × Task × ack_s

/-- The static state of `spu_taskmanager.c`, the commands it has issued to the
memory flow controller and the stage it is about to run. -/
structure Spu (world : Type) where
  tstate : task_state_s
  cycle : BitVec 32
  pipe : Fin 4 → pipe_entry_s
  max_entries : Nat
  stage : Stage
  world : world
  queue : List Transfer
  gets : Nat
  puts : Nat

section

variable {world : Type}

def increment (value boundary : Nat) : Nat :=
  let value := value + 1
  if value ≥ boundary then 0 else value

def in_tasks_remaining (state : task_state_s) : Bool :=
  if state.in_back ≠ state.front then true else false

/-- `(cycle + offset) % STAGES` in unsigned 32-bit arithmetic. -/
def contextOf (cycle : BitVec 32) (offset : Nat) : Fin 4 :=
  ⟨(cycle + BitVec.ofNat 32 offset).toNat % STAGES, Nat.mod_lt _ (by decide)⟩

namespace Spu

def context (s : Spu world) (offset : Nat) : Fin 4 := contextOf s.cycle offset

/-- `dmaGet` of a task slot into the context's task buffer. -/
def dmaGet (s : Spu world) (context : Fin 4) (slot tag : Nat) : Spu world :=
  { s with
    queue := s.queue ++ [{ dir := .get, context, slot, tag, serial := s.gets }]
    gets := s.gets + 1 }

/-- `dmaPut` of the context's acknowledgement into an ack slot. -/
def dmaPut (s : Spu world) (context : Fin 4) (slot tag : Nat) : Spu world :=
  { s with
    queue := s.queue ++ [{ dir := .put, context, slot, tag, serial := s.puts }]
    puts := s.puts + 1 }

end Spu

/-- The memory effect of one transfer. A put reads the buffer when it is carried
out, not when it is started. -/
def Transfer.perform (t : Transfer) (m : Spu world × fifo_s) : Spu world × fifo_s :=
  match t.dir with
  | .get =>
    let entry := { m.1.pipe t.context with task := m.2.task t.slot }
    ({ m.1 with pipe := Function.update m.1.pipe t.context entry }, m.2)
  | .put =>
    (m.1, { m.2 with ack_fifo := Function.update m.2.ack_fifo t.slot (m.1.pipe t.context).ack })

/-- Completion of the outstanding transfer at a position of the queue. The
controller may pick any. -/
def arrive (index : Nat) (m : Spu world × fifo_s) : Option (Spu world × fifo_s) :=
  match m.1.queue[index]? with
  | none => none
  | some t =>
    let m := t.perform m
    some ({ m.1 with queue := m.1.queue.eraseIdx index }, m.2)

/-- `dmaWaitTag`: on return every transfer with the tag is complete. Those that
have not completed by then do so here. -/
def dmaWaitTag (tag : Nat) (m : Spu world × fifo_s) : Spu world × fifo_s :=
  let waited := m.1.queue.filter (·.tag = tag)
  let m := waited.foldl (fun m t => t.perform m) m
  ({ m.1 with queue := m.1.queue.filter (·.tag ≠ tag) }, m.2)

/-- `check_tasks`, with `atomicGet` returning the line as last stored. -/
def check_tasks (fifo : fifo_s) (s : Spu world) : Spu world :=
  if fifo.atomic.state ≠ 0 then
    { s with tstate := { s.tstate with front := fifo.atomic.count } }
  else s

def stage1 (fifo : fifo_s) (s : Spu world) : Spu world :=
  let s := check_tasks fifo s
  if in_tasks_remaining s.tstate then
    let context := s.context 0
    let s := s.dmaGet context s.tstate.in_back (s.pipe context).id
    let in_back := increment s.tstate.in_back s.max_entries
    { s with
      pipe := Function.update s.pipe context { s.pipe context with active := true, entry := in_back }
      tstate := { s.tstate with in_back } }
  else s

def stage2 (bodies : TaskBodies world) (m : Spu world × fifo_s) : Spu world × fifo_s :=
  let context := m.1.context 1
  if (m.1.pipe context).active then
    let m := dmaWaitTag (m.1.pipe context).id m
    let entry := m.1.pipe context
    ({ m.1 with world := bodies.stage2 m.1.world entry.id entry.task }, m.2)
  else m

def stage3 (bodies : TaskBodies world) (s : Spu world) : Spu world :=
  let context := s.context 2
  if (s.pipe context).active then
    let entry := s.pipe context
    let (world, task, ack) := bodies.stage3 s.world entry.id entry.task entry.ack
    { s with world, pipe := Function.update s.pipe context { entry with task, ack } }
  else s

def stage4 (s : Spu world) : Spu world :=
  let context := s.context 3
  if (s.pipe context).active then
    let entry := s.pipe context
    let s := { s with
      tstate := { s.tstate with out_back := increment s.tstate.out_back s.max_entries }
      pipe := Function.update s.pipe context { entry with active := false } }
    s.dmaPut context entry.entry entry.id
  else s

/-- One stage of the loop in `pipeline`; the fourth also decrements `cycle`.
Leaving the loop changes nothing, since `main` calls `pipeline` again. -/
def runStage (bodies : TaskBodies world) (m : Spu world × fifo_s) : Spu world × fifo_s :=
  match m.1.stage with
  | .stage1 => ({ stage1 m.2 m.1 with stage := .stage2 }, m.2)
  | .stage2 => let m := stage2 bodies m; ({ m.1 with stage := .stage3 }, m.2)
  | .stage3 => ({ stage3 bodies m.1 with stage := .stage4 }, m.2)
  | .stage4 => let s := stage4 m.1; ({ s with cycle := s.cycle - 1, stage := .stage1 }, m.2)

/-- `allocate_pipe_entries`. Both buffers of a context come from `memalign` and
hold arbitrary content. -/
def allocate_pipe_entries (task : Fin 4 → Task) (ack : Fin 4 → ack_s) : Fin 4 → pipe_entry_s :=
  fun i => { task := task i, entry := 0, id := i, ack := ack i, active := false }

/-- The state in which `main` first calls `pipeline`. -/
def Spu.init (task : Fin 4 → Task) (ack : Fin 4 → ack_s) (world₀ : world) (max_entries : Nat) :
    Spu world where
  tstate := { in_back := max_entries - 1, out_back := max_entries - 1, front := max_entries - 1 }
  cycle := 0
  pipe := allocate_pipe_entries task ack
  max_entries
  stage := .stage1
  world := world₀
  queue := []
  gets := 0
  puts := 0

/-- The loop test of `pipeline`, false when it returns. -/
def pipelineContinues (s : Spu world) : Bool := s.tstate.front ≠ s.tstate.out_back

end

end speutils.taskmanager
