import SpeUtils.Spu.Control
import SpeUtils.Lib.Run

open cyclic speutils.ring speutils.taskmanager

namespace speutils.fifo

/-- What has happened on one SPE so far. No function of the program reads it.
Slots are ring indices, listed in the order of the events. -/
structure Ledger where
  /-- Slots opened by `fifoBegin` or by a registration. -/
  begun : List Nat := []
  /-- How many of these a kick has covered. -/
  kicked : Nat := 0
  /-- For each kick the published count and the words of that slot. -/
  kicks : List (Nat × Task) := []
  /-- Slots that the published count has reached or passed, in queue order. -/
  published : List Nat := []
  /-- Slots filled since they were last reclaimed. -/
  filled : List Nat := []
  /-- Slots that were published without being filled. -/
  unfilled : List Nat := []
  /-- Slots that `stage1` has fetched. -/
  fetched : List Nat := []
  /-- The entry that `stage1` has given to each task it fetched: the index under
  which the task is acknowledged. -/
  admitted : List Nat := []
  /-- Ack slot and words of each task that `stage2` has acted on. -/
  loaded : List (Nat × Task) := []
  /-- Ack slot and words of each task that `stage3` has acted on. -/
  executed : List (Nat × Task) := []
  /-- Ack slots that `stage4` has put. -/
  acked : List Nat := []
  /-- Numbers of the puts that have arrived. -/
  arrived : List Nat := []
  /-- Slots that the monitor has reclaimed. -/
  reclaimed : List Nat := []

namespace Ledger

def begin (log : Ledger) (slot : Nat) : Ledger :=
  { log with begun := log.begun ++ [slot], filled := slot :: log.filled }

/-- The slots that a new count adds to the published ones. -/
def newlyPublished (log : Ledger) (size count : Nat) : List Nat :=
  after size (log.published.getLast?.getD (size - 1)) count

def kick (log : Ledger) (size count : Nat) (words : Task) : Ledger :=
  { log with
    kicked := log.begun.length
    kicks := log.kicks ++ [(count, words)]
    published := log.published ++ log.newlyPublished size count
    unfilled := log.unfilled ++ (log.newlyPublished size count).filter (· ∉ log.filled) }

def reclaim (log : Ledger) (slot : Nat) : Ledger :=
  { log with reclaimed := log.reclaimed ++ [slot], filled := log.filled.filter (· ≠ slot) }

/-- The numbers of the puts among some transfers. -/
def putSerials (ts : List Transfer) : List Nat := (ts.filter (·.dir = .put)).map (·.serial)

def stage {world : Type} (log : Ledger) (m : Spu world × fifo_s) : Ledger :=
  match m.1.stage, m.1.acting m.2 with
  | .stage1, some _ =>
    { log with
      fetched := log.fetched ++ [m.1.tstate.in_back]
      admitted := log.admitted ++ [increment m.1.tstate.in_back m.1.max_entries] }
  | .stage2, some x =>
    let waited := m.1.queue.filter (·.tag = (m.1.pipe x).id)
    let words := ((dmaWaitTag (m.1.pipe x).id m).1.pipe x).task
    { log with
      loaded := log.loaded ++ [((m.1.pipe x).entry, words)]
      arrived := log.arrived ++ putSerials waited }
  | .stage3, some x =>
    { log with executed := log.executed ++ [((m.1.pipe x).entry, (m.1.pipe x).task)] }
  | .stage4, some x => { log with acked := log.acked ++ [(m.1.pipe x).entry] }
  | _, none => log

end Ledger

/-- What the memory of one SPE holds before `fifoInit`: `memalign` leaves the two
areas of the host and the buffers of the pipe undefined. -/
structure Memory (world : Type) where
  words : Nat → BitVec 32
  acks : Nat → ack_s
  task : Fin 4 → Task
  ack : Fin 4 → ack_s
  world : world

/-- One SPE: its columns of the host's table with the shared memory, its task
manager, and whether the host is inside a `fifoKick` on it, past the publication
of the count. -/
structure Spe (world : Type) where
  host : HostSpe
  spu : Spu world
  kicking : Bool
  log : Ledger

/-- The steps of the three parties on one SPE. `fifoKick` is two steps, since the
SPU and the monitor may run between the publication and `ringIncFront`. -/
inductive Action where
  | fifoBegin (command handle : BitVec 32)
  | fifoAdd (arg : BitVec 32)
  | send_front
  | closeFront
  | fifoRegisterProgram (addr : BitVec 64) (size : BitVec 32)
  | runStage
  | arrive (index : Nat)
  | reclaim
  deriving DecidableEq, Repr

namespace Spe

variable {world : Type}

/-- `fifoInit` for one SPE. -/
def init (memory : Memory world) (size : Nat) : Spe world where
  host := .init memory.words memory.acks size
  spu := .init memory.task memory.ack memory.world size
  kicking := false
  log := {}

/-- One step, or none where the code cannot take it: `selectfifo` returns an SPE
only with a free slot, the host thread is busy during a kick, only an outstanding
transfer can complete, and the monitor reclaims only an acknowledged slot. -/
def step (bodies : TaskBodies world) (s : Spe world) : Action → Option (Spe world)
  | .fifoBegin command handle =>
    if !s.kicking && ringHasFree s.host.ringCTX then
      let host := s.host.fifoBegin command handle
      some { s with host, log := s.log.begin (ringGetFront host.ringCTX) }
    else none
  | .fifoAdd arg => if !s.kicking then some { s with host := s.host.fifoAdd arg } else none
  | .send_front =>
    if !s.kicking then
      let front := ringGetFront s.host.ringCTX
      let log := s.log.kick s.host.ringCTX.size front (s.host.fifos.task front)
      some { s with host := s.host.send_front, kicking := true, log }
    else none
  | .closeFront =>
    if s.kicking then some { s with host := s.host.closeFront, kicking := false } else none
  | .fifoRegisterProgram addr size =>
    if !s.kicking then
      let front := ringGetFront s.host.ringCTX
      let host := s.host.fifoRegisterProgram addr size
      let log := (s.log.begin front).kick s.host.ringCTX.size front (host.fifos.task front)
      some { s with host, log }
    else none
  | .runStage =>
    let m := runStage bodies (s.spu, s.host.fifos)
    let log := s.log.stage (s.spu, s.host.fifos)
    some { s with spu := m.1, host := { s.host with fifos := m.2 }, log }
  | .arrive index =>
    match arrive index (s.spu, s.host.fifos) with
    | none => none
    | some m =>
      let log := { s.log with arrived := s.log.arrived ++ Ledger.putSerials s.spu.queue[index]?.toList }
      some { s with spu := m.1, host := { s.host with fifos := m.2 }, log }
  | .reclaim =>
    if s.host.ackReady then
      let log := s.log.reclaim (ringGetBack s.host.ringCTX)
      some { s with host := s.host.reclaim, log }
    else none

/-- The ledger after an action. -/
def recorded (s : Spe world) : Action → Ledger
  | .fifoBegin command handle => s.log.begin (ringGetFront (s.host.fifoBegin command handle).ringCTX)
  | .send_front =>
    let front := ringGetFront s.host.ringCTX
    s.log.kick s.host.ringCTX.size front (s.host.fifos.task front)
  | .fifoRegisterProgram addr size =>
    let front := ringGetFront s.host.ringCTX
    (s.log.begin front).kick s.host.ringCTX.size front
      ((s.host.fifoRegisterProgram addr size).fifos.task front)
  | .runStage => s.log.stage (s.spu, s.host.fifos)
  | .arrive index =>
    { s.log with arrived := s.log.arrived ++ Ledger.putSerials s.spu.queue[index]?.toList }
  | .reclaim => s.log.reclaim (ringGetBack s.host.ringCTX)
  | .fifoAdd _ | .closeFront => s.log

/-- A kick is in progress from its publication to its end. -/
def midKick (s : Spe world) : Action → Bool
  | .send_front => true
  | .closeFront => false
  | .fifoBegin _ _ | .fifoAdd _ | .fifoRegisterProgram _ _ | .runStage | .arrive _ | .reclaim =>
    s.kicking

section Inversion

variable {bodies : TaskBodies world} {s s' : Spe world}

theorem step_fifoBegin {command handle : BitVec 32} :
    s.step bodies (.fifoBegin command handle) = some s' ↔
      (s.kicking = false ∧ ringHasFree s.host.ringCTX = true) ∧
        { s with
          host := s.host.fifoBegin command handle
          log := s.log.begin (ringGetFront (s.host.fifoBegin command handle).ringCTX) } = s' := by
  simp [step]

theorem step_fifoAdd {arg : BitVec 32} :
    s.step bodies (.fifoAdd arg) = some s' ↔
      s.kicking = false ∧ { s with host := s.host.fifoAdd arg } = s' := by
  simp [step]

theorem step_send_front :
    s.step bodies .send_front = some s' ↔
      s.kicking = false ∧
        { s with
          host := s.host.send_front
          kicking := true
          log := s.log.kick s.host.ringCTX.size (ringGetFront s.host.ringCTX)
            (s.host.fifos.task (ringGetFront s.host.ringCTX)) } = s' := by
  simp [step]

theorem step_closeFront :
    s.step bodies .closeFront = some s' ↔
      s.kicking = true ∧ { s with host := s.host.closeFront, kicking := false } = s' := by
  simp [step]

theorem step_fifoRegisterProgram {addr : BitVec 64} {size : BitVec 32} :
    s.step bodies (.fifoRegisterProgram addr size) = some s' ↔
      s.kicking = false ∧
        { s with
          host := s.host.fifoRegisterProgram addr size
          log := (s.log.begin (ringGetFront s.host.ringCTX)).kick s.host.ringCTX.size
            (ringGetFront s.host.ringCTX)
            ((s.host.fifoRegisterProgram addr size).fifos.task (ringGetFront s.host.ringCTX)) } = s' := by
  simp [step]

theorem step_runStage :
    s.step bodies .runStage = some s' ↔
      { s with
        spu := (runStage bodies (s.spu, s.host.fifos)).1
        host := { s.host with fifos := (runStage bodies (s.spu, s.host.fifos)).2 }
        log := s.log.stage (s.spu, s.host.fifos) } = s' := by
  simp [step]

theorem step_arrive {index : Nat} :
    s.step bodies (.arrive index) = some s' ↔
      ∃ m, arrive index (s.spu, s.host.fifos) = some m ∧
        { s with
          spu := m.1
          host := { s.host with fifos := m.2 }
          log := { s.log with
            arrived := s.log.arrived ++ Ledger.putSerials s.spu.queue[index]?.toList } } = s' := by
  simp only [step]
  cases arrive index (s.spu, s.host.fifos) <;> simp

theorem step_reclaim :
    s.step bodies .reclaim = some s' ↔
      s.host.ackReady = true ∧
        { s with host := s.host.reclaim, log := s.log.reclaim (ringGetBack s.host.ringCTX) } = s' := by
  simp [step]

/-- What every step leaves in the ledger and in the mark of a kick in progress. -/
theorem step_record {action : Action} (hstep : s.step bodies action = some s') :
    s'.log = s.recorded action ∧ s'.kicking = s.midKick action := by
  cases action with
  | fifoBegin command handle =>
    obtain ⟨_, rfl⟩ := step_fifoBegin.mp hstep
    exact ⟨rfl, rfl⟩
  | fifoAdd arg =>
    obtain ⟨_, rfl⟩ := step_fifoAdd.mp hstep
    exact ⟨rfl, rfl⟩
  | send_front =>
    obtain ⟨_, rfl⟩ := step_send_front.mp hstep
    exact ⟨rfl, rfl⟩
  | closeFront =>
    obtain ⟨_, rfl⟩ := step_closeFront.mp hstep
    exact ⟨rfl, rfl⟩
  | fifoRegisterProgram addr size =>
    obtain ⟨_, rfl⟩ := step_fifoRegisterProgram.mp hstep
    exact ⟨rfl, rfl⟩
  | runStage =>
    obtain rfl := step_runStage.mp hstep
    exact ⟨rfl, rfl⟩
  | arrive index =>
    obtain ⟨m, _, rfl⟩ := step_arrive.mp hstep
    exact ⟨rfl, rfl⟩
  | reclaim =>
    obtain ⟨_, rfl⟩ := step_reclaim.mp hstep
    exact ⟨rfl, rfl⟩

end Inversion

/-- The ledger books what the SPU does in a step: a fetch where it starts a get of that
slot, an acknowledgement where it starts a put into that slot, a task as loaded or executed
where it hands the words in the buffer to the task body of `stage2` or `stage3`, and
nothing otherwise. -/
structure Booked (bodies : TaskBodies world) (s s' : Spe world) : Prop where
  fetched : (s'.log.fetched = s.log.fetched ∧ ∀ t ∈ s'.spu.queue, t.dir = .get → t ∈ s.spu.queue) ∨
    ∃ t, t.dir = .get ∧ s'.spu.queue = s.spu.queue ++ [t] ∧ s'.log.fetched = s.log.fetched ++ [t.slot]
  acked : (s'.log.acked = s.log.acked ∧ ∀ t ∈ s'.spu.queue, t.dir = .put → t ∈ s.spu.queue) ∨
    ∃ t, t.dir = .put ∧ s'.spu.queue = s.spu.queue ++ [t] ∧ s'.log.acked = s.log.acked ++ [t.slot]
  loaded : s'.log.loaded = s.log.loaded ∨
    ∃ x, s'.log.loaded = s.log.loaded ++ [((s.spu.pipe x).entry, (s'.spu.pipe x).task)] ∧
      s'.spu.world = bodies.stage2 s.spu.world (s.spu.pipe x).id (s'.spu.pipe x).task
  executed : s'.log.executed = s.log.executed ∨
    ∃ x, s'.log.executed = s.log.executed ++ [((s.spu.pipe x).entry, (s.spu.pipe x).task)] ∧
      (s'.spu.world, (s'.spu.pipe x).task, (s'.spu.pipe x).ack) =
        bodies.stage3 s.spu.world (s.spu.pipe x).id (s.spu.pipe x).task (s.spu.pipe x).ack
  idle : s'.log.loaded = s.log.loaded → s'.log.executed = s.log.executed → s'.spu.world = s.spu.world

section Books

variable {bodies : TaskBodies world} {s s' : Spe world} {action : Action}

/-- A step that starts no transfer and calls no task body. -/
theorem Booked.quiet (hlog : s'.log.fetched = s.log.fetched ∧ s'.log.acked = s.log.acked ∧
    s'.log.loaded = s.log.loaded ∧ s'.log.executed = s.log.executed)
    (hqueue : s'.spu.queue ⊆ s.spu.queue) (hworld : s'.spu.world = s.spu.world) : Booked bodies s s' := by
  obtain ⟨hfetched, hacked, hloaded, hexecuted⟩ := hlog
  exact ⟨.inl ⟨hfetched, fun t ht _ => hqueue ht⟩, .inl ⟨hacked, fun t ht _ => hqueue ht⟩, .inl hloaded,
    .inl hexecuted, fun _ _ => hworld⟩

theorem step_runStage_booked (hstep : s.step bodies .runStage = some s') : Booked bodies s s' := by
  obtain rfl := step_runStage.mp hstep
  have hacted := runStage_acted bodies (s.spu, s.host.fifos)
  cases hact : s.spu.acting s.host.fifos with
  | none =>
    obtain ⟨hqueue, hworld⟩ := hacted.idle hact
    refine .quiet ?_ (fun t ht => hqueue ▸ ht) hworld
    simp [Ledger.stage, hact]
  | some x =>
    cases hstage : s.spu.stage with
    | stage1 =>
      obtain ⟨hqueue, hworld⟩ := hacted.fetch x hstage hact
      have hlog : s.log.stage (s.spu, s.host.fifos) = { s.log with
          fetched := s.log.fetched ++ [s.spu.tstate.in_back]
          admitted := s.log.admitted ++ [increment s.spu.tstate.in_back s.spu.max_entries] } := by
        simp [Ledger.stage, hact, hstage]
      rw [hlog]
      refine ⟨.inr ⟨_, rfl, hqueue, rfl⟩, .inl ⟨rfl, ?_⟩, .inl rfl, .inl rfl, fun _ _ => hworld⟩
      intro t ht hput
      rw [hqueue] at ht
      obtain hold | hnew := List.mem_append.mp ht
      · exact hold
      · rw [List.mem_singleton.mp hnew] at hput
        cases hput
    | stage2 =>
      obtain ⟨hqueue, hpipe, hworld⟩ := hacted.load x hstage hact
      have hsub : (runStage bodies (s.spu, s.host.fifos)).1.queue ⊆ s.spu.queue := by
        rw [hqueue, dmaWaitTag_queue]
        exact List.filter_subset_self _
      have hlog : s.log.stage (s.spu, s.host.fifos) = { s.log with
          loaded := s.log.loaded ++
            [((s.spu.pipe x).entry, ((dmaWaitTag (s.spu.pipe x).id (s.spu, s.host.fifos)).1.pipe x).task)]
          arrived := s.log.arrived ++ Ledger.putSerials (s.spu.queue.filter (·.tag = (s.spu.pipe x).id)) } := by
        simp [Ledger.stage, hact, hstage]
      rw [hlog, ← hpipe]
      refine ⟨.inl ⟨rfl, fun t ht _ => hsub ht⟩, .inl ⟨rfl, fun t ht _ => hsub ht⟩, .inr ⟨x, rfl, hworld⟩, .inl rfl, ?_⟩
      intro hsame
      simp at hsame
    | stage3 =>
      obtain ⟨hqueue, hbody⟩ := hacted.execute x hstage hact
      have hlog : s.log.stage (s.spu, s.host.fifos) = { s.log with
          executed := s.log.executed ++ [((s.spu.pipe x).entry, (s.spu.pipe x).task)] } := by
        simp [Ledger.stage, hact, hstage]
      rw [hlog]
      refine ⟨.inl ⟨rfl, fun t ht _ => hqueue ▸ ht⟩, .inl ⟨rfl, fun t ht _ => hqueue ▸ ht⟩, .inl rfl,
        .inr ⟨x, rfl, hbody⟩, ?_⟩
      intro _ hsame
      simp at hsame
    | stage4 =>
      obtain ⟨hqueue, hworld⟩ := hacted.acknowledge x hstage hact
      have hlog : s.log.stage (s.spu, s.host.fifos) = { s.log with
          acked := s.log.acked ++ [(s.spu.pipe x).entry] } := by
        simp [Ledger.stage, hact, hstage]
      rw [hlog]
      refine ⟨.inl ⟨rfl, ?_⟩, .inr ⟨_, rfl, hqueue, rfl⟩, .inl rfl, .inl rfl, fun _ _ => hworld⟩
      intro t ht hget
      rw [hqueue] at ht
      obtain hold | hnew := List.mem_append.mp ht
      · exact hold
      · rw [List.mem_singleton.mp hnew] at hget
        cases hget

theorem step_booked (hstep : s.step bodies action = some s') : Booked bodies s s' := by
  cases action with
  | runStage => exact step_runStage_booked hstep
  | arrive index =>
    obtain ⟨m, harrive, rfl⟩ := step_arrive.mp hstep
    refine .quiet ⟨rfl, rfl, rfl, rfl⟩ ?_ (arrive_kept harrive).world
    rw [arrive_queue harrive]
    exact List.eraseIdx_subset
  | fifoBegin command handle =>
    obtain ⟨_, rfl⟩ := step_fifoBegin.mp hstep
    exact .quiet ⟨rfl, rfl, rfl, rfl⟩ (List.Subset.refl _) rfl
  | fifoAdd arg =>
    obtain ⟨_, rfl⟩ := step_fifoAdd.mp hstep
    exact .quiet ⟨rfl, rfl, rfl, rfl⟩ (List.Subset.refl _) rfl
  | send_front =>
    obtain ⟨_, rfl⟩ := step_send_front.mp hstep
    exact .quiet ⟨rfl, rfl, rfl, rfl⟩ (List.Subset.refl _) rfl
  | closeFront =>
    obtain ⟨_, rfl⟩ := step_closeFront.mp hstep
    exact .quiet ⟨rfl, rfl, rfl, rfl⟩ (List.Subset.refl _) rfl
  | fifoRegisterProgram addr size =>
    obtain ⟨_, rfl⟩ := step_fifoRegisterProgram.mp hstep
    exact .quiet ⟨rfl, rfl, rfl, rfl⟩ (List.Subset.refl _) rfl
  | reclaim =>
    obtain ⟨_, rfl⟩ := step_reclaim.mp hstep
    exact .quiet ⟨rfl, rfl, rfl, rfl⟩ (List.Subset.refl _) rfl

end Books

/-- Each task is begun and kicked before the next is begun. -/
def matched (s : Spe world) : Action → Bool
  | .fifoBegin _ _ => s.log.kicked = s.log.begun.length
  | .send_front => s.log.kicked < s.log.begun.length
  | .fifoRegisterProgram _ _ => false
  | .fifoAdd _ | .closeFront | .runStage | .arrive _ | .reclaim => true

/-- Tasks may be begun in batches, and a kick comes only while one is un-kicked. -/
def batched (s : Spe world) : Action → Bool
  | .send_front => s.log.kicked < s.log.begun.length
  | .fifoRegisterProgram _ _ => false
  | .fifoBegin _ _ | .fifoAdd _ | .closeFront | .runStage | .arrive _ | .reclaim => true

/-- Task bodies that leave everything as it is, as an `ADD` of no terms does. -/
def idleBodies : TaskBodies Unit where
  stage2 := fun world _ _ => world
  stage3 := fun world _ task ack => (world, task, ack)

/-- Memory that happened to be zero. -/
def zeroed : Memory Unit where
  words := fun _ => 0
  acks := fun _ => ⟨0, 0, 0⟩
  task := fun _ _ => 0
  ack := fun _ => ⟨0, 0, 0⟩
  world := ()

end Spe

end speutils.fifo
