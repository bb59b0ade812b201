import SpeUtils.Fifo.Audit
import SpeUtils.Fifo.Matched

open cyclic run speutils.ring speutils.taskmanager

namespace speutils.ring

/-- The first store of `ringIncBack`, `ctx->back++`. -/
def storeBack (ctx : ring_context_s) : ring_context_s := { ctx with back := ctx.back + 1 }

/-- The second, made only where the first has left the ring. -/
def wrapBack (ctx : ring_context_s) : ring_context_s := if ctx.back ≥ ctx.size then { ctx with back := 0 } else ctx

theorem ringIncBack_eq_stores (ctx : ring_context_s) : ringIncBack ctx = wrapBack (storeBack ctx) := rfl

theorem wrapBack_eq (ctx : ring_context_s) : wrapBack ctx = { ctx with back := (wrapBack ctx).back } := by
  unfold wrapBack
  split <;> rfl

theorem wrapBack_of_lt {ctx : ring_context_s} (hlt : ctx.back < ctx.size) : wrapBack ctx = ctx := by
  rw [wrapBack, if_neg (by omega)]

theorem wrapBack_of_eq {ctx : ring_context_s} (heq : ctx.back = ctx.size) : wrapBack ctx = { ctx with back := 0 } := by
  rw [wrapBack, if_pos (by omega)]

end speutils.ring

namespace speutils.fifo

namespace HostSpe

/-- The store of the inner loop of `fifothread` that precedes `ringIncBack`. -/
def clearAck (host : HostSpe) : HostSpe :=
  let back := ringGetBack host.ringCTX
  { host with fifos := { host.fifos with
      ack_fifo := Function.update host.fifos.ack_fifo back
        { host.fifos.ack_fifo back with task_id := ACK_CLEAR } } }

def withBack (host : HostSpe) (back : Nat) : HostSpe :=
  { host with ringCTX := { host.ringCTX with back } }

theorem reclaim_eq_withBack (host : HostSpe) :
    host.reclaim = host.clearAck.withBack (ringIncBack host.ringCTX).back := by
  simp only [reclaim, ringIncBack_eq]
  rfl

section WithBack

variable (host : HostSpe) (back : Nat)

theorem ringIncFront_withBack (ctx : ring_context_s) :
    ringIncFront { ctx with back } = { ringIncFront ctx with back } := by
  rw [ringIncFront_eq, ringIncFront_eq]

theorem fifoBegin_withBack (command handle : BitVec 32) :
    (host.withBack back).fifoBegin command handle = (host.fifoBegin command handle).withBack back := by
  cases hkicked : host.isKicked with
  | true => simp [fifoBegin, withBack, hkicked, openFront, put, write, ringGetFront]
  | false => simp [fifoBegin, withBack, hkicked, openFront, put, write, ringGetFront, ringIncFront_withBack]

theorem fifoAdd_withBack (arg : BitVec 32) : (host.withBack back).fifoAdd arg = (host.fifoAdd arg).withBack back := by
  have hcount : (host.withBack back).entry_count = host.entry_count := rfl
  by_cases hroom : host.entry_count + 1 ≠ TASK_SIZE / 4
  · simp only [fifoAdd, hcount, if_pos hroom]
    rfl
  · simp only [fifoAdd, hcount, if_neg hroom]

theorem closeFront_withBack : (host.withBack back).closeFront = host.closeFront.withBack back := by
  simp only [closeFront, withBack, ringIncFront_withBack]

theorem fifoRegisterProgram_withBack (addr : BitVec 64) (size : BitVec 32) :
    (host.withBack back).fifoRegisterProgram addr size = (host.fifoRegisterProgram addr size).withBack back :=
  closeFront_withBack (((((host.openFront.put 0 messages.REGISTER_PROGRAM).put 1 size).put 2
    ((addr >>> 32).setWidth 32)).put 3 (addr.setWidth 32)).send_front) back

end WithBack

end HostSpe

namespace Spe

variable {world : Type} {s s' : Spe world} {bodies : TaskBodies world} {action : Action}

def withBack (s : Spe world) (back : Nat) : Spe world := { s with host := s.host.withBack back }

/-- What `fifoBegin` does once `selectfifo` has returned. -/
def opened (s : Spe world) (command handle : BitVec 32) : Spe world :=
  let host := s.host.fifoBegin command handle
  { s with host, log := s.log.begin (ringGetFront host.ringCTX) }

theorem opened_withBack (s : Spe world) (command handle : BitVec 32) (back : Nat) :
    (s.withBack back).opened command handle = (s.opened command handle).withBack back := by
  simp only [opened, withBack, HostSpe.fifoBegin_withBack]
  rfl

theorem opened_ring (s : Spe world) (command handle : BitVec 32) :
    (s.opened command handle).host.ringCTX.back = s.host.ringCTX.back ∧
      (s.opened command handle).host.ringCTX.size = s.host.ringCTX.size := by
  simp only [opened, HostSpe.fifoBegin_ringCTX]
  split <;> simp

/-- The ring's `back` belongs to `fifothread`: but for that thread and the test of a free
slot, everything works alike whatever it is. -/
theorem step_withBack (haction : action ≠ .reclaim)
    (hbegin : ∀ command handle, action ≠ .fifoBegin command handle) (hstep : s.step bodies action = some s')
    (back : Nat) :
    (s.withBack back).step bodies action = some (s'.withBack back) ∧
      s'.host.ringCTX.back = s.host.ringCTX.back ∧ s'.host.ringCTX.size = s.host.ringCTX.size := by
  cases action with
  | fifoBegin command handle => exact absurd rfl (hbegin command handle)
  | fifoAdd arg =>
    obtain ⟨hidle, rfl⟩ := step_fifoAdd.mp hstep
    refine ⟨step_fifoAdd.mpr ⟨hidle, ?_⟩, ?_⟩
    · rw [withBack, HostSpe.fifoAdd_withBack]
      rfl
    · unfold HostSpe.fifoAdd
      split <;> exact ⟨rfl, rfl⟩
  | send_front =>
    obtain ⟨hidle, rfl⟩ := step_send_front.mp hstep
    exact ⟨step_send_front.mpr ⟨hidle, rfl⟩, rfl, rfl⟩
  | closeFront =>
    obtain ⟨hkicking, rfl⟩ := step_closeFront.mp hstep
    refine ⟨step_closeFront.mpr ⟨hkicking, ?_⟩, by simp [HostSpe.closeFront], by simp [HostSpe.closeFront]⟩
    rw [withBack, HostSpe.closeFront_withBack]
    rfl
  | fifoRegisterProgram addr bytes =>
    obtain ⟨hidle, rfl⟩ := step_fifoRegisterProgram.mp hstep
    refine ⟨step_fifoRegisterProgram.mpr ⟨hidle, ?_⟩, ?_⟩
    · rw [withBack, HostSpe.fifoRegisterProgram_withBack]
      rfl
    · simp [HostSpe.fifoRegisterProgram, HostSpe.fifoKick, HostSpe.closeFront, HostSpe.send_front, HostSpe.put,
        HostSpe.write, HostSpe.openFront]
  | runStage =>
    obtain rfl := step_runStage.mp hstep
    exact ⟨step_runStage.mpr rfl, rfl, rfl⟩
  | arrive index =>
    obtain ⟨m, harrive, rfl⟩ := step_arrive.mp hstep
    exact ⟨step_arrive.mpr ⟨m, harrive, rfl⟩, rfl, rfl⟩
  | reclaim => exact absurd rfl haction

/-- Once the acknowledgement at the back has arrived, no outstanding transfer goes to its
slot. -/
theorem Inv.ack_kept {size : Nat} (h : s.Inv size) (hready : s.host.ackReady = true) {ts : List Transfer}
    (hts : ∀ t ∈ ts, t ∈ s.spu.queue) :
    (ts.foldl (fun m t => t.perform m) (s.spu, s.host.fifos)).2.ack_fifo (ringGetBack s.host.ringCTX) =
      s.host.fifos.ack_fifo (ringGetBack s.host.ringCTX) := by
  have hchain := h.chain
  have hback : ringGetBack s.host.ringCTX = s.log.reclaimed.length % size := h.host.position.back_eq
  obtain hsame | ⟨t, ht, hput, hslot⟩ :=
    foldl_perform_ack ts (s.spu, s.host.fifos) (ringGetBack s.host.ringCTX)
  · exact hsame
  · exfalso
    obtain ⟨hlt, hserial, hnot⟩ := h.acks.queue_put t (hts t ht) hput
    have hset : (s.host.fifos.ack_fifo (s.log.reclaimed.length % size)).task_id ≠ ACK_CLEAR := by
      rw [← hback]
      simpa [HostSpe.ackReady] using hready
    have harrived := h.acks.set_arrived s.log.reclaimed.length (Nat.le_refl _) (by omega) hset
    have hle : s.log.reclaimed.length ≤ t.serial := by
      by_contra hearly
      exact hnot (h.acks.reclaimed_arrived t.serial (by omega))
    have hfirst : s.log.reclaimed.length = t.serial :=
      eq_of_mod_eq hle (by omega) ((hback.symm.trans hslot.symm).trans hserial)
    exact hnot (hfirst ▸ harrived)

/-- An acknowledgement that the monitor has seen stays until the monitor clears it. -/
theorem Inv.ackReady_step {size : Nat} (h : s.Inv size) (hready : s.host.ackReady = true)
    (hstep : s.step bodies action = some s') (haction : action ≠ .reclaim)
    (hbegin : ∀ command handle, action ≠ .fifoBegin command handle) : s'.host.ackReady = true := by
  obtain ⟨_, hback, _⟩ := step_withBack haction hbegin hstep s.host.ringCTX.back
  suffices hack : s'.host.fifos.ack_fifo (ringGetBack s.host.ringCTX) =
      s.host.fifos.ack_fifo (ringGetBack s.host.ringCTX) by
    have hslot : ringGetBack s'.host.ringCTX = ringGetBack s.host.ringCTX := hback
    rw [HostSpe.ackReady, hslot, hack]
    exact hready
  cases action with
  | fifoBegin command handle => exact absurd rfl (hbegin command handle)
  | reclaim => exact absurd rfl haction
  | fifoAdd arg =>
    obtain ⟨_, rfl⟩ := step_fifoAdd.mp hstep
    unfold HostSpe.fifoAdd
    split <;> rfl
  | send_front =>
    obtain ⟨_, rfl⟩ := step_send_front.mp hstep
    rfl
  | closeFront =>
    obtain ⟨_, rfl⟩ := step_closeFront.mp hstep
    rfl
  | fifoRegisterProgram addr bytes =>
    obtain ⟨_, rfl⟩ := step_fifoRegisterProgram.mp hstep
    rfl
  | runStage =>
    obtain rfl := step_runStage.mp hstep
    have hack := runStage_ack_fifo bodies (s.spu, s.host.fifos)
    simp only at hack ⊢
    rw [hack]
    split
    · exact h.ack_kept hready fun t ht => (List.mem_filter.mp ht).1
    · rfl
  | arrive index =>
    obtain ⟨m, harrive, rfl⟩ := step_arrive.mp hstep
    cases ht : s.spu.queue[index]? with
    | none => simp [taskmanager.arrive, ht] at harrive
    | some t =>
      simp only [taskmanager.arrive, ht, Option.some.injEq] at harrive
      subst m
      have hqueued : ∀ u ∈ [t], u ∈ s.spu.queue :=
        fun u hu => List.mem_singleton.mp hu ▸ List.mem_of_getElem? ht
      exact h.ack_kept hready hqueued

end Spe

/-- Where `fifothread` stands on one SPE: about to test the acknowledgement at the back, to
clear it, and to make either store of `ringIncBack`. -/
inductive Monitor where
  | testing
  | clearing
  | storing
  | wrapping
  deriving DecidableEq

/-- One SPE at the grain of single stores by the two threads of the host. `granted` is true
from the test with which `selectfifo` returns the SPE to the opening of its slot. -/
structure Threads (world : Type) where
  spe : Spe world
  granted : Bool
  monitor : Monitor

/-- The actions that stay whole. The front is read and written by the application's thread
alone, so nothing comes between its stores. -/
def Action.whole : Action → Bool
  | .fifoBegin _ _ | .reclaim => false
  | .fifoAdd _ | .send_front | .closeFront | .fifoRegisterProgram _ _ | .runStage | .arrive _ => true

/-- What is one step at this grain. -/
inductive Access where
  | ringHasFree
  | fifoBegin (command handle : BitVec 32)
  | whole (action : Action)
  | ackReady
  | clearAck
  | storeBack
  | wrapBack
  deriving DecidableEq

namespace Threads

variable {world : Type}

def init (memory : Memory world) (size : Nat) : Threads world where
  spe := .init memory size
  granted := false
  monitor := .testing

def step (bodies : TaskBodies world) (s : Threads world) : Access → Option (Threads world)
  | .ringHasFree =>
    if !s.spe.kicking && !s.granted then some { s with granted := ringHasFree s.spe.host.ringCTX } else none
  | .fifoBegin command handle =>
    if s.granted then
      some { s with spe := s.spe.opened command handle, granted := false }
    else none
  | .whole action =>
    if action.whole && !(action.ofThread && s.granted) then
      (s.spe.step bodies action).map fun spe => { s with spe }
    else none
  | .ackReady =>
    if s.monitor = .testing then
      some { s with monitor := if s.spe.host.ackReady then .clearing else .testing }
    else none
  | .clearAck =>
    if s.monitor = .clearing then
      let log := s.spe.log.reclaim (ringGetBack s.spe.host.ringCTX)
      some { s with spe := { s.spe with host := s.spe.host.clearAck, log }, monitor := .storing }
    else none
  | .storeBack =>
    if s.monitor = .storing then
      let host := { s.spe.host with ringCTX := ring.storeBack s.spe.host.ringCTX }
      some { s with spe := { s.spe with host }, monitor := .wrapping }
    else none
  | .wrapBack =>
    if s.monitor = .wrapping then
      let host := { s.spe.host with ringCTX := ring.wrapBack s.spe.host.ringCTX }
      some { s with spe := { s.spe with host }, monitor := .testing }
    else none

/-- Each task is begun and kicked before the test for the next. -/
def matched (s : Threads world) : Access → Bool
  | .ringHasFree => s.spe.log.kicked = s.spe.log.begun.length
  | .fifoBegin command handle => s.spe.matched (.fifoBegin command handle)
  | .whole action => s.spe.matched action
  | .ackReady | .clearAck | .storeBack | .wrapBack => true

/-- The `back` that the monitor is about to leave. -/
def nextBack (s : Threads world) : Nat :=
  match s.monitor with
  | .testing | .clearing => s.spe.host.ringCTX.back
  | .storing => (ringIncBack s.spe.host.ringCTX).back
  | .wrapping => (ring.wrapBack s.spe.host.ringCTX).back

/-- The SPE with the monitor's stores completed. -/
def settled (s : Threads world) : Spe world := s.spe.withBack s.nextBack

/-- The threads do on the SPE what whole steps can do: completing the monitor's stores
leads to a state that whole steps reach; the application's thread has been let in only
where the completed ring has a free slot; and where it finds the ring empty, the completed
ring is. -/
structure Faithful (bodies : TaskBodies world) (memory : Memory world) (size : Nat) (s : Threads world) :
    Prop where
  reached : ∃ actions, Reaches (restrict Spe.matched (Spe.step bodies)) (.init memory size) actions s.settled
  free : s.granted = true → ringHasFree s.settled.host.ringCTX = true
  empty : s.spe.kicking = false → ringHasRemaining s.spe.host.ringCTX = false →
    ringHasRemaining s.settled.host.ringCTX = false

/-- A test of a free slot that does not fall between the two stores of `ringIncBack` while
these pass the end of the ring and the front is in the last slot. -/
def Undisturbed (s : Threads world) : Access → Prop
  | .ringHasFree => ¬ (ringGetBack s.spe.host.ringCTX = s.spe.host.ringCTX.size ∧
      ringGetFront s.spe.host.ringCTX + 1 = s.spe.host.ringCTX.size)
  | .fifoBegin _ _ | .whole _ | .ackReady | .clearAck | .storeBack | .wrapBack => True

/-- The value of `back` that the monitor's place calls for. -/
def BackAt (size : Nat) (s : Threads world) : Prop :=
  match s.monitor with
  | .testing | .clearing => s.spe.host.ringCTX.back = s.spe.log.reclaimed.length % size
  | .storing => ∃ n, s.spe.log.reclaimed.length = n + 1 ∧ s.spe.host.ringCTX.back = n % size
  | .wrapping => ∃ n, s.spe.log.reclaimed.length = n + 1 ∧ s.spe.host.ringCTX.back = n % size + 1

/-- Slots that the ring does not show as free: those begun, one that is promised to the
application's thread, and one that the monitor has cleared but not passed. -/
def taken (s : Threads world) : Nat :=
  s.spe.log.begun.length + s.granted.toNat + if s.monitor = .storing then 1 else 0

/-- The invariant behind it. -/
structure Synced (size : Nat) (s : Threads world) : Prop where
  matched : s.settled.Matched size
  back : s.BackAt size
  window : s.taken < s.spe.log.reclaimed.length + size
  granted : s.granted = true → s.spe.kicking = false ∧ s.spe.log.kicked = s.spe.log.begun.length
  ready : s.monitor = .clearing → s.spe.host.ackReady = true

section Steps

variable {size : Nat} {s s' : Threads world} {bodies : TaskBodies world}

theorem settled_idle (hmonitor : s.monitor = .testing ∨ s.monitor = .clearing) : s.settled = s.spe := by
  obtain hmonitor | hmonitor := hmonitor <;> simp only [settled, nextBack, hmonitor] <;> rfl

theorem Synced.init (memory : Memory world) (hsize : 0 < size) : Synced size (.init memory size) where
  matched := .init memory hsize
  back := (Nat.zero_mod size).symm
  window := by simpa [taken, Threads.init, Spe.init] using hsize
  granted := nofun
  ready := nofun

theorem Synced.settled_at (h : s.Synced size) (hidle : s.spe.kicking = false) :
    At size s.spe.log.kicked s.spe.log.reclaimed.length s.settled.host.ringCTX :=
  h.matched.frontPosition hidle

theorem Synced.chain (h : s.Synced size) :
    s.spe.log.reclaimed.length ≤ s.spe.log.kicked ∧ s.spe.log.kicked ≤ s.spe.log.begun.length ∧
      s.spe.log.begun.length < s.spe.log.reclaimed.length + size := by
  obtain ⟨hreclaimed, hacked, hfetched, hkicked, hwindow⟩ := h.matched.inv.chain
  exact ⟨hreclaimed.trans (hacked.trans hfetched), hkicked, hwindow⟩

/-- Inside `ringIncBack`, before its first store, the ring stands at the position that the
monitor has cleared. -/
theorem Synced.storing_at (h : s.Synced size) (hidle : s.spe.kicking = false) (hmonitor : s.monitor = .storing) :
    ∃ n, s.spe.log.reclaimed.length = n + 1 ∧ At size s.spe.log.kicked n s.spe.host.ringCTX := by
  have hback := h.back
  simp only [BackAt, hmonitor] at hback
  obtain ⟨n, hreclaimed, hback⟩ := hback
  have hat := h.settled_at hidle
  exact ⟨n, hreclaimed, hat.size_eq, hat.front_eq, hback⟩

/-- Between its two stores, the back is in the ring and will stay, or is past its end. -/
theorem Synced.wrapping_at (h : s.Synced size) (hmonitor : s.monitor = .wrapping) :
    s.settled = s.spe ∨
      s.spe.host.ringCTX.back = s.spe.host.ringCTX.size ∧ s.settled.host.ringCTX.back = 0 := by
  have hback := h.back
  simp only [BackAt, hmonitor] at hback
  obtain ⟨n, _, hback⟩ := hback
  have hsize : s.spe.host.ringCTX.size = size := h.matched.inv.host.position.size_eq
  have hpos : 0 < size := by
    have := h.chain
    omega
  have hlt := Nat.mod_lt n hpos
  by_cases hend : s.spe.host.ringCTX.back = s.spe.host.ringCTX.size
  · refine .inr ⟨hend, ?_⟩
    simp only [settled, nextBack, hmonitor, ring.wrapBack_of_eq hend]
    rfl
  · have hin : ring.wrapBack s.spe.host.ringCTX = s.spe.host.ringCTX := ring.wrapBack_of_lt (by omega)
    refine .inl ?_
    simp only [settled, nextBack, hmonitor, hin]
    rfl

/-- The thread that has been let in finds a free slot in the completed ring. -/
theorem Synced.free (h : s.Synced size) (hgranted : s.granted = true) :
    ringHasFree s.settled.host.ringCTX = true := by
  obtain ⟨hidle, hopen⟩ := h.granted hgranted
  have hchain := h.chain
  have hwindow := h.window
  rw [(h.settled_at hidle).hasFree_iff (by omega) (by omega), hopen]
  simp only [taken, hgranted, Bool.toNat_true] at hwindow
  omega

/-- What the thread reads as empty is empty, for the monitor's stores only fill the gap. -/
theorem Synced.empty (h : s.Synced size) (hidle : s.spe.kicking = false)
    (hnone : ringHasRemaining s.spe.host.ringCTX = false) : ringHasRemaining s.settled.host.ringCTX = false := by
  have hat := h.settled_at hidle
  have hchain := h.chain
  cases hmonitor : s.monitor with
  | testing => rwa [settled_idle (.inl hmonitor)]
  | clearing => rwa [settled_idle (.inr hmonitor)]
  | storing =>
    obtain ⟨n, hreclaimed, hstored⟩ := h.storing_at hidle hmonitor
    have hwindow := h.window
    simp only [taken, hmonitor, if_true] at hwindow
    have hremaining := (hstored.hasRemaining_iff (by omega) (by omega)).mpr (by omega)
    rw [hnone] at hremaining
    cases hremaining
  | wrapping =>
    obtain hsame | ⟨hend, _⟩ := h.wrapping_at hmonitor
    · rwa [hsame]
    · have hfront : s.spe.host.ringCTX.front = s.spe.log.kicked % size := hat.front_eq
      have hsize : s.spe.host.ringCTX.size = size := hat.size_eq
      have hlt := Nat.mod_lt s.spe.log.kicked (by omega : 0 < size)
      have hremaining := (ringHasRemaining_iff s.spe.host.ringCTX).mpr (by omega)
      rw [hnone] at hremaining
      cases hremaining

/-- A test that the monitor does not disturb lets the thread in only with room for its
task. -/
theorem Synced.room (h : s.Synced size) (hidle : s.spe.kicking = false)
    (hopen : s.spe.log.kicked = s.spe.log.begun.length) (hundisturbed : s.Undisturbed .ringHasFree)
    (hfree : ringHasFree s.spe.host.ringCTX = true) :
    s.spe.log.begun.length + 1 + (if s.monitor = .storing then 1 else 0) <
      s.spe.log.reclaimed.length + size := by
  have hat := h.settled_at hidle
  have hchain := h.chain
  have hsettled : s.settled = s.spe → s.spe.log.kicked + 1 < s.spe.log.reclaimed.length + size := by
    intro hsame
    rw [hsame] at hat
    exact (hat.hasFree_iff (by omega) (by omega)).mp hfree
  cases hmonitor : s.monitor with
  | testing =>
    have := hsettled (settled_idle (.inl hmonitor))
    simpa [← hopen] using this
  | clearing =>
    have := hsettled (settled_idle (.inr hmonitor))
    simpa [← hopen] using this
  | storing =>
    obtain ⟨n, hreclaimed, hstored⟩ := h.storing_at hidle hmonitor
    have hwindow := h.window
    simp only [taken, hmonitor, if_true] at hwindow ⊢
    have := (hstored.hasFree_iff (by omega) (by omega)).mp hfree
    omega
  | wrapping =>
    suffices s.spe.log.kicked + 1 < s.spe.log.reclaimed.length + size by simpa [← hopen] using this
    obtain hsame | ⟨hend, hzero⟩ := h.wrapping_at hmonitor
    · exact hsettled hsame
    · have hfront : s.spe.host.ringCTX.front = s.spe.log.kicked % size := hat.front_eq
      have hsize : s.spe.host.ringCTX.size = size := hat.size_eq
      have hlt := Nat.mod_lt s.spe.log.kicked (by omega : 0 < size)
      have hbefore : s.spe.host.ringCTX.front + 1 ≠ s.spe.host.ringCTX.size :=
        fun hlast => hundisturbed ⟨hend, hlast⟩
      rw [← hat.hasFree_iff (by omega) (by omega), ringHasFree_iff, hzero, hat.size_eq, hat.front_eq, next,
        if_neg (by omega)]
      omega

/-- A step that leaves the monitor where it stands, and the back and the slots it has
cleared as they are. -/
theorem Synced.kept {spe : Spe world} {granted : Bool} (h : s.Synced size)
    (hmatched : ({ s with spe, granted } : Threads world).settled.Matched size)
    (hback : spe.host.ringCTX.back = s.spe.host.ringCTX.back)
    (hreclaimed : spe.log.reclaimed = s.spe.log.reclaimed)
    (hwindow : spe.log.begun.length + granted.toNat + (if s.monitor = .storing then 1 else 0) <
      spe.log.reclaimed.length + size)
    (hgranted : granted = true → spe.kicking = false ∧ spe.log.kicked = spe.log.begun.length)
    (hready : s.monitor = .clearing → spe.host.ackReady = true) :
    ({ s with spe, granted } : Threads world).Synced size := by
  refine ⟨hmatched, ?_, hwindow, hgranted, hready⟩
  have hat := h.back
  simp only [BackAt] at hat ⊢
  rw [hback, hreclaimed]
  exact hat

theorem nextBack_eq {spe : Spe world} {granted : Bool} (hback : spe.host.ringCTX.back = s.spe.host.ringCTX.back)
    (hsize : spe.host.ringCTX.size = s.spe.host.ringCTX.size) :
    ({ s with spe, granted } : Threads world).nextBack = s.nextBack := by
  have hring : ∀ ctx ctx' : ring_context_s, ctx'.back = ctx.back → ctx'.size = ctx.size →
      (ringIncBack ctx').back = (ringIncBack ctx).back ∧ (ring.wrapBack ctx').back = (ring.wrapBack ctx).back := by
    intro ctx ctx' hback hsize
    simp only [ringIncBack_eq, ring.wrapBack, hback, hsize]
    split <;> simp [hback]
  obtain ⟨hinc, hwrap⟩ := hring s.spe.host.ringCTX spe.host.ringCTX hback hsize
  simp only [nextBack, hback, hinc, hwrap]

/-- The thread that has been let in opens its slot. -/
theorem Synced.fifoBegin {command handle : BitVec 32} (h : s.Synced size) (hsize : 0 < size)
    (hmatched : s.settled.matched (.fifoBegin command handle) = true)
    (hstep : s.step bodies (.fifoBegin command handle) = some s') :
    s'.Synced size ∧ s.settled.step bodies (.fifoBegin command handle) = some s'.settled := by
  simp only [Threads.step, Option.ite_none_right_eq_some, Option.some.injEq] at hstep
  obtain ⟨hgranted, rfl⟩ := hstep
  obtain ⟨hidle, hopen⟩ := h.granted hgranted
  obtain ⟨hback, hring⟩ := s.spe.opened_ring command handle
  have hsettled : s.settled.step bodies (.fifoBegin command handle) =
      some ({ s with spe := s.spe.opened command handle, granted := false } : Threads world).settled := by
    refine Spe.step_fifoBegin.mpr ⟨⟨hidle, h.free hgranted⟩, ?_⟩
    exact (s.spe.opened_withBack command handle s.nextBack).trans
      (congrArg (s.spe.opened command handle).withBack (nextBack_eq hback hring).symm)
  have hwindow := h.window
  simp only [taken, hgranted, Bool.toNat_true] at hwindow
  refine ⟨h.kept (h.matched.step hsize hmatched hsettled) hback rfl ?_ nofun ?_, hsettled⟩
  · simpa [Spe.opened, Ledger.begin] using hwindow
  · intro hmonitor
    have hready := h.ready hmonitor
    have hslot : ringGetBack (s.spe.opened command handle).host.ringCTX = ringGetBack s.spe.host.ringCTX := hback
    have hack : (s.spe.opened command handle).host.fifos.ack_fifo = s.spe.host.fifos.ack_fifo :=
      s.spe.host.fifoBegin_ack_fifo command handle
    rw [HostSpe.ackReady, hslot, hack]
    exact hready

theorem step_whole {action : Action} :
    s.step bodies (.whole action) = some s' ↔
      (action.whole = true ∧ (action.ofThread = false ∨ s.granted = false)) ∧
        ∃ spe, s.spe.step bodies action = some spe ∧ { s with spe } = s' := by
  simp [step]

/-- Whatever the monitor is about to complete, the other actions go on as they would with
it completed. -/
theorem Synced.whole {action : Action} (h : s.Synced size) (hsize : 0 < size)
    (hmatched : s.settled.matched action = true) (hstep : s.step bodies (.whole action) = some s') :
    s'.Synced size ∧ s.settled.step bodies action = some s'.settled := by
  obtain ⟨⟨hwhole, hblocked⟩, spe, hspe, rfl⟩ := step_whole.mp hstep
  have hreclaim : action ≠ .reclaim := by
    rintro rfl
    cases hwhole
  have hbegin : ∀ command handle, action ≠ .fifoBegin command handle := by
    rintro command handle rfl
    cases hwhole
  obtain ⟨hsame, hback, hring⟩ := Spe.step_withBack hreclaim hbegin hspe s.nextBack
  have hsettled : s.settled.step bodies action = some ({ s with spe } : Threads world).settled := by
    have hnext : ({ s with spe } : Threads world).nextBack = s.nextBack := nextBack_eq hback hring
    rw [settled, settled, hnext]
    exact hsame
  have hreclaimed := (Spe.step_reclaimed hspe hreclaim).1
  have hbegun : spe.log.begun = s.spe.log.begun := by
    rw [(Spe.step_record hspe).1]
    cases action with
    | fifoBegin command handle => exact absurd rfl (hbegin command handle)
    | fifoRegisterProgram addr bytes => cases hmatched
    | runStage => exact (s.spe.log.stage_kicks _).1
    | fifoAdd arg | send_front | closeFront | arrive index | reclaim => rfl
  refine ⟨h.kept (h.matched.step hsize hmatched hsettled) hback hreclaimed ?_ ?_ ?_, hsettled⟩
  · rw [hbegun, hreclaimed]
    exact h.window
  · intro hgranted
    obtain ⟨hidle, hopen⟩ := h.granted hgranted
    have hthread := hblocked.resolve_right (fun hnone => Bool.noConfusion (hgranted.symm.trans hnone))
    rw [hbegun, (Spe.step_record hspe).1, (Spe.step_record hspe).2]
    cases action with
    | runStage => exact ⟨hidle, (s.spe.log.stage_kicks _).2.1.trans hopen⟩
    | arrive index | reclaim => exact ⟨hidle, hopen⟩
    | fifoBegin command handle | fifoAdd arg | send_front | closeFront | fifoRegisterProgram addr bytes =>
      cases hthread
  · intro hmonitor
    have hinv := h.matched.inv
    rw [settled_idle (.inr hmonitor)] at hinv
    exact hinv.ackReady_step (h.ready hmonitor) hspe hreclaim hbegin

/-- The test in `selectfifo`. -/
theorem Synced.tested (h : s.Synced size) (hmatched : s.matched .ringHasFree = true)
    (hundisturbed : s.Undisturbed .ringHasFree) (hstep : s.step bodies .ringHasFree = some s') :
    s'.Synced size ∧ s'.settled = s.settled := by
  simp only [Threads.step, Option.ite_none_right_eq_some, Option.some.injEq, Bool.and_eq_true,
    Bool.not_eq_true'] at hstep
  obtain ⟨⟨hidle, hgranted⟩, rfl⟩ := hstep
  simp only [Threads.matched, decide_eq_true_eq] at hmatched
  refine ⟨h.kept h.matched rfl rfl ?_ (fun _ => ⟨hidle, hmatched⟩) h.ready, rfl⟩
  cases hfree : ring.ringHasFree s.spe.host.ringCTX with
  | true => exact h.room hidle hmatched hundisturbed hfree
  | false =>
    have hwindow := h.window
    rwa [taken, hgranted] at hwindow

/-- The monitor's test. -/
theorem Synced.ackReady (h : s.Synced size) (hstep : s.step bodies .ackReady = some s') :
    s'.Synced size ∧ s'.settled = s.settled := by
  simp only [Threads.step, Option.ite_none_right_eq_some, Option.some.injEq] at hstep
  obtain ⟨hmonitor, rfl⟩ := hstep
  have hback := h.back
  have hwindow := h.window
  have hsettled := settled_idle (.inl hmonitor)
  have hmatched := h.matched
  simp only [BackAt, hmonitor] at hback
  simp only [taken, hmonitor, reduceCtorEq, if_false] at hwindow
  rw [hsettled] at hmatched ⊢
  cases hready : s.spe.host.ackReady with
  | true => exact ⟨⟨hmatched, hback, hwindow, h.granted, fun _ => hready⟩, rfl⟩
  | false => exact ⟨⟨hmatched, hback, hwindow, h.granted, nofun⟩, rfl⟩

/-- The monitor's first store. From here on the slot counts as reclaimed. -/
theorem Synced.clearAck (h : s.Synced size) (hsize : 0 < size) (hstep : s.step bodies .clearAck = some s') :
    s'.Synced size ∧ s.settled.step bodies .reclaim = some s'.settled := by
  simp only [Threads.step, Option.ite_none_right_eq_some, Option.some.injEq] at hstep
  obtain ⟨hmonitor, rfl⟩ := hstep
  have hback := h.back
  have hwindow := h.window
  have hready := h.ready hmonitor
  have hmatched := h.matched
  rw [settled_idle (.inr hmonitor)] at hmatched ⊢
  simp only [BackAt, hmonitor] at hback
  simp only [taken, hmonitor, reduceCtorEq, if_false] at hwindow
  have hsettled : s.spe.step bodies .reclaim = some ({ s with
      spe := { s.spe with
        host := s.spe.host.clearAck
        log := s.spe.log.reclaim (ringGetBack s.spe.host.ringCTX) }
      monitor := .storing } : Threads world).settled := by
    refine Spe.step_reclaim.mpr ⟨hready, ?_⟩
    rw [HostSpe.reclaim_eq_withBack]
    rfl
  have hlength : (s.spe.log.reclaim (ringGetBack s.spe.host.ringCTX)).reclaimed.length =
      s.spe.log.reclaimed.length + 1 := by simp [Ledger.reclaim]
  refine ⟨⟨hmatched.step hsize rfl hsettled, ⟨_, hlength, hback⟩, ?_, h.granted, ?_⟩, hsettled⟩
  · simp only [taken, hlength, if_true]
    exact (Nat.add_lt_add_right hwindow 1).trans_le (by omega)
  · intro hclearing
    cases hclearing

/-- The first store of `ringIncBack`. -/
theorem Synced.storeBack (h : s.Synced size) (hstep : s.step bodies .storeBack = some s') :
    s'.Synced size ∧ s'.settled = s.settled := by
  simp only [Threads.step, Option.ite_none_right_eq_some, Option.some.injEq] at hstep
  obtain ⟨hmonitor, rfl⟩ := hstep
  have hback := h.back
  have hwindow := h.window
  simp only [BackAt, hmonitor] at hback
  obtain ⟨n, hreclaimed, hback⟩ := hback
  simp only [taken, hmonitor, if_true] at hwindow
  have hsettled : ({ s with
      spe := { s.spe with host := { s.spe.host with ringCTX := ring.storeBack s.spe.host.ringCTX } }
      monitor := .wrapping } : Threads world).settled = s.settled := by
    simp only [settled, nextBack, hmonitor, ringIncBack_eq_stores]
    rfl
  refine ⟨⟨hsettled ▸ h.matched, ⟨n, hreclaimed, ?_⟩, ?_, h.granted, nofun⟩, hsettled⟩
  · simp only [ring.storeBack, hback]
  · simp only [taken, reduceCtorEq, if_false]
    omega

/-- The second. -/
theorem Synced.wrapBack (h : s.Synced size) (hstep : s.step bodies .wrapBack = some s') :
    s'.Synced size ∧ s'.settled = s.settled := by
  simp only [Threads.step, Option.ite_none_right_eq_some, Option.some.injEq] at hstep
  obtain ⟨hmonitor, rfl⟩ := hstep
  have hwindow := h.window
  simp only [taken, hmonitor, reduceCtorEq, if_false] at hwindow
  have hsettled : ({ s with
      spe := { s.spe with host := { s.spe.host with ringCTX := ring.wrapBack s.spe.host.ringCTX } }
      monitor := .testing } : Threads world).settled = s.settled := by
    simp only [settled, nextBack, hmonitor]
    rw [wrapBack_eq]
    rfl
  have hmatched := h.matched
  rw [← hsettled] at hmatched
  exact ⟨⟨hmatched, hmatched.inv.host.position.back_eq, hwindow, h.granted, nofun⟩, hsettled⟩

/-- What a step leaves behind: the monitor completes what it has begun, and every other step
is a whole one. -/
theorem Synced.step {access : Access} (h : s.Synced size) (hsize : 0 < size)
    (hmatched : s.matched access = true) (hundisturbed : s.Undisturbed access)
    (hstep : s.step bodies access = some s') :
    s'.Synced size ∧ (s'.settled = s.settled ∨
      ∃ action, s.settled.matched action = true ∧ s.settled.step bodies action = some s'.settled) := by
  cases access with
  | ringHasFree =>
    obtain ⟨hsynced, hsame⟩ := h.tested hmatched hundisturbed hstep
    exact ⟨hsynced, .inl hsame⟩
  | fifoBegin command handle =>
    obtain ⟨hsynced, haction⟩ := h.fifoBegin hsize hmatched hstep
    exact ⟨hsynced, .inr ⟨.fifoBegin command handle, hmatched, haction⟩⟩
  | whole action =>
    have haction : s.settled.matched action = true := by
      cases action <;> exact hmatched
    obtain ⟨hsynced, hwhole⟩ := h.whole hsize haction hstep
    exact ⟨hsynced, .inr ⟨action, haction, hwhole⟩⟩
  | ackReady =>
    obtain ⟨hsynced, hsame⟩ := h.ackReady hstep
    exact ⟨hsynced, .inl hsame⟩
  | clearAck =>
    obtain ⟨hsynced, haction⟩ := h.clearAck hsize hstep
    exact ⟨hsynced, .inr ⟨.reclaim, rfl, haction⟩⟩
  | storeBack =>
    obtain ⟨hsynced, hsame⟩ := h.storeBack hstep
    exact ⟨hsynced, .inl hsame⟩
  | wrapBack =>
    obtain ⟨hsynced, hsame⟩ := h.wrapBack hstep
    exact ⟨hsynced, .inl hsame⟩

/-- A disturbed test lets the thread in although the completed ring has no free slot. -/
theorem Synced.not_free {access : Access} (h : s.Synced size) (hpos : 0 < size)
    (hdisturbed : ¬ s.Undisturbed access) (hstep : s.step bodies access = some s') :
    s'.granted = true ∧ ringHasFree s'.settled.host.ringCTX = false := by
  cases access with
  | ringHasFree =>
    simp only [Undisturbed, Classical.not_not] at hdisturbed
    obtain ⟨hend, hlast⟩ := hdisturbed
    simp only [Threads.step, Option.ite_none_right_eq_some, Option.some.injEq] at hstep
    obtain ⟨_, rfl⟩ := hstep
    have hsize : s.spe.host.ringCTX.size = size := h.matched.inv.host.position.size_eq
    have hwrapping : s.monitor = .wrapping := by
      have hback := h.back
      have hlt := fun n => Nat.mod_lt n hpos
      change s.spe.host.ringCTX.back = s.spe.host.ringCTX.size at hend
      cases hmonitor : s.monitor with
      | wrapping => rfl
      | testing | clearing =>
        simp only [BackAt, hmonitor] at hback
        exact absurd (hlt s.spe.log.reclaimed.length) (by omega)
      | storing =>
        simp only [BackAt, hmonitor] at hback
        obtain ⟨n, _, hback⟩ := hback
        exact absurd (hlt n) (by omega)
    have hback : s.nextBack = 0 := by
      simp only [nextBack, hwrapping, ring.wrapBack_of_eq hend]
    have hfront : next s.spe.host.ringCTX.size s.spe.host.ringCTX.front = 0 := if_pos (Nat.le_of_eq hlast.symm)
    constructor
    · have hfirst : s.spe.host.ringCTX.back ≠ 0 := by
        rw [ringGetBack] at hend
        omega
      exact (ringHasFree_iff s.spe.host.ringCTX).mpr (by rw [hfront]; exact hfirst.symm)
    · rw [Bool.eq_false_iff, Ne, ringHasFree_iff]
      exact fun hne => hne (hfront.trans hback.symm)
  | fifoBegin command handle | whole action | ackReady | clearAck | storeBack | wrapBack =>
    exact absurd trivial hdisturbed

/-- What a run of undisturbed tests keeps: the threads are in step, and whole steps reach what
they lead to. -/
structure Tracked (bodies : TaskBodies world) (memory : Memory world) (size : Nat) (s : Threads world) :
    Prop where
  synced : s.Synced size
  reached : ∃ actions, Reaches (restrict Spe.matched (Spe.step bodies)) (.init memory size) actions s.settled

theorem Tracked.init (bodies : TaskBodies world) (memory : Memory world) (hsize : 0 < size) :
    Tracked bodies memory size (.init memory size) where
  synced := .init memory hsize
  reached := ⟨[], reaches_nil.mpr rfl⟩

theorem Tracked.step {memory : Memory world} {access : Access} (h : Tracked bodies memory size s)
    (hsize : 0 < size) (hundisturbed : s.Undisturbed access)
    (hstep : restrict Threads.matched (Threads.step bodies) s access = some s') :
    Tracked bodies memory size s' := by
  obtain ⟨hmatched, hstep⟩ := restrict_eq_some.mp hstep
  obtain ⟨actions, hreached⟩ := h.reached
  obtain ⟨hafter, hsame | ⟨action, haction, hwhole⟩⟩ := h.synced.step hsize hmatched hundisturbed hstep
  · exact ⟨hafter, actions, hsame ▸ hreached⟩
  · exact ⟨hafter, actions ++ [action],
      reaches_snoc.mpr ⟨s.settled, hreached, restrict_eq_some.mpr ⟨haction, hwhole⟩⟩⟩

theorem Tracked.faithful {memory : Memory world} (h : Tracked bodies memory size s) :
    Faithful bodies memory size s where
  reached := h.reached
  free := h.synced.free
  empty := h.synced.empty

end Steps

/-- The two threads of the host share a ring without a lock, and get away with it exactly
as long as no test of a free slot meets the back past the end of the ring and the front in
its last slot. In a run without such a test the single stores add up to whole steps; the
first such test lets a task into a ring that has no free slot once the monitor's store is
made. -/
theorem faithful_iff {size : Nat} (hsize : 0 < size) (bodies : TaskBodies world) (memory : Memory world)
    (accesses : List Access) (s : Threads world)
    (hrun : Reaches (restrict matched (step bodies)) (.init memory size) accesses s) :
    (Always (restrict matched (step bodies)) (.init memory size) accesses (Faithful bodies memory size) ↔
        EachStep (restrict matched (step bodies)) (.init memory size) accesses Undisturbed) ∧
      ∀ done access before, done ++ [access] <+: accesses →
        Reaches (restrict matched (step bodies)) (.init memory size) done before →
        EachStep (restrict matched (step bodies)) (.init memory size) done Undisturbed →
        ¬ before.Undisturbed access →
          ∃ after, step bodies before access = some after ∧ after.granted = true ∧
            ringHasFree after.settled.host.ringCTX = false := by
  have hinit : Tracked bodies memory size (.init memory size) := .init bodies memory hsize
  have hkept : ∀ before access after, Tracked bodies memory size before → before.Undisturbed access →
      restrict matched (step bodies) before access = some after → Tracked bodies memory size after :=
    fun before access after hbefore hundisturbed hstep => hbefore.step hsize hundisturbed hstep
  refine ⟨hrun.always_iff_eachStep hinit hkept ?_ fun state hstate => hstate.faithful, ?_⟩
  · intro before access after hbefore hdisturbed hstep hfaithful
    obtain ⟨hgranted, hnone⟩ := hbefore.synced.not_free hsize hdisturbed (restrict_eq_some.mp hstep).2
    rw [hfaithful.free hgranted] at hnone
    cases hnone
  · intro done access before hdone hbefore heach hdisturbed
    have htracked := heach.always hinit hkept done before (List.prefix_refl _) hbefore
    obtain ⟨state, after, _, hstate, hstep, _⟩ := hrun.split hdone
    obtain rfl := hstate.unique hbefore
    have hafter := (restrict_eq_some.mp hstep).2
    exact ⟨after, hafter, htracked.synced.not_free hsize hdisturbed hafter⟩

/-- A task begun and kicked in one go. -/
def kickOne : List Access := [.ringHasFree, .fifoBegin messages.ADD 0, .whole .send_front, .whole .closeFront]

/-- Enough of the SPU to acknowledge it, and the monitor up to its last store. -/
def storeOne : List Access :=
  List.replicate 16 (.whole .runStage) ++ [.whole (.arrive 0), .ackReady, .clearAck, .storeBack]

/-- On a ring of two slots a third task is kicked while the monitor is about to bring the
back round. -/
def rounding : List Access := kickOne ++ storeOne ++ [.wrapBack] ++ kickOne ++ storeOne ++ kickOne

def rounded : List Access := rounding ++ kickOne ++ [.wrapBack]

/-- A fourth is let in. When the monitor is done the ring looks empty, and two tasks are in
it. -/
theorem faithful_iff_rounding : ∃ s : Threads Unit,
    Reaches (restrict matched (step Spe.idleBodies)) (.init Spe.zeroed 2) rounded s ∧
      ringHasRemaining s.spe.host.ringCTX = false ∧ s.spe.log.kicked = 4 ∧ s.spe.log.reclaimed.length = 2 ∧
      ¬ Always (restrict matched (step Spe.idleBodies)) (.init Spe.zeroed 2) rounded
        (Faithful Spe.idleBodies Spe.zeroed 2) := by
  have hstop : (rounded.foldlM (restrict matched (step Spe.idleBodies)) (.init Spe.zeroed 2)).map
      (fun s => (ringHasRemaining s.spe.host.ringCTX, s.spe.log.kicked, s.spe.log.reclaimed.length)) =
      some (false, 4, 2) := by decide +kernel
  have htest : (rounding.foldlM (restrict matched (step Spe.idleBodies)) (.init Spe.zeroed 2)).map
      (fun s => s.spe.host.ringCTX) = some { front := 1, back := 2, size := 2 } := by decide +kernel
  obtain ⟨s, hrun, hends⟩ := exists_reaches_of_observe hstop
  obtain ⟨state, hreaches, hring⟩ := exists_reaches_of_observe htest
  simp only [Prod.mk.injEq] at hends
  refine ⟨s, hrun, hends.1, hends.2.1, hends.2.2, fun halways => ?_⟩
  have heach := (faithful_iff (by decide) Spe.idleBodies Spe.zeroed _ s hrun).1.mp halways
  have hprefix : rounding ++ [.ringHasFree] <+: rounded := by decide +kernel
  exact heach rounding .ringHasFree state hprefix hreaches (by rw [hring]; decide)

end Threads

end speutils.fifo
