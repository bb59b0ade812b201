import SpeUtils.Fifo.Acks
import SpeUtils.Spu.Drain
import Mathlib.Data.List.Perm.Basic

open cyclic speutils.ring speutils.taskmanager

namespace speutils.fifo

/-- The SPU's part of the queue: it has fetched `fetched` and acknowledged `acked`
of the `kicked` tasks, and last read the count when `seen` of them were there. -/
structure Progress (size kicked : Nat) (c : Control) (fetched acked : Nat) : Prop where
  position : c.At size fetched acked
  seen : ∃ seen, fetched ≤ seen ∧ seen ≤ kicked ∧ c.tstate.front = behind size seen

namespace Progress

variable {size kicked fetched acked : Nat} {c : Control} {atomic : atomic_s} {x : Fin 4}

theorem le (h : Progress size kicked c fetched acked) : acked ≤ fetched ∧ fetched ≤ kicked := by
  obtain ⟨seen, hfetched, hseen, _⟩ := h.seen
  exact ⟨h.position.le, by omega⟩

theorem mono {more : Nat} (h : Progress size kicked c fetched acked) (hle : kicked ≤ more) :
    Progress size more c fetched acked := by
  obtain ⟨seen, hfetched, hseen, hfront⟩ := h.seen
  exact ⟨h.position, seen, hfetched, by omega, hfront⟩

/-- Whatever a stage does, it leaves `front` at a count published in time. -/
theorem step_seen (h : Progress size kicked c fetched acked) (hpublishes : Publishes size kicked atomic) :
    ∃ seen, fetched ≤ seen ∧ seen ≤ kicked ∧ (c.step atomic).tstate.front = behind size seen ∧
      (c.stage = .stage1 → seen = kicked) := by
  obtain ⟨seen, hfetched, hseen, hfront⟩ := h.seen
  by_cases hstage : c.stage = .stage1
  · refine ⟨kicked, by omega, Nat.le_refl _, ?_, fun _ => rfl⟩
    rw [Control.step_front, if_pos hstage]
    exact Control.front_of_publishes hpublishes hseen hfront
  · refine ⟨seen, hfetched, hseen, ?_, fun h => absurd h hstage⟩
    rw [Control.step_front, if_neg hstage, hfront]

/-- `stage1` acts exactly while a kicked task is unfetched. -/
theorem acting_iff (h : Progress size kicked c fetched acked) (hpublishes : Publishes size kicked atomic)
    (hlap : kicked < fetched + size) (hstage : c.stage = .stage1) :
    c.acting atomic = some (contextOf c.cycle 0) ∧ fetched < kicked ∨
      c.acting atomic = none ∧ fetched = kicked := by
  obtain ⟨seen, hfetched, hseen, hfront⟩ := h.seen
  have hread := Control.front_of_publishes hpublishes hseen hfront
  simp only [Control.acting, hstage]
  rw [hread, h.position.in_back]
  by_cases heq : fetched = kicked
  · exact .inr ⟨by simp [heq], heq⟩
  · have hne : behind size fetched ≠ behind size kicked :=
      fun hbehind => heq (eq_of_behind_eq (by omega) hlap hbehind)
    exact .inl ⟨by simp [hne], by omega⟩

theorem fetch (h : Progress size kicked c fetched acked) (hsize : 0 < size)
    (hpublishes : Publishes size kicked atomic) (hlap : kicked < fetched + size)
    (hstage : c.stage = .stage1) (hact : c.acting atomic = some x) :
    Progress size kicked (c.step atomic) (fetched + 1) acked := by
  obtain ⟨seen, _, hseen, hfront, heq⟩ := h.step_seen hpublishes
  obtain ⟨_, hlt⟩ | ⟨hnone, _⟩ := h.acting_iff hpublishes hlap hstage
  · have := heq hstage
    exact ⟨(h.position.fetch hsize hstage hact).1, seen, by omega, hseen, hfront⟩
  · rw [hact] at hnone
    cases hnone

theorem retire (h : Progress size kicked c fetched acked) (hsize : 0 < size)
    (hpublishes : Publishes size kicked atomic) (hstage : c.stage = .stage4)
    (hact : c.acting atomic = some x) :
    Progress size kicked (c.step atomic) fetched (acked + 1) := by
  obtain ⟨seen, hfetched, hseen, hfront, _⟩ := h.step_seen hpublishes
  exact ⟨(h.position.retire hsize hstage hact).1, seen, hfetched, hseen, hfront⟩

theorem other (h : Progress size kicked c fetched acked) (hpublishes : Publishes size kicked atomic)
    (hact : c.stage = .stage1 ∨ c.stage = .stage4 → c.acting atomic = none) :
    Progress size kicked (c.step atomic) fetched acked := by
  obtain ⟨seen, hfetched, hseen, hfront, _⟩ := h.step_seen hpublishes
  exact ⟨h.position.other hact, seen, hfetched, hseen, hfront⟩

end Progress

/-- The host's part of the queue. Slots are begun, published and reclaimed in
walking order; between a begin and its kick the ring's front is the slot just
begun, otherwise the next one; and one slot of the ring stays free. -/
structure HostSide (size : Nat) (ctx : ring_context_s) (isKicked : Bool) (atomic : atomic_s)
    (kicking : Bool) (log : Ledger) : Prop where
  begun : log.begun = walk size log.begun.length
  published : log.published = walk size log.kicked
  reclaimed : log.reclaimed = walk size log.reclaimed.length
  position : ring.At size (if isKicked then log.begun.length else log.begun.length - 1)
    log.reclaimed.length ctx
  begun_pos : isKicked = false → 0 < log.begun.length
  midKick : kicking = true → isKicked = false
  kicked_le : log.kicked ≤ log.begun.length
  open_iff : log.kicked < log.begun.length ↔ isKicked = false ∧ kicking = false
  window : log.begun.length < log.reclaimed.length + size
  reclaimed_le : log.reclaimed.length ≤ log.kicked
  line : Publishes size log.kicked atomic
  filled : ∀ slot, slot ∈ log.filled ↔
    ∃ i, log.reclaimed.length ≤ i ∧ i < log.begun.length ∧ i % size = slot
  unfilled : log.unfilled = []

namespace HostSide

variable {size : Nat} {ctx : ring_context_s} {isKicked kicking : Bool} {atomic : atomic_s} {log : Ledger}

theorem init (hsize : 0 < size) : HostSide size (.init size) true ⟨0, 0⟩ false {} where
  begun := rfl
  published := rfl
  reclaimed := rfl
  position := .init size
  begun_pos := by simp
  midKick := by simp
  kicked_le := Nat.le_refl 0
  open_iff := by simp
  window := by simpa using hsize
  reclaimed_le := Nat.le_refl 0
  line := rfl
  filled := by simp
  unfilled := rfl

/-- The ring as `fifoBegin` leaves it before it opens a slot: its front is the
position after the last task begun, whether or not that task has been kicked. -/
theorem openPosition (h : HostSide size ctx isKicked atomic false log) (hsize : 0 < size) :
    ring.At size log.begun.length log.reclaimed.length
      (if !isKicked then ringIncFront ctx else ctx) := by
  have hposition := h.position
  cases hkicked : isKicked with
  | true => simpa [hkicked] using hposition
  | false =>
    have hpos := h.begun_pos hkicked
    have hinc := hposition.incFront hsize
    rw [hkicked, if_neg (by decide), Nat.sub_add_cancel hpos] at hinc
    simpa using hinc

/-- Opening the slot at the position after the last task begun. -/
theorem begin {ctx' : ring_context_s} (h : HostSide size ctx isKicked atomic false log)
    (hat : ring.At size log.begun.length log.reclaimed.length ctx')
    (hroom : log.begun.length + 1 < log.reclaimed.length + size) :
    HostSide size ctx' false atomic false (log.begin (ringGetFront ctx')) := by
  have hslot : ringGetFront ctx' = log.begun.length % size := hat.front_eq
  have hlength : (log.begin (ringGetFront ctx')).begun.length = log.begun.length + 1 := by
    simp [Ledger.begin]
  have hle := h.kicked_le
  refine ⟨?_, h.published, h.reclaimed, ?_, ?_, by simp, ?_, ?_, ?_, h.reclaimed_le, h.line, ?_, h.unfilled⟩
  · rw [hlength, walk_succ, ← h.begun, ← hslot]
    rfl
  · rw [hlength]
    exact hat
  · intro _
    omega
  · rw [hlength]
    exact Nat.le_succ_of_le hle
  · rw [hlength]
    have : (log.begin (ringGetFront ctx')).kicked = log.kicked := rfl
    simp
    omega
  · rw [hlength]
    exact hroom
  · intro slot
    have hreclaimed := h.reclaimed_le
    have hcons : slot ∈ (log.begin (ringGetFront ctx')).filled ↔
        slot = ringGetFront ctx' ∨ slot ∈ log.filled := List.mem_cons
    rw [hcons, hlength, h.filled, hslot]
    constructor
    · rintro (rfl | ⟨i, hi, hlt, rfl⟩)
      · exact ⟨log.begun.length, hreclaimed.trans hle, Nat.lt_succ_self _, rfl⟩
      · exact ⟨i, hi, Nat.lt_succ_of_lt hlt, rfl⟩
    · rintro ⟨i, hi, hlt, rfl⟩
      by_cases hlast : i = log.begun.length
      · exact .inl (by rw [hlast])
      · exact .inr ⟨i, hi, by omega, rfl⟩

/-- A kick publishes every task begun since the last one. -/
theorem kick (h : HostSide size ctx false atomic false log) (hsize : 0 < size) (words : Task) :
    HostSide size ctx false ⟨ringGetFront ctx, 1⟩ true (log.kick size (ringGetFront ctx) words) := by
  have hpos := h.begun_pos rfl
  have hle := h.kicked_le
  have hlap : log.begun.length < log.kicked + size := by
    have := h.window
    have := h.reclaimed_le
    omega
  have hfront : ringGetFront ctx = behind size log.begun.length := by
    have hindex : ringGetFront ctx = (log.begun.length - 1) % size := h.position.front_eq
    rw [hindex, ← behind_succ hsize, Nat.sub_add_cancel hpos]
  have hnew : log.newlyPublished size (ringGetFront ctx) =
      after size (behind size log.kicked) (behind size log.begun.length) := by
    rw [Ledger.newlyPublished, h.published, walk_getLast hsize, hfront]
  refine ⟨h.begun, ?_, h.reclaimed, h.position, h.begun_pos, by simp, Nat.le_refl _, ?_, h.window,
    ?_, ?_, h.filled, ?_⟩
  · have hpublished : (log.kick size (ringGetFront ctx) words).published =
        log.published ++ log.newlyPublished size (ringGetFront ctx) := rfl
    rw [hpublished, hnew, h.published, walk_append_after hle hlap]
    rfl
  · simp [Ledger.kick]
  · exact h.reclaimed_le.trans hle
  · have hkicked : (log.kick size (ringGetFront ctx) words).kicked = log.begun.length := rfl
    rw [Publishes, hkicked, if_neg (by omega)]
    exact ⟨by simp, hfront⟩
  · -- What is published now was begun after the last kick and is not reclaimed yet.
    have hfilled : (log.newlyPublished size (ringGetFront ctx)).filter (· ∉ log.filled) = [] := by
      rw [List.filter_eq_nil_iff]
      intro slot hmem
      rw [hnew] at hmem
      obtain ⟨i, hi, hlt, rfl⟩ := mem_after_behind hle hlap hmem
      have hreclaimed := h.reclaimed_le
      simpa using (h.filled _).mpr ⟨i, by omega, hlt, rfl⟩
    have hunfilled : (log.kick size (ringGetFront ctx) words).unfilled =
        log.unfilled ++ (log.newlyPublished size (ringGetFront ctx)).filter (· ∉ log.filled) := rfl
    rw [hunfilled, hfilled, h.unfilled]
    rfl

theorem close (h : HostSide size ctx isKicked atomic true log) (hsize : 0 < size) :
    HostSide size (ringIncFront ctx) true atomic false log := by
  have hopen := h.midKick rfl
  have hpos := h.begun_pos hopen
  refine ⟨h.begun, h.published, h.reclaimed, ?_, by simp, by simp, h.kicked_le, ?_, h.window,
    h.reclaimed_le, h.line, h.filled, h.unfilled⟩
  · have hinc := h.position.incFront hsize
    rw [hopen, if_neg (by decide), Nat.sub_add_cancel hpos] at hinc
    exact hinc
  · rw [h.open_iff]
    simp

/-- The monitor takes the oldest kicked task off the ring. -/
theorem reclaim (h : HostSide size ctx isKicked atomic kicking log) (hsize : 0 < size)
    (hlt : log.reclaimed.length < log.kicked) :
    HostSide size (ringIncBack ctx) isKicked atomic kicking (log.reclaim (ringGetBack ctx)) := by
  have hslot : ringGetBack ctx = log.reclaimed.length % size := h.position.back_eq
  have hlength : (log.reclaim (ringGetBack ctx)).reclaimed.length = log.reclaimed.length + 1 := by
    simp [Ledger.reclaim]
  refine ⟨h.begun, h.published, ?_, ?_, h.begun_pos, h.midKick, h.kicked_le, h.open_iff, ?_, ?_,
    h.line, ?_, h.unfilled⟩
  · rw [hlength, walk_succ, ← h.reclaimed, ← hslot]
    rfl
  · rw [hlength]
    exact h.position.incBack hsize
  · rw [hlength]
    exact h.window.trans (by omega)
  · rw [hlength]
    exact hlt
  · intro slot
    have hwindow := h.window
    have hfilter : slot ∈ (log.reclaim (ringGetBack ctx)).filled ↔
        slot ∈ log.filled ∧ slot ≠ ringGetBack ctx := by simp [Ledger.reclaim]
    rw [hfilter, hlength, h.filled, hslot]
    constructor
    · rintro ⟨⟨i, hi, hbegun, rfl⟩, hne⟩
      have hlater : i ≠ log.reclaimed.length := by
        rintro rfl
        exact hne rfl
      exact ⟨i, by omega, hbegun, rfl⟩
    · rintro ⟨i, hi, hbegun, rfl⟩
      have hbegun' : i < log.begun.length := hbegun
      refine ⟨⟨i, by omega, hbegun, rfl⟩, ?_⟩
      intro heq
      have := eq_of_mod_eq (by omega) (by omega) heq.symm
      omega

/-- The ledger's entries about the SPU are no concern of the host. -/
theorem frame {log' : Ledger} (h : HostSide size ctx isKicked atomic kicking log)
    (hbegun : log'.begun = log.begun) (hkicked : log'.kicked = log.kicked)
    (hpublished : log'.published = log.published) (hfilled : log'.filled = log.filled)
    (hunfilled : log'.unfilled = log.unfilled) (hreclaimed : log'.reclaimed = log.reclaimed) :
    HostSide size ctx isKicked atomic kicking log' := by
  obtain ⟨begun, kicked, kicks, published, filled, unfilled, fetched, admitted, loaded, executed,
    acked, arrived, reclaimed⟩ := log'
  dsimp only at hbegun hkicked hpublished hfilled hunfilled hreclaimed
  subst hbegun hkicked hpublished hfilled hunfilled hreclaimed
  exact ⟨h.begun, h.published, h.reclaimed, h.position, h.begun_pos, h.midKick, h.kicked_le,
    h.open_iff, h.window, h.reclaimed_le, h.line, h.filled, h.unfilled⟩

end HostSide

namespace HostSpe

variable (host : HostSpe) (command handle : BitVec 32)

theorem fifoBegin_ringCTX : (host.fifoBegin command handle).ringCTX =
    if !host.isKicked then ringIncFront host.ringCTX else host.ringCTX := by
  unfold fifoBegin
  split <;> rfl

@[simp] theorem fifoBegin_isKicked : (host.fifoBegin command handle).isKicked = false := rfl

@[simp] theorem fifoBegin_atomic : (host.fifoBegin command handle).fifos.atomic = host.fifos.atomic := by
  unfold fifoBegin
  split <;> rfl

@[simp] theorem fifoBegin_ack_fifo :
    (host.fifoBegin command handle).fifos.ack_fifo = host.fifos.ack_fifo := by
  unfold fifoBegin
  split <;> rfl

theorem send_front_atomic : host.send_front.fifos.atomic = ⟨ringGetFront host.ringCTX, 1⟩ := by
  simp only [send_front]
  split
  · rfl
  · rename_i hstate
    simp only [ne_eq, Decidable.not_not] at hstate
    rw [hstate]

theorem fifoRegisterProgram_atomic (addr : BitVec 64) (size : BitVec 32) :
    (host.fifoRegisterProgram addr size).fifos.atomic = ⟨ringGetFront host.ringCTX, 1⟩ :=
  send_front_atomic _

end HostSpe

namespace Ledger

variable {world : Type} {m : Spu world × fifo_s} {x : Fin 4}

theorem stage_fetch (log : Ledger) (hstage : m.1.stage = .stage1) (hact : m.1.acting m.2 = some x) :
    log.stage m = { log with
      fetched := log.fetched ++ [m.1.tstate.in_back]
      admitted := log.admitted ++ [increment m.1.tstate.in_back m.1.max_entries] } := by
  simp [stage, hstage, hact]

theorem stage_load (log : Ledger) (hstage : m.1.stage = .stage2) (hact : m.1.acting m.2 = some x) :
    log.stage m = { log with
      loaded := log.loaded ++ [((m.1.pipe x).entry, ((dmaWaitTag (m.1.pipe x).id m).1.pipe x).task)]
      arrived := log.arrived ++ putSerials (m.1.queue.filter (·.tag = (m.1.pipe x).id)) } := by
  simp [stage, hstage, hact]

theorem stage_execute (log : Ledger) (hstage : m.1.stage = .stage3) (hact : m.1.acting m.2 = some x) :
    log.stage m = { log with
      executed := log.executed ++ [((m.1.pipe x).entry, (m.1.pipe x).task)] } := by
  simp [stage, hstage, hact]

theorem stage_ack (log : Ledger) (hstage : m.1.stage = .stage4) (hact : m.1.acting m.2 = some x) :
    log.stage m = { log with acked := log.acked ++ [(m.1.pipe x).entry] } := by
  simp [stage, hstage, hact]

theorem stage_idle (log : Ledger) (hact : m.1.acting m.2 = none) : log.stage m = log := by
  cases hstage : m.1.stage <;> simp [stage, hstage, hact]

end Ledger

/-- The stages of the SPU are no concern of the host's side. -/
theorem HostSide.stage {world : Type} {size : Nat} {ctx : ring_context_s} {isKicked kicking : Bool} {atomic : atomic_s}
    {log : Ledger} (h : HostSide size ctx isKicked atomic kicking log) (m : Spu world × fifo_s) :
    HostSide size ctx isKicked atomic kicking (log.stage m) := by
  unfold Ledger.stage
  split
  · exact h.frame rfl rfl rfl rfl rfl rfl
  · exact h.frame rfl rfl rfl rfl rfl rfl
  · exact h.frame rfl rfl rfl rfl rfl rfl
  · exact h.frame rfl rfl rfl rfl rfl rfl
  · exact h

theorem allocate_fifo_clear (task : Nat → BitVec 32) (ack : Nat → ack_s) {entries slot : Nat}
    (hslot : slot < entries) : ((allocate_fifo task ack entries).ack_fifo slot).task_id = ACK_CLEAR := by
  simp only [allocate_fifo]
  induction entries with
  | zero => omega
  | succ entries ih =>
    rw [List.range_succ, List.foldl_append]
    by_cases hlast : slot = entries
    · simp [hlast]
    · simpa [hlast] using ih (by omega)

theorem Acks.reclaimed_le {size : Nat} {queue : List Transfer} {ack_fifo : Nat → ack_s} {acked reclaimed : Nat}
    {arrived : List Nat} (h : Acks size queue ack_fifo acked arrived reclaimed) : reclaimed ≤ acked := by
  by_contra hlt
  have := h.arrived_lt _ (h.reclaimed_arrived acked (by omega))
  omega

namespace Spe

variable {world : Type}

/-- The host steps that leave one slot of the ring free. A task is begun behind an
un-kicked one only with two free slots, a kick finds an un-kicked task, and a
registration finds none and a free slot. -/
def safe (s : Spe world) : Action → Bool
  | .fifoBegin _ _ => s.host.isKicked || ringHasFree (ringIncFront s.host.ringCTX)
  | .send_front => s.log.kicked < s.log.begun.length
  | .fifoRegisterProgram _ _ => s.host.isKicked && ringHasFree s.host.ringCTX
  | .fifoAdd _ | .closeFront | .runStage | .arrive _ | .reclaim => true

/-- The invariant of one SPE: the parts of the three parties fit together at the
positions that the ledger counts. -/
structure Inv (size : Nat) (s : Spe world) : Prop where
  host : HostSide size s.host.ringCTX s.host.isKicked s.host.fifos.atomic s.kicking s.log
  spu : Progress size s.log.kicked s.spu.control s.log.fetched.length s.log.acked.length
  acks : Acks size s.spu.queue s.host.fifos.ack_fifo s.log.acked.length s.log.arrived
    s.log.reclaimed.length
  fetched : s.log.fetched = (List.range s.log.fetched.length).map (behind size)
  admitted : s.log.admitted = walk size s.log.fetched.length
  acked : s.log.acked = walk size s.log.acked.length
  puts : s.spu.puts = s.log.acked.length

namespace Inv

variable {size : Nat} {s : Spe world} (h : s.Inv size)

include h

/-- The five positions follow each other, the last less than a lap after the
first. -/
theorem chain : s.log.reclaimed.length ≤ s.log.acked.length ∧
    s.log.acked.length ≤ s.log.fetched.length ∧ s.log.fetched.length ≤ s.log.kicked ∧
    s.log.kicked ≤ s.log.begun.length ∧ s.log.begun.length < s.log.reclaimed.length + size :=
  ⟨h.acks.reclaimed_le, h.spu.le.1, h.spu.le.2, h.host.kicked_le, h.host.window⟩

/-- A stage that neither fetches nor retires leaves the positions where they are. -/
theorem stays {log : Ledger} {m : Spu world × fifo_s}
    (hhost : HostSide size s.host.ringCTX s.host.isKicked m.2.atomic s.kicking log)
    (hcontrol : m.1.control = s.spu.control.step s.host.fifos.atomic)
    (hother : s.spu.control.stage = .stage1 ∨ s.spu.control.stage = .stage4 →
      s.spu.control.acting s.host.fifos.atomic = none)
    (hacks : Acks size m.1.queue m.2.ack_fifo s.log.acked.length log.arrived log.reclaimed.length)
    (hputs : m.1.puts = s.spu.puts) (hkicked : log.kicked = s.log.kicked) (hfetched : log.fetched = s.log.fetched)
    (hadmitted : log.admitted = s.log.admitted) (hacked : log.acked = s.log.acked) :
    Inv size { s with spu := m.1, host := { s.host with fifos := m.2 }, log } := by
  have hprogress := h.spu.other h.host.line hother
  rw [← hcontrol, ← hkicked, ← hfetched, ← hacked] at hprogress
  refine ⟨hhost, hprogress, ?_, ?_, ?_, ?_, ?_⟩
  · rw [hacked]
    exact hacks
  · rw [hfetched]
    exact h.fetched
  · rw [hfetched, hadmitted]
    exact h.admitted
  · rw [hacked]
    exact h.acked
  · rw [hacked]
    exact hputs.trans h.puts

theorem runStage (hsize : 0 < size) (bodies : TaskBodies world) :
    let m := runStage bodies (s.spu, s.host.fifos)
    Inv size { s with
      spu := m.1, host := { s.host with fifos := m.2 }, log := s.log.stage (s.spu, s.host.fifos) } := by
  intro m
  obtain ⟨hreclaimed, hacked, hfetched, hkicked, hwindow⟩ := h.chain
  have hcontrol : m.1.control = s.spu.control.step s.host.fifos.atomic := runStage_control bodies _
  have hhost : HostSide size s.host.ringCTX s.host.isKicked m.2.atomic s.kicking
      (s.log.stage (s.spu, s.host.fifos)) := by
    have hatomic : m.2.atomic = s.host.fifos.atomic := runStage_atomic bodies _
    rw [hatomic]
    exact h.host.stage _
  have hqueue := runStage_queue bodies (s.spu, s.host.fifos)
  have hputs := runStage_puts bodies (s.spu, s.host.fifos)
  have hack := runStage_ack_fifo bodies (s.spu, s.host.fifos)
  have hline := h.host.line
  cases hact : s.spu.acting s.host.fifos with
  | none =>
    obtain ⟨hqueue, hputs, hack⟩ := runStage_idle bodies (m := (s.spu, s.host.fifos)) hact
    rw [Ledger.stage_idle s.log hact] at hhost ⊢
    refine h.stays hhost hcontrol (fun _ => hact) ?_ hputs rfl rfl rfl rfl
    rw [hqueue, hack]
    exact h.acks
  | some x =>
    have hctl : s.spu.control.acting s.host.fifos.atomic = some x := hact
    cases hstage : s.spu.stage with
    | stage1 =>
      rw [Ledger.stage_fetch s.log hstage hact] at hhost ⊢
      simp only [hstage, hact] at hqueue hputs hack
      have hin : s.spu.tstate.in_back = behind size s.log.fetched.length := h.spu.position.in_back
      have hmax : s.spu.max_entries = size := h.spu.position.max_entries
      refine ⟨hhost, ?_, ?_, ?_, ?_, h.acked, hputs.trans h.puts⟩
      · rw [hcontrol, List.length_append]
        exact h.spu.fetch hsize hline (by omega) hstage hctl
      · rw [hqueue, hack]
        exact h.acks.get rfl
      · simp only [List.length_append, List.length_singleton, List.range_succ, List.map_append]
        rw [← h.fetched, hin]
        rfl
      · simp only [List.length_append, List.length_singleton]
        rw [walk_succ, ← h.admitted, hin, hmax, increment_eq, next_behind hsize]
    | stage2 =>
      have hnot : ¬ (s.spu.control.stage = .stage1 ∨ s.spu.control.stage = .stage4) := by simp [hstage]
      rw [Ledger.stage_load s.log hstage hact] at hhost ⊢
      simp only [hstage, hact] at hqueue hputs hack
      refine h.stays hhost hcontrol (fun hor => absurd hor hnot) ?_ hputs rfl rfl rfl rfl
      rw [hqueue, hack]
      have hperm := (List.filter_append_perm (·.tag = (s.spu.pipe x).id) s.spu.queue).symm
      have hcomplete := h.acks.complete (m := (s.spu, s.host.fifos)) (by omega) hperm rfl
      simp only [decide_not]
      exact hcomplete
    | stage3 =>
      have hnot : ¬ (s.spu.control.stage = .stage1 ∨ s.spu.control.stage = .stage4) := by simp [hstage]
      rw [Ledger.stage_execute s.log hstage hact] at hhost ⊢
      simp only [hstage, hact] at hqueue hputs hack
      refine h.stays hhost hcontrol (fun hor => absurd hor hnot) ?_ hputs rfl rfl rfl rfl
      rw [hqueue, hack]
      exact h.acks
    | stage4 =>
      obtain ⟨_, _, hentry⟩ := h.spu.position.retire hsize hstage hctl
      have hslot : (s.spu.pipe x).entry = s.log.acked.length % size := hentry
      rw [Ledger.stage_ack s.log hstage hact] at hhost ⊢
      simp only [hstage, hact] at hqueue hputs hack
      refine ⟨hhost, ?_, ?_, h.fetched, h.admitted, ?_, ?_⟩
      · rw [hcontrol, List.length_append]
        exact h.spu.retire hsize hline hstage hctl
      · rw [hqueue, hack, List.length_append]
        exact h.acks.put rfl h.puts hslot
      · rw [List.length_append, List.length_singleton, walk_succ, ← h.acked, hslot]
      · rw [hputs, List.length_append, h.puts]
        rfl

theorem arrive {index : Nat} {m : Spu world × fifo_s}
    (harrive : taskmanager.arrive index (s.spu, s.host.fifos) = some m) :
    Inv size { s with
      spu := m.1, host := { s.host with fifos := m.2 }
      log := { s.log with
        arrived := s.log.arrived ++ Ledger.putSerials s.spu.queue[index]?.toList } } := by
  obtain ⟨hreclaimed, hacked, hfetched, hkicked, hwindow⟩ := h.chain
  have hkept := arrive_kept harrive
  have hqueue := arrive_queue harrive
  refine ⟨?_, ?_, ?_, h.fetched, h.admitted, h.acked, hkept.puts.trans h.puts⟩
  · rw [hkept.atomic]
    exact h.host.frame rfl rfl rfl rfl rfl rfl
  · rw [hkept.control]
    exact h.spu
  · cases ht : s.spu.queue[index]? with
    | none => simp [taskmanager.arrive, ht] at harrive
    | some t =>
      obtain ⟨hindex, hget⟩ := List.getElem?_eq_some_iff.mp ht
      have hperm : s.spu.queue.Perm ([t] ++ s.spu.queue.eraseIdx index) := by
        rw [← hget]
        exact (List.getElem_cons_eraseIdx_perm hindex).symm
      have hcomplete := h.acks.complete (m := (s.spu, s.host.fifos)) (by omega) hperm rfl
      simp only [taskmanager.arrive, ht, Option.some.injEq] at harrive
      rw [hqueue]
      subst m
      exact hcomplete

theorem reclaim (hsize : 0 < size) (hready : s.host.ackReady = true) :
    Inv size { s with
      host := s.host.reclaim, log := s.log.reclaim (ringGetBack s.host.ringCTX) } := by
  obtain ⟨hreclaimed, hacked, hfetched, hkicked, hwindow⟩ := h.chain
  have hback : ringGetBack s.host.ringCTX = s.log.reclaimed.length % size := h.host.position.back_eq
  have hset : (s.host.fifos.ack_fifo (s.log.reclaimed.length % size)).task_id ≠ ACK_CLEAR := by
    rw [← hback]
    simpa [HostSpe.ackReady] using hready
  obtain ⟨hlt, _, hacks⟩ := h.acks.reclaim hsize hset
    { s.host.fifos.ack_fifo (ringGetBack s.host.ringCTX) with task_id := ACK_CLEAR } rfl
  refine ⟨h.host.reclaim hsize (by omega), h.spu, ?_, h.fetched, h.admitted, h.acked, h.puts⟩
  have hlength : (s.log.reclaim (ringGetBack s.host.ringCTX)).reclaimed.length =
      s.log.reclaimed.length + 1 := by simp [Ledger.reclaim]
  rw [hlength]
  rw [← hback] at hacks
  exact hacks

theorem fifoBegin (hsize : 0 < size) (command handle : BitVec 32) (hidle : s.kicking = false)
    (hroom : s.log.begun.length + 1 < s.log.reclaimed.length + size) :
    let host := s.host.fifoBegin command handle
    Inv size { s with host, log := s.log.begin (ringGetFront host.ringCTX) } := by
  intro host
  have hhost := h.host
  rw [hidle] at hhost
  have hbegin := hhost.begin (hhost.openPosition hsize) hroom
  rw [← s.host.fifoBegin_ringCTX command handle] at hbegin
  refine ⟨?_, h.spu, ?_, h.fetched, h.admitted, h.acked, h.puts⟩
  · rw [HostSpe.fifoBegin_isKicked, HostSpe.fifoBegin_atomic, hidle]
    exact hbegin
  · rw [HostSpe.fifoBegin_ack_fifo]
    exact h.acks

theorem fifoAdd (arg : BitVec 32) : Inv size { s with host := s.host.fifoAdd arg } := by
  unfold HostSpe.fifoAdd
  split
  · exact ⟨h.host, h.spu, h.acks, h.fetched, h.admitted, h.acked, h.puts⟩
  · exact h

theorem send_front (hsize : 0 < size) (hopen : s.log.kicked < s.log.begun.length) (words : Task) :
    Inv size { s with
      host := s.host.send_front
      kicking := true
      log := s.log.kick s.host.ringCTX.size (ringGetFront s.host.ringCTX) words } := by
  obtain ⟨hkicked, hidle⟩ := h.host.open_iff.mp hopen
  have hhost := h.host
  rw [hkicked, hidle] at hhost
  rw [h.host.position.size_eq]
  refine ⟨?_, h.spu.mono h.host.kicked_le, h.acks, h.fetched, h.admitted, h.acked, h.puts⟩
  rw [HostSpe.send_front_atomic]
  simp only [HostSpe.send_front]
  rw [hkicked]
  exact hhost.kick hsize words

theorem closeFront (hsize : 0 < size) (hkicking : s.kicking = true) :
    Inv size { s with host := s.host.closeFront, kicking := false } := by
  have hhost := h.host
  rw [hkicking] at hhost
  exact ⟨hhost.close hsize, h.spu, h.acks, h.fetched, h.admitted, h.acked, h.puts⟩

/-- A registration on a ring with a free slot and no open task is a begin and a
kick. -/
theorem fifoRegisterProgram (hsize : 0 < size) (addr : BitVec 64) (bytes : BitVec 32) (words : Task)
    (hidle : s.kicking = false) (hkicked : s.host.isKicked = true)
    (hroom : s.log.begun.length + 1 < s.log.reclaimed.length + size) :
    let front := ringGetFront s.host.ringCTX
    Inv size { s with
      host := s.host.fifoRegisterProgram addr bytes
      log := (s.log.begin front).kick s.host.ringCTX.size front words } := by
  intro front
  have hhost := h.host
  rw [hidle, hkicked] at hhost
  have hbegin := hhost.begin (hhost.openPosition hsize) hroom
  have hkick := (hbegin.kick hsize words).close hsize
  rw [h.host.position.size_eq]
  refine ⟨?_, h.spu.mono ?_, h.acks, h.fetched, h.admitted, h.acked, h.puts⟩
  · rw [HostSpe.fifoRegisterProgram_atomic, hidle]
    exact hkick
  · exact h.host.kicked_le.trans (by simp [Ledger.kick, Ledger.begin])

omit h in
theorem init (memory : Memory world) (hsize : 0 < size) : Inv size (.init memory size) where
  host := HostSide.init hsize
  spu := ⟨Spu.init_at _ _ _ hsize, 0, Nat.le_refl 0, Nat.le_refl 0, (behind_zero hsize).symm⟩
  acks := Acks.init (fun _ hslot => allocate_fifo_clear _ _ hslot)
  fetched := rfl
  admitted := rfl
  acked := rfl
  puts := rfl

/-- The test of a free slot, made where a slot is about to be opened. -/
theorem hasFree_iff (hsize : 0 < size) (hidle : s.kicking = false) :
    ringHasFree (if !s.host.isKicked then ringIncFront s.host.ringCTX else s.host.ringCTX) = true ↔
      s.log.begun.length + 1 < s.log.reclaimed.length + size := by
  have hhost := h.host
  rw [hidle] at hhost
  have := h.chain
  exact (hhost.openPosition hsize).hasFree_iff (by omega) (by omega)

/-- Every safe step of every party keeps the invariant. -/
theorem step (hsize : 0 < size) {bodies : TaskBodies world} {action : Action} {s' : Spe world}
    (hsafe : s.safe action = true) (hstep : s.step bodies action = some s') : Inv size s' := by
  cases action with
  | fifoBegin command handle =>
    obtain ⟨⟨hidle, hfree⟩, rfl⟩ := step_fifoBegin.mp hstep
    apply h.fifoBegin hsize command handle hidle
    rw [← h.hasFree_iff hsize hidle]
    simp only [safe, Bool.or_eq_true] at hsafe
    cases hkicked : s.host.isKicked with
    | true => exact hfree
    | false => simpa [hkicked] using hsafe
  | fifoAdd arg =>
    obtain ⟨_, rfl⟩ := step_fifoAdd.mp hstep
    exact h.fifoAdd arg
  | send_front =>
    obtain ⟨_, rfl⟩ := step_send_front.mp hstep
    apply h.send_front hsize
    simpa [safe] using hsafe
  | closeFront =>
    obtain ⟨hkicking, rfl⟩ := step_closeFront.mp hstep
    exact h.closeFront hsize hkicking
  | fifoRegisterProgram addr bytes =>
    obtain ⟨hidle, rfl⟩ := step_fifoRegisterProgram.mp hstep
    simp only [safe, Bool.and_eq_true] at hsafe
    apply h.fifoRegisterProgram hsize addr bytes _ hidle hsafe.1
    rw [← h.hasFree_iff hsize hidle, hsafe.1]
    exact hsafe.2
  | runStage =>
    obtain rfl := step_runStage.mp hstep
    exact h.runStage hsize bodies
  | arrive index =>
    obtain ⟨m, harrive, rfl⟩ := step_arrive.mp hstep
    exact h.arrive harrive
  | reclaim =>
    obtain ⟨hready, rfl⟩ := step_reclaim.mp hstep
    exact h.reclaim hsize hready

end Inv

end Spe

end speutils.fifo
