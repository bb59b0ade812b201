import SpeUtils.Fifo.Invariant

open cyclic speutils.ring speutils.taskmanager

namespace speutils.fifo

/-- At most one task is open, and every kick has covered exactly one. -/
structure OneOpen (size : Nat) (log : Ledger) : Prop where
  kicks : log.kicks.map Prod.fst = walk size log.kicked
  begun_le : log.begun.length ≤ log.kicked + 1

theorem OneOpen.length_kicks {size : Nat} {log : Ledger} (h : OneOpen size log) :
    log.kicks.length = log.kicked := by
  have hlength := congrArg List.length h.kicks
  simpa using hlength

theorem Ledger.stage_kicks {world : Type} (log : Ledger) (m : Spu world × fifo_s) :
    (log.stage m).begun = log.begun ∧ (log.stage m).kicked = log.kicked ∧
      (log.stage m).kicks = log.kicks := by
  unfold Ledger.stage
  split <;> exact ⟨rfl, rfl, rfl⟩

theorem Ledger.stage_reclaimed {world : Type} (log : Ledger) (m : Spu world × fifo_s) :
    (log.stage m).reclaimed = log.reclaimed := by
  unfold Ledger.stage
  split <;> rfl

namespace Spe

variable {world : Type} {size : Nat} {s s' : Spe world} {bodies : TaskBodies world} {action : Action}

/-- A task that is begun and kicked before the next never needs a second free
slot. -/
theorem Inv.safe_of_matched (h : s.Inv size) (hmatched : s.matched action = true)
    (hstep : s.step bodies action = some s') : s.safe action = true := by
  cases action with
  | fifoBegin command handle =>
    obtain ⟨⟨hidle, _⟩, _⟩ := step_fifoBegin.mp hstep
    have hclosed : ¬ s.log.kicked < s.log.begun.length := by
      simp only [matched, decide_eq_true_eq] at hmatched
      omega
    rw [h.host.open_iff] at hclosed
    cases hkicked : s.host.isKicked with
    | true => simp [safe, hkicked]
    | false => exact absurd ⟨hkicked, hidle⟩ hclosed
  | send_front => exact hmatched
  | fifoRegisterProgram addr bytes => cases hmatched
  | fifoAdd arg | closeFront | runStage | arrive index | reclaim => rfl

theorem Inv.oneOpen (h : s.Inv size) (hone : OneOpen size s.log)
    (hmatched : s.matched action = true) (hstep : s.step bodies action = some s') :
    OneOpen size s'.log := by
  rw [(step_record hstep).1]
  cases action with
  | fifoBegin command handle =>
    simp only [matched, decide_eq_true_eq] at hmatched
    exact ⟨hone.kicks, by simp [recorded, Ledger.begin, hmatched]⟩
  | send_front =>
    simp only [matched, decide_eq_true_eq] at hmatched
    have hlast : s.log.begun.length = s.log.kicked + 1 := by
      have := hone.begun_le
      omega
    have hfront : ringGetFront s.host.ringCTX = s.log.kicked % size := by
      have hindex := h.host.position.front_eq
      rw [(h.host.open_iff.mp hmatched).1, hlast] at hindex
      exact hindex
    refine ⟨?_, Nat.le_succ _⟩
    simp only [recorded, Ledger.kick, List.map_append, List.map_cons, List.map_nil]
    rw [hone.kicks, hfront, hlast, walk_succ]
  | fifoRegisterProgram addr bytes => cases hmatched
  | runStage =>
    obtain ⟨hbegun, hkicked, hkicks⟩ := s.log.stage_kicks (s.spu, s.host.fifos)
    simp only [recorded]
    exact ⟨by rw [hkicks, hkicked, hone.kicks], by rw [hbegun, hkicked]; exact hone.begun_le⟩
  | arrive index | reclaim => exact ⟨hone.kicks, hone.begun_le⟩
  | fifoAdd arg | closeFront => exact hone

/-- The invariant of an SPE on which each task is kicked before the next begins. -/
structure Matched (size : Nat) (s : Spe world) : Prop where
  inv : s.Inv size
  oneOpen : OneOpen size s.log

theorem Matched.init (memory : Memory world) (hsize : 0 < size) : Matched size (.init memory size) :=
  ⟨.init memory hsize, ⟨rfl, by simp [Spe.init]⟩⟩

theorem Matched.step (h : s.Matched size) (hsize : 0 < size) (hmatched : s.matched action = true)
    (hstep : s.step bodies action = some s') : s'.Matched size :=
  ⟨h.inv.step hsize (h.inv.safe_of_matched hmatched hstep) hstep,
    h.inv.oneOpen h.oneOpen hmatched hstep⟩

/-- Outside a kick the ring's front is the position after the last task kicked,
whether or not a task is open there. -/
theorem Matched.frontPosition (h : s.Matched size) (hidle : s.kicking = false) :
    ring.At size s.log.kicked s.log.reclaimed.length s.host.ringCTX := by
  have hposition := h.inv.host.position
  have hopen := h.inv.host.open_iff
  have hle := h.inv.host.kicked_le
  have hone := h.oneOpen.begun_le
  cases hkicked : s.host.isKicked with
  | true =>
    have hall : s.log.begun.length = s.log.kicked := by
      simp only [hkicked, Bool.true_eq_false, false_and, iff_false] at hopen
      omega
    rw [hkicked, if_pos rfl, hall] at hposition
    exact hposition
  | false =>
    have hlast : s.log.begun.length - 1 = s.log.kicked := by
      have := hopen.mpr ⟨hkicked, hidle⟩
      omega
    rw [hkicked, if_neg (by decide), hlast] at hposition
    exact hposition

end Spe

end speutils.fifo
