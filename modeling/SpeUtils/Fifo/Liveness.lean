import SpeUtils.Fifo.Audit
import SpeUtils.Fifo.Delivery
import SpeUtils.Lib.Fair
import SpeUtils.Lib.Patrol
import Mathlib.Order.Filter.Finite

open Filter cyclic run speutils.ring speutils.taskmanager

namespace speutils.fifo

namespace Spe

variable {world : Type} {size : Nat} {s s' : Spe world} {bodies : TaskBodies world} {action : Action}
  {results seen : List ack_s}

/-- The stages that the SPU has to run until everything kicked is acknowledged. -/
def work (s : Spe world) : Nat := s.spu.control.work (s.log.kicked - s.log.fetched.length)

/-- The kicked tasks that are yet to be reclaimed. -/
def unreclaimed (s : Spe world) : Nat := s.log.kicked - s.log.reclaimed.length

/-- Apart from a kick nothing is published. -/
theorem step_kicked (hmatched : s.matched action = true) (hkick : action ≠ .send_front)
    (hstep : s.step bodies action = some s') : s'.log.kicked = s.log.kicked := by
  rw [(step_record hstep).1]
  cases action with
  | send_front => exact absurd rfl hkick
  | fifoRegisterProgram addr bytes => cases hmatched
  | runStage => exact (s.log.stage_kicks _).2.1
  | fifoBegin command handle | fifoAdd arg | closeFront | arrive index | reclaim => rfl

/-- Apart from its own stages nothing moves the SPU. -/
theorem step_control_eq (hstage : action ≠ .runStage) (hstep : s.step bodies action = some s') :
    s'.spu.control = s.spu.control := by
  cases action with
  | runStage => exact absurd rfl hstage
  | fifoBegin command handle =>
    obtain ⟨_, rfl⟩ := step_fifoBegin.mp hstep
    rfl
  | fifoAdd arg =>
    obtain ⟨_, rfl⟩ := step_fifoAdd.mp hstep
    rfl
  | send_front =>
    obtain ⟨_, rfl⟩ := step_send_front.mp hstep
    rfl
  | closeFront =>
    obtain ⟨_, rfl⟩ := step_closeFront.mp hstep
    rfl
  | fifoRegisterProgram addr bytes =>
    obtain ⟨_, rfl⟩ := step_fifoRegisterProgram.mp hstep
    rfl
  | arrive index =>
    obtain ⟨m, harrive, rfl⟩ := step_arrive.mp hstep
    exact (arrive_kept harrive).control
  | reclaim =>
    obtain ⟨_, rfl⟩ := step_reclaim.mp hstep
    rfl

theorem work_eq (hmatched : s.matched action = true) (hkick : action ≠ .send_front) (hstage : action ≠ .runStage)
    (hstep : s.step bodies action = some s') : s'.work = s.work := by
  rw [work, work, step_control_eq hstage hstep, step_kicked hmatched hkick hstep, (step_stages hstage hstep).1]

/-- As long as a kicked task is unacknowledged every stage brings the work down. -/
theorem Inv.work_lt (h : s.Inv size) (hleft : s.log.acked.length < s.log.kicked)
    (hstep : s.step bodies .runStage = some s') : s'.work < s.work := by
  have hchain := h.chain
  have hsum := h.spu.position.sum
  obtain rfl := step_runStage.mp hstep
  rw [work, work, runStage_control]
  simp only [(s.log.stage_kicks (s.spu, s.host.fifos)).2.1]
  refine Control.work_step_lt h.spu.position.taken_zero ?_ ?_ ?_ (by omega)
  · intro hstage hact
    obtain ⟨hsome, hlt⟩ | ⟨hnone, _⟩ := h.spu.acting_iff h.host.line (by omega) hstage
    · rw [s.log.stage_fetch (m := (s.spu, s.host.fifos)) hstage hsome, List.length_append, List.length_singleton]
      omega
    · exact absurd hnone hact
  · intro hstage hact
    obtain ⟨hsome, _⟩ | ⟨hnone, heq⟩ := h.spu.acting_iff h.host.line (by omega) hstage
    · rw [hact] at hsome
      cases hsome
    · rw [s.log.stage_idle (m := (s.spu, s.host.fifos)) hnone]
      omega
  · intro hstage
    cases hact : s.spu.acting s.host.fifos with
    | none => rw [s.log.stage_idle (m := (s.spu, s.host.fifos)) hact]
    | some x =>
      cases hnow : s.spu.stage with
      | stage1 => exact absurd hnow hstage
      | stage2 => rw [s.log.stage_load (m := (s.spu, s.host.fifos)) hnow hact]
      | stage3 => rw [s.log.stage_execute (m := (s.spu, s.host.fifos)) hnow hact]
      | stage4 => rw [s.log.stage_ack (m := (s.spu, s.host.fifos)) hnow hact]

/-- With everything acknowledged the stages find nothing to do. -/
theorem Inv.idle (h : s.Inv size) (hall : s.log.acked.length = s.log.kicked) :
    s.spu.acting s.host.fifos = none := by
  have hchain := h.chain
  by_cases hstage : s.spu.stage = .stage1
  · obtain ⟨_, hlt⟩ | ⟨hnone, _⟩ := h.spu.acting_iff h.host.line (by omega) hstage
    · omega
    · exact hnone
  · cases hact : s.spu.acting s.host.fifos with
    | none => rfl
    | some x =>
      have hactive := Control.acting_active (c := s.spu.control) hstage hact
      rw [h.spu.position.empty (by omega) x] at hactive
      cases hactive

/-- Once everything is acknowledged it stays so until the next kick, and no transfer is
started. -/
theorem Inv.settled (h : s.Inv size) (hall : s.log.acked.length = s.log.kicked)
    (hmatched : s.matched action = true) (hkick : action ≠ .send_front) (hstep : s.step bodies action = some s') :
    s'.log.acked.length = s'.log.kicked ∧ s'.spu.queue.Sublist s.spu.queue := by
  rw [step_kicked hmatched hkick hstep]
  by_cases hstage : action = .runStage
  · subst hstage
    obtain rfl := step_runStage.mp hstep
    have hidle := h.idle hall
    simp only [s.log.stage_idle (m := (s.spu, s.host.fifos)) hidle,
      (runStage_idle bodies (m := (s.spu, s.host.fifos)) hidle).1]
    exact ⟨hall, .refl _⟩
  · refine ⟨by rw [(step_stages hstage hstep).2.2.2]; exact hall, ?_⟩
    cases action with
    | runStage => exact absurd rfl hstage
    | send_front => exact absurd rfl hkick
    | fifoRegisterProgram addr bytes => cases hmatched
    | fifoBegin command handle =>
      obtain ⟨_, rfl⟩ := step_fifoBegin.mp hstep
      exact .refl _
    | fifoAdd arg =>
      obtain ⟨_, rfl⟩ := step_fifoAdd.mp hstep
      exact .refl _
    | closeFront =>
      obtain ⟨_, rfl⟩ := step_closeFront.mp hstep
      exact .refl _
    | arrive index =>
      obtain ⟨m, harrive, rfl⟩ := step_arrive.mp hstep
      simp only [arrive_queue harrive]
      exact List.eraseIdx_sublist _ _
    | reclaim =>
      obtain ⟨_, rfl⟩ := step_reclaim.mp hstep
      exact .refl _

/-- Only a reclaim brings the unreclaimed tasks down, and it does so by one. -/
theorem Inv.unreclaimed_step (h : s.Inv size) (hsize : 0 < size) (hmatched : s.matched action = true)
    (hkick : action ≠ .send_front) (hstep : s.step bodies action = some s') :
    (action ≠ .reclaim ∧ s'.unreclaimed = s.unreclaimed) ∨
      (action = .reclaim ∧ s'.unreclaimed + 1 = s.unreclaimed) := by
  have hkicked := step_kicked hmatched hkick hstep
  by_cases haction : action = .reclaim
  · subst haction
    refine .inr ⟨rfl, ?_⟩
    have hafter := (h.step hsize rfl hstep).chain
    have hreclaimed : s'.log.reclaimed.length = s.log.reclaimed.length + 1 := by
      rw [(step_record hstep).1]
      simp [recorded, Ledger.reclaim]
    simp only [unreclaimed, hkicked, hreclaimed] at hafter ⊢
    omega
  · refine .inl ⟨haction, ?_⟩
    rw [unreclaimed, unreclaimed, hkicked, (step_reclaimed hstep haction).1]

/-- With everything acknowledged and every transfer complete, the monitor recognises the
next acknowledgement unless its first word happens to be `ACK_CLEAR`. -/
theorem Carries.ackReady (h : s.Carries size results) (hinv : s.Inv size)
    (hall : s.log.acked.length = s.log.kicked) (hqueue : s.spu.queue = [])
    (hresults : ∀ result ∈ results, result.task_id ≠ ACK_CLEAR)
    (hleft : s.log.reclaimed.length < s.log.kicked) : s.host.ackReady = true := by
  have harrived : s.log.reclaimed.length ∈ s.log.arrived := by
    obtain harrived | ⟨t, ht, _⟩ := h.returns.sent s.log.reclaimed.length (by omega)
    · exact harrived
    · rw [hqueue] at ht
      cases ht
  have hvisible := h.returns.visible _ (Nat.le_refl _) harrived
  have hback : ringGetBack s.host.ringCTX = s.log.reclaimed.length % size := hinv.host.position.back_eq
  have hset := hresults _ (List.mem_of_getElem? hvisible)
  rw [← hback] at hset
  simpa [HostSpe.ackReady] using hset

/-- Only kicked tasks have been executed. -/
theorem Carries.length_le (h : s.Carries size results) (hinv : s.Inv size) : results.length ≤ s.log.kicked := by
  have hlength := h.pending.length
  have hsum := hinv.spu.position.sum
  have hchain := hinv.chain
  simp only [Control.finished, Control.older] at hlength hsum
  split at hlength <;> omega

/-- Outside a kick the ring's test tells whether a task is unreclaimed. -/
theorem Matched.hasRemaining_iff_unreclaimed (h : s.Matched size) (hidle : s.kicking = false) :
    ringHasRemaining s.host.ringCTX = true ↔ s.unreclaimed ≠ 0 := by
  have hchain := h.inv.chain
  rw [(h.frontPosition hidle).hasRemaining_iff (by omega) (by omega), unreclaimed]
  omega

end Spe

namespace System

variable {world : Type} {spes : Nat} {bodies : TaskBodies world} {s s' : System world spes} {event : Event spes}

/-- Outside the columns a step does what `control` says. -/
theorem step_outside (hstep : s.step bodies event = some s') :
    ∃ t, s.control event = some t ∧ s'.thread = t.thread ∧ s'.current_spe = t.current_spe ∧
      s'.monitor = t.monitor ∧ s'.isEmpty = t.isEmpty := by
  unfold step at hstep
  cases hcontrol : s.control event with
  | none => simp [hcontrol] at hstep
  | some t =>
    simp only [hcontrol] at hstep
    split at hstep
    · obtain rfl := Option.some.inj hstep
      exact ⟨t, rfl, rfl, rfl, rfl, rfl⟩
    · cases hstep

/-- A step is possible when the thread can take it and every column that it changes. -/
theorem exists_step {t : System world spes} (hcontrol : s.control event = some t)
    (hcolumns : ∀ e action, s.column event e = some action → ∃ after, (s.spe e).step bodies action = some after) :
    ∃ s', s.step bodies event = some s' := by
  have hall : ∀ e, (s.columnStep bodies event e).isSome := by
    intro e
    unfold columnStep
    cases haction : s.column event e with
    | none => rfl
    | some action =>
      obtain ⟨after, hafter⟩ := hcolumns e action haction
      simp [hafter]
  simp only [step, hcontrol, dif_pos hall]
  exact ⟨_, rfl⟩

/-- The monitor's place in its round is its own. -/
theorem step_monitor (hevent : event ≠ .fifothread) (hstep : s.step bodies event = some s') :
    s'.monitor = s.monitor := by
  obtain ⟨t, hcontrol, _, _, hmonitor, _⟩ := step_outside hstep
  rw [hmonitor]
  cases event with
  | fifothread => exact absurd rfl hevent
  | fifoBegin command handle | fifoAdd spe arg | fifoKick spe | fifoRegisterProgram addr bytes | fifoIsEmpty =>
    simp only [control, Option.ite_none_right_eq_some, Option.some.injEq] at hcontrol
    rw [← hcontrol.2]
  | runStage spe | arrive spe index => rw [← Option.some.inj hcontrol]
  | selectfifo | kicked | register | scan =>
    simp only [control] at hcontrol
    grind

/-- One test of the monitor: it reclaims a slot where it stands, or finds none to reclaim
and moves on. -/
theorem step_fifothread (hmonitor : s.monitor < spes) (hstep : s.step bodies .fifothread = some s') :
    (((s.spe ⟨s.monitor, hmonitor⟩).host.ackReady = true ∧ s'.monitor = s.monitor) ∨
      ((s.spe ⟨s.monitor, hmonitor⟩).host.ackReady = false ∧ s'.monitor = next spes s.monitor)) := by
  obtain ⟨t, hcontrol, _, _, hsame, _⟩ := step_outside hstep
  simp only [control, dif_pos hmonitor] at hcontrol
  rw [hsame]
  cases hready : (s.spe ⟨s.monitor, hmonitor⟩).host.ackReady with
  | true =>
    simp only [hready, if_true, Option.some.injEq] at hcontrol
    exact .inl ⟨rfl, by rw [← hcontrol]⟩
  | false =>
    simp only [hready, Bool.false_eq_true, if_false, Option.some.injEq] at hcontrol
    exact .inr ⟨rfl, by rw [← hcontrol]⟩

/-- Only the monitor reclaims, and only where it stands. -/
theorem column_reclaim {e : Fin spes} :
    s.column event e = some .reclaim ↔ event = .fifothread ∧ e = s.monitor ∧ (s.spe e).host.ackReady = true := by
  cases event with
  | fifothread => simp [column]
  | selectfifo | register =>
    simp only [column]
    split <;> simp
  | _ => simp [column]

/-- The unreclaimed tasks of each SPE, by its number. -/
def unreclaimed (s : System world spes) (i : Nat) : Nat := if h : i < spes then (s.spe ⟨i, h⟩).unreclaimed else 0

end System

namespace Audit

variable {world : Type} {spes size : Nat} {bodies : TaskBodies world}

/-- On every SPE each task is begun and kicked before the next is begun. -/
def matched (a : Audit world spes) (event : Event spes) : Bool := a.system.keeps Spe.matched event

/-- The invariant of the runs considered here. -/
structure Sound (bodies : TaskBodies world) (size : Nat) (a : Audit world spes) : Prop where
  oneOpen : ∀ e, OneOpen size (a.system.spe e).log
  answering : ∀ e, (a.system.spe e).Answering bodies size (a.results e) (a.seen e)
  monitor : 0 < spes → a.system.monitor < spes

section Steps

variable {a a' : Audit world spes} {event : Event spes}

theorem Sound.matched (h : a.Sound bodies size) (e : Fin spes) : (a.system.spe e).Matched size :=
  ⟨(h.answering e).inv, h.oneOpen e⟩

theorem Sound.init (bodies : TaskBodies world) (memory : Fin spes → Memory world) (hsize : 0 < size) :
    Sound bodies size (.init memory size) where
  oneOpen := fun e => (Spe.Matched.init (memory e) hsize).oneOpen
  answering := fun e => .init bodies (memory e) hsize
  monitor := id

/-- A step on one SPE. -/
theorem step_spe (hstep : restrict Audit.matched (step bodies) a event = some a') (e : Fin spes) :
    (a.system.column event e = none ∧ a'.system.spe e = a.system.spe e ∧ a'.results e = a.results e ∧
      a'.seen e = a.seen e) ∨
    ∃ action, a.system.column event e = some action ∧ (a.system.spe e).matched action = true ∧
      (a.system.spe e).step bodies action = some (a'.system.spe e) ∧
      a'.results e = a.results e ++ (a.system.spe e).produced bodies action ∧
      a'.seen e = a.seen e ++ (a.system.spe e).recognised action := by
  obtain ⟨hkeeps, hstep⟩ := restrict_eq_some.mp hstep
  obtain ⟨hsystem, hrecords⟩ := step_system hstep
  obtain ⟨hresults, hseen⟩ := hrecords e
  obtain ⟨hnone, hsame⟩ | ⟨action, haction, hspe⟩ := System.step_spe hsystem e
  · rw [hnone] at hresults hseen
    exact .inl ⟨hnone, hsame, by simpa using hresults, by simpa using hseen⟩
  · rw [haction] at hresults hseen
    exact .inr ⟨action, haction, System.ok_of_keeps hkeeps haction, hspe, hresults, hseen⟩

theorem Sound.step (h : a.Sound bodies size) (hsize : 0 < size)
    (hstep : restrict Audit.matched (Audit.step bodies) a event = some a') : a'.Sound bodies size := by
  refine ⟨?_, ?_, ?_⟩
  · intro e
    obtain ⟨_, hsame, _⟩ | ⟨action, _, hmatched, hspe, _⟩ := step_spe hstep e
    · rw [hsame]
      exact h.oneOpen e
    · exact (h.matched e).inv.oneOpen (h.oneOpen e) hmatched hspe
  · intro e
    obtain ⟨_, hsame, hresults, hseen⟩ | ⟨action, _, hmatched, hspe, hresults, hseen⟩ := step_spe hstep e
    · rw [hsame, hresults, hseen]
      exact h.answering e
    · rw [hresults, hseen]
      exact (h.answering e).step hsize ((h.matched e).inv.safe_of_matched hmatched hspe) hspe
  · intro hspes
    have hmonitor := h.monitor hspes
    have hsystem := (step_system (restrict_eq_some.mp hstep).2).1
    by_cases hevent : event = .fifothread
    · subst hevent
      obtain ⟨_, hsame⟩ | ⟨_, hnext⟩ := System.step_fifothread hmonitor hsystem
      · omega
      · rw [hnext, next]
        split <;> omega
    · rw [System.step_monitor hevent hsystem]
      exact hmonitor

/-- A step that kicks nothing, or an idle one, seen from one SPE. -/
theorem quiet_spe {label : Option (Event spes)} (hquiet : ∀ spe, label ≠ some (.fifoKick spe))
    (hstep : stutter (restrict Audit.matched (step bodies)) a label = some a') (e : Fin spes) :
    (a'.system.spe e = a.system.spe e ∧ ∀ event, label = some event → a.system.column event e = none) ∨
    ∃ event action, label = some event ∧ a.system.column event e = some action ∧ action ≠ .send_front ∧
      (a.system.spe e).matched action = true ∧ (a.system.spe e).step bodies action = some (a'.system.spe e) := by
  obtain ⟨rfl, rfl⟩ | ⟨event, rfl, hstep⟩ := stutter_eq_some.mp hstep
  · exact .inl ⟨rfl, by simp⟩
  · obtain ⟨hnone, hsame, _⟩ | ⟨action, haction, hmatched, hspe, _⟩ := step_spe hstep e
    · exact .inl ⟨hsame, fun other heq => Option.some.inj heq ▸ hnone⟩
    · refine .inr ⟨event, action, rfl, haction, ?_, hmatched, hspe⟩
      rintro rfl
      exact hquiet e (congrArg some (System.event_of_send_front haction))

/-- The monitor reclaims a slot of this SPE. -/
def Reclaims (a : Audit world spes) (label : Option (Event spes)) (e : Fin spes) : Prop :=
  label = some .fifothread ∧ e = a.system.monitor ∧ (a.system.spe e).host.ackReady = true

namespace Sound

variable {label : Option (Event spes)}

theorem idle_or_step (h : a.Sound bodies size) (hsize : 0 < size)
    (hstep : stutter (restrict Audit.matched (Audit.step bodies)) a label = some a') : a'.Sound bodies size := by
  obtain ⟨_, rfl⟩ | ⟨event, _, hstep⟩ := stutter_eq_some.mp hstep
  · exact h
  · exact h.step hsize hstep

theorem unreclaimed_spe (h : a.Sound bodies size) (hsize : 0 < size)
    (hquiet : ∀ spe, label ≠ some (.fifoKick spe))
    (hstep : stutter (restrict Audit.matched (Audit.step bodies)) a label = some a') (e : Fin spes) :
    (¬ a.Reclaims label e ∧ (a'.system.spe e).unreclaimed = (a.system.spe e).unreclaimed) ∨
      (a.Reclaims label e ∧ (a'.system.spe e).unreclaimed + 1 = (a.system.spe e).unreclaimed) := by
  obtain ⟨hsame, hnone⟩ | ⟨event, action, rfl, haction, hkick, hmatched, hspe⟩ := quiet_spe hquiet hstep e
  · refine .inl ⟨?_, by rw [hsame]⟩
    rintro ⟨hlabel, hreclaims⟩
    have hcolumn := hnone _ hlabel
    rw [System.column_reclaim.mpr ⟨rfl, hreclaims⟩] at hcolumn
    cases hcolumn
  · obtain ⟨hother, hsame⟩ | ⟨rfl, hless⟩ := (h.matched e).inv.unreclaimed_step hsize hmatched hkick hspe
    · refine .inl ⟨?_, hsame⟩
      rintro ⟨hlabel, hreclaims⟩
      obtain rfl := Option.some.inj hlabel
      rw [System.column_reclaim.mpr ⟨rfl, hreclaims⟩] at haction
      exact hother (Option.some.inj haction).symm
    · obtain ⟨rfl, hreclaims⟩ := System.column_reclaim.mp haction
      exact .inr ⟨⟨rfl, hreclaims⟩, hless⟩

/-- Where the monitor reclaims nothing the counters stay as they are. -/
theorem unreclaimed_eq (h : a.Sound bodies size) (hsize : 0 < size) (hquiet : ∀ spe, label ≠ some (.fifoKick spe))
    (hstep : stutter (restrict Audit.matched (Audit.step bodies)) a label = some a') {i : Nat}
    (hidle : ∀ hi : i < spes, ¬ a.Reclaims label ⟨i, hi⟩) :
    a'.system.unreclaimed i = a.system.unreclaimed i := by
  unfold System.unreclaimed
  split
  · rename_i hi
    obtain ⟨_, hsame⟩ | ⟨hreclaims, _⟩ := h.unreclaimed_spe hsize hquiet hstep ⟨i, hi⟩
    · exact hsame
    · exact absurd hreclaims (hidle hi)
  · rfl

theorem patrol_eq (h : a.Sound bodies size) (hsize : 0 < size) (hquiet : ∀ spe, label ≠ some (.fifoKick spe))
    (hlabel : label ≠ some .fifothread)
    (hstep : stutter (restrict Audit.matched (Audit.step bodies)) a label = some a') :
    patrol spes a'.system.unreclaimed a'.system.monitor = patrol spes a.system.unreclaimed a.system.monitor := by
  have hcounters : a'.system.unreclaimed = a.system.unreclaimed :=
    funext fun _ => h.unreclaimed_eq hsize hquiet hstep fun _ hreclaims => hlabel hreclaims.1
  have hmonitor : a'.system.monitor = a.system.monitor := by
    obtain ⟨_, rfl⟩ | ⟨event, rfl, hstep⟩ := stutter_eq_some.mp hstep
    · rfl
    · exact System.step_monitor (fun heq => hlabel (congrArg some heq))
        (step_system (restrict_eq_some.mp hstep).2).1
  rw [hcounters, hmonitor]

/-- As long as a task is unreclaimed, each test of the monitor brings it forward, if it
recognises every acknowledgement. -/
theorem patrol_lt (h : a.Sound bodies size) (hsize : 0 < size)
    (hready : ∀ e, (a.system.spe e).unreclaimed ≠ 0 → (a.system.spe e).host.ackReady = true) {e : Fin spes}
    (hleft : (a.system.spe e).unreclaimed ≠ 0)
    (hstep : restrict Audit.matched (Audit.step bodies) a .fifothread = some a') :
    patrol spes a'.system.unreclaimed a'.system.monitor < patrol spes a.system.unreclaimed a.system.monitor := by
  have hquiet : ∀ spe : Fin spes, some Event.fifothread ≠ some (.fifoKick spe) := by simp
  have hstutter : stutter (restrict Audit.matched (Audit.step bodies)) a (some .fifothread) = some a' := hstep
  have hmonitor := h.monitor (Nat.zero_lt_of_lt e.isLt)
  have hcounter : a.system.unreclaimed a.system.monitor =
      (a.system.spe ⟨a.system.monitor, hmonitor⟩).unreclaimed := dif_pos hmonitor
  obtain ⟨hfound, hstays⟩ | ⟨hclear, hmoves⟩ :=
    System.step_fifothread hmonitor (step_system (restrict_eq_some.mp hstep).2).1
  · rw [hstays]
    refine patrol_count hmonitor ?_ ?_
    · exact fun i hi => h.unreclaimed_eq hsize hquiet hstutter fun _ hreclaims => hi hreclaims.2.1
    · rw [hcounter, System.unreclaimed, dif_pos hmonitor]
      obtain ⟨hnot, _⟩ | ⟨_, hless⟩ := h.unreclaimed_spe hsize hquiet hstutter ⟨a.system.monitor, hmonitor⟩
      · exact absurd ⟨rfl, rfl, hfound⟩ hnot
      · exact hless
  · have hcounters : a'.system.unreclaimed = a.system.unreclaimed := by
      funext i
      refine h.unreclaimed_eq hsize hquiet hstutter fun hi hreclaims => ?_
      obtain ⟨_, hat, hfound⟩ := hreclaims
      obtain rfl : i = a.system.monitor := hat
      rw [hclear] at hfound
      cases hfound
    rw [hcounters, hmoves]
    refine patrol_move hmonitor ?_ ⟨e, e.isLt, ?_⟩
    · rw [hcounter]
      by_contra hsome
      rw [hready _ hsome] at hclear
      cases hclear
    · rw [System.unreclaimed, dif_pos e.isLt]
      exact hleft

/-- A drained SPE has had every one of its results recognised. -/
theorem seen_of_drained (h : a.Sound bodies size) {e : Fin spes} (hnone : (a.system.spe e).unreclaimed = 0) :
    a.seen e = a.results e := by
  have hlength := (h.answering e).carries.length_le (h.answering e).inv
  refine (h.answering e).answers.in_order.eq_of_length_le ?_
  rw [(h.answering e).answers.complete]
  unfold Spe.unreclaimed at hnone
  omega

end Sound

end Steps

end Audit

end speutils.fifo
