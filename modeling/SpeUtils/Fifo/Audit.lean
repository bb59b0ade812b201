import SpeUtils.Fifo.Results
import SpeUtils.Fifo.System
import Mathlib.Data.List.Forall2

open cyclic run speutils.ring speutils.taskmanager

namespace speutils.fifo

namespace Spe

variable {world : Type} {size : Nat} {s s' : Spe world} {bodies : TaskBodies world} {action : Action}
  {results seen : List ack_s}

/-- What the monitor has `seen` against the `results` of the tasks executed. Each result
is what `stage3` makes of the words of its task; the monitor has reclaimed the slots under
which the tasks were executed, in that order, and has found in each the result of its own
task, under a first word other than `ACK_CLEAR`. -/
structure Answers (bodies : TaskBodies world) (results seen : List ack_s) (s : Spe world) : Prop where
  outcomes : List.Forall₂ (fun done result => ∃ world id ack, result = (bodies.stage3 world id done.2 ack).2.2)
    s.log.executed results
  slots : s.log.reclaimed <+: s.log.executed.map Prod.fst
  in_order : seen <+: results
  complete : seen.length = s.log.reclaimed.length
  recognised : ∀ found ∈ seen, found.task_id ≠ ACK_CLEAR

/-- The invariant behind it. -/
structure Answering (bodies : TaskBodies world) (size : Nat) (results seen : List ack_s) (s : Spe world) :
    Prop where
  inv : s.Inv size
  carries : s.Carries size results
  executed : s.log.executed.map Prod.fst = walk size s.log.executed.length
  answers : s.Answers bodies results seen

/-- A task is executed under the slot that follows those of the tasks executed before. -/
theorem Carries.executed_entry (h : s.Carries size results) (hinv : s.Inv size) {x : Fin 4}
    (hstage : s.spu.stage = .stage3) (hact : s.spu.acting s.host.fifos = some x) :
    (s.spu.pipe x).entry = results.length % size := by
  have hctl : s.spu.control.acting s.host.fifos.atomic = some x := hact
  have hactive := Control.acting_active (c := s.spu.control) (by simp [hstage]) hctl
  have hcontext : x = contextOf s.spu.control.cycle 2 := by
    have hoffset := Control.acting_context hctl
    rwa [Spu.control_stage, hstage] at hoffset
  have hlength : results.length = s.log.acked.length + s.spu.control.older 2 := by
    rw [h.pending.length]
    simp [Control.finished, Control.older, hstage]
  rw [hcontext] at hactive
  rw [hlength, ← hinv.spu.position.entry_eq (by decide) hactive, ← hcontext]
  rfl

/-- Only `stage3` executes, and it leaves one result for one task. -/
theorem step_executed (hstep : s.step bodies action = some s') :
    (s'.log.executed = s.log.executed ∧ s.produced bodies action = []) ∨
      ∃ x, s.spu.stage = .stage3 ∧ s.spu.acting s.host.fifos = some x ∧
        s'.log.executed = s.log.executed ++ [((s.spu.pipe x).entry, (s.spu.pipe x).task)] ∧
        s.produced bodies action =
          [(bodies.stage3 s.spu.world (s.spu.pipe x).id (s.spu.pipe x).task (s.spu.pipe x).ack).2.2] := by
  rw [(step_record hstep).1]
  cases action with
  | runStage =>
    simp only [recorded, produced]
    cases hact : s.spu.acting s.host.fifos with
    | none =>
      rw [s.log.stage_idle (m := (s.spu, s.host.fifos)) hact]
      exact .inl ⟨rfl, by simp⟩
    | some x =>
      cases hstage : s.spu.stage with
      | stage1 =>
        rw [s.log.stage_fetch (m := (s.spu, s.host.fifos)) hstage hact]
        exact .inl ⟨rfl, rfl⟩
      | stage2 =>
        rw [s.log.stage_load (m := (s.spu, s.host.fifos)) hstage hact]
        exact .inl ⟨rfl, rfl⟩
      | stage3 =>
        rw [s.log.stage_execute (m := (s.spu, s.host.fifos)) hstage hact]
        exact .inr ⟨x, rfl, rfl, rfl, rfl⟩
      | stage4 =>
        rw [s.log.stage_ack (m := (s.spu, s.host.fifos)) hstage hact]
        exact .inl ⟨rfl, rfl⟩
  | fifoBegin command handle | fifoAdd arg | send_front | closeFront | fifoRegisterProgram addr bytes
  | arrive index | reclaim => exact .inl ⟨rfl, rfl⟩

/-- Only the monitor reclaims. -/
theorem step_reclaimed (hstep : s.step bodies action = some s') (haction : action ≠ .reclaim) :
    s'.log.reclaimed = s.log.reclaimed ∧ s.recognised action = [] := by
  rw [(step_record hstep).1]
  cases action with
  | runStage => exact ⟨s.log.stage_reclaimed _, rfl⟩
  | reclaim => exact absurd rfl haction
  | fifoBegin command handle | fifoAdd arg | send_front | closeFront | fifoRegisterProgram addr bytes
  | arrive index => exact ⟨rfl, rfl⟩

namespace Answering

theorem init (bodies : TaskBodies world) (memory : Memory world) (hsize : 0 < size) :
    Answering bodies size [] [] (.init memory size) where
  inv := .init memory hsize
  carries := .init memory
  executed := rfl
  answers := ⟨.nil, List.nil_prefix, List.nil_prefix, rfl, fun _ hfound => absurd hfound List.not_mem_nil⟩

/-- One more result, with its task. -/
theorem executes (h : Answering bodies size results seen s) (hstep : s.step bodies action = some s') :
    s'.log.executed.map Prod.fst = walk size s'.log.executed.length ∧
      List.Forall₂ (fun done result => ∃ world id ack, result = (bodies.stage3 world id done.2 ack).2.2)
        s'.log.executed (results ++ s.produced bodies action) := by
  have hlength : s.log.executed.length = results.length := h.answers.outcomes.length_eq
  obtain ⟨hsame, hnone⟩ | ⟨x, hstage, hact, hdone, hresult⟩ := step_executed hstep
  · rw [hsame, hnone, List.append_nil]
    exact ⟨h.executed, h.answers.outcomes⟩
  · have hentry := h.carries.executed_entry h.inv hstage hact
    rw [hdone, hresult]
    refine ⟨?_, List.rel_append h.answers.outcomes (.cons ⟨_, _, _, rfl⟩ .nil)⟩
    simp only [List.map_append, List.map_cons, List.map_nil, List.length_append, List.length_singleton]
    rw [h.executed, hentry, ← hlength, walk_succ]

theorem step (h : Answering bodies size results seen s) (hsize : 0 < size) (hsafe : s.safe action = true)
    (hstep : s.step bodies action = some s') :
    Answering bodies size (results ++ s.produced bodies action) (seen ++ s.recognised action) s' := by
  have hinv := h.inv.step hsize hsafe hstep
  have hcarries := h.carries.step h.inv hsize hstep
  obtain ⟨hexecuted, houtcomes⟩ := h.executes hstep
  have hfound : ∀ found ∈ s.recognised action, found.task_id ≠ ACK_CLEAR := by
    intro found hfound
    by_cases haction : action = .reclaim
    · subst haction
      obtain ⟨hready, _⟩ := step_reclaim.mp hstep
      obtain rfl := List.mem_singleton.mp hfound
      simpa [HostSpe.ackReady] using hready
    · rw [(step_reclaimed hstep haction).2] at hfound
      cases hfound
  have hseen : seen ++ s.recognised action <+: results ++ s.produced bodies action ∧
      (seen ++ s.recognised action).length = s'.log.reclaimed.length := by
    by_cases haction : action = .reclaim
    · subst haction
      obtain ⟨_, hfound⟩ := h.carries.reclaim h.inv hsize hstep
      obtain ⟨_, rfl⟩ := step_reclaim.mp hstep
      simp only [recognised, produced, List.append_nil, Ledger.reclaim, List.length_append, List.length_singleton]
      refine ⟨?_, by rw [h.answers.complete]⟩
      obtain ⟨rest, rfl⟩ := h.answers.in_order
      rw [List.getElem?_append_right (Nat.le_of_eq h.answers.complete), h.answers.complete, Nat.sub_self] at hfound
      obtain ⟨later, rfl⟩ : ∃ later,
          rest = s.host.fifos.ack_fifo (ringGetBack s.host.ringCTX) :: later := by
        cases rest with
        | nil => cases hfound
        | cons first later => exact ⟨later, by simpa using hfound⟩
      exact ⟨later, by simp⟩
    · obtain ⟨hreclaimed, hnone⟩ := step_reclaimed hstep haction
      rw [hnone, List.append_nil, hreclaimed]
      exact ⟨h.answers.in_order.trans (List.prefix_append _ _), h.answers.complete⟩
  refine ⟨hinv, hcarries, hexecuted, houtcomes, ?_, hseen.1, hseen.2, ?_⟩
  · rw [hinv.host.reclaimed, hexecuted]
    refine walk_prefix ?_
    rw [houtcomes.length_eq, ← hseen.2]
    exact hseen.1.length_le
  · intro found hmem
    obtain hmem | hmem := List.mem_append.mp hmem
    · exact h.answers.recognised found hmem
    · exact hfound found hmem

end Answering

end Spe

/-- A run of the whole system with two records for each SPE that no function of the
program reads: what `stage3` has left for each task, and what the monitor has found. -/
structure Audit (world : Type) (spes : Nat) where
  system : System world spes
  results : Fin spes → List ack_s
  seen : Fin spes → List ack_s

namespace Audit

variable {world : Type} {spes size : Nat}

def init (memory : Fin spes → Memory world) (size : Nat) : Audit world spes where
  system := .init memory size
  results := fun _ => []
  seen := fun _ => []

def step (bodies : TaskBodies world) (a : Audit world spes) (event : Event spes) : Option (Audit world spes) :=
  match a.system.step bodies event with
  | none => none
  | some system =>
    let added := fun e record => ((a.system.column event e).map record).getD []
    some {
      system
      results := fun e => a.results e ++ added e ((a.system.spe e).produced bodies)
      seen := fun e => a.seen e ++ added e (a.system.spe e).recognised }

theorem step_system {bodies : TaskBodies world} {a a' : Audit world spes} {event : Event spes}
    (hstep : a.step bodies event = some a') :
    a.system.step bodies event = some a'.system ∧ ∀ e,
      a'.results e = a.results e ++ ((a.system.column event e).map ((a.system.spe e).produced bodies)).getD [] ∧
      a'.seen e = a.seen e ++ ((a.system.column event e).map (a.system.spe e).recognised).getD [] := by
  unfold step at hstep
  cases hsystem : a.system.step bodies event with
  | none => simp [hsystem] at hstep
  | some system =>
    simp only [hsystem, Option.some.injEq] at hstep
    subst hstep
    exact ⟨rfl, fun e => ⟨rfl, rfl⟩⟩

/-- Acknowledgements come back in order and unmixed. Whatever the task bodies do, however
the transfers are delayed and reordered and wherever the monitor stands: on every SPE the
monitor finds, in the slots under which the tasks were executed and in that order, exactly
what `stage3` has made of each task. The host leaves a slot of the ring free: a task is begun
behind an un-kicked one only where two slots are free, a kick finds an un-kicked task, and a
registration finds none and a free slot. A monitor test with its clearing and `ringIncBack` is
one step here; for tasks kicked one by one `Threads.faithful_iff` says when that is exact. -/
theorem acknowledged_in_order (hsize : 2 ≤ size) (bodies : TaskBodies world) (memory : Fin spes → Memory world)
    (events : List (Event spes)) (a : Audit world spes)
    (hrun : Reaches (restrict (fun a event => a.system.keeps Spe.safe event) (step bodies)) (.init memory size)
      events a)
    (e : Fin spes) : (a.system.spe e).Answers bodies (a.results e) (a.seen e) := by
  have hpos : 0 < size := by omega
  suffices hinv : ∀ e, (a.system.spe e).Answering bodies size (a.results e) (a.seen e) from (hinv e).answers
  refine hrun.invariant (I := fun a => ∀ e, (a.system.spe e).Answering bodies size (a.results e) (a.seen e))
    (fun e => .init bodies (memory e) hpos) ?_
  intro before event after hbefore hstep e
  obtain ⟨hkeeps, hstep⟩ := restrict_eq_some.mp hstep
  obtain ⟨hsystem, hrecords⟩ := step_system hstep
  obtain ⟨hresults, hseen⟩ := hrecords e
  rw [hresults, hseen]
  obtain ⟨hnone, hsame⟩ | ⟨action, haction, hspe⟩ := System.step_spe hsystem e
  · rw [hnone, hsame]
    simpa using hbefore e
  · rw [haction]
    exact (hbefore e).step hpos (System.ok_of_keeps hkeeps haction) hspe

theorem acknowledged_in_order_roundTrip : ∃ a : Audit Unit 1,
    Reaches (restrict (fun a event => a.system.keeps Spe.safe event) (step Spe.idleBodies))
      (.init (fun _ => Spe.zeroed) 2) System.roundTrip a ∧
      a.seen 0 = [⟨0, 0, 0⟩] ∧ (a.system.spe 0).Answers Spe.idleBodies (a.results 0) (a.seen 0) := by
  have hvalue : (System.roundTrip.foldlM (restrict (fun a event => a.system.keeps Spe.safe event)
      (step Spe.idleBodies)) (.init (fun _ => Spe.zeroed) 2)).map (fun a => a.seen 0) =
      some [⟨0, 0, 0⟩] := by decide +kernel
  obtain ⟨a, hrun, hseen⟩ := exists_reaches_of_observe hvalue
  exact ⟨a, hrun, hseen,
    acknowledged_in_order (by decide) Spe.idleBodies (fun _ => Spe.zeroed) System.roundTrip a hrun 0⟩

end Audit

end speutils.fifo
