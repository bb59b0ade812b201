import SpeUtils.Fifo.Matched

open cyclic run speutils.ring speutils.taskmanager

namespace speutils.fifo

namespace Spe

variable {world : Type} {size : Nat} {s s' : Spe world} {bodies : TaskBodies world} {action : Action}

/-- Only the SPU itself fetches, loads, executes and acknowledges. -/
theorem step_stages (hstage : action ≠ .runStage) (hstep : s.step bodies action = some s') :
    s'.log.fetched = s.log.fetched ∧ s'.log.loaded = s.log.loaded ∧
      s'.log.executed = s.log.executed ∧ s'.log.acked = s.log.acked := by
  rw [(step_record hstep).1]
  cases action with
  | runStage => exact absurd rfl hstage
  | fifoBegin command handle | fifoAdd arg | send_front | closeFront | fifoRegisterProgram addr bytes
  | arrive index | reclaim => exact ⟨rfl, rfl, rfl, rfl⟩

/-- End-to-end delivery. The tasks that `stage2` and `stage3` have acted on are the
first ones kicked, each under its own ack slot and with the words of its slot at
the kick; they are acknowledged in that order; and only kicked slots have been
fetched. -/
structure Delivers (s : Spe world) : Prop where
  loaded : s.log.loaded <+: s.log.kicks
  executed : s.log.executed <+: s.log.kicks
  acked : s.log.acked <+: s.log.kicks.map Prod.fst
  fetched : ∀ slot ∈ s.log.fetched, slot ∈ s.log.kicks.map Prod.fst

/-- Nothing has been fetched, so no stage but the first can find a task. -/
structure Quiet (size : Nat) (s : Spe world) : Prop where
  matched : s.Matched size
  fetched : s.log.fetched = []
  loaded : s.log.loaded = []
  executed : s.log.executed = []
  acked : s.log.acked = []

theorem Quiet.delivers (h : s.Quiet size) : s.Delivers where
  loaded := by
    rw [h.loaded]
    exact List.nil_prefix
  executed := by
    rw [h.executed]
    exact List.nil_prefix
  acked := by
    rw [h.acked]
    exact List.nil_prefix
  fetched := by
    rw [h.fetched]
    simp

theorem Quiet.idle (h : s.Quiet size) (hpoll : s.spu.stage = .stage1 → s.log.kicks = []) :
    s.spu.acting s.host.fifos = none := by
  have hchain := h.matched.inv.chain
  rw [h.acked, h.fetched] at hchain
  by_cases hstage : s.spu.stage = .stage1
  · have hkicked : s.log.kicked = 0 := by
      rw [← h.matched.oneOpen.length_kicks, hpoll hstage]
      rfl
    obtain ⟨_, hlt⟩ | ⟨hnone, _⟩ := h.matched.inv.spu.acting_iff h.matched.inv.host.line (by omega) hstage
    · rw [h.fetched] at hlt
      simp only [List.length_nil] at hlt
      omega
    · exact hnone
  · cases hact : s.spu.acting s.host.fifos with
    | none => rfl
    | some x =>
      have hactive := Control.acting_active (c := s.spu.control) hstage hact
      have hempty := h.matched.inv.spu.position.empty (by rw [h.fetched, h.acked]) x
      rw [hempty] at hactive
      cases hactive

theorem Quiet.init (memory : Memory world) (hsize : 0 < size) : Quiet size (.init memory size) :=
  ⟨.init memory hsize, rfl, rfl, rfl, rfl⟩

theorem Quiet.step (h : s.Quiet size) (hsize : 0 < size) (hmatched : s.matched action = true)
    (hpoll : action = .runStage → s.spu.stage = .stage1 → s.log.kicks = [])
    (hstep : s.step bodies action = some s') : s'.Quiet size := by
  have hafter := h.matched.step hsize hmatched hstep
  by_cases hstage : action = .runStage
  · subst hstage
    obtain rfl := step_runStage.mp hstep
    have hsame := s.log.stage_idle (m := (s.spu, s.host.fifos)) (h.idle (hpoll rfl))
    refine ⟨hafter, ?_, ?_, ?_, ?_⟩ <;> simp only [hsame]
    · exact h.fetched
    · exact h.loaded
    · exact h.executed
    · exact h.acked
  · obtain ⟨hfetched, hloaded, hexecuted, hacked⟩ := step_stages hstage hstep
    exact ⟨hafter, hfetched.trans h.fetched, hloaded.trans h.loaded, hexecuted.trans h.executed,
      hacked.trans h.acked⟩

/-- The first poll after a kick fetches the last slot of the ring, which has not
been kicked: `in_back` is used before it is incremented. -/
theorem Quiet.poll (h : s.Quiet size) (hsize : 0 < size) (hstage : s.spu.stage = .stage1)
    (hkicks : s.log.kicks ≠ []) (hstep : s.step bodies .runStage = some s') : ¬ s'.Delivers := by
  have hchain := h.matched.inv.chain
  have hnone : s.log.fetched.length = 0 := by simp [h.fetched]
  have hpos : 0 < s.log.kicked := by
    rw [← h.matched.oneOpen.length_kicks]
    exact List.length_pos_iff.mpr hkicks
  obtain ⟨hact, _⟩ | ⟨_, heq⟩ := h.matched.inv.spu.acting_iff h.matched.inv.host.line (by omega) hstage
  · obtain rfl := step_runStage.mp hstep
    intro hdelivers
    have hmem := hdelivers.fetched
    simp only [s.log.stage_fetch (m := (s.spu, s.host.fifos)) hstage hact] at hmem
    have hin : s.spu.tstate.in_back = size - 1 := by
      have hposition : s.spu.tstate.in_back = behind size s.log.fetched.length :=
        h.matched.inv.spu.position.in_back
      rw [hposition, hnone, behind_zero hsize]
    have hlast := hmem (size - 1) (by simp [h.fetched, hin])
    rw [h.matched.oneOpen.kicks] at hlast
    exact last_not_mem_walk hsize (by omega) hlast
  · omega

/-- A run of matched begins and kicks delivers its tasks exactly as long as no task
is fetched: every poll by `stage1` comes before the first kick. -/
theorem delivers_iff (hsize : 2 ≤ size) (bodies : TaskBodies world) (memory : Memory world)
    (actions : List Action) (stop : Spe world)
    (hrun : Reaches (restrict matched (step bodies)) (.init memory size) actions stop) :
    Always (restrict matched (step bodies)) (.init memory size) actions Delivers ↔
      EachStep (restrict matched (step bodies)) (.init memory size) actions
        (fun s action => action = .runStage → s.spu.stage = .stage1 → s.log.kicks = []) := by
  have hpos : 0 < size := by omega
  refine hrun.always_iff_eachStep (.init memory hpos) ?_ ?_ (fun _ => Quiet.delivers)
  · intro before action after hquiet hpoll hstep
    obtain ⟨hmatched, hstep⟩ := restrict_eq_some.mp hstep
    exact hquiet.step hpos hmatched hpoll hstep
  · intro before action after hquiet hbad hstep
    obtain ⟨_, hstep⟩ := restrict_eq_some.mp hstep
    simp only [Classical.not_imp] at hbad
    obtain ⟨rfl, hstage, hkicks⟩ := hbad
    exact hquiet.poll hpos hstage hkicks hstep

/-- One addition, begun, filled and kicked, and four iterations of the pipeline. -/
def oneAddition : List Action :=
  [.fifoBegin messages.ADD 0x1ee7C0DE#32, .fifoAdd 3, .fifoAdd 1, .fifoAdd 2, .send_front,
    .closeFront] ++ List.replicate 16 .runStage

theorem delivers_iff_oneAddition : ∃ stop,
    Reaches (restrict matched (step idleBodies)) (.init zeroed 2) oneAddition stop ∧
      (Always (restrict matched (step idleBodies)) (.init zeroed 2) oneAddition Delivers ↔
        EachStep (restrict matched (step idleBodies)) (.init zeroed 2) oneAddition
          (fun s action => action = .runStage → s.spu.stage = .stage1 → s.log.kicks = [])) := by
  have hvalue : (oneAddition.foldlM (restrict matched (step idleBodies)) (.init zeroed 2)).map
      (fun s => s.log.acked) = some [0] := by decide +kernel
  obtain ⟨stop, hrun, _⟩ := exists_reaches_of_observe hvalue
  exact ⟨stop, hrun, delivers_iff (by decide) idleBodies zeroed oneAddition stop hrun⟩

/-- On a ring of two slots the only task is written to slot 0, but the SPU fetches
slot 1 for it: the number of terms, word 2 of the task, is 3 in the slot kicked and
0 in the task executed and acknowledged. -/
theorem oneAddition_not_delivered : ∃ stop,
    Reaches (restrict matched (step idleBodies)) (.init zeroed 2) oneAddition stop ∧
      stop.log.kicks.map (fun kick => (kick.1, kick.2 2)) = [(0, 3)] ∧ stop.log.fetched = [1] ∧
      stop.log.executed.map (fun done => (done.1, done.2 2)) = [(0, 0)] ∧ stop.log.acked = [0] ∧
      ¬ stop.Delivers := by
  have hvalue : (oneAddition.foldlM (restrict matched (step idleBodies)) (.init zeroed 2)).map
      (fun s => (s.log.kicks.map (fun kick => (kick.1, kick.2 2)), s.log.fetched,
        s.log.executed.map (fun done => (done.1, done.2 2)), s.log.acked)) =
      some ([(0, 3)], [1], [(0, 0)], [0]) := by decide +kernel
  obtain ⟨stop, hrun, hobserved⟩ := exists_reaches_of_observe hvalue
  simp only [Prod.mk.injEq] at hobserved
  obtain ⟨hkicks, hfetched, hexecuted, hacked⟩ := hobserved
  refine ⟨stop, hrun, hkicks, hfetched, hexecuted, hacked, ?_⟩
  intro hdelivers
  have hmem := hdelivers.fetched 1 (by simp [hfetched])
  have hslots : stop.log.kicks.map Prod.fst = [0] := by
    have := congrArg (List.map Prod.fst) hkicks
    simpa [Function.comp_def] using this
  rw [hslots] at hmem
  simp at hmem

end Spe

end speutils.fifo
