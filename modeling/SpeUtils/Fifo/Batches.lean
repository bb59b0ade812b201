import SpeUtils.Fifo.Invariant

open cyclic run speutils.ring speutils.taskmanager

namespace speutils.fifo.Spe

variable {world : Type} {size : Nat} {s s' : Spe world} {bodies : TaskBodies world} {action : Action}

/-- No overrun. The slots begun and not reclaimed are distinct and leave one slot
free; outside a kick the ring shows that a kicked task is unreclaimed; and the
published count shows the SPU that a kicked task is unfetched. -/
structure NoOverrun (size : Nat) (s : Spe world) : Prop where
  distinct : (s.log.begun.drop s.log.reclaimed.length).Nodup
  unreclaimed : s.log.begun.length - s.log.reclaimed.length ≤ size - 1
  remaining : s.kicking = false → s.log.reclaimed.length < s.log.kicked →
    ringHasRemaining s.host.ringCTX = true
  waiting : s.log.admitted.length < s.log.kicked →
    s.host.fifos.atomic.count ≠ s.spu.tstate.in_back

theorem Inv.noOverrun (h : s.Inv size) : s.NoOverrun size := by
  have hchain := h.chain
  refine ⟨?_, by omega, ?_, ?_⟩
  · rw [h.host.begun]
    exact nodup_drop_walk (by omega)
  · intro hidle hlt
    have hposition := h.host.position
    cases hkicked : s.host.isKicked with
    | true =>
      rw [hkicked, if_pos rfl] at hposition
      exact (hposition.hasRemaining_iff (by omega) (by omega)).mpr (by omega)
    | false =>
      have hopen := h.host.open_iff.mpr ⟨hkicked, hidle⟩
      rw [hkicked, if_neg (by decide)] at hposition
      exact (hposition.hasRemaining_iff (by omega) (by omega)).mpr (by omega)
  · intro hlt heq
    rw [h.admitted, length_walk] at hlt
    have hline := h.host.line
    rw [Publishes, if_neg (by omega)] at hline
    have hin : s.spu.tstate.in_back = behind size s.log.fetched.length := h.spu.position.in_back
    have := eq_of_behind_eq (by omega) (by omega) (hin.symm.trans (heq.symm.trans hline.2))
    omega

/-- The begins that find two free slots where they find an un-kicked task: one for
the slot that `ringIncFront` closes and one for the slot to open. -/
def roomy (s : Spe world) (action : Action) : Prop :=
  ∀ command handle, action = .fifoBegin command handle →
    s.host.isKicked = true ∨ ringHasFree (ringIncFront s.host.ringCTX) = true

theorem safe_of_roomy (hbatched : s.batched action = true) (hroomy : s.roomy action) :
    s.safe action = true := by
  cases action with
  | fifoBegin command handle =>
    simpa [safe] using hroomy command handle rfl
  | send_front => exact hbatched
  | fifoRegisterProgram addr bytes => cases hbatched
  | fifoAdd arg | closeFront | runStage | arrive index | reclaim => rfl

/-- `selectfifo` has seen one free slot and `fifoBegin` takes two: the ring is left
with every slot begun. -/
theorem Inv.overrun (h : s.Inv size) (hsize : 0 < size) (hroomy : ¬ s.roomy action)
    (hstep : s.step bodies action = some s') :
    s'.log.begun.length = s'.log.reclaimed.length + size := by
  unfold roomy at hroomy
  push Not at hroomy
  obtain ⟨command, handle, rfl, hkicked, hfull⟩ := hroomy
  obtain ⟨⟨hidle, _⟩, rfl⟩ := step_fifoBegin.mp hstep
  have hopen : s.host.isKicked = false := by simpa using hkicked
  have hroom := h.hasFree_iff hsize hidle
  rw [hopen] at hroom
  have hlast : ¬ s.log.begun.length + 1 < s.log.reclaimed.length + size :=
    fun hlt => hfull (hroom.mpr hlt)
  have hchain := h.chain
  simp only [Ledger.begin, List.length_append, List.length_singleton]
  omega

/-- A run of batched begins never overruns its ring exactly when each of its begins
finds two free slots where it finds an un-kicked task. -/
theorem noOverrun_iff (hsize : 2 ≤ size) (bodies : TaskBodies world) (memory : Memory world)
    (actions : List Action) (stop : Spe world)
    (hrun : Reaches (restrict batched (step bodies)) (.init memory size) actions stop) :
    Always (restrict batched (step bodies)) (.init memory size) actions
        (NoOverrun size) ↔
      EachStep (restrict batched (step bodies)) (.init memory size) actions roomy := by
  have hpos : 0 < size := by omega
  refine hrun.always_iff_eachStep (.init memory hpos) ?_ ?_
    (fun _ => Inv.noOverrun)
  · intro before action after hinv hroomy hstep
    obtain ⟨hbatched, hstep⟩ := restrict_eq_some.mp hstep
    exact hinv.step hpos (safe_of_roomy hbatched hroomy) hstep
  · intro before action after hinv hroomy hstep hno
    obtain ⟨_, hstep⟩ := restrict_eq_some.mp hstep
    have hfull := hinv.overrun hpos hroomy hstep
    have := hno.unreclaimed
    omega

/-- Two tasks begun before one kick. -/
def twoBegins : List Action :=
  [.fifoBegin messages.ADD 0, .fifoBegin messages.ADD 1, .send_front, .closeFront]

theorem noOverrun_iff_twoBegins : ∃ stop,
    Reaches (restrict batched (step idleBodies)) (.init zeroed 3) twoBegins stop ∧
      (Always (restrict batched (step idleBodies)) (.init zeroed 3) twoBegins (NoOverrun 3) ↔
        EachStep (restrict batched (step idleBodies)) (.init zeroed 3) twoBegins roomy) := by
  have hvalue : (twoBegins.foldlM (restrict batched (step idleBodies)) (.init zeroed 3)).map
      (fun s => s.log.kicked) = some 2 := by decide +kernel
  obtain ⟨stop, hrun, _⟩ := exists_reaches_of_observe hvalue
  exact ⟨stop, hrun, noOverrun_iff (by decide) idleBodies zeroed twoBegins stop hrun⟩

/-- On a ring of two slots the batch takes both. After the kick the ring looks empty
to the host, and the count looks to the SPU as if nothing were published. -/
theorem twoBegins_overrun : ∃ stop,
    Reaches (restrict batched (step idleBodies)) (.init zeroed 2) twoBegins stop ∧
      stop.log.begun = [0, 1] ∧ stop.log.kicked = 2 ∧ stop.log.reclaimed = [] ∧
      ringHasRemaining stop.host.ringCTX = false ∧
      stop.host.fifos.atomic.count = stop.spu.tstate.in_back ∧ ¬ stop.NoOverrun 2 := by
  have hvalue : (twoBegins.foldlM (restrict batched (step idleBodies)) (.init zeroed 2)).map
      (fun s => (s.log.begun, s.log.kicked, s.log.reclaimed, ringHasRemaining s.host.ringCTX,
        decide (s.host.fifos.atomic.count = s.spu.tstate.in_back))) =
      some ([0, 1], 2, [], false, true) := by decide +kernel
  obtain ⟨stop, hrun, hobserved⟩ := exists_reaches_of_observe hvalue
  simp only [Prod.mk.injEq, decide_eq_true_eq] at hobserved
  obtain ⟨hbegun, hkicked, hreclaimed, hremaining, hcount⟩ := hobserved
  refine ⟨stop, hrun, hbegun, hkicked, hreclaimed, hremaining, hcount, ?_⟩
  intro hno
  have hunreclaimed := hno.unreclaimed
  simp [hbegun, hreclaimed] at hunreclaimed

end speutils.fifo.Spe
