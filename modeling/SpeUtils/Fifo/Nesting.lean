import SpeUtils.Fifo.Matched
import SpeUtils.Fifo.System

open cyclic run speutils.ring speutils.taskmanager

namespace speutils.fifo

namespace Spe

variable {world : Type} {size : Nat} {s s' : Spe world} {bodies : TaskBodies world} {action : Action}

/-- Each kick belongs to an earlier begin on its SPE, in any order, and the rings are
large enough for the begins. -/
def nested (s : Spe world) : Action → Bool
  | .fifoBegin _ _ => s.host.isKicked || ringHasFree (ringIncFront s.host.ringCTX)
  | .send_front => s.log.kicks.length < s.log.begun.length
  | .fifoRegisterProgram _ _ => false
  | .fifoAdd _ | .closeFront | .runStage | .arrive _ | .reclaim => true

/-- Kicks that find an un-kicked task. -/
def kicksOpen (s : Spe world) : Action → Bool
  | .send_front => s.log.kicked < s.log.begun.length
  | .fifoBegin _ _ | .fifoRegisterProgram _ _ | .fifoAdd _ | .closeFront | .runStage | .arrive _
  | .reclaim => true

/-- Begins that find no un-kicked task. -/
def beginsKicked (s : Spe world) : Action → Bool
  | .fifoBegin _ _ => s.host.isKicked
  | .send_front | .fifoRegisterProgram _ _ | .fifoAdd _ | .closeFront | .runStage | .arrive _
  | .reclaim => true

theorem safe_of_nested (hnested : s.nested action = true) (hopen : s.kicksOpen action = true) :
    s.safe action = true := by
  cases action with
  | fifoBegin command handle => exact hnested
  | send_front => exact hopen
  | fifoRegisterProgram addr bytes => cases hnested
  | fifoAdd arg | closeFront | runStage | arrive index | reclaim => rfl

/-- A kick that finds no un-kicked task publishes the slot that the next begin would
fill. -/
theorem Inv.unfilled_of_kick (h : s.Inv size) (hsize : 2 ≤ size) (hopen : s.kicksOpen action = false)
    (hstep : s.step bodies action = some s') : s'.log.unfilled ≠ [] := by
  cases action with
  | send_front =>
    obtain ⟨hidle, rfl⟩ := step_send_front.mp hstep
    have hclosed : ¬ s.log.kicked < s.log.begun.length := by simpa [kicksOpen] using hopen
    have hall : s.log.kicked = s.log.begun.length := by
      have := h.host.kicked_le
      omega
    have hkicked : s.host.isKicked = true := by
      cases hkicked : s.host.isKicked with
      | true => rfl
      | false => exact absurd (h.host.open_iff.mpr ⟨hkicked, hidle⟩) hclosed
    have hfront : ringGetFront s.host.ringCTX = behind size (s.log.begun.length + 1) := by
      have hindex : ringGetFront s.host.ringCTX = _ := h.host.position.front_eq
      rw [hkicked, if_pos rfl] at hindex
      rw [hindex, behind_succ (by omega)]
    have hnew : s.log.newlyPublished s.host.ringCTX.size (ringGetFront s.host.ringCTX) =
        [s.log.begun.length % size] := by
      rw [Ledger.newlyPublished, h.host.position.size_eq, h.host.published, walk_getLast (by omega),
        hfront, hall, after_behind_succ hsize]
    have hempty : s.log.begun.length % size ∉ s.log.filled := by
      rw [h.host.filled]
      rintro ⟨i, hi, hlt, heq⟩
      have hwindow := h.host.window
      have := eq_of_mod_eq (by omega) (by omega) heq
      omega
    simp [Ledger.kick, hnew, hempty]
  | fifoBegin command handle | fifoRegisterProgram addr bytes | fifoAdd arg | closeFront | runStage
  | arrive index | reclaim => cases hopen

/-- The begins that the kicks so far and the one to come account for. -/
def level (s : Spe world) : Nat :=
  s.log.kicks.length + if s.log.kicked < s.log.begun.length then 1 else 0

theorem length_kicks_le_level (s : Spe world) : s.log.kicks.length ≤ s.level := Nat.le_add_right _ _

/-- A begin accounts for itself alone, whatever was open; every other step keeps the
balance of begins and kicks. -/
theorem step_level (hnested : s.nested action = true) (hopen : s.kicksOpen action = true)
    (hstep : s.step bodies action = some s') :
    (s'.log.begun.length = s.log.begun.length ∧ s'.level = s.level) ∨
      ∃ command handle, action = .fifoBegin command handle ∧
        s'.log.begun.length = s.log.begun.length + 1 ∧
        (s.log.kicked ≤ s.log.begun.length → s'.level = s.log.kicks.length + 1) := by
  unfold level
  rw [(step_record hstep).1]
  cases action with
  | fifoBegin command handle =>
    refine .inr ⟨command, handle, rfl, by simp [recorded, Ledger.begin], ?_⟩
    intro hle
    simp [recorded, Ledger.begin, Nat.lt_succ_of_le hle]
  | send_front =>
    have hlt : s.log.kicked < s.log.begun.length := by simpa [kicksOpen] using hopen
    exact .inl ⟨rfl, by simp [recorded, Ledger.kick, hlt]⟩
  | fifoRegisterProgram addr bytes => cases hnested
  | runStage =>
    obtain ⟨hbegun, hkicked, hkicks⟩ := s.log.stage_kicks (s.spu, s.host.fifos)
    exact .inl ⟨by rw [recorded, hbegun], by simp only [recorded, hbegun, hkicked, hkicks]⟩
  | fifoAdd arg | closeFront | arrive index | reclaim => exact .inl ⟨rfl, rfl⟩

/-- No more kicks than begins: the open task, if there is one, has its kick to come. -/
structure Balanced (size : Nat) (s : Spe world) : Prop where
  inv : s.Inv size
  level_le : s.level ≤ s.log.begun.length

theorem Balanced.init (memory : Memory world) (hsize : 0 < size) : Balanced size (.init memory size) :=
  ⟨.init memory hsize, Nat.le_refl 0⟩

theorem Balanced.step (h : s.Balanced size) (hsize : 0 < size) (hnested : s.nested action = true)
    (hopen : s.kicksOpen action = true) (hstep : s.step bodies action = some s') : s'.Balanced size := by
  refine ⟨h.inv.step hsize (safe_of_nested hnested hopen) hstep, ?_⟩
  have hle := h.level_le
  have hkicks := s.length_kicks_le_level
  obtain ⟨hbegun, hlevel⟩ | ⟨_, _, _, hbegun, hlevel⟩ := step_level hnested hopen hstep
  · omega
  · have := hlevel h.inv.host.kicked_le
    omega

/-- A begin that no kick will account for is never made up for. -/
theorem Balanced.debt (h : s.Balanced size) (hdebt : s.level < s.log.begun.length)
    (hnested : s.nested action = true) (hopen : s.kicksOpen action = true)
    (hstep : s.step bodies action = some s') : s'.level < s'.log.begun.length := by
  have hkicks := s.length_kicks_le_level
  obtain ⟨hbegun, hlevel⟩ | ⟨_, _, _, hbegun, hlevel⟩ := step_level hnested hopen hstep
  · omega
  · have := hlevel h.inv.host.kicked_le
    omega

/-- A task begun behind an un-kicked one leaves a single kick to account for both. -/
theorem Balanced.debt_of_begin (h : s.Balanced size) (hbegins : s.beginsKicked action = false)
    (hnested : s.nested action = true) (hstep : s.step bodies action = some s') :
    s'.level < s'.log.begun.length := by
  cases action with
  | fifoBegin command handle =>
    obtain ⟨⟨hidle, _⟩, _⟩ := step_fifoBegin.mp hstep
    have hlt := h.inv.host.open_iff.mpr ⟨hbegins, hidle⟩
    have hone : s.level = s.log.kicks.length + 1 := by simp [level, hlt]
    have hle := h.level_le
    obtain ⟨hbegun, _⟩ | ⟨_, _, _, hbegun, hlevel⟩ := step_level hnested rfl hstep
    · obtain ⟨_, rfl⟩ := step_fifoBegin.mp hstep
      simp [Ledger.begin] at hbegun
    · have := hlevel h.inv.host.kicked_le
      omega
  | send_front | fifoRegisterProgram addr bytes | fifoAdd arg | closeFront | runStage
  | arrive index | reclaim => cases hbegins

/-- Kicks and begins keep pace: whenever a kick is due, the task it belongs to is
open. -/
structure InStep (size : Nat) (s : Spe world) : Prop where
  inv : s.Inv size
  level_eq : s.level = s.log.begun.length

theorem InStep.init (memory : Memory world) (hsize : 0 < size) : InStep size (.init memory size) :=
  ⟨.init memory hsize, rfl⟩

theorem InStep.kicksOpen (h : s.InStep size) (hnested : s.nested action = true) :
    s.kicksOpen action = true := by
  cases action with
  | send_front =>
    have hdue : s.log.kicks.length < s.log.begun.length := by simpa [nested] using hnested
    have hlevel := h.level_eq
    unfold level at hlevel
    split at hlevel
    · rename_i hlt
      simpa [Spe.kicksOpen] using hlt
    · omega
  | fifoBegin command handle | fifoRegisterProgram addr bytes | fifoAdd arg | closeFront | runStage
  | arrive index | reclaim => rfl

theorem InStep.step (h : s.InStep size) (hsize : 0 < size) (hnested : s.nested action = true)
    (hbegins : s.beginsKicked action = true) (hstep : s.step bodies action = some s') : s'.InStep size := by
  have hopen := h.kicksOpen hnested
  refine ⟨h.inv.step hsize (safe_of_nested hnested hopen) hstep, ?_⟩
  have hlevel := h.level_eq
  obtain ⟨hbegun, hsame⟩ | ⟨command, handle, rfl, hbegun, hnext⟩ := step_level hnested hopen hstep
  · omega
  · have hkicked : s.host.isKicked = true := hbegins
    have hclosed : ¬ s.log.kicked < s.log.begun.length := by
      rw [h.inv.host.open_iff, hkicked]
      simp
    rw [level, if_neg hclosed] at hlevel
    have := hnext h.inv.host.kicked_le
    omega

/-- With every begin kicked, the published slots are the begun ones. -/
theorem InStep.published_eq_begun (h : s.InStep size)
    (hall : s.log.kicks.length = s.log.begun.length) : s.log.published = s.log.begun := by
  have hlevel := h.level_eq
  have hle := h.inv.host.kicked_le
  unfold level at hlevel
  split at hlevel
  · omega
  · rw [h.inv.host.published, show s.log.kicked = s.log.begun.length by omega, ← h.inv.host.begun]

end Spe

namespace System

variable {world : Type} {spes size : Nat} {bodies : TaskBodies world} {memory : Fin spes → Memory world}
  {events : List (Event spes)} {stop : System world spes}

/-- No unfilled slot is ever published exactly when every kick finds an un-kicked
task. -/
theorem unfilled_iff_kicksOpen (hsize : 2 ≤ size)
    (hrun : Reaches (restrict (keeps Spe.nested) (step bodies)) (.init memory size) events stop) :
    Always (restrict (keeps Spe.nested) (step bodies)) (.init memory size) events
        (fun s => ∀ e, (s.spe e).log.unfilled = []) ↔
      EachStep (restrict (keeps Spe.nested) (step bodies)) (.init memory size) events
        (fun s event => s.keeps Spe.kicksOpen event = true) := by
  have hpos : 0 < size := by omega
  refine hrun.always_iff_eachStep (I := fun s => ∀ e, (s.spe e).Inv size)
    (fun e => .init (memory e) hpos) ?_ ?_ (fun _ hinv e => (hinv e).host.unfilled)
  · intro before event after hinv hopen hstep e
    obtain ⟨hnested, hstep⟩ := restrict_eq_some.mp hstep
    obtain ⟨_, hsame⟩ | ⟨action, haction, hspe⟩ := step_spe hstep e
    · rw [hsame]
      exact hinv e
    · exact (hinv e).step hpos
        (Spe.safe_of_nested (ok_of_keeps hnested haction) (ok_of_keeps hopen haction)) hspe
  · intro before event after hinv hopen hstep hunfilled
    obtain ⟨_, hstep⟩ := restrict_eq_some.mp hstep
    obtain ⟨e, action, haction, hclosed⟩ := exists_of_not_keeps hopen
    obtain ⟨hnone, _⟩ | ⟨action', haction', hspe⟩ := step_spe hstep e
    · rw [hnone] at haction
      cases haction
    · obtain rfl := Option.some.inj (haction'.symm.trans haction)
      exact (hinv e).unfilled_of_kick hsize hclosed hspe (hunfilled e)

theorem balanced_of_reaches (hsize : 0 < size)
    (hrun : Reaches (restrict (keeps Spe.kicksOpen) (restrict (keeps Spe.nested) (step bodies)))
      (.init memory size) events stop) (e : Fin spes) : (stop.spe e).Balanced size := by
  refine hrun.invariant (I := fun s => ∀ e, (s.spe e).Balanced size)
    (fun e => .init (memory e) hsize) ?_ e
  intro before event after hbefore hstep e
  obtain ⟨hopen, hstep⟩ := restrict_eq_some.mp hstep
  obtain ⟨hnested, hstep⟩ := restrict_eq_some.mp hstep
  obtain ⟨_, hsame⟩ | ⟨action, haction, hspe⟩ := step_spe hstep e
  · rw [hsame]
    exact hbefore e
  · exact (hbefore e).step hsize (ok_of_keeps hnested haction) (ok_of_keeps hopen haction) hspe

theorem debt_of_reaches (hsize : 0 < size) {start : System world spes} {e : Fin spes}
    (hstart : (start.spe e).Balanced size ∧ (start.spe e).level < (start.spe e).log.begun.length)
    (hrun : Reaches (restrict (keeps Spe.kicksOpen) (restrict (keeps Spe.nested) (step bodies)))
      start events stop) : (stop.spe e).level < (stop.spe e).log.begun.length := by
  refine (hrun.invariant (I := fun s => (s.spe e).Balanced size ∧
    (s.spe e).level < (s.spe e).log.begun.length) hstart ?_).2
  rintro before event after ⟨hbalanced, hdebt⟩ hstep
  obtain ⟨hopen, hstep⟩ := restrict_eq_some.mp hstep
  obtain ⟨hnested, hstep⟩ := restrict_eq_some.mp hstep
  obtain ⟨_, hsame⟩ | ⟨action, haction, hspe⟩ := step_spe hstep e
  · rw [hsame]
    exact ⟨hbalanced, hdebt⟩
  · exact ⟨hbalanced.step hsize (ok_of_keeps hnested haction) (ok_of_keeps hopen haction) hspe,
      hbalanced.debt hdebt (ok_of_keeps hnested haction) (ok_of_keeps hopen haction) hspe⟩

/-- Matched begins and kicks, in any order and on any number of SPEs, publish exactly
the begun slots, and never an unfilled one, exactly when no begin finds its SPE with
an un-kicked task. -/
theorem published_eq_begun_iff (hsize : 2 ≤ size) (bodies : TaskBodies world)
    (memory : Fin spes → Memory world) (events : List (Event spes)) (stop : System world spes)
    (hrun : Reaches (restrict (keeps Spe.nested) (step bodies)) (.init memory size) events stop)
    (hall : ∀ e, (stop.spe e).log.kicks.length = (stop.spe e).log.begun.length) :
    ((∀ e, (stop.spe e).log.published = (stop.spe e).log.begun) ∧
        Always (restrict (keeps Spe.nested) (step bodies)) (.init memory size) events
          (fun s => ∀ e, (s.spe e).log.unfilled = [])) ↔
      EachStep (restrict (keeps Spe.nested) (step bodies)) (.init memory size) events
        (fun s event => s.keeps Spe.beginsKicked event = true) := by
  have hpos : 0 < size := by omega
  constructor
  · rintro ⟨_, hunfilled⟩ done event state hdone hstate
    by_contra hbegins
    have hopen := (unfilled_iff_kicksOpen hsize hrun).mp hunfilled
    -- All kicks are sound, so the balance survives to the end of the run.
    have hsound := reaches_restrict_iff.mpr ⟨hrun, hopen⟩
    obtain ⟨before, after, rest, hbefore, hstep, hrest⟩ := hsound.split hdone
    obtain rfl := (reaches_restrict_iff.mp hbefore).1.unique hstate
    obtain ⟨e, action, haction, hopenTask⟩ := exists_of_not_keeps hbegins
    have hdebt : (after.spe e).Balanced size ∧ (after.spe e).level < (after.spe e).log.begun.length := by
      obtain ⟨hkicks, hstep⟩ := restrict_eq_some.mp hstep
      obtain ⟨hnested, hstep⟩ := restrict_eq_some.mp hstep
      have hbalanced := balanced_of_reaches hpos hbefore e
      obtain ⟨hnone, _⟩ | ⟨action', haction', hspe⟩ := step_spe hstep e
      · rw [hnone] at haction
        cases haction
      · obtain rfl := Option.some.inj (haction'.symm.trans haction)
        exact ⟨hbalanced.step hpos (ok_of_keeps hnested haction) (ok_of_keeps hkicks haction) hspe,
          hbalanced.debt_of_begin hopenTask (ok_of_keeps hnested haction) hspe⟩
    have hlast := debt_of_reaches hpos hdebt hrest
    have := (stop.spe e).length_kicks_le_level
    have := hall e
    omega
  · intro hbegins
    have hinStep : Always (restrict (keeps Spe.nested) (step bodies)) (.init memory size) events
        (fun s => ∀ e, (s.spe e).InStep size) := by
      refine hbegins.always (fun e => .init (memory e) hpos) ?_
      intro before event after hbefore hkicked hstep e
      obtain ⟨hnested, hstep⟩ := restrict_eq_some.mp hstep
      obtain ⟨_, hsame⟩ | ⟨action, haction, hspe⟩ := step_spe hstep e
      · rw [hsame]
        exact hbefore e
      · exact (hbefore e).step hpos (ok_of_keeps hnested haction) (ok_of_keeps hkicked haction) hspe
    refine ⟨?_, ?_⟩
    · intro e
      exact (hinStep events stop (List.prefix_refl _) hrun e).published_eq_begun (hall e)
    · intro done state hdone hstate e
      exact (hinStep done state hdone hstate e).inv.host.unfilled

/-- Two tasks begun on the only SPE, then both kicked. -/
def nestedPair : List (Event 1) :=
  [.fifoBegin messages.ADD 0, .selectfifo, .fifoBegin messages.ADD 1, .selectfifo] ++ kickOnly ++ kickOnly

theorem published_eq_begun_iff_nestedPair : ∃ stop,
    Reaches (restrict (keeps Spe.nested) (step Spe.idleBodies)) (.init (fun _ => Spe.zeroed) 8)
        nestedPair stop ∧
      (((∀ e, (stop.spe e).log.published = (stop.spe e).log.begun) ∧
          Always (restrict (keeps Spe.nested) (step Spe.idleBodies)) (.init (fun _ => Spe.zeroed) 8)
            nestedPair (fun s => ∀ e, (s.spe e).log.unfilled = [])) ↔
        EachStep (restrict (keeps Spe.nested) (step Spe.idleBodies)) (.init (fun _ => Spe.zeroed) 8)
          nestedPair (fun s event => s.keeps Spe.beginsKicked event = true)) := by
  have hvalue : (nestedPair.foldlM (restrict (keeps Spe.nested) (step Spe.idleBodies))
      (.init (fun _ => Spe.zeroed) 8)).map
      (fun s => ((s.spe 0).log.kicks.length, (s.spe 0).log.begun.length)) = some (2, 2) := by
    decide +kernel
  obtain ⟨stop, hrun, hobserved⟩ := exists_reaches_of_observe hvalue
  simp only [Prod.mk.injEq] at hobserved
  have hall : ∀ e, (stop.spe e).log.kicks.length = (stop.spe e).log.begun.length := by
    intro e
    rw [Subsingleton.elim e 0, hobserved.1, hobserved.2]
  exact ⟨stop, hrun, published_eq_begun_iff (by decide) Spe.idleBodies _ nestedPair stop hrun hall⟩

/-- The first kick publishes both tasks. The second finds nothing open and publishes
slot 2, which nothing was written to. -/
theorem nestedPair_unfilled : ∃ stop,
    Reaches (restrict (keeps Spe.nested) (step Spe.idleBodies)) (.init (fun _ => Spe.zeroed) 8)
        nestedPair stop ∧
      (stop.spe 0).log.kicks.length = (stop.spe 0).log.begun.length ∧
      (stop.spe 0).log.begun = [0, 1] ∧ (stop.spe 0).log.published = [0, 1, 2] ∧
      (stop.spe 0).log.unfilled = [2] := by
  have hvalue : (nestedPair.foldlM (restrict (keeps Spe.nested) (step Spe.idleBodies))
      (.init (fun _ => Spe.zeroed) 8)).map
      (fun s => (decide ((s.spe 0).log.kicks.length = (s.spe 0).log.begun.length),
        (s.spe 0).log.begun, (s.spe 0).log.published, (s.spe 0).log.unfilled)) =
      some (true, [0, 1], [0, 1, 2], [2]) := by
    decide +kernel
  obtain ⟨stop, hrun, hobserved⟩ := exists_reaches_of_observe hvalue
  simp only [Prod.mk.injEq, decide_eq_true_eq] at hobserved
  exact ⟨stop, hrun, hobserved⟩

end System

end speutils.fifo
