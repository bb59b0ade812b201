import SpeUtils.Fifo.Matched
import SpeUtils.Fifo.System

open cyclic run speutils.ring speutils.taskmanager

namespace speutils.fifo

/-- Where the application's thread stands in `send_front`, with the message it has read:
outside, before `__lwarx`, before the store of the state word, and before `__stwcx`. -/
inductive Sending where
  | outside
  | entered (message : Nat)
  | reserved (message : Nat)
  | stored (message : Nat)
  deriving DecidableEq

/-- One instruction of `send_front`, or a whole action of anybody else. A conditional
store fails or succeeds as the memory likes. -/
inductive Instruction where
  | send_front
  | lwarx
  | storeState
  | stwcx (success : Bool)
  | act (action : Action)
  deriving DecidableEq

def Instruction.action : Instruction → Option Action
  | .act action => some action
  | .send_front | .lwarx | .storeState | .stwcx _ => none

/-- `if (atomic->state != 1) atomic->state = 1`. -/
def HostSpe.storeState (host : HostSpe) : HostSpe :=
  let atomic := host.fifos.atomic
  let atomic := if atomic.state ≠ 1 then { atomic with state := 1 } else atomic
  { host with fifos := { host.fifos with atomic } }

/-- A successful `__stwcx`. -/
def HostSpe.storeCount (host : HostSpe) (message : Nat) : HostSpe :=
  { host with fifos := { host.fifos with atomic := { host.fifos.atomic with count := message } } }

/-- One SPE with `send_front` taken apart. -/
structure Publishing (world : Type) where
  spe : Spe world
  sending : Sending

namespace Spe

variable {world : Type}

/-- A kick is recorded as soon as the SPU can read it: at the store with which the line
becomes what `send_front` leaves. -/
def recordKick (s : Spe world) (message : Nat) : Spe world :=
  if s.kicking = false ∧ s.host.fifos.atomic = { count := message, state := 1 } then
    { s with
      kicking := true
      log := s.log.kick s.host.ringCTX.size message (s.host.fifos.task message) }
  else s

section Steps

variable {s s' : Spe world} {bodies : TaskBodies world} {action : Action}

/-- Nothing that the other parties do bears on a publication. -/
theorem step_not_ofThread (hthread : action.ofThread = false) (hstep : s.step bodies action = some s') :
    s'.kicking = s.kicking ∧ s'.log.kicked = s.log.kicked ∧ s'.log.begun = s.log.begun ∧
      s'.host.ringCTX.front = s.host.ringCTX.front := by
  obtain ⟨hlog, hkicking⟩ := step_record hstep
  rw [hlog, hkicking]
  cases action with
  | runStage =>
    obtain ⟨hbegun, hkicked, _⟩ := s.log.stage_kicks (s.spu, s.host.fifos)
    obtain rfl := step_runStage.mp hstep
    exact ⟨rfl, hkicked, hbegun, rfl⟩
  | arrive index =>
    obtain ⟨m, _, rfl⟩ := step_arrive.mp hstep
    exact ⟨rfl, rfl, rfl, rfl⟩
  | reclaim =>
    obtain ⟨_, rfl⟩ := step_reclaim.mp hstep
    exact ⟨rfl, rfl, rfl, ringIncBack_front _⟩
  | fifoBegin command handle | fifoAdd arg | send_front | closeFront | fifoRegisterProgram addr bytes =>
    cases hthread

/-- Only a publication writes the line. -/
theorem step_atomic (hmatched : s.matched action = true) (haction : action ≠ .send_front)
    (hstep : s.step bodies action = some s') : s'.host.fifos.atomic = s.host.fifos.atomic := by
  cases action with
  | fifoBegin command handle =>
    obtain ⟨_, rfl⟩ := step_fifoBegin.mp hstep
    exact s.host.fifoBegin_atomic command handle
  | fifoAdd arg =>
    obtain ⟨_, rfl⟩ := step_fifoAdd.mp hstep
    unfold HostSpe.fifoAdd
    split <;> rfl
  | send_front => exact absurd rfl haction
  | closeFront =>
    obtain ⟨_, rfl⟩ := step_closeFront.mp hstep
    rfl
  | fifoRegisterProgram addr bytes => cases hmatched
  | runStage =>
    obtain rfl := step_runStage.mp hstep
    exact runStage_atomic bodies (s.spu, s.host.fifos)
  | arrive index =>
    obtain ⟨m, harrive, rfl⟩ := step_arrive.mp hstep
    exact (arrive_kept harrive).atomic
  | reclaim =>
    obtain ⟨_, rfl⟩ := step_reclaim.mp hstep
    rfl

theorem send_front_eq (host : HostSpe) :
    host.send_front =
      { host with fifos := { host.fifos with atomic := { count := ringGetFront host.ringCTX, state := 1 } } } := by
  have hatomic := host.send_front_atomic
  simp only [HostSpe.send_front] at hatomic ⊢
  rw [hatomic]

/-- The store that makes the line readable is the whole of `send_front`. -/
theorem step_recordKick {host : HostSpe} {message : Nat} (hidle : s.kicking = false)
    (hmessage : message = ringGetFront s.host.ringCTX)
    (hhost : host = { s.host with fifos := { s.host.fifos with atomic := { count := message, state := 1 } } }) :
    s.step bodies .send_front = some (({ s with host } : Spe world).recordKick message) := by
  subst hmessage hhost
  refine step_send_front.mpr ⟨hidle, ?_⟩
  rw [recordKick, if_pos ⟨hidle, rfl⟩, send_front_eq]
  rfl

end Steps

end Spe

namespace Publishing

variable {world : Type}

def init (memory : Memory world) (size : Nat) : Publishing world where
  spe := .init memory size
  sending := .outside

def step (bodies : TaskBodies world) (s : Publishing world) : Instruction → Option (Publishing world)
  | .send_front =>
    if s.sending = .outside ∧ s.spe.kicking = false then
      some { s with sending := .entered (ringGetFront s.spe.host.ringCTX) }
    else none
  | .lwarx =>
    match s.sending with
    | .entered message => some { s with sending := .reserved message }
    | .outside | .reserved _ | .stored _ => none
  | .storeState =>
    match s.sending with
    | .reserved message =>
      let spe := { s.spe with host := s.spe.host.storeState }
      some { spe := spe.recordKick message, sending := .stored message }
    | .outside | .entered _ | .stored _ => none
  | .stwcx success =>
    match s.sending with
    | .stored message =>
      if success then
        let spe := { s.spe with host := s.spe.host.storeCount message }
        some { spe := spe.recordKick message, sending := .outside }
      else some { s with sending := .entered message }
    | .outside | .entered _ | .reserved _ => none
  | .act action =>
    if action ≠ .send_front ∧ (action.ofThread = true → s.sending = .outside) then
      (s.spe.step bodies action).map fun spe => { s with spe }
    else none

/-- Each task is begun and kicked before the next is begun. -/
def matched (s : Publishing world) : Instruction → Bool
  | .send_front => s.spe.log.kicked < s.spe.log.begun.length
  | .act action => s.spe.matched action
  | .lwarx | .storeState | .stwcx _ => true

/-- A kick that the SPU can read while `send_front` is still trying. -/
def early (s : Publishing world) : Nat := if s.sending = .outside then 0 else s.spe.kicking.toNat

/-- What `send_front` relies on from its first instruction to its last. -/
structure Trying (s : Publishing world) (message : Nat) : Prop where
  front : message = ringGetFront s.spe.host.ringCTX
  begun : s.spe.kicking = false → s.spe.log.kicked < s.spe.log.begun.length
  line : s.spe.kicking = true → s.spe.host.fifos.atomic = { count := message, state := 1 }

/-- The invariant: the line's state word is one, or the line is new. -/
structure Sound (size : Nat) (s : Publishing world) : Prop where
  matched : s.spe.Matched size
  word : s.spe.host.fifos.atomic = { count := 0, state := 0 } ∨ s.spe.host.fifos.atomic.state = 1
  trying : ∀ message, s.sending = .entered message ∨ s.sending = .reserved message ∨ s.sending = .stored message →
    s.Trying message
  stored : ∀ message, s.sending = .stored message → s.spe.host.fifos.atomic.state = 1

section Steps

variable {size : Nat} {s s' : Publishing world} {bodies : TaskBodies world}

theorem step_lwarx :
    s.step bodies .lwarx = some s' ↔
      ∃ message, s.sending = .entered message ∧ { s with sending := .reserved message } = s' := by
  cases hsending : s.sending <;> simp [step, hsending]

theorem step_storeState :
    s.step bodies .storeState = some s' ↔
      ∃ message, s.sending = .reserved message ∧
        { spe := ({ s.spe with host := s.spe.host.storeState } : Spe world).recordKick message
          sending := .stored message } = s' := by
  cases hsending : s.sending <;> simp [step, hsending]

theorem step_stwcx {success : Bool} :
    s.step bodies (.stwcx success) = some s' ↔
      ∃ message, s.sending = .stored message ∧
        (if success then
          { spe := ({ s.spe with host := s.spe.host.storeCount message } : Spe world).recordKick message
            sending := .outside }
        else { s with sending := .entered message }) = s' := by
  cases hsending : s.sending <;> cases success <;> simp [step, hsending]

theorem step_act {action : Action} :
    s.step bodies (.act action) = some s' ↔
      (action ≠ .send_front ∧ (action.ofThread = true → s.sending = .outside)) ∧
        ∃ spe, s.spe.step bodies action = some spe ∧ { s with spe } = s' := by
  simp only [step, Option.ite_none_right_eq_some, Option.map_eq_some_iff]

theorem Sound.init (memory : Memory world) (hsize : 0 < size) : Sound size (.init memory size) where
  matched := .init memory hsize
  word := .inl rfl
  trying := by simp [Publishing.init]
  stored := by simp [Publishing.init]

/-- The first message is zero, which a new line reads already. -/
theorem Sound.first (h : s.Sound size) {message : Nat} (htrying : s.Trying message) (hidle : s.spe.kicking = false)
    (hline : s.spe.host.fifos.atomic = { count := 0, state := 0 }) : message = 0 := by
  have hnone : s.spe.log.kicked = 0 := by
    by_contra hkicked
    have hpublished := h.matched.inv.host.line
    rw [Publishes, if_neg hkicked, hline] at hpublished
    exact hpublished.1 rfl
  have hfront := (h.matched.frontPosition hidle).front_eq
  rw [htrying.front, ringGetFront, hfront, hnone, Nat.zero_mod]

/-- A store by `send_front` either changes nothing or publishes. -/
theorem Trying.store (bodies : TaskBodies world) {host : HostSpe} {message : Nat} (h : s.Trying message)
    (hhost : host = s.spe.host ∨
      host = { s.spe.host with fifos := { s.spe.host.fifos with atomic := { count := message, state := 1 } } }) :
    ({ s.spe with host } : Spe world).recordKick message = s.spe ∨
      s.spe.kicking = false ∧
        s.spe.step bodies .send_front = some (({ s.spe with host } : Spe world).recordKick message) := by
  cases hkicking : s.spe.kicking with
  | true =>
    have hline : { s.spe.host with
        fifos := { s.spe.host.fifos with atomic := { count := message, state := 1 } } } = s.spe.host := by
      rw [← h.line hkicking]
    have hsame : host = s.spe.host := by
      obtain hhost | hhost := hhost
      · exact hhost
      · rw [hhost, hline]
    left
    rw [hsame, Spe.recordKick, if_neg (by simp [hkicking])]
  | false =>
    obtain rfl | hhost := hhost
    · by_cases hline : s.spe.host.fifos.atomic = { count := message, state := 1 }
      · refine .inr ⟨rfl, Spe.step_recordKick hkicking h.front ?_⟩
        rw [← hline]
      · left
        rw [Spe.recordKick, if_neg (by simp [hline])]
    · exact .inr ⟨rfl, Spe.step_recordKick hkicking h.front hhost⟩

/-- What follows for the invariant, and for the whole actions that it amounts to. -/
theorem Sound.store (bodies : TaskBodies world) {host : HostSpe} {message : Nat} (h : s.Sound size)
    (hsize : 0 < size) (htrying : s.Trying message) (sending : Sending)
    (hhost : host = s.spe.host ∨
      host = { s.spe.host with fifos := { s.spe.host.fifos with atomic := { count := message, state := 1 } } }) :
    let spe := ({ s.spe with host } : Spe world).recordKick message
    spe.Matched size ∧ ({ spe, sending } : Publishing world).Trying message ∧
      ∃ actions, Reaches (restrict Spe.matched (Spe.step bodies)) s.spe actions spe ∧
        actions.filter (· ≠ .send_front) = [] ∧
        actions.count .send_front + s.spe.kicking.toNat = spe.kicking.toNat := by
  intro spe
  obtain hsame | ⟨hidle, hsends⟩ := htrying.store bodies hhost
  · change spe = s.spe at hsame
    rw [hsame]
    exact ⟨h.matched, ⟨htrying.front, htrying.begun, htrying.line⟩, [], reaches_nil.mpr rfl, rfl, by simp⟩
  · change s.spe.step bodies .send_front = some spe at hsends
    have hmatched : s.spe.matched .send_front = true := decide_eq_true (htrying.begun hidle)
    have hkicking := (Spe.step_record hsends).2
    refine ⟨h.matched.step hsize hmatched hsends, ⟨?_, ?_, ?_⟩, [.send_front], ?_, rfl, ?_⟩
    · obtain ⟨_, hspe⟩ := Spe.step_send_front.mp hsends
      rw [← hspe]
      exact htrying.front
    · intro hnone
      rw [hkicking] at hnone
      cases hnone
    · intro _
      obtain ⟨_, hspe⟩ := Spe.step_send_front.mp hsends
      rw [← hspe, htrying.front]
      exact s.spe.host.send_front_atomic
    · exact reaches_cons.mpr ⟨spe, restrict_eq_some.mpr ⟨hmatched, hsends⟩, reaches_nil.mpr rfl⟩
    · rw [hidle, hkicking]
      rfl

theorem recordKick_host (spe : Spe world) (message : Nat) : (spe.recordKick message).host = spe.host := by
  unfold Spe.recordKick
  split <;> rfl

/-- The whole actions that one instruction amounts to. -/
def Simulates (bodies : TaskBodies world) (s : Publishing world) (instruction : Instruction)
    (s' : Publishing world) : Prop :=
  ∃ actions, Reaches (restrict Spe.matched (Spe.step bodies)) s.spe actions s'.spe ∧
    actions.filter (· ≠ .send_front) = instruction.action.toList ∧
    actions.count .send_front + s.early = [instruction].count (.stwcx true) + s'.early

/-- An instruction that the other parties do not notice. -/
theorem simulates_none {sending : Sending} {instruction : Instruction} (hnone : instruction.action = none)
    (hearly : s.early = [instruction].count (.stwcx true) + ({ s with sending } : Publishing world).early) :
    Simulates bodies s instruction { s with sending } :=
  ⟨[], reaches_nil.mpr rfl, by rw [hnone]; rfl, by simpa using hearly⟩

theorem Sound.storeState (h : s.Sound size) (hsize : 0 < size) (hstep : s.step bodies .storeState = some s') :
    s'.Sound size ∧ Simulates bodies s .storeState s' := by
  obtain ⟨message, hsending, rfl⟩ := step_storeState.mp hstep
  have htrying := h.trying message (.inr (.inl hsending))
  have hword : s.spe.host.storeState.fifos.atomic.state = 1 := by
    unfold HostSpe.storeState
    dsimp only
    split
    · rfl
    · rename_i hstate
      exact Decidable.not_not.mp hstate
  have hhost : s.spe.host.storeState = s.spe.host ∨ s.spe.host.storeState =
      { s.spe.host with fifos := { s.spe.host.fifos with atomic := { count := message, state := 1 } } } := by
    obtain hnew | hstate := h.word
    · right
      have hzero : s.spe.kicking = false → message = 0 := fun hidle => h.first htrying hidle hnew
      cases hkicking : s.spe.kicking with
      | true =>
        have hline := htrying.line hkicking
        rw [hnew] at hline
        cases hline
      | false =>
        rw [HostSpe.storeState, hnew, hzero hkicking]
        rfl
    · left
      rw [HostSpe.storeState]
      simp only [hstate, ne_eq, not_true_eq_false, if_false]
  obtain ⟨hmatched, hafter, actions, hreaches, hfilter, hcount⟩ :=
    h.store bodies hsize htrying (.stored message) hhost
  refine ⟨⟨hmatched, .inr ?_, ?_, ?_⟩, actions, hreaches, hfilter, ?_⟩
  · rw [recordKick_host]
    exact hword
  · rintro other (hother | hother | hother) <;> cases hother
    exact hafter
  · intro _ _
    rw [recordKick_host]
    exact hword
  · simpa [early, hsending] using hcount

/-- A conditional store that fails is back at the start of the loop. -/
theorem Sound.stwcx (h : s.Sound size) (hsize : 0 < size) {success : Bool}
    (hstep : s.step bodies (.stwcx success) = some s') : s'.Sound size ∧ Simulates bodies s (.stwcx success) s' := by
  obtain ⟨message, hsending, rfl⟩ := step_stwcx.mp hstep
  have htrying := h.trying message (.inr (.inr hsending))
  have hword := h.stored message hsending
  cases success with
  | false =>
    refine ⟨⟨h.matched, h.word, ?_, nofun⟩, simulates_none rfl ?_⟩
    · rintro other (hother | hother | hother) <;> cases hother
      exact ⟨htrying.front, htrying.begun, htrying.line⟩
    · simp [early, hsending]
  | true =>
    have hhost : s.spe.host.storeCount message =
        { s.spe.host with fifos := { s.spe.host.fifos with atomic := { count := message, state := 1 } } } := by
      rw [HostSpe.storeCount, ← hword]
    obtain ⟨hmatched, _, actions, hreaches, hfilter, hcount⟩ :=
      h.store bodies hsize htrying .outside (.inr hhost)
    have hkicking : (({ s.spe with host := s.spe.host.storeCount message } : Spe world).recordKick message).kicking =
        true := by
      rw [hhost, Spe.recordKick]
      split
      · rfl
      · rename_i hnone
        simpa using hnone
    refine ⟨⟨hmatched, .inr ?_, by simp, by simp⟩, actions, hreaches, hfilter, ?_⟩
    · rw [if_pos rfl, recordKick_host]
      exact hword
    · rw [hkicking] at hcount
      simpa [early, hsending] using hcount

/-- The other parties act as they do between whole calls. -/
theorem Sound.act {action : Action} (h : s.Sound size) (hsize : 0 < size) (hmatched : s.spe.matched action = true)
    (hstep : s.step bodies (.act action) = some s') : s'.Sound size ∧ Simulates bodies s (.act action) s' := by
  obtain ⟨⟨haction, hblocked⟩, spe, hspe, rfl⟩ := step_act.mp hstep
  have hatomic := Spe.step_atomic hmatched haction hspe
  have hothers : ∀ {message : Nat}, s.sending = .entered message ∨ s.sending = .reserved message ∨
      s.sending = .stored message → action.ofThread = false := by
    intro message hsending
    by_contra hthread
    rw [hblocked (by simpa using hthread)] at hsending
    simp at hsending
  refine ⟨⟨h.matched.step hsize hmatched hspe, hatomic ▸ h.word, ?_, ?_⟩, [action], ?_, ?_, ?_⟩
  · intro message hsending
    have htrying := h.trying message hsending
    obtain ⟨hkicking, hkicked, hbegun, hfront⟩ := Spe.step_not_ofThread (hothers hsending) hspe
    refine ⟨htrying.front.trans hfront.symm, ?_, ?_⟩
    · rw [hkicking, hkicked, hbegun]
      exact htrying.begun
    · rw [hkicking, hatomic]
      exact htrying.line
  · intro message hsending
    rw [hatomic]
    exact h.stored message hsending
  · exact reaches_cons.mpr ⟨spe, restrict_eq_some.mpr ⟨hmatched, hspe⟩, reaches_nil.mpr rfl⟩
  · simp [Instruction.action, haction]
  · by_cases hsending : s.sending = .outside
    · simp [early, hsending, haction]
    · have hthread : action.ofThread = false := by
        by_contra hthread
        exact hsending (hblocked (by simpa using hthread))
      simp [early, hsending, haction, (Spe.step_not_ofThread hthread hspe).1]

theorem Sound.step {instruction : Instruction} (h : s.Sound size) (hsize : 0 < size)
    (hmatched : s.matched instruction = true) (hstep : s.step bodies instruction = some s') :
    s'.Sound size ∧ Simulates bodies s instruction s' := by
  cases instruction with
  | send_front =>
    simp only [Publishing.step, Option.ite_none_right_eq_some, Option.some.injEq] at hstep
    obtain ⟨⟨hsending, hidle⟩, rfl⟩ := hstep
    refine ⟨⟨h.matched, h.word, ?_, nofun⟩, simulates_none rfl ?_⟩
    · rintro message (hother | hother | hother) <;> cases hother
      exact ⟨rfl, fun _ => of_decide_eq_true hmatched, fun hkicking => Bool.noConfusion (hidle.symm.trans hkicking)⟩
    · simp [early, hsending, hidle]
  | lwarx =>
    obtain ⟨message, hsending, rfl⟩ := step_lwarx.mp hstep
    have htrying := h.trying message (.inl hsending)
    refine ⟨⟨h.matched, h.word, ?_, nofun⟩, simulates_none rfl ?_⟩
    · rintro other (hother | hother | hother) <;> cases hother
      exact ⟨htrying.front, htrying.begun, htrying.line⟩
    · simp [early, hsending]
  | storeState => exact h.storeState hsize hstep
  | stwcx success => exact h.stwcx hsize hstep
  | act action => exact h.act hsize hmatched hstep

end Steps

/-- A publication takes effect at once. However often its conditional store fails and
whatever the SPU and the monitor do in between, a run with `send_front` taken apart is a run
of whole actions: the same actions of all parties in the same order, with one `send_front`
for each that has returned, and one for a last one that the SPU can read already. -/
theorem publishes_at_once {size : Nat} (hsize : 0 < size) (bodies : TaskBodies world) (memory : Memory world)
    (instructions : List Instruction) (s : Publishing world)
    (hrun : Reaches (restrict matched (step bodies)) (.init memory size) instructions s) :
    ∃ actions, Reaches (restrict Spe.matched (Spe.step bodies)) (.init memory size) actions s.spe ∧
      actions.filter (· ≠ .send_front) = instructions.filterMap Instruction.action ∧
      actions.count .send_front = instructions.count (.stwcx true) + s.early := by
  suffices hsound : s.Sound size ∧ ∃ actions,
      Reaches (restrict Spe.matched (Spe.step bodies)) (.init memory size) actions s.spe ∧
        actions.filter (· ≠ .send_front) = instructions.filterMap Instruction.action ∧
        actions.count .send_front = instructions.count (.stwcx true) + s.early from hsound.2
  induction instructions using List.reverseRecOn generalizing s with
  | nil =>
    obtain rfl := reaches_nil.mp hrun
    exact ⟨.init memory hsize, [], reaches_nil.mpr rfl, rfl, rfl⟩
  | append_singleton instructions instruction ih =>
    obtain ⟨before, hbefore, hlast⟩ := reaches_snoc.mp hrun
    obtain ⟨hmatched, hstep⟩ := restrict_eq_some.mp hlast
    obtain ⟨hsound, actions, hactions, hfilter, hcount⟩ := ih before hbefore
    obtain ⟨hafter, more, hmore, hmoreFilter, hmoreCount⟩ := hsound.step hsize hmatched hstep
    refine ⟨hafter, actions ++ more, reaches_append.mpr ⟨before.spe, hactions, hmore⟩, ?_, ?_⟩
    · rw [List.filter_append, hfilter, hmoreFilter, List.filterMap_append]
      cases instruction <;> rfl
    · rw [List.count_append, List.count_append]
      omega

/-- A kick whose first conditional store fails after the SPU has fetched the task. -/
def retried : List Instruction :=
  [.act (.fifoBegin messages.ADD 0), .send_front, .lwarx, .storeState, .act .runStage, .stwcx false, .lwarx,
    .storeState, .stwcx true, .act .closeFront]

theorem publishes_at_once_retried : ∃ s : Publishing Unit,
    Reaches (restrict matched (step Spe.idleBodies)) (.init Spe.zeroed 2) retried s ∧
      s.spe.log.fetched = [1] ∧ s.early = 0 ∧
      ∃ actions, Reaches (restrict Spe.matched (Spe.step Spe.idleBodies)) (.init Spe.zeroed 2) actions s.spe ∧
        actions.filter (· ≠ .send_front) = [.fifoBegin messages.ADD 0, .runStage, .closeFront] ∧
        actions.count .send_front = 1 := by
  have hvalue : (retried.foldlM (restrict matched (step Spe.idleBodies)) (.init Spe.zeroed 2)).map
      (fun s => (s.spe.log.fetched, s.early)) = some ([1], 0) := by decide +kernel
  obtain ⟨s, hrun, hends⟩ := exists_reaches_of_observe hvalue
  simp only [Prod.mk.injEq] at hends
  obtain ⟨actions, hactions, hfilter, hcount⟩ :=
    publishes_at_once (by decide) Spe.idleBodies Spe.zeroed retried s hrun
  rw [hends.2] at hcount
  exact ⟨s, hrun, hends.1, hends.2, actions, hactions, hfilter, hcount⟩

end Publishing

end speutils.fifo
