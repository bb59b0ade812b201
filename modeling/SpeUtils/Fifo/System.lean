import SpeUtils.Fifo.Spe

open cyclic run speutils.ring speutils.taskmanager

namespace speutils.fifo

/-- Where the application's thread stands. `selectfifo` is the loop that `fifoBegin`
waits in, `fifoKick` the point between the publication and `ringIncFront`,
`fifoRegisterProgram` its loop about to test `spe`, and `fifoIsEmpty i` the scan
about to test ring `i`. -/
inductive Thread (spes : Nat) where
  | idle
  | selectfifo (command handle : BitVec 32)
  | fifoKick (spe : Fin spes)
  | fifoRegisterProgram (addr : BitVec 64) (size : BitVec 32) (spe : Nat)
  | fifoIsEmpty (i : Nat)
  deriving DecidableEq

/-- `struct host_fifo_s` with one column for each SPE, the two threads that work on
it, and the result of the last `fifoIsEmpty`. -/
structure System (world : Type) (spes : Nat) where
  current_spe : Nat
  thread : Thread spes
  monitor : Nat
  isEmpty : Option Bool
  spe : Fin spes → Spe world

/-- The steps of the whole system: calls by the application's thread, the turns of
its three loops, the stages and transfers of each SPU, and the tests of the
monitor. A turn of `register` is one step, since the other threads read nothing of
it but the count that it publishes. -/
inductive Event (spes : Nat) where
  | fifoBegin (command handle : BitVec 32)
  | selectfifo
  | fifoAdd (spe : Fin spes) (arg : BitVec 32)
  | fifoKick (spe : Fin spes)
  | kicked
  | fifoRegisterProgram (addr : BitVec 64) (size : BitVec 32)
  | register
  | fifoIsEmpty
  | scan
  | runStage (spe : Fin spes)
  | arrive (spe : Fin spes) (index : Nat)
  | fifothread
  deriving DecidableEq

/-- The steps on one SPE that the application's thread takes. -/
def Action.ofThread : Action → Bool
  | .fifoBegin _ _ | .fifoAdd _ | .send_front | .closeFront | .fifoRegisterProgram _ _ => true
  | .runStage | .arrive _ | .reclaim => false

/-- The steps of the system that the application's thread takes. -/
def Event.ofThread {spes : Nat} : Event spes → Bool
  | .fifoBegin _ _ | .selectfifo | .fifoAdd _ _ | .fifoKick _ | .kicked | .fifoRegisterProgram _ _
  | .register | .fifoIsEmpty | .scan => true
  | .runStage _ | .arrive _ _ | .fifothread => false

namespace System

variable {world : Type} {spes : Nat}

def init (memory : Fin spes → Memory world) (size : Nat) : System world spes where
  current_spe := 0
  thread := .idle
  monitor := 0
  isEmpty := none
  spe := fun e => .init (memory e) size

/-- What an event does to the column of one SPE, if anything. -/
def column (s : System world spes) (event : Event spes) (e : Fin spes) : Option Action :=
  match event with
  | .selectfifo =>
    match s.thread with
    | .selectfifo command handle =>
      if e = s.current_spe ∧ ringHasFree (s.spe e).host.ringCTX then some (.fifoBegin command handle)
      else none
    | .idle | .fifoKick _ | .fifoRegisterProgram _ _ _ | .fifoIsEmpty _ => none
  | .fifoAdd spe arg => if e = spe then some (.fifoAdd arg) else none
  | .fifoKick spe => if e = spe then some .send_front else none
  | .kicked => if s.thread = .fifoKick e then some .closeFront else none
  | .register =>
    match s.thread with
    | .fifoRegisterProgram addr size spe => if e = spe then some (.fifoRegisterProgram addr size) else none
    | .idle | .selectfifo _ _ | .fifoKick _ | .fifoIsEmpty _ => none
  | .runStage spe => if e = spe then some .runStage else none
  | .arrive spe index => if e = spe then some (.arrive index) else none
  | .fifothread => if e = s.monitor ∧ (s.spe e).host.ackReady then some .reclaim else none
  | .fifoBegin _ _ | .fifoRegisterProgram _ _ | .fifoIsEmpty | .scan => none

/-- What an event does outside the columns. `selectfifo`, `fifoRegisterProgram` and
the scan of `fifoIsEmpty` advance by one test of their loop, and so does the
monitor. -/
def control (s : System world spes) (event : Event spes) : Option (System world spes) :=
  match event with
  | .fifoBegin command handle =>
    if s.thread = .idle then
      some { s with current_spe := next spes s.current_spe, thread := .selectfifo command handle }
    else none
  | .selectfifo =>
    match s.thread with
    | .selectfifo _ _ =>
      if h : s.current_spe < spes then
        if ringHasFree (s.spe ⟨s.current_spe, h⟩).host.ringCTX then some { s with thread := .idle }
        else some { s with current_spe := next spes s.current_spe }
      else none
    | .idle | .fifoKick _ | .fifoRegisterProgram _ _ _ | .fifoIsEmpty _ => none
  | .fifoAdd _ _ => if s.thread = .idle then some s else none
  | .fifoKick spe => if s.thread = .idle then some { s with thread := .fifoKick spe } else none
  | .kicked =>
    match s.thread with
    | .fifoKick _ => some { s with thread := .idle }
    | .idle | .selectfifo _ _ | .fifoRegisterProgram _ _ _ | .fifoIsEmpty _ => none
  | .fifoRegisterProgram addr size =>
    if s.thread = .idle then some { s with thread := .fifoRegisterProgram addr size 0 } else none
  | .register =>
    match s.thread with
    | .fifoRegisterProgram addr size spe =>
      if spe < spes then some { s with thread := .fifoRegisterProgram addr size (spe + 1) }
      else some { s with thread := .idle }
    | .idle | .selectfifo _ _ | .fifoKick _ | .fifoIsEmpty _ => none
  | .fifoIsEmpty =>
    if s.thread = .idle then some { s with thread := .fifoIsEmpty 0, isEmpty := none } else none
  | .scan =>
    match s.thread with
    | .fifoIsEmpty i =>
      if h : i < spes then
        if ringHasRemaining (s.spe ⟨i, h⟩).host.ringCTX then
          some { s with thread := .idle, isEmpty := some false }
        else some { s with thread := .fifoIsEmpty (i + 1) }
      else some { s with thread := .idle, isEmpty := some true }
    | .idle | .selectfifo _ _ | .fifoKick _ | .fifoRegisterProgram _ _ _ => none
  | .runStage _ | .arrive _ _ => some s
  | .fifothread =>
    if h : s.monitor < spes then
      if (s.spe ⟨s.monitor, h⟩).host.ackReady then some s
      else some { s with monitor := next spes s.monitor }
    else some s

/-- One column after an event. -/
def columnStep (bodies : TaskBodies world) (s : System world spes) (event : Event spes) (e : Fin spes) :
    Option (Spe world) :=
  match s.column event e with
  | none => some (s.spe e)
  | some action => (s.spe e).step bodies action

def step (bodies : TaskBodies world) (s : System world spes) (event : Event spes) :
    Option (System world spes) :=
  match s.control event with
  | none => none
  | some s' =>
    if h : ∀ e, (s.columnStep bodies event e).isSome then
      some { s' with spe := fun e => (s.columnStep bodies event e).get (h e) }
    else none

/-- A discipline for single SPEs, kept on all of them. -/
def keeps (ok : Spe world → Action → Bool) (s : System world spes) (event : Event spes) : Bool :=
  decide (∀ e, ((s.column event e).all fun action => ok (s.spe e) action) = true)

section Steps

variable {bodies : TaskBodies world} {s s' : System world spes} {event : Event spes}
  {ok : Spe world → Action → Bool}

theorem step_control (hstep : s.step bodies event = some s') :
    ∃ t, s.control event = some t ∧ s'.thread = t.thread ∧ s'.isEmpty = t.isEmpty := by
  unfold step at hstep
  cases hcontrol : s.control event with
  | none => simp [hcontrol] at hstep
  | some t =>
    simp only [hcontrol] at hstep
    split at hstep
    · obtain rfl := Option.some.inj hstep
      exact ⟨t, rfl, rfl, rfl⟩
    · cases hstep

theorem step_columnStep (hstep : s.step bodies event = some s') (e : Fin spes) :
    s.columnStep bodies event e = some (s'.spe e) := by
  unfold step at hstep
  cases hcontrol : s.control event with
  | none => simp [hcontrol] at hstep
  | some t =>
    simp only [hcontrol] at hstep
    split at hstep
    · obtain rfl := Option.some.inj hstep
      simp
    · cases hstep

/-- On each SPE a step of the system is a step of that SPE or none. -/
theorem step_spe (hstep : s.step bodies event = some s') (e : Fin spes) :
    (s.column event e = none ∧ s'.spe e = s.spe e) ∨
      ∃ action, s.column event e = some action ∧ (s.spe e).step bodies action = some (s'.spe e) := by
  have hcolumn := step_columnStep hstep e
  unfold columnStep at hcolumn
  cases haction : s.column event e with
  | none =>
    simp only [haction] at hcolumn
    exact .inl ⟨rfl, (Option.some.inj hcolumn).symm⟩
  | some action =>
    simp only [haction] at hcolumn
    exact .inr ⟨action, rfl, hcolumn⟩

theorem ok_of_keeps (hkeeps : s.keeps ok event = true) {e : Fin spes} {action : Action}
    (haction : s.column event e = some action) : ok (s.spe e) action = true := by
  have hall := of_decide_eq_true hkeeps e
  rw [haction] at hall
  exact hall

theorem exists_of_not_keeps (hkeeps : ¬ s.keeps ok event = true) :
    ∃ e action, s.column event e = some action ∧ ok (s.spe e) action = false := by
  simp only [keeps, decide_eq_true_eq, not_forall] at hkeeps
  obtain ⟨e, hall⟩ := hkeeps
  cases haction : s.column event e with
  | none => simp [haction] at hall
  | some action => exact ⟨e, action, haction, by simpa [haction] using hall⟩

/-- What the steps of a single SPE preserve under a discipline, the system preserves
on each of its SPEs. -/
theorem step_invariant {I : Spe world → Prop}
    (hlocal : ∀ (before after : Spe world) (action : Action), I before → ok before action = true →
      before.step bodies action = some after → I after)
    (hinv : ∀ e, I (s.spe e)) (hkeeps : s.keeps ok event = true)
    (hstep : s.step bodies event = some s') (e : Fin spes) : I (s'.spe e) := by
  obtain ⟨_, hsame⟩ | ⟨action, haction, hspe⟩ := step_spe hstep e
  · rw [hsame]
    exact hinv e
  · exact hlocal (s.spe e) (s'.spe e) action (hinv e) (ok_of_keeps hkeeps haction) hspe

theorem reaches_invariant {start stop : System world spes} {events : List (Event spes)}
    {I : Spe world → Prop}
    (hlocal : ∀ (before after : Spe world) (action : Action), I before → ok before action = true →
      before.step bodies action = some after → I after)
    (hstart : ∀ e, I (start.spe e)) (hrun : Reaches (restrict (keeps ok) (step bodies)) start events stop)
    (e : Fin spes) : I (stop.spe e) := by
  refine hrun.invariant (I := fun s => ∀ e, I (s.spe e)) hstart ?_ e
  intro before event after hbefore hstep
  obtain ⟨hkeeps, hstep⟩ := restrict_eq_some.mp hstep
  exact step_invariant hlocal hbefore hkeeps hstep

variable {t : System world spes} {e : Fin spes}

/-- The SPUs and the monitor leave the application's thread where it is. -/
theorem control_of_not_ofThread (hevent : event.ofThread = false) (hcontrol : s.control event = some t) :
    t.thread = s.thread := by
  cases event with
  | runStage spe | arrive spe index =>
    obtain rfl := Option.some.inj hcontrol
    rfl
  | fifothread =>
    simp only [control] at hcontrol
    split at hcontrol
    · split at hcontrol <;> obtain rfl := Option.some.inj hcontrol <;> rfl
    · obtain rfl := Option.some.inj hcontrol
      rfl
  | fifoBegin command handle | selectfifo | fifoAdd spe arg | fifoKick spe | kicked
  | fifoRegisterProgram addr bytes | register | fifoIsEmpty | scan => cases hevent

/-- On an SPE they take none of the thread's steps. -/
theorem column_of_not_ofThread {action : Action} (hevent : event.ofThread = false)
    (haction : s.column event e = some action) : action.ofThread = false := by
  cases event with
  | runStage spe | arrive spe index | fifothread =>
    simp only [column, Option.ite_none_right_eq_some, Option.some.injEq] at haction
    obtain ⟨_, rfl⟩ := haction
    rfl
  | fifoBegin command handle | selectfifo | fifoAdd spe arg | fifoKick spe | kicked
  | fifoRegisterProgram addr bytes | register | fifoIsEmpty | scan => cases hevent

/-- Inside a kick the thread can only finish it. -/
theorem event_of_kicking (hthread : s.thread = .fifoKick e) (hcontrol : s.control event = some t) :
    event = .kicked ∨ event.ofThread = false := by
  cases event with
  | kicked => exact .inl rfl
  | runStage spe | arrive spe index | fifothread => exact .inr rfl
  | _ => simp [control, hthread] at hcontrol

theorem event_of_send_front (haction : s.column event e = some .send_front) : event = .fifoKick e := by
  cases event with
  | fifoKick spe =>
    simp only [column, Option.ite_none_right_eq_some] at haction
    rw [haction.1]
  | selectfifo | register =>
    simp only [column] at haction
    split at haction <;> simp at haction
  | _ => simp [column] at haction

/-- Only the thread that is inside the kick of an SPE has left its front
unincremented. -/
theorem step_thread_of_kicking (h : ∀ e, (s.spe e).kicking = true → s.thread = .fifoKick e)
    (hstep : s.step bodies event = some s') (hkicking : (s'.spe e).kicking = true) :
    s'.thread = .fifoKick e := by
  obtain ⟨t, hcontrol, hthread, _⟩ := step_control hstep
  rw [hthread]
  obtain ⟨hnone, hsame⟩ | ⟨action, haction, hspe⟩ := step_spe hstep e
  · rw [hsame] at hkicking
    have hbefore := h e hkicking
    obtain rfl | hother := event_of_kicking hbefore hcontrol
    · simp [column, hbefore] at hnone
    · rw [control_of_not_ofThread hother hcontrol, hbefore]
  · rw [(Spe.step_record hspe).2] at hkicking
    by_cases hkick : action = .send_front
    · subst hkick
      obtain rfl := event_of_send_front haction
      simp only [control, Option.ite_none_right_eq_some, Option.some.injEq] at hcontrol
      rw [← hcontrol.2]
    · have hbefore : s.thread = .fifoKick e := by
        apply h e
        cases action with
        | send_front => exact absurd rfl hkick
        | closeFront => cases hkicking
        | fifoBegin command handle | fifoAdd arg | fifoRegisterProgram addr size | runStage
        | arrive index | reclaim => exact hkicking
      obtain rfl | hother := event_of_kicking hbefore hcontrol
      · simp only [column, hbefore, if_true, Option.some.injEq] at haction
        subst haction
        cases hkicking
      · rw [control_of_not_ofThread hother hcontrol, hbefore]

theorem reaches_thread_of_kicking {memory : Fin spes → Memory world} {size : Nat}
    {events : List (Event spes)}
    (hrun : Reaches (restrict (keeps ok) (step bodies)) (.init memory size) events s) (e : Fin spes)
    (hkicking : (s.spe e).kicking = true) : s.thread = .fifoKick e := by
  refine hrun.invariant (I := fun s => ∀ e, (s.spe e).kicking = true → s.thread = .fifoKick e) ?_ ?_ e
    hkicking
  · intro e hkicking
    cases hkicking
  · intro before event after hbefore hstep e
    exact step_thread_of_kicking hbefore (restrict_eq_some.mp hstep).2

end Steps

/-- A whole `fifoKick` on the only SPE. -/
def kickOnly : List (Event 1) := [.fifoKick 0, .kicked]

/-- One task through the whole loop: begun and kicked by the host, run by the SPU,
acknowledged by a transfer that arrives by itself, and reclaimed by the monitor. -/
def roundTrip : List (Event 1) :=
  [.fifoBegin messages.ADD 0, .selectfifo] ++ kickOnly ++
    List.replicate 16 (.runStage 0) ++ [.arrive 0 0, .fifothread]

end System

end speutils.fifo
