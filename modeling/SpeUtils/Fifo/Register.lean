import SpeUtils.Fifo.Invariant
import SpeUtils.Fifo.System

open cyclic run speutils.ring speutils.taskmanager speutils.messages

namespace speutils.fifo

namespace HostSpe

variable (host : HostSpe) (addr : BitVec 64) (bytes : BitVec 32)

/-- The words that a registration stores, all in the slot at the ring's front. -/
theorem fifoRegisterProgram_task_fifo :
    (host.fifoRegisterProgram addr bytes).fifos.task_fifo =
      let base := ringGetFront host.ringCTX * (TASK_SIZE / 4)
      Function.update (Function.update (Function.update (Function.update host.fifos.task_fifo
        (base + 0) REGISTER_PROGRAM) (base + 1) bytes) (base + 2) ((addr >>> 32).setWidth 32))
        (base + 3) (addr.setWidth 32) := rfl

theorem fifoRegisterProgram_task_ne {slot : Nat} (hslot : slot ≠ ringGetFront host.ringCTX) :
    (host.fifoRegisterProgram addr bytes).fifos.task slot = host.fifos.task slot := by
  funext word
  have hword := word.isLt
  simp only [fifo_s.task, fifoRegisterProgram_task_fifo, TASK_SIZE]
  have hne : ∀ i < 4, slot * (128 / 4) + word.val ≠ ringGetFront host.ringCTX * (128 / 4) + i := by
    intro i hi heq
    omega
  rw [Function.update_of_ne (hne 3 (by decide)), Function.update_of_ne (hne 2 (by decide)),
    Function.update_of_ne (hne 1 (by decide)), Function.update_of_ne (hne 0 (by decide))]

theorem fifoRegisterProgram_task_front :
    let task := (host.fifoRegisterProgram addr bytes).fifos.task (ringGetFront host.ringCTX)
    task 0 = REGISTER_PROGRAM ∧ task 1 = bytes ∧ task 2 = (addr >>> 32).setWidth 32 ∧
      task 3 = addr.setWidth 32 := by
  simp only [fifo_s.task, fifoRegisterProgram_task_fifo]
  refine ⟨?_, ?_, ?_, ?_⟩
  · simp
  · simp
  · simp
  · exact Function.update_self _ _ _

end HostSpe

namespace Spe

variable {world : Type} {size : Nat} {s s' before middle after : Spe world} {bodies : TaskBodies world}
  {action : Action} {addr : BitVec 64} {bytes : BitVec 32}

/-- What belongs to the application's thread on one SPE: the ring's front, the open
slot and its words, and what has been begun and published. -/
structure Untouched (before after : Spe world) : Prop where
  front : ringGetFront after.host.ringCTX = ringGetFront before.host.ringCTX
  isKicked : after.host.isKicked = before.host.isKicked
  entry_p : after.host.entry_p = before.host.entry_p
  entry_count : after.host.entry_count = before.host.entry_count
  task_fifo : after.host.fifos.task_fifo = before.host.fifos.task_fifo
  begun : after.log.begun = before.log.begun
  published : after.log.published = before.log.published

theorem Untouched.refl (s : Spe world) : Untouched s s := ⟨rfl, rfl, rfl, rfl, rfl, rfl, rfl⟩

theorem Untouched.trans (h : Untouched before middle) (hafter : Untouched middle after) :
    Untouched before after where
  front := hafter.front.trans h.front
  isKicked := hafter.isKicked.trans h.isKicked
  entry_p := hafter.entry_p.trans h.entry_p
  entry_count := hafter.entry_count.trans h.entry_count
  task_fifo := hafter.task_fifo.trans h.task_fifo
  begun := hafter.begun.trans h.begun
  published := hafter.published.trans h.published

theorem Untouched.task (h : Untouched before after) (slot : Nat) :
    after.host.fifos.task slot = before.host.fifos.task slot := by
  funext word
  simp only [fifo_s.task, h.task_fifo]

/-- The SPU and the monitor leave alone what belongs to the application's thread. -/
theorem untouched_of_not_ofThread (haction : action.ofThread = false)
    (hstep : s.step bodies action = some s') : Untouched s s' := by
  cases action with
  | runStage =>
    obtain rfl := step_runStage.mp hstep
    have hlog : (s.log.stage (s.spu, s.host.fifos)).begun = s.log.begun ∧
        (s.log.stage (s.spu, s.host.fifos)).published = s.log.published := by
      unfold Ledger.stage
      split <;> exact ⟨rfl, rfl⟩
    exact ⟨rfl, rfl, rfl, rfl, (runStage_host bodies (s.spu, s.host.fifos)).2, hlog.1, hlog.2⟩
  | arrive index =>
    obtain ⟨m, harrive, rfl⟩ := step_arrive.mp hstep
    exact ⟨rfl, rfl, rfl, rfl, (arrive_kept harrive).task_fifo, rfl, rfl⟩
  | reclaim =>
    obtain ⟨_, rfl⟩ := step_reclaim.mp hstep
    exact ⟨ringIncBack_front s.host.ringCTX, rfl, rfl, rfl, rfl, rfl, rfl⟩
  | fifoBegin command handle | fifoAdd arg | send_front | closeFront
  | fifoRegisterProgram addr bytes => cases haction

/-- A registration that respects the queue of one SPE, from the call to a state after
its turn there. The slot it writes holds no open task and no kicked task that is not
yet reclaimed, it gets the command and no other slot changes; one more task is
published; and an open task stays open with the words and the write position it
had. -/
structure Registers (addr : BitVec 64) (bytes : BitVec 32) (before after : Spe world) : Prop where
  free : ringGetFront before.host.ringCTX ∉ before.log.begun.drop before.log.reclaimed.length
  words : let task := after.host.fifos.task (ringGetFront before.host.ringCTX)
    task 0 = REGISTER_PROGRAM ∧ task 1 = bytes ∧ task 2 = (addr >>> 32).setWidth 32 ∧
      task 3 = addr.setWidth 32
  others : ∀ slot ≠ ringGetFront before.host.ringCTX,
    after.host.fifos.task slot = before.host.fifos.task slot
  published : after.log.published = before.log.published ++ [ringGetFront before.host.ringCTX]
  unkicked : before.host.isKicked = false → after.host.isKicked = false ∧
    after.host.entry_p = before.host.entry_p ∧ after.host.entry_count = before.host.entry_count

theorem Registers.trans (h : Registers addr bytes before middle) (hafter : Untouched middle after) :
    Registers addr bytes before after where
  free := h.free
  words := by
    rw [hafter.task]
    exact h.words
  others := by
    intro slot hslot
    rw [hafter.task, h.others slot hslot]
  published := hafter.published.trans h.published
  unkicked := by
    intro hopen
    rw [hafter.isKicked, hafter.entry_p, hafter.entry_count]
    exact h.unkicked hopen

/-- Outside a kick the slot at the ring's front is the open one, or it is free. -/
theorem Inv.front_free_iff (h : s.Inv size) (hidle : s.kicking = false) :
    ringGetFront s.host.ringCTX ∉ s.log.begun.drop s.log.reclaimed.length ↔ s.host.isKicked = true := by
  have hchain := h.chain
  have hfront : ringGetFront s.host.ringCTX = _ := h.host.position.front_eq
  rw [h.host.begun, mem_drop_walk]
  cases hkicked : s.host.isKicked with
  | true =>
    rw [hkicked, if_pos rfl] at hfront
    simp only [iff_true]
    rintro ⟨i, hi, hlt, heq⟩
    rw [hfront] at heq
    have := eq_of_mod_eq (by omega) (by omega) heq
    omega
  | false =>
    have hopen := h.host.open_iff.mpr ⟨hkicked, hidle⟩
    rw [hkicked, if_neg (by decide)] at hfront
    simp only [Bool.false_eq_true, iff_false, not_not]
    exact ⟨s.log.begun.length - 1, by omega, by omega, hfront.symm⟩

/-- One turn of the loop, on an SPE that only the SPU and the monitor have worked on
since the call, with no open task and a free slot. -/
theorem Inv.registers (h : s.Inv size) (hsize : 0 < size) (hsince : Untouched before s)
    (hbefore : before.Inv size) (hidle : before.kicking = false) (hkicked : s.host.isKicked = true)
    (hfree : ringHasFree s.host.ringCTX = true)
    (hstep : s.step bodies (.fifoRegisterProgram addr bytes) = some s') :
    Registers addr bytes before s' := by
  have hinv : s'.Inv size := h.step hsize (by simp [safe, hkicked, hfree]) hstep
  have hfront : ringGetFront s.host.ringCTX = _ := h.host.position.front_eq
  have hclosed : before.host.isKicked = true := hsince.isKicked ▸ hkicked
  have hall : s.log.kicked = s.log.begun.length := by
    have hopen := h.host.open_iff
    have hle := h.host.kicked_le
    simp only [hkicked, Bool.true_eq_false, false_and, iff_false] at hopen
    omega
  rw [hkicked, if_pos rfl] at hfront
  obtain ⟨_, rfl⟩ := step_fifoRegisterProgram.mp hstep
  refine ⟨(hbefore.front_free_iff hidle).mpr hclosed, ?_, ?_, ?_, ?_⟩
  · rw [← hsince.front]
    exact HostSpe.fifoRegisterProgram_task_front s.host addr bytes
  · intro slot hslot
    rw [← hsince.front] at hslot
    rw [← hsince.task]
    exact HostSpe.fifoRegisterProgram_task_ne s.host addr bytes hslot
  · rw [← hsince.front, ← hsince.published, hinv.host.published]
    have hcount : ((s.log.begin (ringGetFront s.host.ringCTX)).kick s.host.ringCTX.size
        (ringGetFront s.host.ringCTX) ((s.host.fifoRegisterProgram addr bytes).fifos.task
          (ringGetFront s.host.ringCTX))).kicked = s.log.begun.length + 1 := by
      simp [Ledger.kick, Ledger.begin]
    rw [hcount, walk_succ, h.host.published, hall, hfront]
  · intro hopen
    rw [hclosed] at hopen
    cases hopen

/-- A turn on an SPE whose ring is full begins a task too many. -/
theorem Inv.registers_overrun (h : s.Inv size) (hsize : 0 < size) (hkicked : s.host.isKicked = true)
    (hfull : ¬ ringHasFree s.host.ringCTX = true)
    (hstep : s.step bodies (.fifoRegisterProgram addr bytes) = some s') :
    s'.log.begun.length = s'.log.reclaimed.length + size := by
  have hchain := h.chain
  obtain ⟨hidle, rfl⟩ := step_fifoRegisterProgram.mp hstep
  have hroom := h.hasFree_iff hsize hidle
  rw [hkicked] at hroom
  have hlast : ¬ s.log.begun.length + 1 < s.log.reclaimed.length + size := fun hlt => hfull (hroom.mpr hlt)
  simp only [Ledger.kick, Ledger.begin, List.length_append, List.length_singleton]
  omega

end Spe

namespace System

variable {world : Type} {spes size i : Nat} {bodies : TaskBodies world} {start s s' : System world spes}
  {event : Event spes} {addr : BitVec 64} {bytes : BitVec 32}

/-- The steps of all parties during a call of `fifoRegisterProgram`, up to its return. -/
def inCall (s : System world spes) (event : Event spes) : Bool :=
  match s.thread with
  | .fifoRegisterProgram _ _ spe => event ≠ .register || spe < spes
  | .idle | .selectfifo _ _ | .fifoKick _ | .fifoIsEmpty _ => false

/-- A step during a call is a turn of the loop or not the thread's. -/
theorem step_inCall (hthread : s.thread = .fifoRegisterProgram addr bytes i)
    (hcall : s.inCall event = true) (hstep : s.step bodies event = some s') :
    (event = .register ∧ i < spes ∧ s'.thread = .fifoRegisterProgram addr bytes (i + 1)) ∨
      (event.ofThread = false ∧ s'.thread = s.thread) := by
  obtain ⟨t, hcontrol, hafter, _⟩ := step_control hstep
  cases event with
  | register =>
    have hi : i < spes := by simpa [inCall, hthread] using hcall
    simp only [control, hthread, if_pos hi, Option.some.injEq] at hcontrol
    exact .inl ⟨rfl, hi, by rw [hafter, ← hcontrol]⟩
  | runStage spe | arrive spe index | fifothread =>
    exact .inr ⟨rfl, hafter.trans (control_of_not_ofThread rfl hcontrol)⟩
  | _ => simp [control, hthread] at hcontrol

/-- The thread inside the loop of a registration, about to test SPE `i`, with no kick
in progress. -/
structure InLoop (addr : BitVec 64) (bytes : BitVec 32) (i : Nat) (s : System world spes) : Prop where
  thread : s.thread = .fifoRegisterProgram addr bytes i
  kicking : ∀ e, (s.spe e).kicking = true → s.thread = .fifoKick e

theorem InLoop.idle (h : s.InLoop addr bytes i) (e : Fin spes) : (s.spe e).kicking = false := by
  cases hkicking : (s.spe e).kicking with
  | false => rfl
  | true =>
    have hkick := h.kicking e hkicking
    rw [h.thread] at hkick
    cases hkick

theorem InLoop.step (h : s.InLoop addr bytes i) (hcall : s.inCall event = true)
    (hstep : s.step bodies event = some s') :
    s'.InLoop addr bytes (i + if event = .register then 1 else 0) := by
  refine ⟨?_, fun e => step_thread_of_kicking h.kicking hstep⟩
  obtain ⟨rfl, _, hthread⟩ | ⟨hother, hthread⟩ := step_inCall h.thread hcall hstep
  · simpa using hthread
  · have hne : event ≠ .register := by
      rintro rfl
      cases hother
    rw [if_neg hne, hthread, h.thread]
    rfl

/-- The next test of the loop never waits, and the one after the last SPE returns. -/
theorem InLoop.register (h : s.InLoop addr bytes i) (bodies : TaskBodies world) :
    ∃ s', s.step bodies .register = some s' ∧ (i = spes → s'.thread = .idle) := by
  have hcontrol : ∃ t, s.control .register = some t ∧ (i = spes → t.thread = .idle) := by
    simp only [control, h.thread]
    split
    · exact ⟨_, rfl, fun heq => by omega⟩
    · exact ⟨_, rfl, fun _ => rfl⟩
  have hcolumns : ∀ e, (s.columnStep bodies .register e).isSome := by
    intro e
    simp only [columnStep, column, h.thread]
    by_cases hturn : e.val = i
    · simp [hturn, Spe.step, h.idle e]
    · simp [hturn]
  obtain ⟨t, hcontrol, hreturn⟩ := hcontrol
  refine ⟨{ t with spe := fun e => (s.columnStep bodies .register e).get (hcolumns e) }, ?_, hreturn⟩
  simp only [System.step, hcontrol]
  rw [dif_pos hcolumns]

/-- Registration that respects every queue, at any point of a call that found the
system in `start`: one slot of each ring stays free, and the SPEs that the loop has
passed are registered with. -/
structure Registered (size : Nat) (addr : BitVec 64) (bytes : BitVec 32) (start s : System world spes) :
    Prop where
  unreclaimed : ∀ e, (s.spe e).log.begun.length - (s.spe e).log.reclaimed.length ≤ size - 1
  passed : ∀ i, s.thread = .fifoRegisterProgram addr bytes i → ∀ e : Fin spes, e < i →
    Spe.Registers addr bytes (start.spe e) (s.spe e)

/-- The invariant of a call on SPEs without open tasks and with free slots. -/
structure Calling (size : Nat) (addr : BitVec 64) (bytes : BitVec 32) (start : System world spes) (i : Nat)
    (s : System world spes) : Prop where
  loop : s.InLoop addr bytes i
  inv : ∀ e, (s.spe e).Inv size
  passed : ∀ e : Fin spes, e < i → Spe.Registers addr bytes (start.spe e) (s.spe e)
  ahead : ∀ e : Fin spes, i ≤ e → Spe.Untouched (start.spe e) (s.spe e)

theorem Calling.registered (h : Calling size addr bytes start i s) : Registered size addr bytes start s where
  unreclaimed := by
    intro e
    have := (h.inv e).chain
    omega
  passed := by
    intro j hthread
    rw [h.loop.thread, Thread.fifoRegisterProgram.injEq] at hthread
    obtain ⟨_, _, rfl⟩ := hthread
    exact h.passed

/-- The turn of the loop on SPE `i`, and no other, registers there. -/
theorem column_register (hthread : s.thread = .fifoRegisterProgram addr bytes i) (e : Fin spes) :
    s.column .register e = if e = i then some (.fifoRegisterProgram addr bytes) else none := by
  simp only [column, hthread]

/-- Whether the SPEs that a step registers on have no open task and a free slot. -/
def clear (addr : BitVec 64) (bytes : BitVec 32) (s : System world spes) (event : Event spes) : Prop :=
  ∀ e, s.column event e = some (.fifoRegisterProgram addr bytes) →
    (s.spe e).host.isKicked = true ∧ ringHasFree (s.spe e).host.ringCTX = true

theorem Calling.step (h : Calling size addr bytes start i s) (hsize : 0 < size)
    (hstart : ∀ e, (start.spe e).Inv size ∧ (start.spe e).kicking = false)
    (hcall : s.inCall event = true) (hclear : s.clear addr bytes event)
    (hstep : s.step bodies event = some s') :
    Calling size addr bytes start (i + if event = .register then 1 else 0) s' := by
  have hloop := h.loop.step hcall hstep
  obtain ⟨rfl, hi, _⟩ | ⟨hother, _⟩ := step_inCall h.loop.thread hcall hstep
  · have hcolumn := column_register h.loop.thread
    simp only [if_true] at hloop ⊢
    refine ⟨hloop, ?_, ?_, ?_⟩
    · intro e
      obtain ⟨_, hsame⟩ | ⟨action, haction, hspe⟩ := step_spe hstep e
      · rw [hsame]
        exact h.inv e
      · have hturn := haction
        rw [hcolumn e, Option.ite_none_right_eq_some, Option.some.injEq] at hturn
        obtain ⟨_, rfl⟩ := hturn
        obtain ⟨hkicked, hfree⟩ := hclear e haction
        exact (h.inv e).step hsize (by simp [Spe.safe, hkicked, hfree]) hspe
    · intro e he
      obtain ⟨hnone, hsame⟩ | ⟨action, haction, hspe⟩ := step_spe hstep e
      · rw [hsame]
        apply h.passed e
        rw [hcolumn e] at hnone
        simp only [ite_eq_right_iff, reduceCtorEq, imp_false] at hnone
        omega
      · have hturn := haction
        rw [hcolumn e, Option.ite_none_right_eq_some, Option.some.injEq] at hturn
        obtain ⟨heq, rfl⟩ := hturn
        obtain ⟨hkicked, hfree⟩ := hclear e haction
        exact (h.inv e).registers hsize (h.ahead e (by omega)) (hstart e).1 (hstart e).2 hkicked hfree hspe
    · intro e he
      obtain ⟨_, hsame⟩ | ⟨action, haction, _⟩ := step_spe hstep e
      · rw [hsame]
        exact h.ahead e (by omega)
      · rw [hcolumn e, Option.ite_none_right_eq_some] at haction
        omega
  · have hne : event ≠ .register := by
      rintro rfl
      cases hother
    have hkept : ∀ e, Spe.Untouched (s.spe e) (s'.spe e) ∧ (s'.spe e).Inv size := by
      intro e
      obtain ⟨_, hsame⟩ | ⟨action, haction, hspe⟩ := step_spe hstep e
      · rw [hsame]
        exact ⟨.refl _, h.inv e⟩
      · have hquiet := column_of_not_ofThread hother haction
        refine ⟨Spe.untouched_of_not_ofThread hquiet hspe, (h.inv e).step hsize ?_ hspe⟩
        cases action with
        | runStage | arrive index | reclaim => rfl
        | fifoBegin command handle | fifoAdd arg | send_front | closeFront
        | fifoRegisterProgram addr bytes => cases hquiet
    rw [if_neg hne, Nat.add_zero] at hloop ⊢
    exact ⟨hloop, fun e => (hkept e).2, fun e he => (h.passed e he).trans (hkept e).1,
      fun e he => (h.ahead e he).trans (hkept e).1⟩

/-- A turn on an SPE with an open task or a full ring breaks its queue at once. -/
theorem Calling.not_registered (h : Calling size addr bytes start i s) (hsize : 0 < size)
    (hstart : ∀ e, (start.spe e).Inv size ∧ (start.spe e).kicking = false)
    (hcall : s.inCall event = true) (hclear : ¬ s.clear addr bytes event)
    (hstep : s.step bodies event = some s') : ¬ Registered size addr bytes start s' := by
  intro hregistered
  unfold clear at hclear
  push Not at hclear
  obtain ⟨e, haction, hbad⟩ := hclear
  obtain ⟨rfl, hi, hthread⟩ | ⟨hother, _⟩ := step_inCall h.loop.thread hcall hstep
  · have hturn := haction
    rw [column_register h.loop.thread, Option.ite_none_right_eq_some] at hturn
    obtain ⟨hnone, _⟩ | ⟨action, haction', hspe⟩ := step_spe hstep e
    · rw [haction] at hnone
      cases hnone
    · obtain rfl := Option.some.inj (haction.symm.trans haction')
      by_cases hkicked : (s.spe e).host.isKicked = true
      · have hfull := (h.inv e).registers_overrun hsize hkicked (hbad hkicked) hspe
        have := hregistered.unreclaimed e
        omega
      · have hfree := (hregistered.passed (i + 1) hthread e (by omega)).free
        rw [(hstart e).1.front_free_iff (hstart e).2, ← (h.ahead e (by omega)).isKicked] at hfree
        exact hkicked hfree
  · have hquiet := column_of_not_ofThread hother haction
    cases hquiet

/-- Registration in any state that safe steps lead to, with any occupancy of the
rings and any set of open tasks, and with the SPUs and the monitor at work during the
call. The loop goes from SPE to SPE without waiting, and it respects every queue
exactly when no SPE has an open task or a full ring at its turn. -/
theorem registers_iff (hsize : 2 ≤ size) (bodies : TaskBodies world) (memory : Fin spes → Memory world)
    (events : List (Event spes)) (s : System world spes)
    (hrun : Reaches (restrict (keeps Spe.safe) (step bodies)) (.init memory size) events s)
    (addr : BitVec 64) (bytes : BitVec 32) (hthread : s.thread = .fifoRegisterProgram addr bytes 0)
    (during : List (Event spes)) (stop : System world spes)
    (hcall : Reaches (restrict inCall (step bodies)) s during stop) :
    stop.thread = .fifoRegisterProgram addr bytes (during.count .register) ∧
    (∃ s', stop.step bodies .register = some s' ∧ (during.count .register = spes → s'.thread = .idle)) ∧
    (Always (restrict inCall (step bodies)) s during (Registered size addr bytes s) ↔
      EachStep (restrict inCall (step bodies)) s during (clear addr bytes)) := by
  have hpos : 0 < size := by omega
  have hinv : ∀ e, (s.spe e).Inv size := by
    refine reaches_invariant ?_ (fun e => .init (memory e) hpos) hrun
    intro before after action hbefore hsafe hstep
    exact hbefore.step hpos hsafe hstep
  have hloop : s.InLoop addr bytes 0 := ⟨hthread, reaches_thread_of_kicking hrun⟩
  have hstop : stop.InLoop addr bytes (0 + during.count .register) := by
    refine hcall.count (I := InLoop addr bytes) .register hloop ?_
    intro count before event after hbefore hstep
    obtain ⟨hinCall, hstep⟩ := restrict_eq_some.mp hstep
    exact hbefore.step hinCall hstep
  rw [Nat.zero_add] at hstop
  refine ⟨hstop.thread, hstop.register bodies, ?_⟩
  have hstart : ∀ e, (s.spe e).Inv size ∧ (s.spe e).kicking = false := fun e => ⟨hinv e, hloop.idle e⟩
  refine hcall.always_iff_eachStep (I := fun t => ∃ i, Calling size addr bytes s i t)
    ⟨0, hloop, hinv, fun e he => by omega, fun e _ => .refl _⟩ ?_ ?_ ?_
  · rintro before event after ⟨i, hbefore⟩ hclear hstep
    obtain ⟨hinCall, hstep⟩ := restrict_eq_some.mp hstep
    exact ⟨_, hbefore.step hpos hstart hinCall hclear hstep⟩
  · rintro before event after ⟨i, hbefore⟩ hclear hstep
    obtain ⟨hinCall, hstep⟩ := restrict_eq_some.mp hstep
    exact hbefore.not_registered hpos hstart hinCall hclear hstep
  · rintro state ⟨i, hstate⟩
    exact hstate.registered

/-- A task begun on the only SPE and still open when a program is registered. -/
def openTask : List (Event 1) := [.fifoBegin ADD 0, .selectfifo, .fifoRegisterProgram 0x10000 64]

/-- A task kicked on the only SPE when a program is registered. On a ring of two it
leaves no free slot. -/
def oneKicked : List (Event 1) :=
  [.fifoBegin ADD 0, .selectfifo] ++ kickOnly ++ [.fifoRegisterProgram 0x10000 64]

theorem registers_iff_oneKicked : ∃ s stop,
    Reaches (restrict (keeps Spe.safe) (step Spe.idleBodies)) (.init (fun _ => Spe.zeroed) 3)
        oneKicked s ∧
      Reaches (restrict inCall (step Spe.idleBodies)) s [.register] stop ∧
      stop.thread = .fifoRegisterProgram 0x10000 64 1 ∧ Registered 3 0x10000 64 s stop := by
  have hvalue : ((oneKicked.foldlM (restrict (keeps Spe.safe) (step Spe.idleBodies))
      (.init (fun _ => Spe.zeroed) 3)).bind fun s =>
      ([Event.register].foldlM (restrict inCall (step Spe.idleBodies)) s).map fun _ : System Unit 1 =>
        (s.thread, (s.spe 0).host.isKicked, ringHasFree (s.spe 0).host.ringCTX)) =
      some (.fifoRegisterProgram 0x10000 64 0, true, true) := by
    decide +kernel
  obtain ⟨s, hrun, hcall⟩ := Option.bind_eq_some_iff.mp hvalue
  obtain ⟨stop, hcall, hobserved⟩ := exists_reaches_of_observe hcall
  simp only [Prod.mk.injEq] at hobserved
  obtain ⟨hthread, hkicked, hfree⟩ := hobserved
  obtain ⟨hstop, _, hiff⟩ := registers_iff (by decide) Spe.idleBodies _ oneKicked s hrun 0x10000 64
    hthread [.register] stop hcall
  refine ⟨s, stop, hrun, hcall, hstop, hiff.mpr ?_ [.register] stop (List.prefix_refl _) hcall⟩
  intro done event state hdone hstate e _
  have hfirst : done = [] := by
    have hlength := hdone.length_le
    simpa using hlength
  subst hfirst
  obtain rfl := reaches_nil.mp hstate
  rw [Subsingleton.elim e 0]
  exact ⟨hkicked, hfree⟩

/-- On a ring of two slots. The registration overwrites the slot of an open task and
kicks it; and it begins a second unreclaimed task where one already fills the ring,
which then looks empty. -/
theorem registration_breaks_queue :
    (∃ s stop, Reaches (restrict (keeps Spe.safe) (step Spe.idleBodies))
          (.init (fun _ => Spe.zeroed) 2) openTask s ∧
        Reaches (restrict inCall (step Spe.idleBodies)) s [.register] stop ∧
        (s.spe 0).log.begun = [0] ∧ (s.spe 0).host.isKicked = false ∧
        (s.spe 0).host.fifos.task 0 0 = ADD ∧ (stop.spe 0).host.fifos.task 0 0 = REGISTER_PROGRAM ∧
        ¬ Registered 2 0x10000 64 s stop) ∧
    (∃ s stop, Reaches (restrict (keeps Spe.safe) (step Spe.idleBodies))
          (.init (fun _ => Spe.zeroed) 2) oneKicked s ∧
        Reaches (restrict inCall (step Spe.idleBodies)) s [.register] stop ∧
        (stop.spe 0).log.begun = [0, 1] ∧ (stop.spe 0).log.reclaimed = [] ∧
        ringHasRemaining (stop.spe 0).host.ringCTX = false ∧
        ¬ Registered 2 0x10000 64 s stop) := by
  constructor
  · have hvalue : ((openTask.foldlM (restrict (keeps Spe.safe) (step Spe.idleBodies))
        (.init (fun _ => Spe.zeroed) 2)).bind fun s =>
        ([Event.register].foldlM (restrict inCall (step Spe.idleBodies)) s).map fun stop : System Unit 1 =>
          (stop.thread, (s.spe 0).host.isKicked,
            [(s.spe 0).log.begun, (s.spe 0).log.reclaimed, [ringGetFront (s.spe 0).host.ringCTX]],
            [(s.spe 0).host.fifos.task 0 0, (stop.spe 0).host.fifos.task 0 0])) =
        some (.fifoRegisterProgram 0x10000 64 1, false, [[0], [], [0]], [ADD, REGISTER_PROGRAM]) := by
      decide +kernel
    obtain ⟨s, hrun, hcall⟩ := Option.bind_eq_some_iff.mp hvalue
    obtain ⟨stop, hcall, hobserved⟩ := exists_reaches_of_observe hcall
    simp only [Prod.mk.injEq, List.cons.injEq, and_true] at hobserved
    obtain ⟨hthread, hopen, ⟨hbegun, hreclaimed, hfront⟩, hbefore, hafter⟩ := hobserved
    refine ⟨s, stop, hrun, hcall, hbegun, hopen, hbefore, hafter, ?_⟩
    intro hregistered
    have hfree := (hregistered.passed 1 hthread 0 (by decide)).free
    simp [hbegun, hreclaimed, hfront] at hfree
  · have hvalue : ((oneKicked.foldlM (restrict (keeps Spe.safe) (step Spe.idleBodies))
        (.init (fun _ => Spe.zeroed) 2)).bind fun s =>
        ([Event.register].foldlM (restrict inCall (step Spe.idleBodies)) s).map fun stop : System Unit 1 =>
          ((stop.spe 0).log.begun, (stop.spe 0).log.reclaimed,
            ringHasRemaining (stop.spe 0).host.ringCTX)) = some ([0, 1], [], false) := by
      decide +kernel
    obtain ⟨s, hrun, hcall⟩ := Option.bind_eq_some_iff.mp hvalue
    obtain ⟨stop, hcall, hobserved⟩ := exists_reaches_of_observe hcall
    simp only [Prod.mk.injEq] at hobserved
    obtain ⟨hbegun, hreclaimed, hremaining⟩ := hobserved
    refine ⟨s, stop, hrun, hcall, hbegun, hreclaimed, hremaining, ?_⟩
    intro hregistered
    have hunreclaimed := hregistered.unreclaimed 0
    simp [hbegun, hreclaimed] at hunreclaimed

end System

end speutils.fifo
