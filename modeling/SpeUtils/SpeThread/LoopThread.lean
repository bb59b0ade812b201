import SpeUtils.Messages
import SpeUtils.Lib.Run

open run speutils.messages

namespace speutils.thread

/-! `enum actions`. -/

def THREAD_EXIT : BitVec 32 := 0#32
def THREAD_CONTINUE : BitVec 32 := 1#32

/-- What `spu_loop_thread` uses of libspe2 to read the mailbox: a constant, which it
passes for the number of words, and a call that gives the message, if any, and leaves the
rest in the mailbox. -/
structure Libspe where
  SPE_MBOX_ANY_BLOCKING : Nat
  spe_out_mbox_read : List (BitVec 32) → Nat → Option (BitVec 32) × List (BitVec 32)

/-- As libspe2 documents it: the constant is 2, and the call takes what is there, up to a
number of words, and does not wait. The first word is the message. -/
structure Libspe.Documented (lib : Libspe) : Prop where
  any_blocking : lib.SPE_MBOX_ANY_BLOCKING = 2
  out_mbox_read : ∀ out_mbox count,
    lib.spe_out_mbox_read out_mbox count = ((out_mbox.take count).head?, out_mbox.drop count)

def libspe2 : Libspe where
  SPE_MBOX_ANY_BLOCKING := 2
  spe_out_mbox_read := fun out_mbox count => ((out_mbox.take count).head?, out_mbox.drop count)

theorem libspe2_documented : libspe2.Documented := ⟨rfl, fun _ _ => rfl⟩

/-- How `spe_context_run` comes back: it fails, or the SPU has stopped with a signal
code or for another reason. -/
inductive Stop where
  | failed
  | other
  | signal (code : BitVec 32)
  deriving DecidableEq, Repr

/-- Where the loop of `spu_loop_thread` stands: inside `spe_context_run`, before the
callback for a stop, inside `epoll_wait`, inside `read`, or past the loop. -/
inductive Phase where
  | running
  | stopped (code : BitVec 32)
  | waiting
  | reading
  | exited
  deriving DecidableEq, Repr

/-- What the thread has done, in order. A callback without a value is one that was given
an uninitialised local. -/
inductive Mark where
  | run
  | stop (code : BitVec 32)
  | leave
  | callback (value : Option (BitVec 32))
  | read (action : BitVec 32)
  deriving DecidableEq, Repr

/-- The loop thread with its end `fd` of the pipe, the actions in the pipe and the
outbound mailbox of its SPU, which has room for `depth` words: for one on the
hardware. No function reads `trace` and `sent`, the actions written so far. -/
structure LoopThread where
  phase : Phase
  fd : Nat
  pipe : List (BitVec 32)
  depth : Nat
  out_mbox : List (BitVec 32)
  trace : List Mark
  sent : List (BitVec 32)
  deriving DecidableEq, Repr

/-- The steps of the thread, of the other threads that send it actions, and of the SPU
that puts a word into its mailbox. `epoll_wait` comes back with the descriptors it
reports, none when it was woken for nothing. -/
inductive Event where
  | send_action (action : BitVec 32)
  | put (message : BitVec 32)
  | stop (stop : Stop)
  | callback
  | epoll_wait (fds : List Nat)
  | read
  deriving DecidableEq, Repr

namespace LoopThread

/-- The thread at its loop, or past it when the descriptor could not be registered or
the program not be loaded. The loop starts with `spe_context_run`. -/
def enter (fd depth : Nat) (epoll_ctl spe_program_load : Int) : LoopThread :=
  if epoll_ctl < 0 ∨ spe_program_load < 0 then
    { phase := .exited, fd, pipe := [], depth, out_mbox := [], trace := [], sent := [] }
  else { phase := .running, fd, pipe := [], depth, out_mbox := [], trace := [.run], sent := [] }

/-- `send_action`, from any thread at any time. -/
def send_action (s : LoopThread) (action : BitVec 32) : LoopThread :=
  { s with pipe := s.pipe ++ [action], sent := s.sent ++ [action] }

/-- The return of `spe_context_run`. -/
def stop (s : LoopThread) : Stop → LoopThread
  | .failed | .other => { s with phase := .exited, trace := s.trace ++ [.leave] }
  | .signal code => { s with phase := .stopped code, trace := s.trace ++ [.stop code] }

/-- The callback for a stop. A code that shares a bit with `READ_MBOX` makes the thread
read the mailbox. -/
def callback (lib : Libspe) (s : LoopThread) (code : BitVec 32) : LoopThread :=
  if code &&& READ_MBOX ≠ 0 then
    let (message, out_mbox) := lib.spe_out_mbox_read s.out_mbox lib.SPE_MBOX_ANY_BLOCKING
    { s with phase := .waiting, out_mbox, trace := s.trace ++ [.callback message] }
  else { s with phase := .waiting, trace := s.trace ++ [.callback (some code)] }

/-- The action that `read` has stored decides whether the SPU is run again. -/
def act (s : LoopThread) (action : BitVec 32) (pipe : List (BitVec 32)) : LoopThread :=
  if action = THREAD_EXIT then
    { s with phase := .exited, pipe, trace := s.trace ++ [.read action] }
  else { s with phase := .running, pipe, trace := s.trace ++ [.read action, .run] }

/-- One step, or none where it cannot be taken. The SPU works only while it runs, and
waits while its mailbox is full. `read` waits for an action. -/
def step (lib : Libspe) (s : LoopThread) : Event → Option LoopThread
  | .send_action action => some (s.send_action action)
  | .put message =>
    if s.phase = .running ∧ s.out_mbox.length < s.depth then
      some { s with out_mbox := s.out_mbox ++ [message] }
    else none
  | .stop stop => if s.phase = .running then some (s.stop stop) else none
  | .callback =>
    match s.phase with
    | .stopped code => some (s.callback lib code)
    | .running | .waiting | .reading | .exited => none
  | .epoll_wait fds =>
    if s.phase = .waiting then some { s with phase := if s.fd ∈ fds then .reading else .waiting } else none
  | .read =>
    if s.phase = .reading then
      match s.pipe with
      | [] => none
      | action :: pipe => some (s.act action pipe)
    else none

section Inversion

variable {lib : Libspe} {s s' : LoopThread}

theorem step_send_action {action : BitVec 32} :
    s.step lib (.send_action action) = some s' ↔ s.send_action action = s' := by
  simp [step]

theorem step_put {message : BitVec 32} :
    s.step lib (.put message) = some s' ↔
      (s.phase = .running ∧ s.out_mbox.length < s.depth) ∧
        { s with out_mbox := s.out_mbox ++ [message] } = s' := by
  simp [step]

theorem step_stop {stop : Stop} : s.step lib (.stop stop) = some s' ↔ s.phase = .running ∧ s.stop stop = s' := by
  simp [step]

theorem step_callback :
    s.step lib .callback = some s' ↔ ∃ code, s.phase = .stopped code ∧ s.callback lib code = s' := by
  simp only [step]
  cases s.phase <;> simp

theorem step_epoll_wait {fds : List Nat} :
    s.step lib (.epoll_wait fds) = some s' ↔
      s.phase = .waiting ∧ { s with phase := if s.fd ∈ fds then .reading else .waiting } = s' := by
  simp [step]

theorem step_read :
    s.step lib .read = some s' ↔
      s.phase = .reading ∧ ∃ action pipe, s.pipe = action :: pipe ∧ s.act action pipe = s' := by
  simp only [step, Option.ite_none_right_eq_some]
  cases s.pipe <;> simp

/-- Whatever the code, there is one callback, and the thread goes on to wait. -/
theorem callback_eq (lib : Libspe) (s : LoopThread) (code : BitVec 32) : ∃ value out_mbox,
    s.callback lib code = { s with phase := .waiting, out_mbox, trace := s.trace ++ [.callback value] } := by
  unfold callback
  split
  · exact ⟨_, _, rfl⟩
  · exact ⟨some code, s.out_mbox, rfl⟩

end Inversion

end LoopThread

/-- One turn of the loop that leads to another. -/
structure Round where
  code : BitVec 32
  value : Option (BitVec 32)
  action : BitVec 32

def Round.marks (r : Round) : List Mark := [.run, .stop r.code, .callback r.value, .read r.action]

/-- What a thread has done of the turn that it is in, which for an exited thread is its
last. -/
def Current : Phase → List Mark → Prop
  | .running, marks => marks = [.run]
  | .stopped code, marks => marks = [.run, .stop code]
  | .waiting, marks | .reading, marks => ∃ code value, marks = [.run, .stop code, .callback value]
  | .exited, marks =>
    marks = [.run, .leave] ∨ ∃ code value, marks = [.run, .stop code, .callback value, .read THREAD_EXIT]

/-- The actions that the thread has read. -/
def consumed (trace : List Mark) : List (BitVec 32) :=
  trace.filterMap fun
    | .read action => some action
    | .run | .stop _ | .leave | .callback _ => none

/-- The trace consists of whole turns and the current one, and each action sent was
read or is still in the pipe. -/
structure Turns (s : LoopThread) : Prop where
  trace : ∃ (rounds : List Round) (current : List Mark), (∀ r ∈ rounds, r.action ≠ THREAD_EXIT) ∧
    Current s.phase current ∧ s.trace = rounds.flatMap Round.marks ++ current
  sent : s.sent = consumed s.trace ++ s.pipe

namespace Turns

variable {lib : Libspe} {s s' : LoopThread}

theorem consumed_append (trace more : List Mark) :
    consumed (trace ++ more) = consumed trace ++ consumed more := by
  simp [consumed, List.filterMap_append]

/-- A step that goes on with the current turn. -/
theorem extend (h : Turns s) {marks : List Mark}
    (htrace : s'.trace = s.trace ++ marks) (hsent : s'.sent = s.sent)
    (hread : consumed marks ++ s'.pipe = s.pipe)
    (hcurrent : ∀ current, Current s.phase current → Current s'.phase (current ++ marks)) : Turns s' := by
  obtain ⟨rounds, current, hrounds, hcur, htr⟩ := h.trace
  refine ⟨⟨rounds, current ++ marks, hrounds, hcurrent current hcur, ?_⟩, ?_⟩
  · rw [htrace, htr, List.append_assoc]
  · rw [hsent, h.sent, htrace, consumed_append, ← hread, List.append_assoc]

theorem enter (fd depth : Nat) {epoll_ctl spe_program_load : Int}
    (hentered : ¬ (epoll_ctl < 0 ∨ spe_program_load < 0)) :
    Turns (.enter fd depth epoll_ctl spe_program_load) := by
  rw [LoopThread.enter, if_neg hentered]
  exact ⟨⟨[], [.run], fun r hr => by simp at hr, rfl, rfl⟩, rfl⟩

theorem read (h : Turns s) {action : BitVec 32} {pipe : List (BitVec 32)} (hphase : s.phase = .reading)
    (hpipe : s.pipe = action :: pipe) : Turns (s.act action pipe) := by
  by_cases hexit : action = THREAD_EXIT
  · rw [LoopThread.act, if_pos hexit]
    refine h.extend rfl rfl hpipe.symm ?_
    rw [hphase]
    rintro current ⟨code, value, rfl⟩
    exact .inr ⟨code, value, by rw [hexit]; rfl⟩
  · rw [LoopThread.act, if_neg hexit]
    obtain ⟨rounds, current, hrounds, hcurrent, htrace⟩ := h.trace
    rw [hphase] at hcurrent
    obtain ⟨code, value, rfl⟩ := hcurrent
    -- The action closes the turn, and the next one starts with a run.
    refine ⟨⟨rounds ++ [⟨code, value, action⟩], [.run], ?_, rfl, ?_⟩, ?_⟩
    · intro r hr
      obtain hr | hr := List.mem_append.mp hr
      · exact hrounds r hr
      · obtain rfl := List.mem_singleton.mp hr
        exact hexit
    · simp [htrace, Round.marks]
    · simp only [h.sent, hpipe, consumed_append]
      simp [consumed]

theorem step (h : Turns s) {event : Event} (hstep : s.step lib event = some s') : Turns s' := by
  cases event with
  | send_action action =>
    obtain rfl := LoopThread.step_send_action.mp hstep
    refine ⟨h.trace, ?_⟩
    simp [LoopThread.send_action, h.sent]
  | put message =>
    obtain ⟨_, rfl⟩ := LoopThread.step_put.mp hstep
    exact ⟨h.trace, h.sent⟩
  | stop stop =>
    obtain ⟨hphase, rfl⟩ := LoopThread.step_stop.mp hstep
    cases stop with
    | failed | other =>
      refine h.extend rfl rfl rfl ?_
      rw [hphase]
      rintro current rfl
      exact .inl rfl
    | signal code =>
      refine h.extend rfl rfl rfl ?_
      rw [hphase]
      rintro current rfl
      rfl
  | callback =>
    obtain ⟨code, hphase, rfl⟩ := LoopThread.step_callback.mp hstep
    obtain ⟨value, out_mbox, hcallback⟩ := s.callback_eq lib code
    rw [hcallback]
    refine h.extend rfl rfl rfl ?_
    rw [hphase]
    rintro current rfl
    exact ⟨code, value, rfl⟩
  | epoll_wait fds =>
    obtain ⟨hphase, rfl⟩ := LoopThread.step_epoll_wait.mp hstep
    refine h.extend (List.append_nil _).symm rfl rfl ?_
    rw [hphase]
    intro current hcurrent
    rw [List.append_nil]
    split <;> exact hcurrent
  | read =>
    obtain ⟨hphase, action, pipe, hpipe, rfl⟩ := LoopThread.step_read.mp hstep
    exact h.read hphase hpipe

end Turns

namespace Mark

def isStop : Mark → Bool
  | .stop _ => true
  | .run | .leave | .callback _ | .read _ => false

def isCallback : Mark → Bool
  | .callback _ => true
  | .run | .stop _ | .leave | .read _ => false

end Mark

/-- A stop has been reported whose callback is still to come. -/
def Phase.pending : Phase → Nat
  | .stopped _ => 1
  | .running | .waiting | .reading | .exited => 0

section Progress

variable {lib : Libspe} {s : LoopThread}

theorem consumed_act (s : LoopThread) (action : BitVec 32) (pipe : List (BitVec 32)) :
    consumed (s.act action pipe).trace = consumed s.trace ++ [action] := by
  unfold LoopThread.act
  split <;> simp [consumed]

end Progress

section Counts

variable {lib : Libspe} {s : LoopThread}

/-- What the current turn contributes to the counts. -/
theorem Current.counts {phase : Phase} {current : List Mark} (h : Current phase current) :
    current.countP Mark.isCallback + phase.pending = current.countP Mark.isStop ∧
      current.count .run = 1 + (consumed current).countP (· ≠ THREAD_EXIT) ∧ current ≠ [] ∧
      ∀ mark ∈ current.dropLast, mark ≠ .leave ∧ mark ≠ .read THREAD_EXIT := by
  cases phase with
  | running =>
    obtain rfl := h
    simp [Mark.isCallback, Mark.isStop, Phase.pending, consumed]
  | stopped code =>
    obtain rfl := h
    simp [Mark.isCallback, Mark.isStop, Phase.pending, consumed]
  | waiting | reading =>
    obtain ⟨code, value, rfl⟩ := h
    simp [Mark.isCallback, Mark.isStop, Phase.pending, consumed, List.countP_cons]
  | exited =>
    obtain rfl | ⟨code, value, rfl⟩ := h
    · simp [Mark.isCallback, Mark.isStop, Phase.pending, consumed]
    · simp [Mark.isCallback, Mark.isStop, Phase.pending, consumed, List.countP_cons]

end Counts

end speutils.thread
