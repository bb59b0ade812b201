import SpeUtils.Example.Conversation
import SpeUtils.SpeThread.LoopThread

open Filter run speutils.thread speutils.example1
open heap (Heap Ptr alloc release)

namespace speutils.example2

/-- What a run of the example is given: the descriptor of the pipe's end, the value behind
`argp`, the first character of each line that will be typed, and the blocks that others
have allocated. -/
structure Given where
  fd : Nat
  myint : BitVec 8
  typed : List Char
  blocks : Heap Unit

/-- Where `memalign` has put the data. -/
def Given.ex2 (g : Given) : Ptr := (alloc g.blocks ()).2

/-- Where `malloc` has put the events of the loop thread. -/
def Given.events (g : Given) : Ptr := (alloc (alloc g.blocks ()).1 ()).2

/-- The blocks once the thread has set itself up. -/
def Given.cells (g : Given) : Heap Unit := (alloc (alloc g.blocks ()).1 ()).1

/-- The events are there when `stop_spu_thread` frees them. -/
theorem Given.release_events (g : Given) : ∃ cells, release g.cells g.events = some cells :=
  ⟨_, heap.release_eq_some.mpr ⟨.inr (by simp [cells, events, alloc, heap.read]), rfl⟩⟩

/-- And the data when `main` does: it is another block. -/
theorem Given.release_ex2 (g : Given) : ∃ cells, release (heap.free g.cells g.events) g.ex2 = some cells := by
  refine ⟨_, heap.release_eq_some.mpr ⟨.inr ?_, rfl⟩⟩
  have hne : g.ex2 ≠ g.events := by simp [ex2, events, alloc]
  have hnew : g.ex2 ≠ some (alloc g.blocks ()).1.length := by simp [ex2, alloc]
  rw [heap.read_free_ne hne, cells, heap.read_alloc_ne hnew]
  simp [ex2, alloc, heap.read]

/-- The action that `main` sends after a line. -/
def action (line : Char) : BitVec 32 := if yes line then THREAD_CONTINUE else THREAD_EXIT

/-- Where `main` stands: before the lock, with it, inside `pthread_cond_wait` and then
woken there but without the lock, with it again, before `fgets`, before `send_action`,
inside `stop_spu_thread` before `pthread_join`, before `free` and before `close`, before its
own `free`, or past it. -/
inductive Main where
  | locking
  | locked
  | waiting
  | woken
  | relocked
  | asking
  | sending (line : Char)
  | joining
  | joined
  | freed
  | closed
  | finished
  deriving DecidableEq, Repr

/-- Where `callback` stands: not called or before the lock, with it, or with it after the
broadcast. -/
inductive Callback where
  | outside
  | locked
  | broadcasted
  deriving DecidableEq, Repr

/-- The loop thread with its callback, `main`, whether the SPU has been stopped before, the
lines not yet read and the allocated blocks. No function reads `answered`, the lines
answered so far, `lost`, the broadcasts that did not find `main` in its wait, and
`spurious`, the ends of a wait that no broadcast brought about. -/
structure Conversation where
  thread : LoopThread
  callback : Callback
  main : Main
  stopped : Bool
  lines : List Char
  cells : Heap Unit
  myint : BitVec 8
  answered : List Char
  lost : Nat
  spurious : Nat
  deriving DecidableEq, Repr

/-- The steps of the loop thread with its SPU and its callback, and those of `main`. -/
inductive Event where
  | spu_stop
  | callback_lock
  | pthread_cond_broadcast
  | callback_unlock
  | epoll_wait (fds : List Nat)
  | read
  | pthread_mutex_lock
  | pthread_cond_wait
  | wake
  | relock
  | pthread_mutex_unlock
  | fgets
  | send_action
  | pthread_join
  | free_events
  | close
  | free_ex2
  deriving DecidableEq, Repr

/-- The steps that are taken in the end when they can: a wait need not end by itself, and
`epoll_wait` need not come back for nothing. -/
def Event.prompt : Event → Bool
  | .wake => false
  | .epoll_wait fds => fds ≠ []
  | .spu_stop | .callback_lock | .pthread_cond_broadcast | .callback_unlock | .read | .pthread_mutex_lock
  | .pthread_cond_wait | .relock | .pthread_mutex_unlock | .fgets | .send_action | .pthread_join | .free_events
  | .close | .free_ex2 => true

namespace Conversation

/-- The thread has set itself up. -/
def init (g : Given) : Conversation where
  thread := .enter g.fd 1 0 0
  callback := .outside
  main := .locking
  stopped := false
  lines := g.typed
  cells := g.cells
  myint := g.myint
  answered := []
  lost := 0
  spurious := 0

/-- Nobody holds the mutex. -/
def mutexFree (s : Conversation) : Bool := s.callback = .outside ∧ s.main ≠ .locked ∧ s.main ≠ .relocked

/-- The broadcast wakes `main` if that waits. -/
def broadcast (s : Conversation) : Conversation :=
  if s.main = .waiting then { s with callback := .broadcasted, main := .woken }
  else { s with callback := .broadcasted, lost := s.lost + 1 }

/-- One step, or none where it cannot be taken. The SPU runs from its entry or from behind
its last stop up to the next `spu_stop(0x0000)`. The pipe is the only descriptor that
`epoll_wait` can report, while there is something in it. After `pthread_join` the event
handler and the context are given back. `close` is given the address of the pipe for a
descriptor, and closes nothing; the mutex and the condition variable of `sput`, which are
destroyed behind it, are not the ones in use. -/
def step (lib : Libspe) (g : Given) (s : Conversation) : Event → Option Conversation
  | .spu_stop =>
    (s.thread.step lib (.stop (.signal 0))).map fun thread =>
      { s with thread, stopped := true, myint := if s.stopped then s.myint + 1 else s.myint }
  | .callback_lock =>
    match s.thread.phase with
    | .stopped _ => if s.mutexFree then some { s with callback := .locked } else none
    | .running | .waiting | .reading | .exited => none
  | .pthread_cond_broadcast => if s.callback = .locked then some s.broadcast else none
  | .callback_unlock =>
    if s.callback = .broadcasted then
      (s.thread.step lib .callback).map fun thread => { s with thread, callback := .outside }
    else none
  | .epoll_wait fds =>
    if fds = [] ∨ fds = [s.thread.fd] ∧ s.thread.pipe ≠ [] then
      (s.thread.step lib (.epoll_wait fds)).map fun thread => { s with thread }
    else none
  | .read => (s.thread.step lib .read).map fun thread => { s with thread }
  | .pthread_mutex_lock => if s.main = .locking ∧ s.mutexFree then some { s with main := .locked } else none
  | .pthread_cond_wait => if s.main = .locked then some { s with main := .waiting } else none
  | .wake => if s.main = .waiting then some { s with main := .woken, spurious := s.spurious + 1 } else none
  | .relock => if s.main = .woken ∧ s.mutexFree then some { s with main := .relocked } else none
  | .pthread_mutex_unlock => if s.main = .relocked then some { s with main := .asking } else none
  | .fgets =>
    if s.main = .asking then
      match s.lines with
      | [] => none
      | line :: lines => some { s with main := .sending line, lines }
    else none
  | .send_action =>
    match s.main with
    | .sending line =>
      (s.thread.step lib (.send_action (action line))).map fun thread =>
        { s with
          thread
          main := if yes line then .locking else .joining
          answered := s.answered ++ [line] }
    | .locking | .locked | .waiting | .woken | .relocked | .asking | .joining | .joined | .freed | .closed
    | .finished => none
  | .pthread_join =>
    if s.main = .joining ∧ s.thread.phase = .exited then some { s with main := .joined } else none
  | .free_events =>
    if s.main = .joined then (release s.cells g.events).map fun cells => { s with main := .freed, cells } else none
  | .close => if s.main = .freed then some { s with main := .closed } else none
  | .free_ex2 =>
    if s.main = .closed then (release s.cells g.ex2).map fun cells => { s with main := .finished, cells } else none

end Conversation

/-- The line whose action is on its way. -/
def Main.line : Main → Option Char
  | .sending line => some line
  | .locking | .locked | .waiting | .woken | .relocked | .asking | .joining | .joined | .freed | .closed
  | .finished => none

/-- The thread has been joined. -/
def Main.past : Main → Bool
  | .locking | .locked | .waiting | .woken | .relocked | .asking | .sending _ | .joining => false
  | .joined | .freed | .closed | .finished => true

/-- Where `main` stands tells which blocks have been freed. -/
def Main.Freed (main : Main) (g : Given) (cells : Heap Unit) : Prop :=
  match main with
  | .locking | .locked | .waiting | .woken | .relocked | .asking | .sending _ | .joining | .joined => cells = g.cells
  | .freed | .closed => cells = heap.free g.cells g.events
  | .finished => cells = heap.free (heap.free g.cells g.events) g.ex2

/-- A wait has ended whose action is still to be sent. -/
def Main.owes : Main → Nat
  | .woken | .relocked | .asking | .sending _ => 1
  | .locking | .locked | .waiting | .joining | .joined | .freed | .closed | .finished => 0

/-- Where `main` stands tells whether `THREAD_EXIT` has been sent. -/
def Main.Agrees (main : Main) (answered : List Char) : Prop :=
  match main with
  | .locking | .locked | .waiting | .woken | .relocked | .asking | .sending _ => ∀ line ∈ answered, yes line
  | .joining | .joined | .freed | .closed | .finished =>
    ∃ front last, answered = front ++ [last] ∧ (∀ line ∈ front, yes line) ∧ ¬ yes last

/-- A stop whose action has not been read. -/
def openTurn : Phase → Nat
  | .stopped _ | .waiting | .reading => 1
  | .running | .exited => 0

/-- A callback whose broadcast has been made and whose action has not been read. -/
def openCall (phase : Phase) (callback : Callback) : Nat :=
  match phase, callback with
  | .stopped _, .broadcasted | .waiting, _ | .reading, _ => 1
  | .stopped _, .outside | .stopped _, .locked | .running, _ | .exited, _ => 0

def Main.left : Main → Nat
  | .locking => 6
  | .locked => 5
  | .waiting => 4
  | .woken => 3
  | .relocked => 2
  | .asking => 1
  | .sending _ => 8
  | .joining => 4
  | .joined => 3
  | .freed => 2
  | .closed => 1
  | .finished => 0

def Callback.left : Callback → Nat
  | .outside => 3
  | .locked => 2
  | .broadcasted => 1

/-- What the thread can still do before it waits for an action. -/
def phaseLeft (phase : Phase) (callback : Callback) : Nat :=
  match phase with
  | .running => 6
  | .stopped _ => 2 + callback.left
  | .waiting => 2
  | .reading => 1
  | .exited => 0

namespace Conversation

/-- The actions that the thread has read. -/
def taken (s : Conversation) : List (BitVec 32) := consumed s.thread.trace

/-- The invariant: each line is answered by an action, each action sent is read once, each
broadcast has ended a wait or was lost, and the mutex is held by one side at most. -/
structure Talk (g : Given) (s : Conversation) : Prop where
  typed : g.typed = s.answered ++ s.main.line.toList ++ s.lines
  sent : s.answered.map action = s.taken ++ s.thread.pipe
  main : s.main.Agrees s.answered
  wakes : s.answered.length + s.main.owes + s.lost = s.taken.length + openCall s.thread.phase s.callback + s.spurious
  stops : ∃ turns, s.myint = g.myint + BitVec.ofNat 8 turns ∧
    turns + (if s.stopped then 1 else 0) = s.taken.length + openTurn s.thread.phase
  fresh : s.stopped = false → s.taken = [] ∧ s.thread.phase = .running
  reading : s.thread.phase = .reading → s.thread.pipe ≠ []
  exited : s.thread.phase = .exited ↔ THREAD_EXIT ∈ s.taken
  callback : s.callback ≠ .outside → ∃ code, s.thread.phase = .stopped code
  mutex : s.callback = .outside ∨ s.main ≠ .locked ∧ s.main ≠ .relocked
  joined : s.main.past = true → s.thread.phase = .exited
  freed : s.main.Freed g s.cells

/-- A measure of what the two threads have still to do. -/
def left (g : Given) (s : Conversation) : Nat :=
  10 * s.lines.length + s.main.left + 8 * (g.typed.length - s.taken.length) + phaseLeft s.thread.phase s.callback

theorem Talk.init (g : Given) : Talk g (init g) where
  typed := rfl
  sent := rfl
  main := by simp [Conversation.init, Main.Agrees]
  wakes := rfl
  stops := ⟨0, by simp [Conversation.init], rfl⟩
  fresh := fun _ => ⟨rfl, rfl⟩
  reading := by simp [Conversation.init, LoopThread.enter]
  exited := by simp [Conversation.init, LoopThread.enter, taken, consumed]
  callback := fun hinside => absurd rfl hinside
  mutex := .inl rfl
  joined := fun hpast => by cases hpast
  freed := rfl

/-- What a step brings: the invariant again, and less to do unless `epoll_wait` came back
for nothing. -/
structure Advanced (g : Given) (s s' : Conversation) : Prop where
  talk : Talk g s'
  falls : s' = s ∨ left g s' < left g s

section Thread

variable {lib : Libspe} {g : Given} {s s' : Conversation}

theorem Talk.sent_length (h : Talk g s) : s.answered.length = s.taken.length + s.thread.pipe.length := by
  simpa using congrArg List.length h.sent

theorem Talk.typed_length (h : Talk g s) :
    g.typed.length = s.answered.length + s.main.line.toList.length + s.lines.length := by
  rw [h.typed, List.length_append, List.length_append]

/-- Outside a stop the callback is not called. -/
theorem Talk.outside (h : Talk g s) (hphase : ∀ code, s.thread.phase ≠ .stopped code) : s.callback = .outside := by
  by_contra hinside
  obtain ⟨code, hcode⟩ := h.callback hinside
  exact hphase code hcode

/-- While the thread is in its loop, `main` has not joined it. -/
theorem Talk.not_past (h : Talk g s) (hphase : s.thread.phase ≠ .exited) : ¬ s.main.past = true :=
  fun hpast => hphase (h.joined hpast)

theorem Talk.spu_stop (h : Talk g s) (hphase : s.thread.phase = .running) :
    Advanced g s { s with
      thread := s.thread.stop (.signal 0), stopped := true, myint := if s.stopped then s.myint + 1 else s.myint } := by
  have houtside := h.outside (by simp [hphase])
  have hwakes := h.wakes
  obtain ⟨turns, hmyint, hstops⟩ := h.stops
  have hexited := h.exited
  have htaken : consumed (s.thread.trace ++ [.stop 0]) = consumed s.thread.trace := by simp [consumed]
  rw [hphase] at hwakes hstops
  simp only [taken] at hstops
  refine ⟨⟨h.typed, ?_, h.main, ?_, ?_, ?_, ?_, ?_, ?_, .inl houtside, ?_, h.freed⟩, .inr ?_⟩
  · simpa only [taken, LoopThread.stop, htaken] using h.sent
  · simpa only [taken, LoopThread.stop, htaken, houtside, openCall] using hwakes
  · simp only [taken, LoopThread.stop, htaken, openTurn, if_true]
    cases hstopped : s.stopped with
    | false =>
      rw [hstopped] at hstops
      simp only [Bool.false_eq_true, if_false, openTurn] at hstops ⊢
      exact ⟨turns, hmyint, by omega⟩
    | true =>
      rw [hstopped] at hstops
      simp only [if_true, openTurn] at hstops ⊢
      refine ⟨turns + 1, ?_, by omega⟩
      rw [hmyint, BitVec.ofNat_add, BitVec.add_assoc]
      rfl
  · intro hstopped
    cases hstopped
  · intro hreading
    cases hreading
  · simpa only [taken, LoopThread.stop, htaken, hphase, reduceCtorEq] using hexited
  · exact fun _ => ⟨0, rfl⟩
  · exact fun hpast => absurd hpast (h.not_past (by simp [hphase]))
  · simp only [left, taken, LoopThread.stop, htaken, hphase, houtside, phaseLeft, Callback.left]
    omega

theorem Talk.callback_unlock (h : Talk g s) (hcallback : s.callback = .broadcasted) {code : BitVec 32}
    (hphase : s.thread.phase = .stopped code) :
    Advanced g s { s with thread := s.thread.callback lib code, callback := .outside } := by
  obtain ⟨value, out_mbox, hthread⟩ := s.thread.callback_eq lib code
  have hwakes := h.wakes
  obtain ⟨turns, hmyint, hstops⟩ := h.stops
  have hexited := h.exited
  have htaken : consumed (s.thread.trace ++ [.callback value]) = consumed s.thread.trace := by simp [consumed]
  rw [hphase] at hwakes hstops
  rw [hthread]
  refine ⟨⟨h.typed, ?_, h.main, ?_, ?_, ?_, ?_, ?_, ?_, .inl rfl, ?_, h.freed⟩, .inr ?_⟩
  · simpa only [taken, htaken] using h.sent
  · simpa only [taken, htaken, hcallback, openCall] using hwakes
  · exact ⟨turns, hmyint, by simpa only [taken, htaken, openTurn] using hstops⟩
  · intro hstopped
    have hrunning := (h.fresh hstopped).2
    rw [hphase] at hrunning
    cases hrunning
  · intro hreading
    cases hreading
  · simpa only [taken, htaken, hphase, reduceCtorEq] using hexited
  · exact fun hinside => absurd rfl hinside
  · exact fun hpast => absurd hpast (h.not_past (by simp [hphase]))
  · simp only [left, taken, htaken, hphase, hcallback, phaseLeft, Callback.left]
    omega

/-- `epoll_wait` reports the pipe only when there is something in it. -/
theorem Talk.epoll_wait (h : Talk g s) (hphase : s.thread.phase = .waiting) (hpipe : s.thread.pipe ≠ []) :
    Advanced g s { s with thread := { s.thread with phase := .reading } } := by
  have houtside := h.outside (by simp [hphase])
  have hwakes := h.wakes
  have hstops := h.stops
  have hexited := h.exited
  rw [hphase] at hwakes hstops
  refine ⟨⟨h.typed, h.sent, h.main, hwakes, hstops, ?_, fun _ => hpipe, ?_, ?_, .inl houtside, ?_, h.freed⟩, .inr ?_⟩
  · intro hstopped
    have hrunning := (h.fresh hstopped).2
    rw [hphase] at hrunning
    cases hrunning
  · simpa only [taken, hphase, reduceCtorEq] using hexited
  · exact fun hinside => absurd houtside hinside
  · exact fun hpast => absurd hpast (h.not_past (by simp [hphase]))
  · simp only [left, taken, hphase, phaseLeft]
    omega

theorem Talk.read (h : Talk g s) (hphase : s.thread.phase = .reading) {word : BitVec 32} {pipe : List (BitVec 32)}
    (hpipe : s.thread.pipe = word :: pipe) : Advanced g s { s with thread := s.thread.act word pipe } := by
  have houtside := h.outside (by simp [hphase])
  have hwakes := h.wakes
  obtain ⟨turns, hmyint, hstops⟩ := h.stops
  have hexited := h.exited
  have hlength := h.sent_length
  have htyped := h.typed_length
  rw [hphase] at hwakes hstops
  rw [hpipe, List.length_cons] at hlength
  have hsent : s.answered.map action = (s.taken ++ [word]) ++ pipe := by
    rw [h.sent, hpipe, List.append_assoc]
    rfl
  have hrunning : THREAD_EXIT ∉ s.taken := by
    rw [← hexited, hphase]
    simp
  have hstopped : s.stopped = true := by
    by_contra hfresh
    have hphase' := (h.fresh (Bool.not_eq_true _ ▸ hfresh)).2
    rw [hphase] at hphase'
    cases hphase'
  have htaken : consumed (s.thread.act word pipe).trace = s.taken ++ [word] := consumed_act s.thread word pipe
  have hrest : (s.thread.act word pipe).pipe = pipe := by
    unfold LoopThread.act
    split <;> rfl
  have hnext : (s.thread.act word pipe).phase = if word = THREAD_EXIT then .exited else .running := by
    unfold LoopThread.act
    split <;> rfl
  have hclosed : openCall (if word = THREAD_EXIT then .exited else .running) s.callback = 0 ∧
      openTurn (if word = THREAD_EXIT then .exited else .running) = 0 := by
    split <;> exact ⟨rfl, rfl⟩
  generalize s.thread.act word pipe = thread at htaken hrest hnext ⊢
  refine ⟨⟨h.typed, ?_, h.main, ?_, ?_, ?_, ?_, ?_, ?_, .inl houtside, ?_, h.freed⟩, .inr ?_⟩
  · rw [taken, htaken, hrest]
    exact hsent
  · simp only [openCall] at hwakes
    rw [taken, htaken, hnext, hclosed.1, List.length_append, List.length_singleton]
    omega
  · simp only [openTurn] at hstops
    refine ⟨turns, hmyint, ?_⟩
    change turns + (if s.stopped then 1 else 0) = _
    rw [taken, htaken, hnext, hclosed.2, List.length_append, List.length_singleton]
    omega
  · exact fun hfresh => absurd hstopped (Bool.eq_false_iff.mp hfresh)
  · intro hreading
    rw [hnext] at hreading
    split at hreading <;> cases hreading
  · rw [taken, htaken, hnext, List.mem_append, List.mem_singleton]
    split
    · next hexit => simp [hexit]
    · next hexit => simp [hrunning, Ne.symm hexit]
  · exact fun hinside => absurd houtside hinside
  · exact fun hpast => absurd hpast (h.not_past (by simp [hphase]))
  · have hless : phaseLeft (if word = THREAD_EXIT then .exited else .running) s.callback ≤ 6 := by
      split <;> simp [phaseLeft]
    have hone : phaseLeft .reading s.callback = 1 := rfl
    simp only [left, hphase, hone]
    rw [taken, htaken, hnext, List.length_append, List.length_singleton]
    omega

theorem mutexFree_iff : s.mutexFree = true ↔ s.callback = .outside ∧ s.main ≠ .locked ∧ s.main ≠ .relocked := by
  simp [mutexFree]

theorem Talk.callback_lock (h : Talk g s) {code : BitVec 32} (hphase : s.thread.phase = .stopped code)
    (hfree : s.mutexFree = true) : Advanced g s { s with callback := .locked } := by
  obtain ⟨houtside, hmain⟩ := mutexFree_iff.mp hfree
  have hwakes := h.wakes
  rw [hphase, houtside] at hwakes
  refine ⟨⟨h.typed, h.sent, h.main, ?_, h.stops, h.fresh, h.reading, h.exited, fun _ => ⟨code, hphase⟩, .inr hmain,
    h.joined, h.freed⟩, .inr ?_⟩
  · simp only [hphase]
    exact hwakes
  · simp only [left, taken, hphase, houtside, phaseLeft, Callback.left]
    omega

theorem Talk.broadcast (h : Talk g s) (hcallback : s.callback = .locked) : Advanced g s s.broadcast := by
  obtain ⟨code, hphase⟩ := h.callback (by simp [hcallback])
  have hwakes := h.wakes
  have hmutex := h.mutex.resolve_left (by simp [hcallback])
  have hmain := h.main
  have htyped := h.typed
  have hfreed := h.freed
  rw [hphase, hcallback] at hwakes
  simp only [openCall] at hwakes
  unfold Conversation.broadcast
  split
  · next hwaiting =>
    rw [hwaiting] at hwakes hmain htyped hfreed
    refine ⟨⟨htyped, h.sent, hmain, ?_, h.stops, h.fresh, h.reading, h.exited, fun _ => ⟨code, hphase⟩,
      .inr (by simp), fun hpast => (by cases hpast), hfreed⟩, .inr ?_⟩
    · simp only [Main.owes, taken] at hwakes
      simp only [taken, hphase, openCall, Main.owes]
      omega
    · simp only [left, taken, hphase, hcallback, hwaiting, phaseLeft, Callback.left, Main.left]
      omega
  · refine ⟨⟨htyped, h.sent, hmain, ?_, h.stops, h.fresh, h.reading, h.exited, fun _ => ⟨code, hphase⟩, .inr hmutex,
      h.joined, hfreed⟩, .inr ?_⟩
    · rw [taken] at hwakes
      simp only [taken, hphase, openCall]
      omega
    · simp only [left, taken, hphase, hcallback, phaseLeft, Callback.left]
      omega

end Thread

section Main

variable {lib : Libspe} {g : Given} {s s' : Conversation}

/-- A step of `main` between two actions or behind the last. -/
theorem Talk.move (h : Talk g s) {place main : Main} {cells : Heap Unit} (hplace : s.main = place)
    (hline : main.line = place.line) (howes : main.owes = place.owes)
    (hagrees : place.Agrees s.answered → main.Agrees s.answered)
    (hmutex : s.callback = .outside ∨ main ≠ .locked ∧ main ≠ .relocked)
    (hjoined : main.past = true → s.thread.phase = .exited)
    (hfreed : place.Freed g s.cells → main.Freed g cells) (hleft : main.left < place.left) :
    Advanced g s { s with main, cells } := by
  subst hplace
  have htyped := h.typed
  have hwakes := h.wakes
  rw [← hline] at htyped
  rw [← howes] at hwakes
  refine ⟨⟨htyped, h.sent, hagrees h.main, hwakes, h.stops, h.fresh, h.reading, h.exited, h.callback, hmutex, hjoined,
    hfreed h.freed⟩, .inr ?_⟩
  simp only [left, taken]
  omega

/-- A wait that ends by itself. -/
theorem Talk.wake (h : Talk g s) (hwaiting : s.main = .waiting) :
    Advanced g s { s with main := .woken, spurious := s.spurious + 1 } := by
  have htyped := h.typed
  have hwakes := h.wakes
  have hmain := h.main
  have hfreed := h.freed
  rw [hwaiting] at htyped hwakes hmain hfreed
  simp only [Main.owes] at hwakes
  refine ⟨⟨htyped, h.sent, hmain, ?_, h.stops, h.fresh, h.reading, h.exited, h.callback, .inr (by simp),
    fun hpast => (by cases hpast), hfreed⟩, .inr ?_⟩
  · rw [taken] at hwakes
    simp only [taken, Main.owes]
    omega
  · simp only [left, taken, hwaiting, Main.left]
    omega

theorem Talk.fgets (h : Talk g s) (hasking : s.main = .asking) {line : Char} {lines : List Char}
    (hlines : s.lines = line :: lines) : Advanced g s { s with main := .sending line, lines } := by
  have htyped := h.typed
  have hwakes := h.wakes
  have hmain := h.main
  have hfreed := h.freed
  rw [hasking] at htyped hwakes hmain hfreed
  refine ⟨⟨?_, h.sent, hmain, hwakes, h.stops, h.fresh, h.reading, h.exited, h.callback, .inr (by simp),
    fun hpast => (by cases hpast), hfreed⟩, .inr ?_⟩
  · rw [htyped, hlines]
    simp [Main.line]
  · simp only [left, taken, hasking, hlines, Main.left, List.length_cons]
    omega

theorem Talk.send_action (h : Talk g s) {line : Char} (hsending : s.main = .sending line) :
    Advanced g s { s with
      thread := s.thread.send_action (action line)
      main := if yes line then .locking else .joining
      answered := s.answered ++ [line] } := by
  have htyped := h.typed
  have hwakes := h.wakes
  have hmain := h.main
  have hfreed := h.freed
  rw [hsending] at htyped hwakes hmain hfreed
  simp only [Main.owes] at hwakes
  have hmore : (if yes line then Main.locking else .joining).line = none ∧
      (if yes line then Main.locking else .joining).owes = 0 ∧
      (if yes line then Main.locking else .joining).left ≤ 6 ∧
      (if yes line then Main.locking else .joining) ≠ .locked ∧
      (if yes line then Main.locking else .joining) ≠ .relocked ∧
      (if yes line then Main.locking else .joining).past = false := by
    split <;> decide
  have hkept : (if yes line then Main.locking else .joining).Freed g s.cells := by split <;> exact hfreed
  have hagrees : (if yes line then Main.locking else .joining).Agrees (s.answered ++ [line]) := by
    split
    · next hline =>
      intro other hother
      obtain hearlier | hlast := List.mem_append.mp hother
      · exact hmain other hearlier
      · rwa [List.mem_singleton.mp hlast]
    · next hline => exact ⟨s.answered, line, rfl, hmain, hline⟩
  generalize (if yes line then Main.locking else .joining) = main at hmore hagrees hkept ⊢
  obtain ⟨hline, howes, hleft, hlocked, hrelocked, hpast⟩ := hmore
  refine ⟨⟨?_, ?_, hagrees, ?_, h.stops, h.fresh, ?_, h.exited, h.callback, .inr ⟨hlocked, hrelocked⟩,
    fun hover => absurd hover (Bool.eq_false_iff.mp hpast), hkept⟩, .inr ?_⟩
  · simp only [hline, Option.toList_none, List.append_nil]
    simpa [Main.line] using htyped
  · simp only [List.map_append, List.map_singleton, h.sent, LoopThread.send_action, taken, List.append_assoc]
  · rw [taken] at hwakes
    simp only [taken, howes, LoopThread.send_action, List.length_append, List.length_singleton]
    omega
  · simp [LoopThread.send_action]
  · have hbefore : (Main.sending line).left = 8 := rfl
    simp only [left, taken, LoopThread.send_action, hsending, hbefore]
    omega

theorem Talk.step (h : Talk g s) {event : Event} (hstep : step lib g s event = some s') : Advanced g s s' := by
  cases event with
  | spu_stop =>
    simp only [Conversation.step, Option.map_eq_some_iff] at hstep
    obtain ⟨thread, hthread, rfl⟩ := hstep
    obtain ⟨hphase, rfl⟩ := LoopThread.step_stop.mp hthread
    exact h.spu_stop hphase
  | callback_lock =>
    simp only [Conversation.step] at hstep
    split at hstep
    · next code hphase =>
      simp only [Option.ite_none_right_eq_some, Option.some.injEq] at hstep
      obtain ⟨hfree, rfl⟩ := hstep
      exact h.callback_lock hphase hfree
    all_goals cases hstep
  | pthread_cond_broadcast =>
    simp only [Conversation.step, Option.ite_none_right_eq_some, Option.some.injEq] at hstep
    obtain ⟨hcallback, rfl⟩ := hstep
    exact h.broadcast hcallback
  | callback_unlock =>
    simp only [Conversation.step, Option.ite_none_right_eq_some, Option.map_eq_some_iff] at hstep
    obtain ⟨hcallback, thread, hthread, rfl⟩ := hstep
    obtain ⟨code, hphase, rfl⟩ := LoopThread.step_callback.mp hthread
    exact h.callback_unlock hcallback hphase
  | epoll_wait fds =>
    simp only [Conversation.step, Option.ite_none_right_eq_some, Option.map_eq_some_iff] at hstep
    obtain ⟨hfds, thread, hthread, rfl⟩ := hstep
    obtain ⟨hphase, rfl⟩ := LoopThread.step_epoll_wait.mp hthread
    obtain rfl | ⟨rfl, hpipe⟩ := hfds
    · rw [if_neg List.not_mem_nil, ← hphase]
      exact ⟨h, .inl rfl⟩
    · rw [if_pos (List.mem_singleton_self _)]
      exact h.epoll_wait hphase hpipe
  | read =>
    simp only [Conversation.step, Option.map_eq_some_iff] at hstep
    obtain ⟨thread, hthread, rfl⟩ := hstep
    obtain ⟨hphase, word, pipe, hpipe, rfl⟩ := LoopThread.step_read.mp hthread
    exact h.read hphase hpipe
  | pthread_mutex_lock =>
    simp only [Conversation.step, Option.ite_none_right_eq_some, Option.some.injEq] at hstep
    obtain ⟨⟨hlocking, hfree⟩, rfl⟩ := hstep
    exact h.move hlocking rfl rfl id (.inl (mutexFree_iff.mp hfree).1) nofun id (by decide)
  | pthread_cond_wait =>
    simp only [Conversation.step, Option.ite_none_right_eq_some, Option.some.injEq] at hstep
    obtain ⟨hlocked, rfl⟩ := hstep
    exact h.move hlocked rfl rfl id (.inr (by simp)) nofun id (by decide)
  | wake =>
    simp only [Conversation.step, Option.ite_none_right_eq_some, Option.some.injEq] at hstep
    obtain ⟨hwaiting, rfl⟩ := hstep
    exact h.wake hwaiting
  | relock =>
    simp only [Conversation.step, Option.ite_none_right_eq_some, Option.some.injEq] at hstep
    obtain ⟨⟨hwoken, hfree⟩, rfl⟩ := hstep
    exact h.move hwoken rfl rfl id (.inl (mutexFree_iff.mp hfree).1) nofun id (by decide)
  | pthread_mutex_unlock =>
    simp only [Conversation.step, Option.ite_none_right_eq_some, Option.some.injEq] at hstep
    obtain ⟨hrelocked, rfl⟩ := hstep
    exact h.move hrelocked rfl rfl id (.inr (by simp)) nofun id (by decide)
  | fgets =>
    simp only [Conversation.step, Option.ite_none_right_eq_some] at hstep
    obtain ⟨hasking, hstep⟩ := hstep
    split at hstep
    · cases hstep
    · next line lines hlines =>
      obtain rfl := Option.some.inj hstep
      exact h.fgets hasking hlines
  | send_action =>
    simp only [Conversation.step] at hstep
    split at hstep
    · next line hsending =>
      obtain ⟨thread, hthread, rfl⟩ := Option.map_eq_some_iff.mp hstep
      obtain rfl := LoopThread.step_send_action.mp hthread
      exact h.send_action hsending
    all_goals cases hstep
  | pthread_join =>
    simp only [Conversation.step, Option.ite_none_right_eq_some, Option.some.injEq] at hstep
    obtain ⟨⟨hjoining, hexited⟩, rfl⟩ := hstep
    exact h.move hjoining rfl rfl id (.inr (by simp)) (fun _ => hexited) id (by decide)
  | free_events =>
    simp only [Conversation.step, Option.ite_none_right_eq_some, Option.map_eq_some_iff, heap.release_eq_some] at hstep
    obtain ⟨hjoined, cells, ⟨_, rfl⟩, rfl⟩ := hstep
    exact h.move hjoined rfl rfl id (.inr (by simp)) (fun _ => h.joined (by rw [hjoined]; rfl))
      (congrArg (heap.free · g.events)) (by decide)
  | close =>
    simp only [Conversation.step, Option.ite_none_right_eq_some, Option.some.injEq] at hstep
    obtain ⟨hclosing, rfl⟩ := hstep
    exact h.move hclosing rfl rfl id (.inr (by simp)) (fun _ => h.joined (by rw [hclosing]; rfl)) id (by decide)
  | free_ex2 =>
    simp only [Conversation.step, Option.ite_none_right_eq_some, Option.map_eq_some_iff, heap.release_eq_some] at hstep
    obtain ⟨hclosed, cells, ⟨_, rfl⟩, rfl⟩ := hstep
    exact h.move hclosed rfl rfl id (.inr (by simp)) (fun _ => h.joined (by rw [hclosed]; rfl))
      (congrArg (heap.free · g.ex2)) (by decide)

end Main

section Rest

variable {lib : Libspe} {g : Given} {s : Conversation}

theorem exit_not_mem {lines : List Char} (hyes : ∀ line ∈ lines, yes line) : THREAD_EXIT ∉ lines.map action := by
  intro hmem
  obtain ⟨line, hline, hexit⟩ := List.mem_map.mp hmem
  rw [action, if_pos (hyes line hline)] at hexit
  exact absurd hexit (by decide)

theorem Talk.taken_prefix (h : Talk g s) : s.taken <+: s.answered.map action := ⟨s.thread.pipe, h.sent.symm⟩

/-- Before `THREAD_EXIT` has been sent, the thread cannot have left its loop. -/
theorem Talk.not_exited (h : Talk g s) (hyes : ∀ line ∈ s.answered, yes line) : s.thread.phase ≠ .exited :=
  fun hexited => exit_not_mem hyes (h.taken_prefix.subset (h.exited.mp hexited))

/-- When `THREAD_EXIT` has been sent, it is the last action, and the thread has left its
loop once it has read everything. -/
theorem Talk.exited_iff_taken (h : Talk g s) {front : List Char} {last : Char}
    (hanswered : s.answered = front ++ [last]) (hyes : ∀ line ∈ front, yes line) (hlast : ¬ yes last) :
    s.thread.phase = .exited ↔ s.thread.pipe = [] := by
  have hall : s.answered.map action = front.map action ++ [THREAD_EXIT] := by
    rw [hanswered, List.map_append, List.map_singleton, action, if_neg hlast]
  rw [h.exited]
  constructor
  · intro hexit
    have hprefix := h.taken_prefix
    rw [hall, List.prefix_concat_iff, ← hall] at hprefix
    obtain heq | hearlier := hprefix
    · exact List.append_right_eq_self.mp (h.sent.symm.trans heq.symm)
    · exact absurd (hearlier.subset hexit) (exit_not_mem hyes)
  · intro hempty
    have hsent := h.sent
    rw [hempty, List.append_nil] at hsent
    rw [← hsent, hall]
    simp

/-- No step that is taken in the end would change anything. -/
def AtRest (lib : Libspe) (g : Given) (s : Conversation) : Prop :=
  ∀ event : Event, event.prompt = true → Execution.Still (step lib g) s event

/-- A callback always comes to its end. -/
theorem AtRest.callback (hrest : AtRest lib g s) (h : Talk g s) : s.callback = .outside := by
  cases hcallback : s.callback with
  | outside => rfl
  | locked =>
    have hstep : step lib g s .pthread_cond_broadcast = some s.broadcast := by rw [step, if_pos hcallback]
    refine ((hrest .pthread_cond_broadcast rfl).false_of_change hstep Conversation.callback ?_).elim
    unfold broadcast
    split <;> simp [hcallback]
  | broadcasted =>
    obtain ⟨code, hphase⟩ := h.callback (by simp [hcallback])
    have hthread : s.thread.step lib .callback = some (s.thread.callback lib code) :=
      LoopThread.step_callback.mpr ⟨code, hphase, rfl⟩
    have hstep : step lib g s .callback_unlock =
        some { s with thread := s.thread.callback lib code, callback := .outside } := by
      rw [step, if_pos hcallback, hthread, Option.map_some]
    exact ((hrest .callback_unlock rfl).false_of_change hstep Conversation.callback (by simp [hcallback])).elim

/-- At rest nobody holds the mutex. -/
theorem AtRest.mutexFree (hrest : AtRest lib g s) (h : Talk g s) : s.mutexFree = true := by
  refine mutexFree_iff.mpr ⟨hrest.callback h, ?_, ?_⟩
  · intro hlocked
    have hstep : step lib g s .pthread_cond_wait = some { s with main := .waiting } := by rw [step, if_pos hlocked]
    exact (hrest .pthread_cond_wait rfl).false_of_change hstep Conversation.main (by simp [hlocked])
  · intro hrelocked
    have hstep : step lib g s .pthread_mutex_unlock = some { s with main := .asking } := by rw [step, if_pos hrelocked]
    exact (hrest .pthread_mutex_unlock rfl).false_of_change hstep Conversation.main (by simp [hrelocked])

/-- A thread at rest waits for an action, or has left its loop. -/
theorem AtRest.thread (hrest : AtRest lib g s) (h : Talk g s) :
    (s.thread.phase = .waiting ∧ s.thread.pipe = []) ∨ s.thread.phase = .exited := by
  cases hphase : s.thread.phase with
  | running =>
    have hthread : s.thread.step lib (.stop (.signal 0)) = some (s.thread.stop (.signal 0)) :=
      LoopThread.step_stop.mpr ⟨hphase, rfl⟩
    refine ((hrest .spu_stop rfl).false_of_change (by rw [step, hthread, Option.map_some])
      (fun s => s.thread.phase) ?_).elim
    simp [LoopThread.stop, hphase]
  | stopped code =>
    have hstep : step lib g s .callback_lock = some { s with callback := .locked } := by
      simp only [step, hphase, if_pos (hrest.mutexFree h)]
    refine ((hrest .callback_lock rfl).false_of_change hstep Conversation.callback ?_).elim
    simp [hrest.callback h]
  | waiting =>
    refine .inl ⟨rfl, ?_⟩
    by_contra hpipe
    have hthread : s.thread.step lib (.epoll_wait [s.thread.fd]) = some { s.thread with phase := .reading } :=
      LoopThread.step_epoll_wait.mpr ⟨hphase, by rw [if_pos (List.mem_singleton_self _)]⟩
    refine (hrest (.epoll_wait [s.thread.fd]) rfl).false_of_change
      (by rw [step, if_pos (.inr ⟨rfl, hpipe⟩), hthread, Option.map_some]) (fun s => s.thread.phase) ?_
    simp [hphase]
  | reading =>
    obtain ⟨word, pipe, hpipe⟩ := List.exists_cons_of_ne_nil (h.reading hphase)
    have hthread : s.thread.step lib .read = some (s.thread.act word pipe) :=
      LoopThread.step_read.mpr ⟨hphase, word, pipe, hpipe, rfl⟩
    refine ((hrest .read rfl).false_of_change (by rw [step, hthread, Option.map_some])
      (fun s => s.thread.phase) ?_).elim
    unfold LoopThread.act
    split <;> simp [hphase]
  | exited => exact .inr rfl

/-- A `main` at rest waits to be woken, for another line, or for the thread to come to its
end, or has finished. -/
theorem AtRest.main (hrest : AtRest lib g s) (h : Talk g s) :
    s.main = .waiting ∨ (s.main = .asking ∧ s.lines = []) ∨ (s.main = .joining ∧ s.thread.phase ≠ .exited) ∨
      s.main = .finished := by
  have hfree := hrest.mutexFree h
  cases hmain : s.main with
  | locking =>
    have hstep : step lib g s .pthread_mutex_lock = some { s with main := .locked } := by
      rw [step, if_pos ⟨hmain, hfree⟩]
    exact ((hrest .pthread_mutex_lock rfl).false_of_change hstep Conversation.main (by simp [hmain])).elim
  | locked => exact absurd hmain (mutexFree_iff.mp hfree).2.1
  | waiting => exact .inl rfl
  | woken =>
    have hstep : step lib g s .relock = some { s with main := .relocked } := by rw [step, if_pos ⟨hmain, hfree⟩]
    exact ((hrest .relock rfl).false_of_change hstep Conversation.main (by simp [hmain])).elim
  | relocked => exact absurd hmain (mutexFree_iff.mp hfree).2.2
  | asking =>
    refine .inr (.inl ⟨rfl, ?_⟩)
    cases hlines : s.lines with
    | nil => rfl
    | cons line lines =>
      have hstep : step lib g s .fgets = some { s with main := .sending line, lines } := by
        rw [step, if_pos hmain, hlines]
      exact ((hrest .fgets rfl).false_of_change hstep Conversation.main (by simp [hmain])).elim
  | sending line =>
    have hthread : s.thread.step lib (.send_action (action line)) = some (s.thread.send_action (action line)) :=
      LoopThread.step_send_action.mpr rfl
    refine ((hrest .send_action rfl).false_of_change (by simp only [step, hmain, hthread, Option.map_some]; rfl)
      Conversation.answered ?_).elim
    simp
  | joining =>
    refine .inr (.inr (.inl ⟨rfl, ?_⟩))
    intro hexited
    have hstep : step lib g s .pthread_join = some { s with main := .joined } := by rw [step, if_pos ⟨hmain, hexited⟩]
    exact (hrest .pthread_join rfl).false_of_change hstep Conversation.main (by simp [hmain])
  | joined =>
    have hfreed := h.freed
    rw [hmain] at hfreed
    obtain ⟨cells, hcells⟩ := g.release_events
    have hstep : step lib g s .free_events = some { s with main := .freed, cells } := by
      rw [step, if_pos hmain, show s.cells = g.cells from hfreed, hcells, Option.map_some]
    exact ((hrest .free_events rfl).false_of_change hstep Conversation.main (by simp [hmain])).elim
  | freed =>
    have hstep : step lib g s .close = some { s with main := .closed } := by rw [step, if_pos hmain]
    exact ((hrest .close rfl).false_of_change hstep Conversation.main (by simp [hmain])).elim
  | closed =>
    have hfreed := h.freed
    rw [hmain] at hfreed
    obtain ⟨cells, hcells⟩ := g.release_ex2
    have hstep : step lib g s .free_ex2 = some { s with main := .finished, cells } := by
      rw [step, if_pos hmain, show s.cells = heap.free g.cells g.events from hfreed, hcells, Option.map_some]
    exact ((hrest .free_ex2 rfl).false_of_change hstep Conversation.main (by simp [hmain])).elim
  | finished => exact .inr (.inr (.inr rfl))

/-- When both have come to their end, each line that says yes has been counted. -/
theorem Talk.finished_myint (h : Talk g s) (hfinished : s.main = .finished) :
    s.myint = g.myint + BitVec.ofNat 8 (g.typed.takeWhile yes).length := by
  have hmain := h.main
  have htyped := h.typed
  obtain ⟨turns, hmyint, hstops⟩ := h.stops
  have hlength := h.sent_length
  have hexited := h.joined (by rw [hfinished]; rfl)
  rw [hfinished] at hmain htyped
  obtain ⟨front, last, hanswered, hyes, hlast⟩ := hmain
  have hempty := (h.exited_iff_taken hanswered hyes hlast).mp hexited
  have hstopped : s.stopped = true := by
    by_contra hfresh
    have hrunning := (h.fresh (Bool.not_eq_true _ ▸ hfresh)).2
    rw [hexited] at hrunning
    cases hrunning
  have hwhile : g.typed.takeWhile yes = front := by
    rw [htyped, hanswered]
    simp only [Main.line, Option.toList_none, List.append_nil, List.append_assoc, List.singleton_append]
    rw [List.takeWhile_append_of_pos hyes, List.takeWhile_cons_of_neg hlast, List.append_nil]
  rw [hempty, hanswered, List.length_append, List.length_singleton, List.length_nil] at hlength
  rw [hstopped, hexited] at hstops
  simp only [if_true, openTurn] at hstops
  have hturns : turns = front.length := by omega
  rw [hmyint, hwhile, hturns]

/-- Then no broadcast is without its wait. -/
theorem Talk.finished_wakes (h : Talk g s) (hfinished : s.main = .finished) : s.lost ≤ s.spurious := by
  have hwakes := h.wakes
  have hlength := h.sent_length
  rw [hfinished, h.joined (by rw [hfinished]; rfl)] at hwakes
  simp only [Main.owes, openCall] at hwakes
  omega

/-- Both blocks have been freed. -/
theorem Talk.finished_freed (h : Talk g s) (hfinished : s.main = .finished) :
    heap.read s.cells g.events = none ∧ heap.read s.cells g.ex2 = none := by
  have hfreed := h.freed
  rw [hfinished] at hfreed
  have hne : g.events ≠ g.ex2 := by simp [Given.ex2, Given.events, alloc]
  rw [show s.cells = heap.free (heap.free g.cells g.events) g.ex2 from hfreed, heap.read_free_ne hne]
  exact ⟨heap.read_free_self g.cells _, heap.read_free_self _ _⟩

/-- And there is no further step. -/
theorem Talk.finished_last (h : Talk g s) (hfinished : s.main = .finished) (event : Event) :
    Conversation.step lib g s event = none := by
  have hexited := h.joined (by rw [hfinished]; rfl)
  have houtside := h.outside (by simp [hexited])
  cases event <;> simp [Conversation.step, LoopThread.step, hfinished, hexited, houtside]

/-- The two threads at rest have come to their end exactly when each lost broadcast is made
up for by a wait that ended by itself. -/
theorem AtRest.finished_iff (hrest : AtRest lib g s) (h : Talk g s) (htyped : ∃ line ∈ g.typed, ¬ yes line) :
    s.main = .finished ↔ s.lost ≤ s.spurious := by
  have hmain := h.main
  have hwakes := h.wakes
  have hlength := h.sent_length
  obtain hstands | ⟨hstands, hlines⟩ | ⟨hstands, hrunning⟩ | hstands := hrest.main h
  · rw [hstands] at hmain hwakes ⊢
    obtain ⟨hphase, hempty⟩ | hexited := hrest.thread h
    · rw [hphase] at hwakes
      rw [hempty, List.length_nil] at hlength
      simp only [Main.owes, openCall] at hwakes
      simp only [reduceCtorEq, false_iff]
      omega
    · exact absurd hexited (h.not_exited hmain)
  · exfalso
    have hall := h.typed
    rw [hstands] at hmain
    rw [hstands, hlines] at hall
    obtain ⟨line, hline, hno⟩ := htyped
    simp only [Main.line, Option.toList_none, List.append_nil] at hall
    rw [hall] at hline
    exact hno (hmain line hline)
  · exfalso
    rw [hstands] at hmain
    obtain ⟨front, last, hanswered, hyes, hlast⟩ := hmain
    obtain ⟨_, hempty⟩ | hexited := hrest.thread h
    · exact hrunning ((h.exited_iff_taken hanswered hyes hlast).mpr hempty)
    · exact hrunning hexited
  · simp only [hstands, true_iff]
    exact h.finished_wakes hstands

end Rest

section Executions

variable {lib : Libspe} {g : Given}

theorem talk_always (x : Execution (stutter (step lib g))) (hstart : x.state 0 = init g) (n : Nat) :
    Talk g (x.state n) :=
  Execution.stutter_always (hstart ▸ Talk.init g) (fun _ _ _ h hstep => (h.step hstep).talk) n

theorem advances (x : Execution (stutter (step lib g))) (hstart : x.state 0 = init g) (n : Nat) :
    Advanced g (x.state n) (x.state (n + 1)) :=
  Execution.stutter_next ⟨talk_always x hstart n, .inl rfl⟩ fun _ _ => (talk_always x hstart n).step

/-- Whatever the order of steps, as long as neither thread is held up for ever: `main` and
the loop thread come to their end, with each line that says yes counted (modulo 256) and
the blocks of both freed, if and only if in the end as many waits have ended by themselves
as broadcasts did not find `main` in its wait. -/
theorem wakes_iff (lib : Libspe) (htyped : ∃ line ∈ g.typed, ¬ yes line) (x : Execution (stutter (step lib g)))
    (hstart : x.state 0 = init g) (hfair : x.WeaklyFair fun event => event.prompt = true) :
    (∃ n, (x.state n).main = .finished ∧ (x.state n).thread.phase = .exited ∧
      (x.state n).myint = g.myint + BitVec.ofNat 8 (g.typed.takeWhile yes).length ∧
      heap.read (x.state n).cells g.events = none ∧ heap.read (x.state n).cells g.ex2 = none) ↔
      ∀ᶠ n in atTop, (x.state n).lost ≤ (x.state n).spurious := by
  have htalk := talk_always x hstart
  obtain ⟨k, hconstant, hrest⟩ := hfair.exists_rest (left g) fun n => (advances x hstart n).falls
  have hlast := AtRest.finished_iff hrest (htalk k) htyped
  constructor
  · rintro ⟨n, hfinished, _⟩
    refine eventually_atTop.mpr ⟨n, fun i hi => ?_⟩
    rw [Execution.stutter_final ((htalk n).finished_last hfinished) i hi]
    exact (htalk n).finished_wakes hfinished
  · intro hmade
    obtain ⟨m, hm⟩ := eventually_atTop.mp hmade
    have hlater := hm (max m k) (Nat.le_max_left m k)
    rw [hconstant _ (Nat.le_max_right m k)] at hlater
    have hfinished := hlast.mpr hlater
    exact ⟨k, hfinished, (htalk k).joined (by rw [hfinished]; rfl), (htalk k).finished_myint hfinished,
      (htalk k).finished_freed hfinished⟩

/-- One line that says yes and one that says no. -/
def oneYes : Given where
  fd := 3
  myint := 1
  typed := ['y', 'n']
  blocks := []

/-- The first broadcast comes before the wait, which then ends by itself. -/
def lostOnce : List Event :=
  [.spu_stop, .callback_lock, .pthread_cond_broadcast, .callback_unlock, .pthread_mutex_lock, .pthread_cond_wait,
    .epoll_wait [], .wake, .relock, .pthread_mutex_unlock, .fgets, .send_action, .epoll_wait [3], .read,
    .pthread_mutex_lock, .pthread_cond_wait, .spu_stop, .callback_lock, .pthread_cond_broadcast, .callback_unlock,
    .relock, .pthread_mutex_unlock, .fgets, .send_action, .epoll_wait [3], .read, .pthread_join, .free_events, .close,
    .free_ex2]

theorem wakes_iff_lostOnce : ∃ x : Execution (stutter (step libspe2 oneYes)),
    x.state 0 = init oneYes ∧ (x.WeaklyFair fun event => event.prompt = true) ∧
      (∃ n, (x.state n).lost = 1) ∧ ∃ n, (x.state n).main = .finished ∧ (x.state n).myint = 2 := by
  have hvalue : (lostOnce.foldlM (step libspe2 oneYes) (init oneYes)).map (fun s => (s.main, s.lost, s.spurious)) =
      some (.finished, 1, 1) := by
    decide +kernel
  obtain ⟨stop, hrun, hobserved⟩ := exists_reaches_of_observe hvalue
  simp only [Prod.mk.injEq] at hobserved
  obtain ⟨hfinished, hlost, hspurious⟩ := hobserved
  obtain ⟨x, hstart, hlast⟩ := Execution.exists_of_finite hrun
  have htalk := talk_always x hstart
  have hfair : x.WeaklyFair fun event => event.prompt = true := by
    refine .of_rest hlast fun event _ after hafter => ?_
    rw [← hlast _ (Nat.le_refl _), (htalk _).finished_last (hlast _ (Nat.le_refl _) ▸ hfinished)] at hafter
    cases hafter
  have hmade : ∀ᶠ n in atTop, (x.state n).lost ≤ (x.state n).spurious := by
    refine eventually_atTop.mpr ⟨lostOnce.length, fun n hn => ?_⟩
    rw [hlast n hn, hlost, hspurious]
  obtain ⟨n, hover, _, hmyint, _⟩ := (wakes_iff libspe2 ⟨'n', by decide, by decide⟩ x hstart hfair).mpr hmade
  refine ⟨x, hstart, hfair, ⟨lostOnce.length, ?_⟩, n, hover, ?_⟩
  · rw [hlast _ (Nat.le_refl _), hlost]
  · rw [hmyint]
    decide

end Executions

end Conversation

end speutils.example2
