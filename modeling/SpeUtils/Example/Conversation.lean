import SpeUtils.SpeMessage
import SpeUtils.Lib.Fair
import SpeUtils.Lib.Heap

open Filter run speutils.messages speutils.message
open heap (Heap Ptr alloc release)

namespace speutils.message.Link

/-- The calls of `recieve_message_int` that have returned without reading the mailbox. -/
def missed (s : Link) : Nat := s.returned.length + s.out_intr_mbox.length - s.sent.length

/-- The mailbox holds one word at most, each with its event, and each word read has been
returned. -/
structure Matched (s : Link) : Prop where
  single : s.out_intr_mbox.length ≤ 1
  events : s.pending + (if s.receiver = .reading then 1 else 0) = s.out_intr_mbox.length
  returned : s.sent.length ≤ s.returned.length + s.out_intr_mbox.length

theorem Matched.init : Matched init := ⟨Nat.zero_le _, rfl, Nat.le_refl _⟩

section Steps

variable {s s' : Link}

theorem step_send_message_int {send : Send} :
    s.step (.send_message_int send) = some s' ↔
      s.out_intr_mbox = [] ∧ { s with
        out_intr_mbox := [send.word], pending := s.pending + 1, sent := s.sent ++ [send] } = s' := by
  simp only [step, Option.ite_none_right_eq_some, Option.some.injEq]
  constructor
  · rintro ⟨hempty, rfl⟩
    simp [hempty]
  · rintro ⟨hempty, rfl⟩
    simp [hempty]

theorem Matched.send_message_int {send : Send} (h : Matched s) (hstep : s.step (.send_message_int send) = some s') :
    Matched s' ∧ s'.missed = s.missed ∧ s'.sent.length = s.sent.length + 1 ∧
      s'.returned = s.returned ∧ s'.receiver = s.receiver := by
  obtain ⟨hempty, rfl⟩ := step_send_message_int.mp hstep
  have hevents := h.events
  have hreturned := h.returned
  rw [hempty, List.length_nil] at hevents hreturned
  refine ⟨⟨Nat.le_refl _, ?_, ?_⟩, ?_, by simp, rfl, rfl⟩
  · simp only [List.length_singleton]
    omega
  · simp only [List.length_append, List.length_singleton]
    omega
  · simp only [missed, hempty, List.length_append, List.length_singleton, List.length_nil]
    omega

end Steps

end Link

/-- How many more steps a call of `recieve_message_int` can take. -/
def Receiver.left : Receiver → Nat
  | .idle => 13
  | .waiting retries => retries + 2
  | .reading => 1

/-- The steps of `recieve_message_int`. -/
def Event.receives : Event → Bool
  | .send_message_int _ => false
  | .recieve_message_int | .spe_event_wait _ | .spe_out_intr_mbox_read => true

/-- `spe_event_wait` need not fail and need not report other events. -/
def Event.prompt : Event → Bool
  | .spe_event_wait .failed | .spe_event_wait .unrelated => false
  | .spe_event_wait .out_intr_mbox | .send_message_int _ | .recieve_message_int | .spe_out_intr_mbox_read => true

namespace Link

/-- What a step of `recieve_message_int` can do: the call returns with it, or comes nearer
to its end. -/
structure Received (s : Link) (event : Event) (s' : Link) : Prop where
  matched : Matched s'
  sent : s'.sent = s.sent
  missed : s'.missed = s.missed + (if s.patient event then 0 else 1)
  returned : s'.returned.length = s.returned.length + (if s'.receiver = .idle then 1 else 0)
  nearer : s'.receiver = .idle ∨ s'.receiver.left < s.receiver.left

variable {s s' : Link}

/-- A wait that did not bring the event of the mailbox. -/
theorem Matched.retry (h : Matched s) {retries : Nat} {wait : Wait} (hreceiver : s.receiver = .waiting retries)
    (hwait : wait ≠ .out_intr_mbox) : Received s (.spe_event_wait wait) (s.retry retries) := by
  have hevents := h.events
  have hreturned := h.returned
  have hpatient : s.patient (.spe_event_wait wait) = decide (1 < retries) := by
    cases wait with
    | failed | unrelated => simp [patient, hreceiver]
    | out_intr_mbox => exact absurd rfl hwait
  rw [hreceiver] at hevents
  simp only [reduceCtorEq, if_false] at hevents
  simp only [Link.retry]
  split
  · next hlast =>
    refine ⟨⟨h.single, ?_, ?_⟩, rfl, ?_, ?_, .inl rfl⟩
    · simpa using hevents
    · simp only [List.length_append, List.length_singleton]
      omega
    · rw [hpatient, decide_eq_false (by omega)]
      simp only [Link.missed, List.length_append, List.length_singleton, Bool.false_eq_true, if_false]
      omega
    · simp
  · next hmore =>
    refine ⟨⟨h.single, ?_, hreturned⟩, rfl, ?_, ?_, .inr ?_⟩
    · simpa using hevents
    · rw [hpatient, decide_eq_true (by omega)]
      rfl
    · simp
    · rw [hreceiver]
      simp only [Receiver.left]
      omega

theorem Matched.receive {event : Event} (h : Matched s) (hevent : event.receives = true)
    (hstep : s.step event = some s') : Received s event s' := by
  have hevents := h.events
  have hreturned := h.returned
  cases event with
  | send_message_int send => cases hevent
  | recieve_message_int =>
    simp only [step, Option.ite_none_right_eq_some, Option.some.injEq] at hstep
    obtain ⟨hidle, rfl⟩ := hstep
    rw [hidle] at hevents
    refine ⟨⟨h.single, ?_, hreturned⟩, rfl, rfl, ?_, .inr ?_⟩
    · simpa using hevents
    · simp
    · simp [hidle, Receiver.left]
  | spe_event_wait wait =>
    obtain ⟨retries, hreceiver, hwait, rfl⟩ | ⟨retries, hreceiver, rfl, hpending, rfl⟩ := step_spe_event_wait.mp hstep
    · exact h.retry hreceiver hwait
    · rw [hreceiver] at hevents
      simp only [reduceCtorEq, if_false] at hevents
      refine ⟨⟨h.single, ?_, hreturned⟩, rfl, rfl, ?_, .inr ?_⟩
      · simp only [if_true]
        omega
      · simp
      · rw [hreceiver]
        simp only [Receiver.left]
        omega
  | spe_out_intr_mbox_read =>
    simp only [step, Option.ite_none_right_eq_some, Option.some.injEq] at hstep
    obtain ⟨hreading, rfl⟩ := hstep
    rw [hreading, if_pos rfl] at hevents
    have hsingle := h.single
    refine ⟨⟨?_, ?_, ?_⟩, rfl, ?_, ?_, .inl rfl⟩
    · simp only [List.length_tail]
      omega
    · simp only [List.length_tail, reduceCtorEq, if_false]
      omega
    · simp only [List.length_tail, List.length_append, List.length_singleton]
      omega
    · simp only [Link.missed, patient, if_true, List.length_tail, List.length_append, List.length_singleton]
      omega
    · simp

/-- A call goes on unless it waits for a word that is not there. -/
theorem Matched.exists_receive (h : Matched s) (hword : s.out_intr_mbox ≠ []) :
    ∃ event s', event.receives = true ∧ event.prompt = true ∧ s.step event = some s' := by
  have hevents := h.events
  have hlength := List.length_pos_iff.mpr hword
  cases hreceiver : s.receiver with
  | idle => exact ⟨.recieve_message_int, _, rfl, rfl, if_pos hreceiver⟩
  | waiting retries =>
    rw [hreceiver] at hevents
    simp only [reduceCtorEq, if_false] at hevents
    have hwait : s.step (.spe_event_wait .out_intr_mbox) =
        some { s with pending := s.pending - 1, receiver := .reading } :=
      step_spe_event_wait.mpr (.inr ⟨retries, hreceiver, rfl, by omega, rfl⟩)
    exact ⟨.spe_event_wait .out_intr_mbox, _, rfl, rfl, hwait⟩
  | reading => exact ⟨.spe_out_intr_mbox_read, _, rfl, rfl, if_pos hreceiver⟩

end Link

end speutils.message

namespace speutils.example1

/-- What a run of the example is given: the word `RUN`, the call by which the SPU says
that it is ready, the room of the inbound mailbox, the value behind `argp`, the first
character of each line that will be typed, the blocks that others have allocated, and what
stands in the field `events` of `sput`, an uninitialised local that only
`spu_loop_thread` would set. -/
structure Given where
  RUN : BitVec 32
  ready : Send
  depth : Nat
  myint : BitVec 32
  typed : List Char
  blocks : Heap Unit
  events : Ptr

/-- Where `memalign` has put the data. -/
def Given.ex1 (g : Given) : Ptr := (alloc g.blocks ()).2

/-- What stands in `events` can be freed: it is the null pointer, or happens to be the
address of a block of the others. -/
def Given.Releasable (g : Given) : Prop := g.events = none ∨ (heap.read g.blocks g.events).isSome

def yes (line : Char) : Bool := line = 'y' || line = 'Y'

/-- The word that the PPU sends after a line. -/
def Given.answer (g : Given) (line : Char) : BitVec 32 := if yes line then g.RUN else STOP

/-- Where `main` of the PPU stands: inside `recieve_message_int`, before `fgets`, inside
`send_message` before and after the mailbox had room, inside `stop_spu_thread` before
`pthread_join`, before `free` and before `close`, before its own `free`, or past it. -/
inductive Host where
  | receiving
  | asking
  | polling (line : Char)
  | writing (line : Char)
  | joining
  | joined
  | freed
  | closed
  | finished
  deriving DecidableEq, Repr

/-- Where `main` of the SPU stands: inside `send_message_int`, inside
`wait_for_message_poll` before and after the mailbox held a word, or past its loop. -/
inductive Spu where
  | sending
  | polling
  | reading
  | exited
  deriving DecidableEq, Repr

/-- Both programs, the mailboxes between them, the lines not yet read and the allocated
blocks. No function reads `answered` and `heard`, the lines answered so far and the words
that the SPU has read. -/
structure Conversation where
  host : Host
  spu : Spu
  link : Link
  in_mbox : List (BitVec 32)
  lines : List Char
  cells : Heap Unit
  myint : BitVec 32
  answered : List Char
  heard : List (BitVec 32)
  deriving DecidableEq, Repr

/-- The steps of the SPU, and those of the PPU. -/
inductive Event where
  | send_message_int
  | spu_stat_in_mbox
  | spu_read_in_mbox
  | receive (event : message.Event)
  | fgets
  | spe_in_mbox_status
  | spe_in_mbox_write
  | pthread_join
  | free_events
  | close
  | free_ex1
  deriving DecidableEq, Repr

/-- The steps that the two programs take in the end when they can. -/
def Event.prompt : Event → Bool
  | .receive event => event.prompt
  | .send_message_int | .spu_stat_in_mbox | .spu_read_in_mbox | .fgets | .spe_in_mbox_status
  | .spe_in_mbox_write | .pthread_join | .free_events | .close | .free_ex1 => true

namespace Conversation

/-- Both programs started, the data fetched by the SPU. -/
def init (g : Given) : Conversation where
  host := .receiving
  spu := .sending
  link := .init
  in_mbox := []
  lines := g.typed
  cells := (alloc g.blocks ()).1
  myint := g.myint
  answered := []
  heard := []

/-- The word that `wait_for_message_poll` returns, and the rest of the turn. -/
def reply (s : Conversation) (msg : BitVec 32) (in_mbox : List (BitVec 32)) : Conversation :=
  if msg ≠ STOP then { s with spu := .sending, in_mbox, myint := s.myint + 1, heard := s.heard ++ [msg] }
  else { s with spu := .exited, in_mbox, heard := s.heard ++ [msg] }

/-- The write at the end of `send_message`. After `STOP` the loop is left. -/
def write (g : Given) (s : Conversation) (line : Char) : Conversation :=
  { s with
    host := if yes line then .receiving else .joining
    in_mbox := s.in_mbox ++ [g.answer line]
    answered := s.answered ++ [line] }

/-- One step, or none where it cannot be taken. A poll that does not succeed changes
nothing. The SPU waits for room in its mailbox, and the write of the PPU would wait as
well. After `pthread_join` the event handler and the context are given back. `close` is
given the address of an array for a descriptor, and closes nothing. -/
def step (g : Given) (s : Conversation) : Event → Option Conversation
  | .send_message_int =>
    if s.spu = .sending then
      (s.link.step (.send_message_int g.ready)).map fun link => { s with spu := .polling, link }
    else none
  | .spu_stat_in_mbox =>
    if s.spu = .polling then
      if s.in_mbox.length = 0 then some s else some { s with spu := .reading }
    else none
  | .spu_read_in_mbox =>
    if s.spu = .reading then
      match s.in_mbox with
      | [] => none
      | msg :: in_mbox => some (s.reply msg in_mbox)
    else none
  | .receive event =>
    if s.host = .receiving ∧ event.receives then
      (s.link.step event).map fun link =>
        { s with host := if link.receiver = .idle then .asking else .receiving, link }
    else none
  | .fgets =>
    if s.host = .asking then
      match s.lines with
      | [] => none
      | line :: lines => some { s with host := .polling line, lines }
    else none
  | .spe_in_mbox_status =>
    match s.host with
    | .polling line =>
      if g.depth - s.in_mbox.length = 0 then some s else some { s with host := .writing line }
    | .receiving | .asking | .writing _ | .joining | .joined | .freed | .closed | .finished => none
  | .spe_in_mbox_write =>
    match s.host with
    | .writing line => if s.in_mbox.length < g.depth then some (s.write g line) else none
    | .receiving | .asking | .polling _ | .joining | .joined | .freed | .closed | .finished => none
  | .pthread_join => if s.host = .joining ∧ s.spu = .exited then some { s with host := .joined } else none
  | .free_events =>
    if s.host = .joined then (release s.cells g.events).map fun cells => { s with host := .freed, cells } else none
  | .close => if s.host = .freed then some { s with host := .closed } else none
  | .free_ex1 =>
    if s.host = .closed then (release s.cells g.ex1).map fun cells => { s with host := .finished, cells } else none

end Conversation

/-- The line whose answer is on its way. -/
def Host.line : Host → Option Char
  | .polling line | .writing line => some line
  | .receiving | .asking | .joining | .joined | .freed | .closed | .finished => none

/-- `main` has left its loop. -/
def Host.stopping : Host → Bool
  | .receiving | .asking | .polling _ | .writing _ => false
  | .joining | .joined | .freed | .closed | .finished => true

/-- The SPU has been joined. -/
def Host.past : Host → Bool
  | .receiving | .asking | .polling _ | .writing _ | .joining => false
  | .joined | .freed | .closed | .finished => true

/-- Where the PPU stands tells which blocks have been freed. -/
def Host.Freed (host : Host) (g : Given) (cells : Heap Unit) : Prop :=
  match host with
  | .receiving | .asking | .polling _ | .writing _ | .joining | .joined => cells = (alloc g.blocks ()).1
  | .freed | .closed => release (alloc g.blocks ()).1 g.events = some cells
  | .finished => ∃ before, release (alloc g.blocks ()).1 g.events = some before ∧ release before g.ex1 = some cells

/-- Where the PPU stands tells how many calls of `recieve_message_int` it has behind it, and
whether `STOP` has been sent. -/
def Host.Agrees (host : Host) (answered : List Char) (returned : Nat) : Prop :=
  match host with
  | .receiving => returned = answered.length ∧ ∀ line ∈ answered, yes line
  | .asking | .polling _ | .writing _ => returned = answered.length + 1 ∧ ∀ line ∈ answered, yes line
  | .joining | .joined | .freed | .closed | .finished => returned = answered.length ∧
      ∃ front last, answered = front ++ [last] ∧ (∀ line ∈ front, yes line) ∧ ¬ yes last

theorem Host.stopping_of_past {host : Host} (hpast : host.past = true) : host.stopping = true := by
  cases host with
  | receiving | asking | polling line | writing line | joining => cases hpast
  | joined | freed | closed | finished => rfl

/-- Behind the loop there are no more answers and no more words to wait for. -/
theorem Host.agrees_of_stopping {host : Host} (hstopping : host.stopping = true) :
    host.line = none ∧ host.Agrees = Host.joining.Agrees := by
  cases host with
  | receiving | asking | polling line | writing line => cases hstopping
  | joining | joined | freed | closed | finished => exact ⟨rfl, rfl⟩

/-- Where the SPU stands tells how many words it has written. -/
def Spu.Agrees (spu : Spu) (heard : List (BitVec 32)) (sent : Nat) : Prop :=
  match spu with
  | .sending => sent = heard.length ∧ STOP ∉ heard
  | .polling | .reading => sent = heard.length + 1 ∧ STOP ∉ heard
  | .exited => sent = heard.length ∧ STOP ∈ heard

def Host.left (host : Host) (receiver : Receiver) : Nat :=
  match host with
  | .receiving => receiver.left + 5
  | .asking => 5
  | .polling _ => 20
  | .writing _ => 19
  | .joining => 4
  | .joined => 3
  | .freed => 2
  | .closed => 1
  | .finished => 0

def Spu.left : Spu → Nat
  | .sending => 3
  | .polling => 2
  | .reading => 1
  | .exited => 0

namespace Conversation

/-- The invariant: the lines are answered in order, the SPU hears the answers in order, and
each side stands where its words so far have brought it. -/
structure Talk (g : Given) (s : Conversation) : Prop where
  link : s.link.Matched
  typed : g.typed = s.answered ++ s.host.line.toList ++ s.lines
  heard : s.answered.map g.answer = s.heard ++ s.in_mbox
  host : s.host.Agrees s.answered s.link.returned.length
  spu : s.spu.Agrees s.heard s.link.sent.length
  receiver : s.host ≠ .receiving → s.link.receiver = .idle
  room : ∀ line, s.host = .writing line → s.in_mbox.length < g.depth
  word : s.spu = .reading → s.in_mbox ≠ []
  joined : s.host.past = true → s.spu = .exited
  freed : s.host.Freed g s.cells
  myint : s.myint = g.myint + BitVec.ofNat 32 (s.heard.countP (· ≠ STOP))

/-- A measure of what the two programs have still to do. -/
def left (g : Given) (s : Conversation) : Nat :=
  20 * s.lines.length + s.host.left s.link.receiver + 3 * (g.typed.length - s.heard.length) + s.spu.left

theorem Talk.init (g : Given) : Talk g (init g) where
  link := .init
  typed := rfl
  heard := rfl
  host := ⟨rfl, by simp [Conversation.init]⟩
  spu := ⟨rfl, by simp [Conversation.init]⟩
  receiver := fun _ => rfl
  room := fun line hline => by cases hline
  word := fun hword => by cases hword
  joined := fun hjoined => by cases hjoined
  freed := rfl
  myint := by simp [Conversation.init]

/-- What a step brings: the invariant again, and less to do unless it was a poll that did
not succeed. -/
structure Advanced (g : Given) (s s' : Conversation) : Prop where
  talk : Talk g s'
  falls : s' = s ∨ left g s' < left g s
  missed : s.link.missed ≤ s'.link.missed

section Steps

variable {g : Given} {s s' : Conversation}

theorem Talk.unchanged (h : Talk g s) : Advanced g s s := ⟨h, .inl rfl, Nat.le_refl _⟩

theorem Talk.heard_length (h : Talk g s) : s.answered.length = s.heard.length + s.in_mbox.length := by
  simpa using congrArg List.length h.heard

theorem Talk.typed_length (h : Talk g s) :
    g.typed.length = s.answered.length + s.host.line.toList.length + s.lines.length := by
  rw [h.typed, List.length_append, List.length_append]

theorem Talk.send_message_int (h : Talk g s) (hspu : s.spu = .sending) {link : Link}
    (hlink : s.link.step (.send_message_int g.ready) = some link) :
    Advanced g s { s with spu := .polling, link } := by
  obtain ⟨hmatched, hmissed, hsent, hreturned, hreceiver⟩ := h.link.send_message_int hlink
  have hagrees := h.spu
  rw [hspu] at hagrees
  obtain ⟨hcount, hstop⟩ := hagrees
  refine ⟨⟨hmatched, h.typed, h.heard, ?_, ?_, ?_, h.room, ?_, ?_, h.freed, h.myint⟩, .inr ?_, hmissed.ge⟩
  · rw [hreturned]
    exact h.host
  · exact ⟨by rw [hsent, hcount], hstop⟩
  · rw [hreceiver]
    exact h.receiver
  · intro hreading
    cases hreading
  · intro hpast
    have hexited := h.joined hpast
    rw [hspu] at hexited
    cases hexited
  · simp only [left, hreceiver, hspu, Spu.left]
    omega

theorem Talk.spu_stat_in_mbox (h : Talk g s) (hspu : s.spu = .polling) (hword : s.in_mbox.length ≠ 0) :
    Advanced g s { s with spu := .reading } := by
  have hagrees := h.spu
  rw [hspu] at hagrees
  refine ⟨⟨h.link, h.typed, h.heard, h.host, hagrees, h.receiver, h.room, ?_, ?_, h.freed, h.myint⟩, .inr ?_,
    Nat.le_refl _⟩
  · intro _ hempty
    exact hword (List.length_eq_zero_iff.mpr hempty)
  · intro hpast
    have hexited := h.joined hpast
    rw [hspu] at hexited
    cases hexited
  · simp only [left, hspu, Spu.left]
    omega

theorem Talk.spu_read_in_mbox (h : Talk g s) (hspu : s.spu = .reading) {msg : BitVec 32}
    {in_mbox : List (BitVec 32)} (hmbox : s.in_mbox = msg :: in_mbox) : Advanced g s (s.reply msg in_mbox) := by
  have hagrees := h.spu
  rw [hspu] at hagrees
  obtain ⟨hcount, hstop⟩ := hagrees
  have hheard : s.answered.map g.answer = (s.heard ++ [msg]) ++ in_mbox := by
    rw [h.heard, hmbox, List.append_assoc]
    rfl
  have hless : s.heard.length < g.typed.length := by
    have hlength := h.heard_length
    rw [hmbox, List.length_cons] at hlength
    have htyped := h.typed_length
    omega
  have hroom : ∀ line, s.host = .writing line → in_mbox.length < g.depth := by
    intro line hline
    have hbefore := h.room line hline
    rw [hmbox, List.length_cons] at hbefore
    omega
  have hrunning : ¬ s.host.past = true := by
    intro hpast
    have hexited := h.joined hpast
    rw [hspu] at hexited
    cases hexited
  have hleft : 3 * (g.typed.length - (s.heard ++ [msg]).length) + 3 ≤
      3 * (g.typed.length - s.heard.length) := by
    simp only [List.length_append, List.length_singleton]
    omega
  unfold reply
  split
  · next hmsg =>
    refine ⟨⟨h.link, h.typed, hheard, h.host, ?_, h.receiver, hroom, ?_, ?_, h.freed, ?_⟩, .inr ?_, Nat.le_refl _⟩
    · refine ⟨by rw [hcount, List.length_append, List.length_singleton], ?_⟩
      rw [List.mem_append, List.mem_singleton]
      exact not_or.mpr ⟨hstop, fun heq => hmsg heq.symm⟩
    · intro hreading
      cases hreading
    · exact fun hpast => absurd hpast hrunning
    · have hone : (s.heard ++ [msg]).countP (· ≠ STOP) = s.heard.countP (· ≠ STOP) + 1 := by
        rw [List.countP_append, List.countP_singleton, if_pos (decide_eq_true hmsg)]
      simp only [h.myint, hone, BitVec.ofNat_add, BitVec.add_assoc]
      rfl
    · simp only [left, hspu, Spu.left]
      omega
  · next hmsg =>
    obtain rfl := not_not.mp hmsg
    refine ⟨⟨h.link, h.typed, hheard, h.host, ?_, h.receiver, hroom, ?_, ?_, h.freed, ?_⟩, .inr ?_, Nat.le_refl _⟩
    · exact ⟨by rw [hcount, List.length_append, List.length_singleton], by simp⟩
    · intro hreading
      cases hreading
    · exact fun _ => rfl
    · simp [h.myint, List.countP_append]
    · simp only [left, hspu, Spu.left]
      omega

theorem Talk.receive (h : Talk g s) (hhost : s.host = .receiving) {event : message.Event}
    (hevent : event.receives = true) {link : Link} (hlink : s.link.step event = some link) :
    Advanced g s { s with host := if link.receiver = .idle then .asking else .receiving, link } := by
  have hreceived := h.link.receive hevent hlink
  have htyped := h.typed
  have hagrees := h.host
  have hfreed := h.freed
  rw [hhost] at htyped hagrees hfreed
  obtain ⟨hcount, hyes⟩ := hagrees
  have hreturned := hreceived.returned
  refine ⟨⟨hreceived.matched, ?_, h.heard, ?_, ?_, ?_, ?_, h.word, ?_, ?_, h.myint⟩, .inr ?_,
    Nat.le.intro hreceived.missed.symm⟩
  · split <;> exact htyped
  · split
    · next hidle =>
      rw [if_pos hidle, hcount] at hreturned
      exact ⟨hreturned, hyes⟩
    · next hbusy =>
      rw [if_neg hbusy, hcount] at hreturned
      exact ⟨hreturned, hyes⟩
  · rw [hreceived.sent]
    exact h.spu
  · split
    · next hidle => exact fun _ => hidle
    · exact fun hother => absurd rfl hother
  · intro line hline
    split at hline <;> cases hline
  · intro hpast
    split at hpast <;> cases hpast
  · split <;> exact hfreed
  · simp only [left, hhost]
    split
    · simp only [Host.left]
      have hpos : 0 < s.link.receiver.left := by cases s.link.receiver <;> simp [Receiver.left]
      omega
    · next hbusy =>
      have hnearer := hreceived.nearer.resolve_left hbusy
      simp only [Host.left]
      omega

theorem Talk.fgets (h : Talk g s) (hhost : s.host = .asking) {line : Char} {lines : List Char}
    (hlines : s.lines = line :: lines) : Advanced g s { s with host := .polling line, lines } := by
  have htyped := h.typed
  have hagrees := h.host
  have hfreed := h.freed
  rw [hhost] at htyped hagrees hfreed
  refine ⟨⟨h.link, ?_, h.heard, hagrees, h.spu, ?_, ?_, h.word, ?_, hfreed, h.myint⟩, .inr ?_, Nat.le_refl _⟩
  · rw [htyped, hlines]
    simp [Host.line]
  · exact fun _ => h.receiver (by simp [hhost])
  · intro other hother
    cases hother
  · intro hpast
    cases hpast
  · simp only [left, hhost, hlines, Host.left, List.length_cons]
    omega

theorem Talk.spe_in_mbox_status (h : Talk g s) {line : Char} (hhost : s.host = .polling line)
    (hroom : g.depth - s.in_mbox.length ≠ 0) : Advanced g s { s with host := .writing line } := by
  have hless : s.in_mbox.length < g.depth := by omega
  have htyped := h.typed
  have hagrees := h.host
  have hfreed := h.freed
  rw [hhost] at htyped hagrees hfreed
  refine ⟨⟨h.link, htyped, h.heard, hagrees, h.spu, ?_, ?_, h.word, ?_, hfreed, h.myint⟩, .inr ?_, Nat.le_refl _⟩
  · exact fun _ => h.receiver (by simp [hhost])
  · exact fun _ _ => hless
  · intro hpast
    cases hpast
  · simp only [left, hhost, Host.left]
    omega

theorem Talk.spe_in_mbox_write (h : Talk g s) {line : Char} (hhost : s.host = .writing line) :
    Advanced g s (s.write g line) := by
  have htyped := h.typed
  have hagrees := h.host
  have hfreed := h.freed
  have hidle := h.receiver (by simp [hhost])
  rw [hhost] at htyped hagrees hfreed
  obtain ⟨hcount, hyes⟩ := hagrees
  have hnext : g.typed = (s.answered ++ [line]) ++ s.lines := htyped
  have hheard : (s.answered ++ [line]).map g.answer = s.heard ++ (s.in_mbox ++ [g.answer line]) := by
    rw [List.map_append, h.heard, List.append_assoc]
    rfl
  have hword : s.spu = .reading → s.in_mbox ++ [g.answer line] ≠ [] := by simp
  unfold write
  split
  · next hline =>
    refine ⟨⟨h.link, ?_, hheard, ?_, h.spu, ?_, ?_, hword, ?_, hfreed, h.myint⟩, .inr ?_, Nat.le_refl _⟩
    · simpa [Host.line] using hnext
    · refine ⟨by rw [hcount, List.length_append, List.length_singleton], ?_⟩
      intro other hother
      obtain hearlier | hlast := List.mem_append.mp hother
      · exact hyes other hearlier
      · rwa [List.mem_singleton.mp hlast]
    · exact fun _ => hidle
    · intro other hother
      cases hother
    · intro hpast
      cases hpast
    · simp only [left, hhost, hidle, Host.left, Receiver.left]
      omega
  · next hline =>
    refine ⟨⟨h.link, ?_, hheard, ?_, h.spu, ?_, ?_, hword, ?_, hfreed, h.myint⟩, .inr ?_, Nat.le_refl _⟩
    · simpa [Host.line] using hnext
    · exact ⟨by rw [hcount, List.length_append, List.length_singleton], s.answered, line, rfl, hyes, hline⟩
    · exact fun _ => hidle
    · intro other hother
      cases hother
    · intro hpast
      cases hpast
    · simp only [left, hhost, Host.left]
      omega

/-- The steps of `main` behind its loop. -/
theorem Talk.stop (h : Talk g s) {host : Host} {cells : Heap Unit} (hbefore : s.host.stopping = true)
    (hafter : host.stopping = true) (hspu : s.spu = .exited) (hfreed : host.Freed g cells)
    (hleft : host.left s.link.receiver < s.host.left s.link.receiver) :
    Advanced g s { s with host, cells } := by
  obtain ⟨hline, hagrees⟩ := Host.agrees_of_stopping hbefore
  obtain ⟨hline', hagrees'⟩ := Host.agrees_of_stopping hafter
  refine ⟨⟨h.link, ?_, h.heard, ?_, h.spu, ?_, ?_, h.word, fun _ => hspu, hfreed, h.myint⟩, .inr ?_, Nat.le_refl _⟩
  · rw [hline', ← hline]
    exact h.typed
  · rw [hagrees', ← hagrees]
    exact h.host
  · refine fun _ => h.receiver ?_
    intro hreceiving
    rw [hreceiving] at hbefore
    cases hbefore
  · rintro line rfl
    cases hafter
  · simp only [left]
    omega

theorem Talk.step (h : Talk g s) {event : Event} (hstep : step g s event = some s') : Advanced g s s' := by
  cases event with
  | send_message_int =>
    simp only [Conversation.step, Option.ite_none_right_eq_some, Option.map_eq_some_iff] at hstep
    obtain ⟨hspu, link, hlink, rfl⟩ := hstep
    exact h.send_message_int hspu hlink
  | spu_stat_in_mbox =>
    simp only [Conversation.step, Option.ite_none_right_eq_some] at hstep
    obtain ⟨hspu, hstep⟩ := hstep
    split at hstep
    · obtain rfl := Option.some.inj hstep
      exact h.unchanged
    · next hword =>
      obtain rfl := Option.some.inj hstep
      exact h.spu_stat_in_mbox hspu hword
  | spu_read_in_mbox =>
    simp only [Conversation.step, Option.ite_none_right_eq_some] at hstep
    obtain ⟨hspu, hstep⟩ := hstep
    split at hstep
    · cases hstep
    · next msg in_mbox hmbox =>
      obtain rfl := Option.some.inj hstep
      exact h.spu_read_in_mbox hspu hmbox
  | receive event =>
    simp only [Conversation.step, Option.ite_none_right_eq_some, Option.map_eq_some_iff] at hstep
    obtain ⟨⟨hhost, hevent⟩, link, hlink, rfl⟩ := hstep
    exact h.receive hhost hevent hlink
  | fgets =>
    simp only [Conversation.step, Option.ite_none_right_eq_some] at hstep
    obtain ⟨hhost, hstep⟩ := hstep
    split at hstep
    · cases hstep
    · next line lines hlines =>
      obtain rfl := Option.some.inj hstep
      exact h.fgets hhost hlines
  | spe_in_mbox_status =>
    simp only [Conversation.step] at hstep
    split at hstep
    · next line hhost =>
      split at hstep
      · obtain rfl := Option.some.inj hstep
        exact h.unchanged
      · next hroom =>
        obtain rfl := Option.some.inj hstep
        exact h.spe_in_mbox_status hhost hroom
    all_goals cases hstep
  | spe_in_mbox_write =>
    simp only [Conversation.step] at hstep
    split at hstep
    · next line hhost =>
      simp only [Option.ite_none_right_eq_some, Option.some.injEq] at hstep
      obtain ⟨_, rfl⟩ := hstep
      exact h.spe_in_mbox_write hhost
    all_goals cases hstep
  | pthread_join =>
    simp only [Conversation.step, Option.ite_none_right_eq_some, Option.some.injEq] at hstep
    obtain ⟨⟨hhost, hspu⟩, rfl⟩ := hstep
    have hfreed := h.freed
    rw [hhost] at hfreed
    exact h.stop (by rw [hhost]; rfl) rfl hspu hfreed (by simp [hhost, Host.left])
  | free_events =>
    simp only [Conversation.step, Option.ite_none_right_eq_some, Option.map_eq_some_iff] at hstep
    obtain ⟨hhost, cells, hcells, rfl⟩ := hstep
    have hfreed : s.cells = (alloc g.blocks ()).1 := by simpa [hhost, Host.Freed] using h.freed
    rw [hfreed] at hcells
    exact h.stop (by rw [hhost]; rfl) rfl (h.joined (by rw [hhost]; rfl)) hcells (by simp [hhost, Host.left])
  | close =>
    simp only [Conversation.step, Option.ite_none_right_eq_some, Option.some.injEq] at hstep
    obtain ⟨hhost, rfl⟩ := hstep
    have hfreed := h.freed
    rw [hhost] at hfreed
    exact h.stop (by rw [hhost]; rfl) rfl (h.joined (by rw [hhost]; rfl)) hfreed (by simp [hhost, Host.left])
  | free_ex1 =>
    simp only [Conversation.step, Option.ite_none_right_eq_some, Option.map_eq_some_iff] at hstep
    obtain ⟨hhost, cells, hcells, rfl⟩ := hstep
    have hfreed := h.freed
    rw [hhost] at hfreed
    exact h.stop (by rw [hhost]; rfl) rfl (h.joined (by rw [hhost]; rfl)) ⟨s.cells, hfreed, hcells⟩
      (by simp [hhost, Host.left])

theorem answer_eq_stop_iff (hRUN : g.RUN ≠ STOP) {line : Char} : g.answer line = STOP ↔ ¬ yes line := by
  unfold Given.answer
  split
  · next hline => simp [hRUN, hline]
  · next hline => simp [hline]

theorem stop_not_mem (hRUN : g.RUN ≠ STOP) {lines : List Char} (hyes : ∀ line ∈ lines, yes line) :
    STOP ∉ lines.map g.answer := by
  intro hmem
  obtain ⟨line, hline, hstop⟩ := List.mem_map.mp hmem
  exact (answer_eq_stop_iff hRUN).mp hstop (hyes line hline)

theorem Talk.heard_prefix (h : Talk g s) : s.heard <+: s.answered.map g.answer := ⟨s.in_mbox, h.heard.symm⟩

theorem Talk.exited_iff (h : Talk g s) : s.spu = .exited ↔ STOP ∈ s.heard := by
  have hagrees := h.spu
  cases hspu : s.spu with
  | sending | polling | reading =>
    rw [hspu] at hagrees
    simp [hagrees.2]
  | exited =>
    rw [hspu] at hagrees
    simp [hagrees.2]

/-- Before `STOP` has been sent, the SPU cannot have left its loop. -/
theorem Talk.not_exited (h : Talk g s) (hRUN : g.RUN ≠ STOP) (hyes : ∀ line ∈ s.answered, yes line) :
    s.spu ≠ .exited :=
  fun hexited => stop_not_mem hRUN hyes (h.heard_prefix.subset (h.exited_iff.mp hexited))

/-- When `STOP` has been sent, it is the last word, and the SPU has left its loop once it
has heard everything. -/
theorem Talk.exited_iff_heard (h : Talk g s) (hRUN : g.RUN ≠ STOP) {front : List Char} {last : Char}
    (hanswered : s.answered = front ++ [last]) (hyes : ∀ line ∈ front, yes line) (hlast : ¬ yes last) :
    s.spu = .exited ↔ s.in_mbox = [] := by
  have hall : s.answered.map g.answer = front.map g.answer ++ [STOP] := by
    rw [hanswered, List.map_append, List.map_singleton, (answer_eq_stop_iff hRUN).mpr hlast]
  rw [h.exited_iff]
  constructor
  · intro hstop
    have hprefix := h.heard_prefix
    rw [hall, List.prefix_concat_iff, ← hall] at hprefix
    obtain heq | hearlier := hprefix
    · exact List.append_right_eq_self.mp (h.heard.symm.trans heq.symm)
    · exact absurd (hearlier.subset hstop) (stop_not_mem hRUN hyes)
  · intro hempty
    have hheard := h.heard
    rw [hempty, List.append_nil] at hheard
    rw [← hheard, hall]
    simp

end Steps

section Rest

variable {g : Given} {s : Conversation}

/-- No step that a program takes in the end would change anything. -/
def AtRest (g : Given) (s : Conversation) : Prop :=
  ∀ event : Event, event.prompt = true → Execution.Still (step g) s event

/-- An SPU at rest has left its loop, or waits for an answer, or for room in its mailbox. -/
theorem AtRest.spu (hrest : AtRest g s) (h : Talk g s) :
    s.spu = .exited ∨ (s.spu = .polling ∧ s.in_mbox = []) ∨
      (s.spu = .sending ∧ s.link.out_intr_mbox.length = 1) := by
  cases hspu : s.spu with
  | sending =>
    refine .inr (.inr ⟨rfl, Nat.le_antisymm h.link.single (List.length_pos_iff.mpr ?_)⟩)
    intro hempty
    obtain ⟨link, hlink⟩ : ∃ link, s.link.step (.send_message_int g.ready) = some link :=
      ⟨_, Link.step_send_message_int.mpr ⟨hempty, rfl⟩⟩
    have hstep : step g s .send_message_int = some { s with spu := .polling, link } := by
      rw [step, if_pos hspu, hlink, Option.map_some]
    exact (hrest .send_message_int rfl).false_of_change hstep Conversation.spu (by simp [hspu])
  | polling =>
    refine .inr (.inl ⟨rfl, ?_⟩)
    by_contra hword
    have hlength : s.in_mbox.length ≠ 0 := fun hzero => hword (List.length_eq_zero_iff.mp hzero)
    have hstep : step g s .spu_stat_in_mbox = some { s with spu := .reading } := by
      rw [step, if_pos hspu, if_neg hlength]
    exact (hrest .spu_stat_in_mbox rfl).false_of_change hstep Conversation.spu (by simp [hspu])
  | reading =>
    obtain ⟨msg, in_mbox, hmbox⟩ := List.exists_cons_of_ne_nil (h.word hspu)
    have hstep : step g s .spu_read_in_mbox = some (s.reply msg in_mbox) := by rw [step, if_pos hspu, hmbox]
    refine ((hrest .spu_read_in_mbox rfl).false_of_change hstep Conversation.spu ?_).elim
    unfold reply
    split <;> simp [hspu]
  | exited => exact .inl rfl

/-- A PPU at rest waits for a word that is not there, for another line, for room in the
mailbox of the SPU, or for the SPU to come to its end, stands before a pointer that it
cannot free, or has finished. -/
theorem AtRest.host (hrest : AtRest g s) (h : Talk g s) :
    (s.host = .receiving ∧ s.link.out_intr_mbox = []) ∨ (s.host = .asking ∧ s.lines = []) ∨
      (∃ line, s.host = .polling line ∧ g.depth ≤ s.in_mbox.length) ∨
      (s.host = .joining ∧ s.spu ≠ .exited) ∨ (s.host = .joined ∧ release s.cells g.events = none) ∨
      (s.host = .closed ∧ release s.cells g.ex1 = none) ∨ s.host = .finished := by
  cases hhost : s.host with
  | receiving =>
    refine .inl ⟨rfl, ?_⟩
    by_contra hword
    obtain ⟨event, link, hevent, hprompt, hlink⟩ := h.link.exists_receive hword
    have hsame := hrest (.receive event) hprompt _ (by rw [step, if_pos ⟨hhost, hevent⟩, hlink, Option.map_some])
    have hreceived := h.link.receive hevent hlink
    have heq : link = s.link := congrArg Conversation.link hsame
    subst heq
    have hnearer := hreceived.nearer.resolve_right (Nat.lt_irrefl _)
    have hasking := congrArg Conversation.host hsame
    simp only [hnearer, if_true, hhost] at hasking
    cases hasking
  | asking =>
    refine .inr (.inl ⟨rfl, ?_⟩)
    cases hlines : s.lines with
    | nil => rfl
    | cons line lines =>
      have hstep : step g s .fgets = some { s with host := .polling line, lines } := by
        rw [step, if_pos hhost, hlines]
      exact ((hrest .fgets rfl).false_of_change hstep Conversation.host (by simp [hhost])).elim
  | polling line =>
    refine .inr (.inr (.inl ⟨line, rfl, ?_⟩))
    by_contra hroom
    have hfree : g.depth - s.in_mbox.length ≠ 0 := by omega
    have hstep : step g s .spe_in_mbox_status = some { s with host := .writing line } := by
      simp only [step, hhost, if_neg hfree]
    exact (hrest .spe_in_mbox_status rfl).false_of_change hstep Conversation.host (by simp [hhost])
  | writing line =>
    have hroom := h.room line hhost
    have hstep : step g s .spe_in_mbox_write = some (s.write g line) := by simp only [step, hhost, if_pos hroom]
    exact ((hrest .spe_in_mbox_write rfl).false_of_change hstep Conversation.answered (by simp [write])).elim
  | joining =>
    refine .inr (.inr (.inr (.inl ⟨rfl, ?_⟩)))
    intro hexited
    have hstep : step g s .pthread_join = some { s with host := .joined } := by
      rw [step, if_pos ⟨hhost, hexited⟩]
    exact (hrest .pthread_join rfl).false_of_change hstep Conversation.host (by simp [hhost])
  | joined =>
    refine .inr (.inr (.inr (.inr (.inl ⟨rfl, ?_⟩))))
    by_contra hfree
    obtain ⟨cells, hcells⟩ := Option.ne_none_iff_exists'.mp hfree
    have hstep : step g s .free_events = some { s with host := .freed, cells } := by
      rw [step, if_pos hhost, hcells, Option.map_some]
    exact (hrest .free_events rfl).false_of_change hstep Conversation.host (by simp [hhost])
  | freed =>
    have hstep : step g s .close = some { s with host := .closed } := by rw [step, if_pos hhost]
    exact ((hrest .close rfl).false_of_change hstep Conversation.host (by simp [hhost])).elim
  | closed =>
    refine .inr (.inr (.inr (.inr (.inr (.inl ⟨rfl, ?_⟩)))))
    by_contra hfree
    obtain ⟨cells, hcells⟩ := Option.ne_none_iff_exists'.mp hfree
    have hstep : step g s .free_ex1 = some { s with host := .finished, cells } := by
      rw [step, if_pos hhost, hcells, Option.map_some]
    exact (hrest .free_ex1 rfl).false_of_change hstep Conversation.host (by simp [hhost])
  | finished => exact .inr (.inr (.inr (.inr (.inr (.inr rfl)))))

/-- In the end each line that says yes has been counted. -/
theorem Talk.finished_myint (h : Talk g s) (hRUN : g.RUN ≠ STOP) (hfinished : s.host = .finished) :
    s.myint = g.myint + BitVec.ofNat 32 (g.typed.takeWhile yes).length := by
  have hhost := h.host
  have htyped := h.typed
  have hexited := h.joined (by rw [hfinished]; rfl)
  rw [hfinished] at hhost htyped
  obtain ⟨_, front, last, hanswered, hyes, hlast⟩ := hhost
  have hempty := (h.exited_iff_heard hRUN hanswered hyes hlast).mp hexited
  have hheard := h.heard
  rw [hempty, List.append_nil, hanswered, List.map_append, List.map_singleton,
    (answer_eq_stop_iff hRUN).mpr hlast] at hheard
  have hfront : (front.map g.answer).countP (· ≠ STOP) = front.length := by
    rw [← List.length_map g.answer, List.countP_eq_length]
    intro word hword
    exact decide_eq_true fun hstop => stop_not_mem hRUN hyes (hstop ▸ hword)
  have hwhile : g.typed.takeWhile yes = front := by
    rw [htyped, hanswered]
    simp only [Host.line, Option.toList_none, List.append_nil, List.append_assoc, List.singleton_append]
    rw [List.takeWhile_append_of_pos hyes, List.takeWhile_cons_of_neg hlast, List.append_nil]
  rw [h.myint, ← hheard, List.countP_append, hfront, hwhile]
  simp

/-- When the SPU has been joined, at most its last word has not been read. -/
theorem Talk.past_missed (h : Talk g s) (hRUN : g.RUN ≠ STOP) (hpast : s.host.past = true) : s.link.missed ≤ 1 := by
  have hsingle := h.link.single
  have hlength := h.heard_length
  have hhost := h.host
  have hspu := h.spu
  have hexited := h.joined hpast
  rw [(Host.agrees_of_stopping (Host.stopping_of_past hpast)).2] at hhost
  obtain ⟨hcount, front, last, hanswered, hyes, hlast⟩ := hhost
  have hempty := (h.exited_iff_heard hRUN hanswered hyes hlast).mp hexited
  rw [hexited] at hspu
  have hsent := hspu.1
  rw [hempty, List.length_nil] at hlength
  unfold Link.missed
  omega

/-- When `main` has come to its end, it has freed what stood in `events`, and the data. -/
theorem Talk.finished_freed (h : Talk g s) (hfinished : s.host = .finished) :
    g.Releasable ∧ heap.read s.cells g.ex1 = none := by
  have hfreed := h.freed
  rw [hfinished] at hfreed
  obtain ⟨before, hevents, hex1⟩ := hfreed
  refine ⟨heap.release_alloc_iff.mp ⟨before, s.cells, hevents, hex1⟩, ?_⟩
  obtain ⟨_, heq⟩ := heap.release_eq_some.mp hex1
  rw [← heq]
  exact heap.read_free_self before _

/-- At the end of `main` there is no further step. -/
theorem Talk.finished_last (h : Talk g s) (hfinished : s.host = .finished) (event : Event) :
    Conversation.step g s event = none := by
  have hexited := h.joined (by rw [hfinished]; rfl)
  cases event <;> simp [Conversation.step, hfinished, hexited]

/-- In a conversation at rest the SPU has been joined exactly when at most one call of
`recieve_message_int` has come back without a word. -/
theorem AtRest.past_iff (hrest : AtRest g s) (h : Talk g s) (hRUN : g.RUN ≠ STOP) (hdepth : 0 < g.depth)
    (htyped : ∃ line ∈ g.typed, ¬ yes line) : s.host.past = true ↔ s.link.missed ≤ 1 := by
  have hreturned := h.link.returned
  have hlength := h.heard_length
  have hhost := h.host
  have hspu := h.spu
  obtain ⟨hstands, hword⟩ | ⟨hstands, hlines⟩ | ⟨line, hstands, hfull⟩ | ⟨hstands, hrunning⟩ | ⟨hstands, _⟩ |
    ⟨hstands, _⟩ | hstands := hrest.host h
  · -- The SPU would have nothing left to wait for.
    exfalso
    rw [hstands] at hhost
    obtain ⟨hcount, hyes⟩ := hhost
    obtain hexited | ⟨hpolling, hempty⟩ | ⟨hsending, hone⟩ := hrest.spu h
    · exact h.not_exited hRUN hyes hexited
    · rw [hpolling] at hspu
      rw [hempty] at hlength
      rw [hword, List.length_nil] at hreturned
      have hsent := hspu.1
      simp only [List.length_nil] at hlength
      omega
    · rw [hword] at hone
      cases hone
  · exfalso
    have hall := h.typed
    rw [hstands, hlines] at hall
    rw [hstands] at hhost
    obtain ⟨line, hline, hno⟩ := htyped
    simp only [Host.line, Option.toList_none, List.append_nil] at hall
    rw [hall] at hline
    exact hno (hhost.2 line hline)
  · rw [hstands] at hhost ⊢
    obtain ⟨hcount, hyes⟩ := hhost
    obtain hexited | ⟨_, hempty⟩ | ⟨hsending, hone⟩ := hrest.spu h
    · exact absurd hexited (h.not_exited hRUN hyes)
    · rw [hempty] at hfull
      exact absurd hfull (Nat.not_le.mpr hdepth)
    · rw [hsending] at hspu
      have hsent := hspu.1
      simp only [Host.past, Bool.false_eq_true, false_iff, Link.missed]
      omega
  · rw [hstands] at hhost ⊢
    obtain ⟨hcount, front, last, hanswered, hyes, hlast⟩ := hhost
    have hunheard := (h.exited_iff_heard hRUN hanswered hyes hlast).not.mp hrunning
    have hsome := List.length_pos_iff.mpr hunheard
    obtain hexited | ⟨_, hempty⟩ | ⟨hsending, hone⟩ := hrest.spu h
    · exact absurd hexited hrunning
    · exact absurd hempty hunheard
    · rw [hsending] at hspu
      have hsent := hspu.1
      simp only [Host.past, Bool.false_eq_true, false_iff, Link.missed]
      omega
  all_goals
    have hpast : s.host.past = true := by rw [hstands]; rfl
    exact iff_of_true hpast (h.past_missed hRUN hpast)

/-- A conversation at rest is over exactly when besides what stood in `events` could be
freed. -/
theorem AtRest.finished_iff (hrest : AtRest g s) (h : Talk g s) (hRUN : g.RUN ≠ STOP) (hdepth : 0 < g.depth)
    (htyped : ∃ line ∈ g.typed, ¬ yes line) : s.host = .finished ↔ s.link.missed ≤ 1 ∧ g.Releasable := by
  rw [← hrest.past_iff h hRUN hdepth htyped]
  have hfreed := h.freed
  obtain ⟨hstands, _⟩ | ⟨hstands, _⟩ | ⟨line, hstands, _⟩ | ⟨hstands, _⟩ | ⟨hstands, hnone⟩ | ⟨hstands, hnone⟩ |
    hstands := hrest.host h
  · simp [hstands, Host.past]
  · simp [hstands, Host.past]
  · simp [hstands, Host.past]
  · simp [hstands, Host.past]
  · -- What stands in `events` cannot be freed, neither with the data there nor without.
    rw [hstands] at hfreed ⊢
    refine iff_of_false (by simp) ?_
    rintro ⟨_, hreleasable⟩
    obtain ⟨before, _, hbefore, _⟩ := heap.release_alloc_iff.mpr hreleasable
    rw [show s.cells = (alloc g.blocks ()).1 from hfreed, hbefore] at hnone
    cases hnone
  · -- It was the data, which would be freed twice.
    rw [hstands] at hfreed ⊢
    refine iff_of_false (by simp) ?_
    rintro ⟨_, hreleasable⟩
    obtain ⟨before, after, hbefore, hafter⟩ := heap.release_alloc_iff.mpr hreleasable
    obtain rfl : s.cells = before := Option.some.inj (Eq.trans (Eq.symm hfreed) hbefore)
    rw [show release s.cells g.ex1 = some after from hafter] at hnone
    cases hnone
  · rw [hstands]
    exact iff_of_true rfl ⟨rfl, (h.finished_freed hstands).1⟩

end Rest

section Executions

variable {g : Given}

theorem talk_always (x : Execution (stutter (step g))) (hstart : x.state 0 = init g) (n : Nat) :
    Talk g (x.state n) :=
  Execution.stutter_always (hstart ▸ Talk.init g) (fun _ _ _ h hstep => (h.step hstep).talk) n

theorem advances (x : Execution (stutter (step g))) (hstart : x.state 0 = init g) (n : Nat) :
    Advanced g (x.state n) (x.state (n + 1)) :=
  Execution.stutter_next (talk_always x hstart n).unchanged fun _ _ => (talk_always x hstart n).step

theorem missed_mono (x : Execution (stutter (step g))) (hstart : x.state 0 = init g) {m n : Nat} (hmn : m ≤ n) :
    (x.state m).link.missed ≤ (x.state n).link.missed := by
  induction n, hmn using Nat.le_induction with
  | base => exact Nat.le_refl _
  | succ n _ ih => exact ih.trans (advances x hstart n).missed

/-- Whatever the order of steps, as long as neither program is held up for ever: both come
to their end, with each line that says yes counted and the data freed, if and only if at
most one call of `recieve_message_int` gives up and what stood in `events` can be freed. -/
theorem completes_iff (hRUN : g.RUN ≠ STOP) (hdepth : 0 < g.depth) (htyped : ∃ line ∈ g.typed, ¬ yes line)
    (x : Execution (stutter (step g))) (hstart : x.state 0 = init g)
    (hfair : x.WeaklyFair fun event => event.prompt = true) :
    (∃ n, (x.state n).host = .finished ∧ (x.state n).spu = .exited ∧
      (x.state n).myint = g.myint + BitVec.ofNat 32 (g.typed.takeWhile yes).length ∧
      heap.read (x.state n).cells g.ex1 = none) ↔ (∀ n, (x.state n).link.missed ≤ 1) ∧ g.Releasable := by
  obtain ⟨k, hconstant, hrest⟩ := hfair.exists_rest (left g) fun n => (advances x hstart n).falls
  have htalk := talk_always x hstart
  have hlast := AtRest.finished_iff hrest (htalk k) hRUN hdepth htyped
  constructor
  · rintro ⟨n, hfinished, _⟩
    refine ⟨?_, ((htalk n).finished_freed hfinished).1⟩
    intro m
    have hlater := missed_mono x hstart (Nat.le_max_left m n)
    rw [Execution.stutter_final ((htalk n).finished_last hfinished) _ (Nat.le_max_right m n)] at hlater
    exact hlater.trans ((htalk n).past_missed hRUN (by rw [hfinished]; rfl))
  · rintro ⟨hmissed, hreleasable⟩
    have hfinished := hlast.mpr ⟨hmissed k, hreleasable⟩
    exact ⟨k, hfinished, (htalk k).joined (by rw [hfinished]; rfl), (htalk k).finished_myint hRUN hfinished,
      ((htalk k).finished_freed hfinished).2⟩

/-- `RUN` as 1, one line that says yes and one that says no, and a null pointer in
`events`. -/
def oneYes : Given where
  RUN := 1
  ready := ⟨2, 0x3FFD0⟩
  depth := 4
  myint := 1
  typed := ['y', 'n']
  blocks := []
  events := none

/-- The first call gives up, as `spe_event_wait` fails ten times. -/
def gaveUpOnce : List Event :=
  [.receive .recieve_message_int] ++ List.replicate 10 (.receive (.spe_event_wait .failed)) ++
    [.fgets, .spe_in_mbox_status, .spe_in_mbox_write, .send_message_int, .spu_stat_in_mbox, .spu_read_in_mbox,
      .receive .recieve_message_int, .receive (.spe_event_wait .out_intr_mbox), .receive .spe_out_intr_mbox_read,
      .fgets, .spe_in_mbox_status, .spe_in_mbox_write, .send_message_int, .spu_stat_in_mbox, .spu_read_in_mbox,
      .pthread_join, .free_events, .close, .free_ex1]

theorem completes_iff_gaveUpOnce : ∃ x : Execution (stutter (step oneYes)),
    x.state 0 = init oneYes ∧ (x.WeaklyFair fun event => event.prompt = true) ∧
      (∃ n, (x.state n).link.missed = 1) ∧ ∃ n, (x.state n).host = .finished ∧ (x.state n).myint = 2 := by
  have hvalue : (gaveUpOnce.foldlM (step oneYes) (init oneYes)).map (fun s => (s.host, s.link.missed)) =
      some (.finished, 1) := by
    decide +kernel
  obtain ⟨stop, hrun, hobserved⟩ := exists_reaches_of_observe hvalue
  obtain ⟨hfinished, hmissed⟩ := Prod.mk.inj hobserved
  obtain ⟨x, hstart, hlast⟩ := Execution.exists_of_finite hrun
  have htalk := talk_always x hstart
  have hfair : x.WeaklyFair fun event => event.prompt = true := by
    refine .of_rest hlast fun event _ after hafter => ?_
    rw [← hlast _ (Nat.le_refl _), (htalk _).finished_last (hlast _ (Nat.le_refl _) ▸ hfinished)] at hafter
    cases hafter
  have hone : ∀ n, (x.state n).link.missed ≤ 1 := by
    intro n
    have hmono := missed_mono x hstart (Nat.le_add_left n gaveUpOnce.length)
    rwa [hlast _ (Nat.le_add_right _ n), hmissed] at hmono
  obtain ⟨n, hover, _, hmyint, _⟩ :=
    (completes_iff (by decide) (by decide) ⟨'n', by decide, by decide⟩ x hstart hfair).mpr ⟨hone, .inl rfl⟩
  refine ⟨x, hstart, hfair, ⟨gaveUpOnce.length, ?_⟩, n, hover, ?_⟩
  · rw [hlast _ (Nat.le_refl _), hmissed]
  · rw [hmyint]
    decide

end Executions

end Conversation

end speutils.example1
