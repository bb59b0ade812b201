import SpeUtils.Messages
import SpeUtils.Lib.Run

open run speutils.messages

namespace speutils.message

/-- A call of `send_message_int` on the SPU: the value behind the pointer it is passed,
and the address at which its parameter itself is stored. -/
structure Send where
  value : BitVec 32
  parameter : BitVec 32
  deriving DecidableEq, Repr

/-- The word that `send_message_int` writes to the channel: `&message` is the address of
the parameter. -/
def Send.word (send : Send) : BitVec 32 := send.parameter

/-- How `spe_event_wait` comes back: with an error or nothing, with events that the
mailbox is not among, or with the event of the mailbox. -/
inductive Wait where
  | failed
  | unrelated
  | out_intr_mbox
  deriving DecidableEq, Repr

/-- Where the PPU stands in `recieve_message_int`: outside, in its loop with some retries
left, or about to read the mailbox. -/
inductive Receiver where
  | idle
  | waiting (retries : Nat)
  | reading
  deriving DecidableEq, Repr

/-- The interrupt mailbox with the events it has raised that are not yet reported, and
the receiver. No function reads `sent` and `returned`, the calls made on both sides; a
result without a value is an uninitialised local. -/
structure Link where
  out_intr_mbox : List (BitVec 32)
  pending : Nat
  receiver : Receiver
  sent : List Send
  returned : List (Option (BitVec 32))
  deriving DecidableEq, Repr

inductive Event where
  | send_message_int (send : Send)
  | recieve_message_int
  | spe_event_wait (wait : Wait)
  | spe_out_intr_mbox_read
  deriving DecidableEq, Repr

namespace Link

def init : Link where
  out_intr_mbox := []
  pending := 0
  receiver := .idle
  sent := []
  returned := []

/-- `retries--` and the test of the loop. Without retries the call returns `STOP`. -/
def retry (s : Link) (retries : Nat) : Link :=
  let retries := retries - 1
  if retries = 0 then { s with receiver := .idle, returned := s.returned ++ [some STOP] }
  else { s with receiver := .waiting retries }

/-- One step, or none where it cannot be taken. The sender waits for an empty mailbox,
and each word raises one event. -/
def step (s : Link) : Event → Option Link
  | .send_message_int send =>
    if s.out_intr_mbox = [] then
      some { s with
        out_intr_mbox := s.out_intr_mbox ++ [send.word]
        pending := s.pending + 1
        sent := s.sent ++ [send] }
    else none
  | .recieve_message_int => if s.receiver = .idle then some { s with receiver := .waiting 10 } else none
  | .spe_event_wait wait =>
    match s.receiver, wait with
    | .waiting retries, .failed => some (s.retry retries)
    | .waiting retries, .unrelated => some (s.retry retries)
    | .waiting _, .out_intr_mbox =>
      if 0 < s.pending then some { s with pending := s.pending - 1, receiver := .reading } else none
    | .idle, _ => none
    | .reading, _ => none
  | .spe_out_intr_mbox_read =>
    if s.receiver = .reading then
      some { s with
        out_intr_mbox := s.out_intr_mbox.tail
        receiver := .idle
        returned := s.returned ++ [s.out_intr_mbox.head?] }
    else none

/-- No call meets more than nine failed or unrelated events. -/
def patient (s : Link) : Event → Bool
  | .spe_event_wait .failed | .spe_event_wait .unrelated =>
    match s.receiver with
    | .waiting retries => 1 < retries
    | .idle | .reading => true
  | .spe_event_wait .out_intr_mbox | .send_message_int _ | .recieve_message_int
  | .spe_out_intr_mbox_read => true

/-- The words on their way: what has been returned and what is in the mailbox are the
words written, in order, and each word in the mailbox has its event. -/
structure Carried (s : Link) : Prop where
  words : s.returned ++ s.out_intr_mbox.map some = s.sent.map fun send => some send.word
  events : s.pending + (if s.receiver = .reading then 1 else 0) = s.out_intr_mbox.length

/-- Each call so far has returned the value sent for it. -/
def Unchanged (s : Link) : Prop := s.returned <+: s.sent.map fun send => some send.value

/-- The read of a word that equals the value it should carry. -/
def coincides (s : Link) : Event → Prop
  | .spe_out_intr_mbox_read => ∀ send, s.sent[s.returned.length]? = some send → send.value = send.parameter
  | .send_message_int _ | .recieve_message_int | .spe_event_wait _ => True

section Steps

variable {s s' : Link}

theorem retry_eq {retries : Nat} (hmore : 1 < retries) :
    s.retry retries = { s with receiver := .waiting (retries - 1) } := by
  unfold retry
  rw [if_neg (by omega)]

theorem step_spe_event_wait {wait : Wait} :
    s.step (.spe_event_wait wait) = some s' ↔
      (∃ retries, s.receiver = .waiting retries ∧ wait ≠ .out_intr_mbox ∧ s.retry retries = s') ∨
        (∃ retries, s.receiver = .waiting retries ∧ wait = .out_intr_mbox ∧ 0 < s.pending ∧
          { s with pending := s.pending - 1, receiver := .reading } = s') := by
  unfold step
  cases s.receiver with
  | waiting retries => cases wait <;> simp
  | idle | reading => simp

/-- The word that a read finds. -/
theorem Carried.read (h : Carried s) (hreceiver : s.receiver = .reading) : ∃ send word rest,
    s.out_intr_mbox = word :: rest ∧ s.sent[s.returned.length]? = some send ∧ word = send.word := by
  have hevents := h.events
  rw [hreceiver, if_pos rfl] at hevents
  obtain ⟨word, rest, hmbox⟩ := List.exists_cons_of_length_pos (by omega : 0 < s.out_intr_mbox.length)
  have hword := congrArg (·[s.returned.length]?) h.words
  simp only [hmbox, List.map_cons, List.getElem?_append_right (Nat.le_refl _), Nat.sub_self,
    List.getElem?_cons_zero, List.getElem?_map] at hword
  obtain ⟨send, hsend, heq⟩ := Option.map_eq_some_iff.mp hword.symm
  exact ⟨send, word, rest, hmbox, hsend, (Option.some.inj heq).symm⟩

theorem Carried.step {event : Event} (h : Carried s) (hpatient : s.patient event = true)
    (hstep : s.step event = some s') :
    Carried s' ∧ (event ≠ .spe_out_intr_mbox_read → s'.returned = s.returned ∧ s.sent <+: s'.sent) := by
  have hevents := h.events
  cases event with
  | send_message_int send =>
    simp only [Link.step, Option.ite_none_right_eq_some, Option.some.injEq] at hstep
    obtain ⟨_, rfl⟩ := hstep
    refine ⟨⟨?_, ?_⟩, fun _ => ⟨rfl, List.prefix_append _ _⟩⟩
    · simp only [List.map_append, ← h.words, List.append_assoc]
      rfl
    · simp only [List.length_append, List.length_singleton]
      omega
  | recieve_message_int =>
    simp only [Link.step, Option.ite_none_right_eq_some, Option.some.injEq] at hstep
    obtain ⟨hidle, rfl⟩ := hstep
    rw [hidle] at hevents
    exact ⟨⟨h.words, by simpa using hevents⟩, fun _ => ⟨rfl, List.prefix_refl _⟩⟩
  | spe_event_wait wait =>
    obtain ⟨retries, hreceiver, hwait, rfl⟩ | ⟨retries, hreceiver, rfl, hpending, rfl⟩ :=
      step_spe_event_wait.mp hstep
    · have hmore : 1 < retries := by
        cases wait with
        | failed | unrelated => simpa [patient, hreceiver] using hpatient
        | out_intr_mbox => exact absurd rfl hwait
      rw [retry_eq hmore]
      rw [hreceiver] at hevents
      exact ⟨⟨h.words, by simpa using hevents⟩, fun _ => ⟨rfl, List.prefix_refl _⟩⟩
    · rw [hreceiver] at hevents
      refine ⟨⟨h.words, ?_⟩, fun _ => ⟨rfl, List.prefix_refl _⟩⟩
      simp only [reduceCtorEq, if_false] at hevents
      simp only [if_true]
      omega
  | spe_out_intr_mbox_read =>
    simp only [Link.step, Option.ite_none_right_eq_some, Option.some.injEq] at hstep
    obtain ⟨hreceiver, rfl⟩ := hstep
    obtain ⟨send, word, rest, hmbox, _, _⟩ := h.read hreceiver
    have hwords := h.words
    rw [hreceiver, if_pos rfl, hmbox, List.length_cons] at hevents
    rw [hmbox, List.map_cons] at hwords
    refine ⟨⟨?_, ?_⟩, fun hother => absurd rfl hother⟩
    · simp only [hmbox, List.head?_cons, List.tail_cons, List.append_assoc, List.singleton_append]
      exact hwords
    · simp only [hmbox, List.tail_cons, reduceCtorEq, if_false]
      omega

/-- What a read adds to the results. -/
theorem Carried.read_returned (h : Carried s) (hstep : s.step .spe_out_intr_mbox_read = some s') : ∃ send,
    s.sent[s.returned.length]? = some send ∧ s'.returned = s.returned ++ [some send.parameter] ∧
      s'.sent = s.sent := by
  simp only [Link.step, Option.ite_none_right_eq_some, Option.some.injEq] at hstep
  obtain ⟨hreceiver, rfl⟩ := hstep
  obtain ⟨send, word, rest, hmbox, hsend, rfl⟩ := h.read hreceiver
  refine ⟨send, hsend, ?_, rfl⟩
  rw [hmbox]
  rfl

end Steps

theorem Carried.init : Carried init := ⟨rfl, rfl⟩

/-- The results of the calls so far are the addresses of the sender's parameters. -/
theorem Carried.returned_prefix {s : Link} (h : Carried s) :
    s.returned <+: s.sent.map fun send => some send.parameter :=
  ⟨_, h.words⟩

/-- One more result fits when it is the next one expected. -/
theorem snoc_prefix_iff {A : Type} {results expected : List A} {result : A} (h : results <+: expected) :
    results ++ [result] <+: expected ↔ expected[results.length]? = some result := by
  obtain ⟨rest, rfl⟩ := h
  rw [List.prefix_append_right_inj, List.getElem?_append_right (Nat.le_refl _), Nat.sub_self]
  cases rest with
  | nil => simp
  | cons next rest => simp [List.cons_prefix_cons, eq_comm]

/-- Whatever is sent, each call returns the address of the parameter that the matching
`send_message_int` was called with. So the values come through unchanged exactly when
each read finds one that equals that address. -/
theorem unchanged_iff (events : List Event) (stop : Link)
    (hrun : Reaches (restrict patient step) init events stop) :
    (Always (restrict patient step) init events Unchanged ↔
        EachStep (restrict patient step) init events coincides) ∧
      stop.returned <+: stop.sent.map fun send => some send.parameter := by
  constructor
  · refine hrun.always_iff_eachStep (I := fun s => Carried s ∧ Unchanged s) ⟨.init, List.nil_prefix⟩ ?_ ?_
      (fun _ h => h.2)
    · rintro before event after ⟨hcarried, hunchanged⟩ hgood hstep
      obtain ⟨hpatient, hstep⟩ := restrict_eq_some.mp hstep
      obtain ⟨hcarried', hother⟩ := hcarried.step hpatient hstep
      refine ⟨hcarried', ?_⟩
      by_cases hread : event = .spe_out_intr_mbox_read
      · subst hread
        obtain ⟨send, hsend, hreturned, hsent⟩ := hcarried.read_returned hstep
        have hvalue : send.value = send.parameter := hgood send hsend
        rw [Unchanged, hreturned, hsent, snoc_prefix_iff hunchanged, List.getElem?_map, hsend, ← hvalue]
        rfl
      · obtain ⟨hreturned, hsent⟩ := hother hread
        rw [Unchanged, hreturned]
        exact hunchanged.trans (hsent.map _)
    · rintro before event after ⟨hcarried, hunchanged⟩ hbad hstep
      obtain ⟨_, hstep⟩ := restrict_eq_some.mp hstep
      cases event with
      | spe_out_intr_mbox_read =>
        obtain ⟨send, hsend, hreturned, hsent⟩ := hcarried.read_returned hstep
        intro hafter
        rw [Unchanged, hreturned, hsent, snoc_prefix_iff hunchanged, List.getElem?_map, hsend] at hafter
        have hvalue : send.value = send.parameter := by simpa using hafter
        apply hbad
        intro other hother
        obtain rfl := Option.some.inj (hsend.symm.trans hother)
        exact hvalue
      | send_message_int send | recieve_message_int | spe_event_wait wait => exact absurd trivial hbad
  · have hcarried : Carried stop := by
      refine hrun.invariant .init ?_
      intro before event after hbefore hstep
      obtain ⟨hpatient, hstep⟩ := restrict_eq_some.mp hstep
      exact (hbefore.step hpatient hstep).1
    exact hcarried.returned_prefix

/-- One value sent from a parameter at 0x3FFD0 and received after an unrelated event. -/
def oneMessage (value : BitVec 32) : List Event :=
  [.recieve_message_int, .spe_event_wait .unrelated, .send_message_int ⟨value, 0x3FFD0⟩,
    .spe_event_wait .out_intr_mbox, .spe_out_intr_mbox_read]

theorem unchanged_iff_oneMessage : ∃ stop,
    Reaches (restrict patient step) init (oneMessage 0x3FFD0) stop ∧ stop.returned = [some 0x3FFD0] ∧
      (Always (restrict patient step) init (oneMessage 0x3FFD0) Unchanged ↔
        EachStep (restrict patient step) init (oneMessage 0x3FFD0) coincides) := by
  have hvalue : ((oneMessage 0x3FFD0).foldlM (restrict patient step) init).map Link.returned =
      some [some 0x3FFD0] := by
    decide +kernel
  obtain ⟨stop, hrun, hreturned⟩ := exists_reaches_of_observe hvalue
  exact ⟨stop, hrun, hreturned, (unchanged_iff (oneMessage 0x3FFD0) stop hrun).1⟩

/-- The value 1 comes back as an address of the SPU's stack. -/
theorem oneMessage_changed : ∃ stop,
    Reaches (restrict patient step) init (oneMessage 1) stop ∧ stop.sent.map Send.value = [1] ∧
      stop.returned = [some 0x3FFD0] ∧ ¬ Always (restrict patient step) init (oneMessage 1) Unchanged := by
  have hvalue : ((oneMessage 1).foldlM (restrict patient step) init).map
      (fun s => (s.sent, s.returned)) = some ([⟨1, 0x3FFD0⟩], [some 0x3FFD0]) := by
    decide +kernel
  obtain ⟨stop, hrun, hobserved⟩ := exists_reaches_of_observe hvalue
  simp only [Prod.mk.injEq] at hobserved
  refine ⟨stop, hrun, by rw [hobserved.1]; rfl, hobserved.2, ?_⟩
  intro halways
  have hunchanged : Unchanged stop := halways (oneMessage 1) stop (List.prefix_refl _) hrun
  rw [Unchanged, hobserved.1, hobserved.2] at hunchanged
  revert hunchanged
  decide

end Link

end speutils.message
