import SpeUtils.SpeThread.LoopThread

open run speutils.messages

namespace speutils.thread

/-- What stops and messages should come to: a stop with the code `READ_MBOX` delivers
the oldest unread message, any other stop its own code. -/
structure Mail where
  unread : List (BitVec 32) := []
  stopped : Option (BitVec 32) := none
  values : List (BitVec 32) := []
  deriving DecidableEq

namespace Mail

def deliver (mail : Mail) (code : BitVec 32) : Mail :=
  if code = READ_MBOX then
    { unread := mail.unread.tail, stopped := none, values := mail.values ++ mail.unread.head?.toList }
  else { mail with stopped := none, values := mail.values ++ [code] }

def step (mail : Mail) : Event → Mail
  | .put message => { mail with unread := mail.unread ++ [message] }
  | .stop (.signal code) => { mail with stopped := some code }
  | .callback => mail.stopped.elim mail mail.deliver
  | .stop .failed | .stop .other | .send_action _ | .epoll_wait _ | .read => mail

end Mail

/-- The values that the callback has been given. -/
def callbackValues (trace : List Mark) : List (Option (BitVec 32)) :=
  trace.filterMap fun
    | .callback value => some value
    | .run | .stop _ | .leave | .read _ => none

/-- A stop with the code `READ_MBOX` comes after a message that is still to be read. -/
def announced (s : LoopThread) : Event → Bool
  | .stop (.signal code) => code ≠ READ_MBOX ∨ s.out_mbox ≠ []
  | .stop .failed | .stop .other | .send_action _ | .put _ | .callback | .epoll_wait _ | .read => true

/-- The thread beside what its stops and messages should come to. -/
def observed (lib : Libspe) (p : LoopThread × Mail) (event : Event) : Option (LoopThread × Mail) :=
  (restrict announced (LoopThread.step lib) p.1 event).map fun s => (s, p.2.step event)

/-- The callback has been given what it should, and the mailbox holds the unread
messages. -/
structure KeptApart (p : LoopThread × Mail) : Prop where
  values : callbackValues p.1.trace = p.2.values.map some
  unread : p.1.out_mbox = p.2.unread

/-- A stop code that the mask tells apart from `READ_MBOX`, or that is it. -/
def wellCoded (code : BitVec 32) : Bool := code = READ_MBOX ∨ code &&& READ_MBOX = 0

/-- The callbacks that find a well-coded stop, and not a second message when the stop
announced one: `spe_out_mbox_read` is given a flag for its count and takes two. -/
def classified (p : LoopThread × Mail) : Event → Prop
  | .callback => ∀ code, p.1.phase = .stopped code →
    wellCoded code = true ∧ (code = READ_MBOX → p.1.out_mbox.length ≤ 1)
  | .send_action _ | .put _ | .stop _ | .epoll_wait _ | .read => True

/-- The invariant behind: both sides know the stop whose callback is to come, and the
mailbox has a word when that stop announced one. -/
structure Sorted (p : LoopThread × Mail) : Prop where
  apart : KeptApart p
  stopped : ∀ code, p.1.phase = .stopped code → p.2.stopped = some code
  announced : p.1.phase = .stopped READ_MBOX → p.1.out_mbox ≠ []

theorem callbackValues_append (trace more : List Mark) :
    callbackValues (trace ++ more) = callbackValues trace ++ callbackValues more := by
  simp [callbackValues, List.filterMap_append]

/-- Outside a stop nothing more is asked. -/
theorem KeptApart.sorted {p : LoopThread × Mail} (h : KeptApart p)
    (hphase : ∀ code, p.1.phase ≠ .stopped code) : Sorted p :=
  ⟨h, fun code hcode => absurd hcode (hphase code), fun hread => absurd hread (hphase _)⟩

/-- A step without a message, a stop or a callback. -/
theorem Sorted.other {p : LoopThread × Mail} {s : LoopThread} (h : Sorted p)
    (htrace : callbackValues s.trace = callbackValues p.1.trace) (hmbox : s.out_mbox = p.1.out_mbox)
    (hphase : s.phase = p.1.phase ∨ ∀ code, s.phase ≠ .stopped code) : Sorted (s, p.2) := by
  have hapart : KeptApart (s, p.2) := ⟨htrace.trans h.apart.values, hmbox.trans h.apart.unread⟩
  obtain hphase | hphase := hphase
  · refine ⟨hapart, ?_, ?_⟩
    · intro code hcode
      exact h.stopped code (hphase.symm.trans hcode)
    · intro hread
      rw [hmbox]
      exact h.announced (hphase.symm.trans hread)
  · exact hapart.sorted hphase

section Callback

variable {lib : Libspe} {p : LoopThread × Mail} {code : BitVec 32}

theorem Sorted.mail_callback (h : Sorted p) (hphase : p.1.phase = .stopped code) :
    p.2.step .callback = p.2.deliver code := by
  simp [Mail.step, h.stopped code hphase]

/-- The callback for a stop that the mask classifies rightly. -/
theorem Sorted.callback (hlib : lib.Documented) (h : Sorted p) (hphase : p.1.phase = .stopped code)
    (hcoded : wellCoded code = true) (hsingle : code = READ_MBOX → p.1.out_mbox.length ≤ 1) :
    Sorted (p.1.callback lib code, p.2.step .callback) := by
  rw [h.mail_callback hphase]
  have hvalues := h.apart.values
  have hunread := h.apart.unread
  obtain rfl | hmask := of_decide_eq_true hcoded
  · obtain ⟨message, hmbox⟩ := List.length_eq_one_iff.mp
      (Nat.le_antisymm (hsingle rfl) (List.length_pos_iff.mpr (h.announced hphase)))
    have hcallback : p.1.callback lib READ_MBOX = { p.1 with
        phase := .waiting, out_mbox := [], trace := p.1.trace ++ [.callback (some message)] } := by
      rw [LoopThread.callback, if_pos (by decide), hmbox, hlib.out_mbox_read, hlib.any_blocking]
      rfl
    have hdeliver : p.2.deliver READ_MBOX = { unread := [], stopped := none, values := p.2.values ++ [message] } := by
      rw [Mail.deliver, if_pos rfl, ← hunread, hmbox]
      rfl
    rw [hcallback, hdeliver]
    apply KeptApart.sorted
    · refine ⟨?_, rfl⟩
      simp only [callbackValues_append, hvalues, List.map_append]
      rfl
    · simp
  · have hother : code ≠ READ_MBOX := by
      rintro rfl
      revert hmask
      decide
    have hcallback : p.1.callback lib code = { p.1 with
        phase := .waiting, trace := p.1.trace ++ [.callback (some code)] } := by
      rw [LoopThread.callback, if_neg (not_not_intro hmask)]
    have hdeliver : p.2.deliver code = { p.2 with stopped := none, values := p.2.values ++ [code] } := by
      rw [Mail.deliver, if_neg hother]
    rw [hcallback, hdeliver]
    apply KeptApart.sorted
    · refine ⟨?_, hunread⟩
      simp only [callbackValues_append, hvalues, List.map_append]
      rfl
    · simp

/-- The callback for any other stop takes a message that was not meant for it or has
no value to give. -/
theorem Sorted.callback_mixed (hlib : lib.Documented) (h : Sorted p) (hphase : p.1.phase = .stopped code)
    (hcoded : wellCoded code = false) : ¬ KeptApart (p.1.callback lib code, p.2.step .callback) := by
  rw [h.mail_callback hphase]
  simp only [wellCoded, decide_eq_false_iff_not, not_or] at hcoded
  obtain ⟨hother, hmask⟩ := hcoded
  have hdeliver : p.2.deliver code = { p.2 with stopped := none, values := p.2.values ++ [code] } := by
    rw [Mail.deliver, if_neg hother]
  rw [hdeliver, LoopThread.callback, if_pos hmask, hlib.out_mbox_read, hlib.any_blocking]
  intro hapart
  have hunread := hapart.unread
  have hvalues := hapart.values
  simp only [callbackValues_append, h.apart.values, List.map_append, List.append_cancel_left_eq] at hvalues
  simp only [← h.apart.unread] at hunread
  cases hmbox : p.1.out_mbox with
  | nil =>
    rw [hmbox] at hvalues
    cases hvalues
  | cons message rest =>
    have hlength := congrArg List.length hunread
    simp only [hmbox, List.length_drop, List.length_cons] at hlength
    omega

/-- With two messages in the mailbox the second is lost. -/
theorem Sorted.callback_lost (hlib : lib.Documented) (h : Sorted p) (hphase : p.1.phase = .stopped READ_MBOX)
    (hsecond : 1 < p.1.out_mbox.length) : ¬ KeptApart (p.1.callback lib READ_MBOX, p.2.step .callback) := by
  rw [h.mail_callback hphase, Mail.deliver, if_pos rfl, LoopThread.callback, if_pos (by decide), hlib.out_mbox_read,
    hlib.any_blocking]
  intro hapart
  have hlength := congrArg List.length hapart.unread
  simp only [← h.apart.unread, List.length_drop, List.length_tail] at hlength
  omega

end Callback

theorem observed_eq_some {lib : Libspe} {p p' : LoopThread × Mail} {event : Event} :
    observed lib p event = some p' ↔
      announced p.1 event = true ∧ p.1.step lib event = some p'.1 ∧ p'.2 = p.2.step event := by
  obtain ⟨s', mail'⟩ := p'
  simp only [observed, Option.map_eq_some_iff, restrict_eq_some, Prod.mk.injEq]
  constructor
  · rintro ⟨s, ⟨hannounced, hstep⟩, rfl, rfl⟩
    exact ⟨hannounced, hstep, rfl⟩
  · rintro ⟨hannounced, hstep, rfl⟩
    exact ⟨s', ⟨hannounced, hstep⟩, rfl, rfl⟩

theorem Sorted.step {lib : Libspe} {p p' : LoopThread × Mail} {event : Event} (hlib : lib.Documented) (h : Sorted p)
    (hgood : classified p event) (hstep : observed lib p event = some p') : Sorted p' := by
  obtain ⟨hannounced, hthread, hmail⟩ := observed_eq_some.mp hstep
  obtain ⟨s', mail'⟩ := p'
  obtain rfl : mail' = p.2.step event := hmail
  cases event with
  | send_action action =>
    obtain rfl := LoopThread.step_send_action.mp hthread
    exact h.other rfl rfl (.inl rfl)
  | put message =>
    obtain ⟨_, rfl⟩ := LoopThread.step_put.mp hthread
    refine ⟨⟨h.apart.values, ?_⟩, h.stopped, ?_⟩
    · simp [Mail.step, ← h.apart.unread]
    · simp
  | stop stop =>
    obtain ⟨_, rfl⟩ := LoopThread.step_stop.mp hthread
    cases stop with
    | failed | other =>
      refine h.other ?_ rfl (.inr ?_)
      · simp [LoopThread.stop, callbackValues]
      · simp [LoopThread.stop]
    | signal code =>
      refine ⟨⟨?_, h.apart.unread⟩, ?_, ?_⟩
      · simpa [LoopThread.stop, callbackValues, Mail.step] using h.apart.values
      · intro code' hcode
        cases hcode
        rfl
      · intro hread
        cases hread
        simpa [thread.announced, LoopThread.stop] using hannounced
  | callback =>
    obtain ⟨code, hphase, rfl⟩ := LoopThread.step_callback.mp hthread
    exact h.callback hlib hphase (hgood code hphase).1 (hgood code hphase).2
  | epoll_wait fds =>
    obtain ⟨_, rfl⟩ := LoopThread.step_epoll_wait.mp hthread
    refine h.other rfl rfl (.inr ?_)
    intro code
    simp only
    split <;> simp
  | read =>
    obtain ⟨_, action, pipe, _, rfl⟩ := LoopThread.step_read.mp hthread
    unfold LoopThread.act
    split
    · exact h.other (by simp [callbackValues]) rfl (.inr (by simp))
    · exact h.other (by simp [callbackValues]) rfl (.inr (by simp))

theorem Sorted.enter (fd depth : Nat) (epoll_ctl spe_program_load : Int) :
    Sorted (.enter fd depth epoll_ctl spe_program_load, {}) := by
  apply KeptApart.sorted
  · unfold LoopThread.enter
    split <;> exact ⟨rfl, rfl⟩
  · intro code
    unfold LoopThread.enter
    split <;> simp

/-- The mailbox never holds more words than it has room for. -/
theorem LoopThread.step_depth {lib : Libspe} {s s' : LoopThread} {event : Event} (hlib : lib.Documented)
    (hdepth : s.out_mbox.length ≤ s.depth) (hstep : s.step lib event = some s') :
    s'.out_mbox.length ≤ s'.depth ∧ s'.depth = s.depth := by
  cases event with
  | send_action action =>
    obtain rfl := step_send_action.mp hstep
    exact ⟨hdepth, rfl⟩
  | put message =>
    obtain ⟨⟨_, hroom⟩, rfl⟩ := step_put.mp hstep
    refine ⟨?_, rfl⟩
    rw [List.length_append, List.length_singleton]
    exact hroom
  | stop stop =>
    obtain ⟨_, rfl⟩ := step_stop.mp hstep
    cases stop <;> exact ⟨hdepth, rfl⟩
  | callback =>
    obtain ⟨code, _, rfl⟩ := step_callback.mp hstep
    unfold callback
    split
    · refine ⟨?_, rfl⟩
      simp only [hlib.out_mbox_read, List.length_drop]
      omega
    · exact ⟨hdepth, rfl⟩
  | epoll_wait fds =>
    obtain ⟨_, rfl⟩ := step_epoll_wait.mp hstep
    exact ⟨hdepth, rfl⟩
  | read =>
    obtain ⟨_, action, pipe, _, rfl⟩ := step_read.mp hstep
    unfold act
    split <;> exact ⟨hdepth, rfl⟩

/-- Stop codes and mailbox messages stay apart throughout a run exactly when every
callback of the run is for a stop whose code shares no bit with `READ_MBOX`, or is
`READ_MBOX` with no second message behind the one announced. A mailbox of one word
never has a second. -/
theorem keptApart_iff (lib : Libspe) (hlib : lib.Documented) (fd depth : Nat)
    (epoll_ctl spe_program_load : Int) (events : List Event) (stop : LoopThread × Mail)
    (hrun : Reaches (observed lib) (.enter fd depth epoll_ctl spe_program_load, {}) events stop) :
    (Always (observed lib) (.enter fd depth epoll_ctl spe_program_load, {}) events KeptApart ↔
        EachStep (observed lib) (.enter fd depth epoll_ctl spe_program_load, {}) events classified) ∧
      stop.1.out_mbox.length ≤ depth := by
  constructor
  · refine hrun.always_iff_eachStep (I := Sorted) (.enter fd depth epoll_ctl spe_program_load) ?_ ?_
      (fun _ h => h.apart)
    · intro before event after hbefore hgood hstep
      exact hbefore.step hlib hgood hstep
    · intro before event after hbefore hbad hstep
      obtain ⟨_, hthread, hmail⟩ := observed_eq_some.mp hstep
      obtain ⟨s', mail'⟩ := after
      obtain rfl : mail' = before.2.step event := hmail
      cases event with
      | callback =>
        simp only [classified, not_forall] at hbad
        obtain ⟨code, hphase, hbad⟩ := hbad
        obtain ⟨_, hfound, rfl⟩ := LoopThread.step_callback.mp hthread
        obtain rfl := Phase.stopped.inj (hphase.symm.trans hfound)
        cases hcoded : wellCoded code with
        | false => exact hbefore.callback_mixed hlib hphase hcoded
        | true =>
          have hsecond : ¬ (code = READ_MBOX → before.1.out_mbox.length ≤ 1) := fun h => hbad ⟨hcoded, h⟩
          obtain ⟨rfl, hlength⟩ := Classical.not_imp.mp hsecond
          exact hbefore.callback_lost hlib hphase (by omega)
      | send_action action | put message | stop stop | epoll_wait fds | read => exact absurd trivial hbad
  · have hdepth : stop.1.out_mbox.length ≤ stop.1.depth ∧ stop.1.depth = depth := by
      refine hrun.invariant (I := fun p => p.1.out_mbox.length ≤ p.1.depth ∧ p.1.depth = depth) ?_ ?_
      · unfold LoopThread.enter
        split <;> exact ⟨Nat.zero_le _, rfl⟩
      · intro before event after hbefore hstep
        obtain ⟨hroom, hsame⟩ := LoopThread.step_depth hlib hbefore.1 (observed_eq_some.mp hstep).2.1
        exact ⟨hroom, hsame.trans hbefore.2⟩
    rw [← hdepth.2]
    exact hdepth.1

/-- A message announced by `READ_MBOX`, and a stop with a code of the SPU's own. -/
def twoStops (code : BitVec 32) : List Event :=
  [.put 0x05050505, .stop (.signal READ_MBOX), .callback, .epoll_wait [3], .send_action THREAD_CONTINUE, .read,
    .stop (.signal code), .callback]

theorem keptApart_iff_twoStops : ∃ stop,
    Reaches (observed libspe2) (.enter 3 1 0 0, {}) (twoStops 0x2000) stop ∧
      callbackValues stop.1.trace = [some 0x05050505, some 0x2000] ∧
      (Always (observed libspe2) (.enter 3 1 0 0, {}) (twoStops 0x2000) KeptApart ↔
        EachStep (observed libspe2) (.enter 3 1 0 0, {}) (twoStops 0x2000) classified) := by
  have hvalue : ((twoStops 0x2000).foldlM (observed libspe2) (.enter 3 1 0 0, {})).map
      (fun p => callbackValues p.1.trace) = some [some 0x05050505, some 0x2000] := by
    decide +kernel
  obtain ⟨stop, hrun, hvalues⟩ := exists_reaches_of_observe hvalue
  exact ⟨stop, hrun, hvalues, (keptApart_iff libspe2 libspe2_documented 3 1 0 0 (twoStops 0x2000) stop hrun).1⟩

/-- The stop code 1 shares a bit with `READ_MBOX`: the mailbox is empty, and the
callback is given whatever the local variable held. -/
theorem twoStops_mixed : ∃ stop,
    Reaches (observed libspe2) (.enter 3 1 0 0, {}) (twoStops 1) stop ∧
      callbackValues stop.1.trace = [some 0x05050505, none] ∧ stop.2.values = [0x05050505, 1] ∧
      ¬ Always (observed libspe2) (.enter 3 1 0 0, {}) (twoStops 1) KeptApart := by
  have hvalue : ((twoStops 1).foldlM (observed libspe2) (.enter 3 1 0 0, {})).map
      (fun p => (callbackValues p.1.trace, p.2.values)) = some ([some 0x05050505, none], [0x05050505, 1]) := by
    decide +kernel
  obtain ⟨stop, hrun, hobserved⟩ := exists_reaches_of_observe hvalue
  simp only [Prod.mk.injEq] at hobserved
  refine ⟨stop, hrun, hobserved.1, hobserved.2, ?_⟩
  intro halways
  have hvalues := (halways (twoStops 1) stop (List.prefix_refl _) hrun).values
  rw [hobserved.1, hobserved.2] at hvalues
  cases hvalues

end speutils.thread
