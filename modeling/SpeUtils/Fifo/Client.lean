import SpeUtils.Fifo.Drains
import SpeUtils.Fifo.Isolation

open run speutils.ring speutils.taskmanager speutils.messages

namespace speutils.fifo

/-- The calls of an application that issues its tasks whole, as `task_iface.c` does;
`whileNotEmpty` is its `while(!fifoIsEmpty());`. -/
inductive Call where
  | fifoNoop
  | fifo_addition (adds : BitVec 32)
  | whileNotEmpty
  | fifoWait
  deriving DecidableEq, Repr

/-- The arguments of a call that issues a task. -/
def Call.args : Call → Option (List (BitVec 32))
  | .fifoNoop => some []
  | .fifo_addition adds => some [adds, 0x01#32, 0x02#32]
  | .whileNotEmpty | .fifoWait => none

/-- The words of the task that a call issues: the command and the handle that it begins
with, and the arguments. -/
def Call.words : Call → Option (List (BitVec 32))
  | .fifoNoop => some [NOOP, 0x1ee7C0DE#32]
  | .fifo_addition adds => some [ADD, 0x1ee7C0DE#32, adds, 0x01#32, 0x02#32]
  | .whileNotEmpty | .fifoWait => none

/-- Where the application stands in a call: in `fifoBegin`, with the arguments that are to
be added; with an open task and the arguments left; in `fifoKick`, past the publication; in
the scan of `fifoIsEmpty`; or in `fifoWait`, about to test ring `i`. -/
inductive Point (spes : Nat) where
  | between
  | selecting (args : List (BitVec 32))
  | adding (spe : Fin spes) (args : List (BitVec 32))
  | kicking
  | scanning
  | waiting (i res : Nat)
  deriving DecidableEq

/-- The application with the calls it has yet to make, on top of the whole system. -/
structure Client (world : Type) (spes : Nat) where
  audit : Audit world spes
  calls : List Call
  point : Point spes

/-- Either the application's thread goes on, or something else moves. -/
inductive Turn (spes : Nat) where
  | thread
  | machine (event : Event spes)
  deriving DecidableEq

namespace Client

variable {world : Type} {spes : Nat}

def init (memory : Fin spes → Memory world) (size : Nat) (calls : List Call) : Client world spes where
  audit := .init memory size
  calls := calls
  point := .between

def finished (c : Client world spes) : Bool := c.calls.isEmpty && c.point = .between

/-- The next step of the application's thread on the system, if it is one. `fifoWait` only
reads the rings. -/
def event (c : Client world spes) : Option (Event spes) :=
  match c.point with
  | .between =>
    match c.calls with
    | .fifoNoop :: _ => some (.fifoBegin NOOP 0x1ee7C0DE#32)
    | .fifo_addition _ :: _ => some (.fifoBegin ADD 0x1ee7C0DE#32)
    | .whileNotEmpty :: _ => some .fifoIsEmpty
    | .fifoWait :: _ | [] => none
  | .selecting _ => some .selectfifo
  | .adding spe (arg :: _) => some (.fifoAdd spe arg)
  | .adding spe [] => some (.fifoKick spe)
  | .kicking => some .kicked
  | .scanning => some .scan
  | .waiting _ _ => none

/-- Where the thread stands after that step has led to `s`. -/
def advance (c : Client world spes) (s : System world spes) : List Call × Point spes :=
  match c.point with
  | .between =>
    match c.calls with
    | .fifoNoop :: calls => (calls, .selecting [])
    | .fifo_addition adds :: calls => (calls, .selecting [adds, 0x01#32, 0x02#32])
    | .whileNotEmpty :: _ => (c.calls, .scanning)
    | .fifoWait :: calls => (calls, .waiting 0 0)
    | [] => ([], .between)
  | .selecting args =>
    if h : s.current_spe < spes then
      if s.thread = .idle then (c.calls, .adding ⟨s.current_spe, h⟩ args) else (c.calls, .selecting args)
    else (c.calls, .selecting args)
  | .adding spe (_ :: args) => (c.calls, .adding spe args)
  | .adding _ [] => (c.calls, .kicking)
  | .kicking => (c.calls, .between)
  | .scanning =>
    if s.thread = .idle then
      if s.isEmpty = some true then (c.calls.tail, .between) else (c.calls, .between)
    else (c.calls, .scanning)
  | .waiting i res =>
    if h : i < spes then
      if ringHasRemaining (s.spe ⟨i, h⟩).host.ringCTX then (c.calls, .waiting (i + 1) (res + 1))
      else (c.calls, .waiting (i + 1) res)
    else if res ≠ 0 then (c.calls, .waiting 0 0)
    else (c.calls, .between)

def step (bodies : TaskBodies world) (c : Client world spes) : Turn spes → Option (Client world spes)
  | .thread =>
    if c.finished then none
    else
      match stutter (Audit.step bodies) c.audit c.event with
      | none => none
      | some audit => some { audit, calls := (c.advance audit.system).1, point := (c.advance audit.system).2 }
  | .machine event =>
    if event.ofThread then none
    else
      match c.audit.step bodies event with
      | none => none
      | some audit => some { c with audit }

end Client

/-- How many tasks an SPE has had begun, kicked and reclaimed. -/
structure Counts where
  begun : Nat
  kicked : Nat
  reclaimed : Nat
  kicking : Bool
  deriving DecidableEq

/-- What a step on an SPE does to its counts. -/
def Counts.after (n : Counts) : Option Action → Counts
  | some (.fifoBegin _ _) => { n with begun := n.begun + 1 }
  | some .send_front => { n with kicked := n.begun, kicking := true }
  | some .closeFront => { n with kicking := false }
  | some (.fifoRegisterProgram _ _) => { n with begun := n.begun + 1, kicked := n.begun + 1 }
  | some .reclaim => { n with reclaimed := n.reclaimed + 1 }
  | some (.fifoAdd _) | some .runStage | some (.arrive _) | none => n

def Spe.counts {world : Type} (s : Spe world) : Counts where
  begun := s.log.begun.length
  kicked := s.log.kicked
  reclaimed := s.log.reclaimed.length
  kicking := s.kicking

theorem Spe.step_counts {world : Type} {bodies : TaskBodies world} {s s' : Spe world} {action : Action}
    (hstep : s.step bodies action = some s') : s'.counts = s.counts.after (some action) := by
  obtain ⟨hlog, hkicking⟩ := step_record hstep
  unfold counts
  rw [hlog, hkicking]
  cases action with
  | runStage =>
    obtain ⟨hbegun, hkicked, _⟩ := s.log.stage_kicks (s.spu, s.host.fifos)
    simp [recorded, midKick, Counts.after, hbegun, hkicked, s.log.stage_reclaimed]
  | fifoBegin command handle | fifoRegisterProgram addr bytes =>
    simp [recorded, midKick, Counts.after, Ledger.begin, Ledger.kick]
  | reclaim => simp [recorded, midKick, Counts.after, Ledger.reclaim]
  | fifoAdd arg | send_front | closeFront | arrive index => rfl

theorem System.step_counts {world : Type} {spes : Nat} {bodies : TaskBodies world} {s s' : System world spes}
    {event : Event spes} (hstep : s.step bodies event = some s') (e : Fin spes) :
    (s'.spe e).counts = (s.spe e).counts.after (s.column event e) := by
  obtain ⟨hnone, hsame⟩ | ⟨action, haction, hspe⟩ := step_spe hstep e
  · rw [hnone, hsame]
    rfl
  · rw [haction]
    exact Spe.step_counts hspe

namespace Point

variable {spes : Nat}

/-- How many tasks are open on an SPE. -/
def opens (p : Point spes) (e : Fin spes) : Nat :=
  match p with
  | .adding spe _ => if e = spe then 1 else 0
  | .between | .selecting _ | .kicking | .scanning | .waiting _ _ => 0

/-- Whether a task waits for a slot. -/
def pending : Point spes → Nat
  | .selecting _ => 1
  | .between | .adding _ _ | .kicking | .scanning | .waiting _ _ => 0

/-- Where the thread stands in the system. -/
def Fits : Point spes → Thread spes → Prop
  | .between, thread | .adding _ _, thread | .waiting _ _, thread => thread = .idle
  | .selecting _, thread => ∃ command handle, thread = .selectfifo command handle
  | .kicking, thread => ∃ e, thread = .fifoKick e
  | .scanning, thread => ∃ i, thread = .fifoIsEmpty i

end Point

namespace Client

variable {world : Type} {spes size : Nat} {bodies : TaskBodies world} {c c' : Client world spes}

def counts (c : Client world spes) (e : Fin spes) : Counts := (c.audit.system.spe e).counts

/-- The application and the system agree: nothing is open but the task that is being
filled, and only the thread that is inside a kick has left a front unincremented. -/
structure Orderly (bodies : TaskBodies world) (size : Nat) (c : Client world spes) : Prop where
  sound : c.audit.Sound bodies size
  fits : c.point.Fits c.audit.system.thread
  tasks : ∀ e, (c.counts e).begun = (c.counts e).kicked + c.point.opens e
  kicking : ∀ e, (c.counts e).kicking = true ↔ c.audit.system.thread = .fifoKick e
  current : c.audit.system.current_spe < spes
  scanning : c.point = .scanning → ∃ calls, c.calls = .whileNotEmpty :: calls

theorem Orderly.init (bodies : TaskBodies world) (memory : Fin spes → Memory world) (calls : List Call)
    (hsize : 0 < size) (hspes : 0 < spes) : Orderly bodies size (.init memory size calls) where
  sound := .init bodies memory hsize
  fits := rfl
  tasks := fun _ => rfl
  kicking := by simp [counts, Spe.counts, Client.init, Audit.init, System.init, Spe.init]
  current := hspes
  scanning := by simp [Client.init]

/-- What the thread does keeps each task apart from the others. -/
theorem Orderly.issued (h : c.Orderly bodies size) {event : Event spes} (hevent : c.event = some event) :
    c.audit.system.keeps Spe.issued event = true := by
  refine decide_eq_true fun e => ?_
  have htasks := h.tasks e
  simp only [counts, Spe.counts] at htasks
  cases hpoint : c.point with
  | between =>
    simp only [Client.event, hpoint] at hevent
    split at hevent
    · obtain rfl := Option.some.inj hevent
      rfl
    · obtain rfl := Option.some.inj hevent
      rfl
    · obtain rfl := Option.some.inj hevent
      rfl
    · cases hevent
    · cases hevent
  | selecting args =>
    simp only [Client.event, hpoint, Option.some.injEq] at hevent
    subst hevent
    simp only [hpoint, Point.opens, Nat.add_zero] at htasks
    obtain ⟨command, handle, hthread⟩ : ∃ command handle, c.audit.system.thread = .selectfifo command handle := by
      have hfits := h.fits
      rwa [hpoint] at hfits
    simp only [System.column, hthread]
    split
    · simp [Spe.issued, htasks]
    · rfl
  | adding spe args =>
    simp only [hpoint, Point.opens] at htasks
    cases args with
    | nil | cons arg args =>
      simp only [Client.event, hpoint, Option.some.injEq] at hevent
      subst hevent
      by_cases he : e = spe
      · simp only [System.column, if_pos he, Option.all_some, Spe.issued, decide_eq_true_eq]
        simp only [if_pos he] at htasks
        omega
      · simp [System.column, he]
  | kicking =>
    simp only [Client.event, hpoint, Option.some.injEq] at hevent
    subst hevent
    simp only [System.column]
    split <;> rfl
  | scanning =>
    simp only [Client.event, hpoint, Option.some.injEq] at hevent
    subst hevent
    rfl
  | waiting i res =>
    simp only [Client.event, hpoint] at hevent
    cases hevent

theorem machine_issued {event : Event spes} (hevent : event.ofThread = false) :
    c.audit.system.keeps Spe.issued event = true := by
  refine decide_eq_true fun e => ?_
  cases haction : c.audit.system.column event e with
  | none => rfl
  | some action =>
    have hother := System.column_of_not_ofThread hevent haction
    cases action with
    | runStage | arrive index | reclaim => rfl
    | fifoBegin command handle | fifoAdd arg | send_front | closeFront | fifoRegisterProgram addr bytes => cases hother

/-- A task that is issued whole is kicked before the next is begun. -/
theorem matched_of_keeps {event : Event spes} (hissued : c.audit.system.keeps Spe.issued event = true) :
    c.audit.matched event = true := by
  refine decide_eq_true fun e => ?_
  cases haction : c.audit.system.column event e with
  | none => rfl
  | some action => exact Spe.matched_of_issued (System.ok_of_keeps hissued haction)

/-- What the SPUs, the transfers and the monitor do besides. -/
theorem machine_counts {event : Event spes} {audit : Audit world spes} (hevent : event.ofThread = false)
    (hstep : c.audit.step bodies event = some audit) (e : Fin spes) :
    (audit.system.spe e).counts = c.counts e ∨
      (audit.system.spe e).counts = { c.counts e with reclaimed := (c.counts e).reclaimed + 1 } := by
  rw [System.step_counts (Audit.step_system hstep).1 e]
  cases haction : c.audit.system.column event e with
  | none => exact .inl rfl
  | some action =>
    have hother := System.column_of_not_ofThread hevent haction
    cases action with
    | runStage | arrive index => exact .inl rfl
    | reclaim => exact .inr rfl
    | fifoBegin command handle | fifoAdd arg | send_front | closeFront | fifoRegisterProgram addr bytes => cases hother

theorem machine_outside {event : Event spes} {audit : Audit world spes} (hevent : event.ofThread = false)
    (hstep : c.audit.step bodies event = some audit) :
    audit.system.thread = c.audit.system.thread ∧ audit.system.current_spe = c.audit.system.current_spe := by
  obtain ⟨t, hcontrol, hthread, hcurrent, _⟩ := System.step_outside (Audit.step_system hstep).1
  refine ⟨hthread.trans (System.control_of_not_ofThread hevent hcontrol), ?_⟩
  rw [hcurrent]
  cases event with
  | runStage spe | arrive spe index => rw [← Option.some.inj hcontrol]
  | fifothread =>
    simp only [System.control] at hcontrol
    grind
  | fifoBegin command handle | selectfifo | fifoAdd spe arg | fifoKick spe | kicked
  | fifoRegisterProgram addr bytes | register | fifoIsEmpty | scan => cases hevent

theorem Orderly.machine (h : c.Orderly bodies size) (hsize : 0 < size) {event : Event spes}
    {audit : Audit world spes} (hevent : event.ofThread = false) (hstep : c.audit.step bodies event = some audit) :
    Orderly bodies size { c with audit } := by
  obtain ⟨hthread, hcurrent⟩ := machine_outside hevent hstep
  have hcounts : ∀ e, (audit.system.spe e).counts.begun = (c.counts e).begun ∧
      (audit.system.spe e).counts.kicked = (c.counts e).kicked ∧
      (audit.system.spe e).counts.kicking = (c.counts e).kicking := by
    intro e
    obtain hsame | hless := machine_counts hevent hstep e
    · rw [hsame]
      exact ⟨rfl, rfl, rfl⟩
    · rw [hless]
      exact ⟨rfl, rfl, rfl⟩
  refine ⟨h.sound.step hsize (restrict_eq_some.mpr ⟨matched_of_keeps (machine_issued hevent), hstep⟩),
    hthread ▸ h.fits, ?_, ?_, hcurrent ▸ h.current, h.scanning⟩
  · intro e
    obtain ⟨hbegun, hkicked, _⟩ := hcounts e
    rw [counts, hbegun, hkicked]
    exact h.tasks e
  · intro e
    rw [counts, (hcounts e).2.2, hthread]
    exact h.kicking e

/-- What one step of the application's thread does, by the place where it stands. -/
inductive Move (c c' : Client world spes) : Prop where
  | begin {call : Call} {args : List (BitVec 32)} {command handle : BitVec 32} (hpoint : c.point = .between)
      (hcalls : c.calls = call :: c'.calls) (hargs : call.args = some args) (hpoint' : c'.point = .selecting args)
      (hthread : c'.audit.system.thread = .selectfifo command handle) (hcounts : c'.counts = c.counts)
      (hwords : call.words = some (command :: handle :: args))
  | full {args : List (BitVec 32)} (hpoint : c.point = .selecting args) (hpoint' : c'.point = .selecting args)
      (hcalls : c'.calls = c.calls) (hthread : c'.audit.system.thread = c.audit.system.thread)
      (hfull : ∀ e : Fin spes, e = c.audit.system.current_spe → ringHasFree (c.audit.system.spe e).host.ringCTX = false)
      (hcounts : c'.counts = c.counts)
  | select {args : List (BitVec 32)} {spe : Fin spes} (hpoint : c.point = .selecting args)
      (hpoint' : c'.point = .adding spe args) (hcalls : c'.calls = c.calls) (hthread : c'.audit.system.thread = .idle)
      (hcounts : ∀ e, c'.counts e =
        if e = spe then { c.counts e with begun := (c.counts e).begun + 1 } else c.counts e)
  | add {spe : Fin spes} {arg : BitVec 32} {args : List (BitVec 32)} (hpoint : c.point = .adding spe (arg :: args))
      (hpoint' : c'.point = .adding spe args) (hcalls : c'.calls = c.calls) (hthread : c'.audit.system.thread = .idle)
      (hcounts : c'.counts = c.counts)
  | kick {spe : Fin spes} (hpoint : c.point = .adding spe []) (hpoint' : c'.point = .kicking)
      (hcalls : c'.calls = c.calls) (hthread : c'.audit.system.thread = .fifoKick spe)
      (hcounts : ∀ e, c'.counts e =
        if e = spe then { c.counts e with kicked := (c.counts e).begun, kicking := true } else c.counts e)
  | kicked {spe : Fin spes} (hpoint : c.point = .kicking) (hthread : c.audit.system.thread = .fifoKick spe)
      (hpoint' : c'.point = .between) (hcalls : c'.calls = c.calls) (hthread' : c'.audit.system.thread = .idle)
      (hcounts : ∀ e, c'.counts e = if e = spe then { c.counts e with kicking := false } else c.counts e)
  | scan {calls : List Call} (hpoint : c.point = .between) (hcalls : c.calls = .whileNotEmpty :: calls)
      (hcalls' : c'.calls = c.calls) (hpoint' : c'.point = .scanning)
      (hthread : c'.audit.system.thread = .fifoIsEmpty 0) (hcounts : c'.counts = c.counts)
  | passed {i : Nat} (hpoint : c.point = .scanning) (hthread : c.audit.system.thread = .fifoIsEmpty i) (hi : i < spes)
      (hdrained : ringHasRemaining (c.audit.system.spe ⟨i, hi⟩).host.ringCTX = false) (hpoint' : c'.point = .scanning)
      (hcalls : c'.calls = c.calls) (hthread' : c'.audit.system.thread = .fifoIsEmpty (i + 1))
      (hcounts : c'.counts = c.counts)
  | remaining {i : Nat} (hpoint : c.point = .scanning) (hthread : c.audit.system.thread = .fifoIsEmpty i)
      (hi : i < spes) (hremaining : ringHasRemaining (c.audit.system.spe ⟨i, hi⟩).host.ringCTX = true)
      (hpoint' : c'.point = .between) (hcalls : c'.calls = c.calls) (hthread' : c'.audit.system.thread = .idle)
      (hcounts : c'.counts = c.counts)
  | empty {i : Nat} (hpoint : c.point = .scanning) (hthread : c.audit.system.thread = .fifoIsEmpty i) (hi : spes ≤ i)
      (hpoint' : c'.point = .between) (hcalls : c'.calls = c.calls.tail) (hthread' : c'.audit.system.thread = .idle)
      (hcounts : c'.counts = c.counts)
  | wait (hpoint : c.point = .between) (hcalls : c.calls = .fifoWait :: c'.calls) (hpoint' : c'.point = .waiting 0 0)
      (haudit : c'.audit = c.audit)
  | tested {i res : Nat} (hpoint : c.point = .waiting i res) (hi : i < spes)
      (hpoint' : c'.point = .waiting (i + 1)
        (if ringHasRemaining (c.audit.system.spe ⟨i, hi⟩).host.ringCTX then res + 1 else res))
      (hcalls : c'.calls = c.calls) (haudit : c'.audit = c.audit)
  | again {i res : Nat} (hpoint : c.point = .waiting i res) (hi : spes ≤ i) (hres : res ≠ 0)
      (hpoint' : c'.point = .waiting 0 0) (hcalls : c'.calls = c.calls) (haudit : c'.audit = c.audit)
  | waited {i : Nat} (hpoint : c.point = .waiting i 0) (hi : spes ≤ i) (hpoint' : c'.point = .between)
      (hcalls : c'.calls = c.calls) (haudit : c'.audit = c.audit)

theorem step_thread (hstep : c.step bodies .thread = some c') :
    c.finished = false ∧ stutter (Audit.step bodies) c.audit c.event = some c'.audit ∧
      c'.calls = (c.advance c'.audit.system).1 ∧ c'.point = (c.advance c'.audit.system).2 := by
  simp only [step] at hstep
  split at hstep
  · cases hstep
  · rename_i hbusy
    cases haudit : stutter (Audit.step bodies) c.audit c.event with
    | none => simp [haudit] at hstep
    | some audit =>
      simp only [haudit, Option.some.injEq] at hstep
      subst hstep
      exact ⟨by simpa using hbusy, rfl, rfl, rfl⟩

theorem step_machine {event : Event spes} (hstep : c.step bodies (.machine event) = some c') :
    event.ofThread = false ∧ c.audit.step bodies event = some c'.audit ∧ c' = { c with audit := c'.audit } := by
  simp only [step] at hstep
  split at hstep
  · cases hstep
  · rename_i hother
    cases haudit : c.audit.step bodies event with
    | none => simp [haudit] at hstep
    | some audit =>
      simp only [haudit, Option.some.injEq] at hstep
      subst hstep
      exact ⟨by simpa using hother, rfl, rfl⟩

/-- Steps that change no column. -/
theorem counts_of_none {event : Event spes} (hnone : ∀ e, c.audit.system.column event e = none)
    (hstep : c.audit.step bodies event = some c'.audit) : c'.counts = c.counts := by
  funext e
  rw [counts, System.step_counts (Audit.step_system hstep).1 e, hnone e]
  rfl

/-- Waiting in `selectfifo` for a free slot. -/
theorem Orderly.move_selecting (h : c.Orderly bodies size) {args : List (BitVec 32)}
    (hpoint : c.point = .selecting args) (hstep : c.audit.step bodies .selectfifo = some c'.audit)
    (hcalls : c'.calls = (c.advance c'.audit.system).1) (hpoint' : c'.point = (c.advance c'.audit.system).2) :
    Move c c' ∧ c'.audit.system.current_spe < spes := by
  have hcurrent := h.current
  obtain ⟨command, handle, hthread⟩ : ∃ command handle, c.audit.system.thread = .selectfifo command handle := by
    have hfits := h.fits
    rwa [hpoint] at hfits
  obtain ⟨t, hcontrol, hthread', hcurrent', _⟩ := System.step_outside (Audit.step_system hstep).1
  have hcounts := fun e => System.step_counts (Audit.step_system hstep).1 e
  simp only [System.column, hthread] at hcounts
  simp only [System.control, hthread, dif_pos hcurrent] at hcontrol
  cases hfree : ringHasFree (c.audit.system.spe ⟨c.audit.system.current_spe, hcurrent⟩).host.ringCTX with
  | true =>
    simp only [hfree, if_true, Option.some.injEq] at hcontrol
    subst t
    have hsame : c'.audit.system.current_spe < spes := by rwa [hcurrent']
    simp only [advance, hpoint, dif_pos hsame, hthread', if_true] at hcalls hpoint'
    refine ⟨.select hpoint hpoint' hcalls hthread' fun e => ?_, hsame⟩
    have hat : e = ⟨c'.audit.system.current_spe, hsame⟩ ↔
        (e : Nat) = c.audit.system.current_spe ∧ ringHasFree (c.audit.system.spe e).host.ringCTX = true := by
      constructor
      · rintro rfl
        refine ⟨hcurrent', ?_⟩
        simpa only [hcurrent'] using hfree
      · rintro ⟨heq, _⟩
        exact Fin.ext (heq.trans hcurrent'.symm)
    rw [counts, hcounts e]
    simp only [hat]
    split <;> rfl
  | false =>
    simp only [hfree, Bool.false_eq_true, if_false, Option.some.injEq] at hcontrol
    subst t
    have hsame : c'.audit.system.current_spe < spes := by
      simp only [hcurrent', cyclic.next]
      split <;> omega
    have hbusy : ¬ c'.audit.system.thread = .idle := by
      rw [hthread']
      simp
    simp only [advance, hpoint, dif_pos hsame, if_neg hbusy] at hcalls hpoint'
    have hfull : ∀ e : Fin spes, e = c.audit.system.current_spe →
        ringHasFree (c.audit.system.spe e).host.ringCTX = false := by
      intro e he
      obtain rfl : e = ⟨c.audit.system.current_spe, hcurrent⟩ := Fin.ext he
      exact hfree
    refine ⟨.full hpoint hpoint' hcalls (hthread'.trans hthread.symm) hfull (funext fun e => ?_), hsame⟩
    rw [counts, hcounts e, if_neg]
    · rfl
    · rintro ⟨he, hsome⟩
      rw [hfull e he] at hsome
      cases hsome

/-- One test of the scan of `fifoIsEmpty`. -/
theorem Orderly.move_scanning (h : c.Orderly bodies size) (hpoint : c.point = .scanning)
    (hstep : c.audit.step bodies .scan = some c'.audit) (hcalls : c'.calls = (c.advance c'.audit.system).1)
    (hpoint' : c'.point = (c.advance c'.audit.system).2) : Move c c' ∧ c'.audit.system.current_spe < spes := by
  obtain ⟨i, hthread⟩ : ∃ i, c.audit.system.thread = .fifoIsEmpty i := by
    have hfits := h.fits
    rwa [hpoint] at hfits
  obtain ⟨t, hcontrol, hthread', hcurrent', _, hisEmpty⟩ := System.step_outside (Audit.step_system hstep).1
  have hcounts : c'.counts = c.counts := counts_of_none (fun _ => rfl) hstep
  simp only [System.control, hthread] at hcontrol
  by_cases hi : i < spes
  · cases hremaining : ringHasRemaining (c.audit.system.spe ⟨i, hi⟩).host.ringCTX with
    | true =>
      simp only [dif_pos hi, hremaining, if_true, Option.some.injEq] at hcontrol
      subst t
      simp [advance, hpoint, hthread', hisEmpty] at hcalls hpoint'
      exact ⟨.remaining hpoint hthread hi hremaining hpoint' hcalls hthread' hcounts, hcurrent' ▸ h.current⟩
    | false =>
      simp only [dif_pos hi, hremaining, Bool.false_eq_true, if_false, Option.some.injEq] at hcontrol
      subst t
      simp [advance, hpoint, hthread'] at hcalls hpoint'
      exact ⟨.passed hpoint hthread hi hremaining hpoint' hcalls hthread' hcounts, hcurrent' ▸ h.current⟩
  · simp only [dif_neg hi, Option.some.injEq] at hcontrol
    subst t
    simp [advance, hpoint, hthread', hisEmpty] at hcalls hpoint'
    exact ⟨.empty hpoint hthread (by omega) hpoint' hcalls hthread' hcounts, hcurrent' ▸ h.current⟩

/-- Filling a task and kicking it. -/
theorem Orderly.move_adding (h : c.Orderly bodies size) {spe : Fin spes} {args : List (BitVec 32)}
    (hpoint : c.point = .adding spe args) (hstep : stutter (Audit.step bodies) c.audit c.event = some c'.audit)
    (hcalls : c'.calls = (c.advance c'.audit.system).1) (hpoint' : c'.point = (c.advance c'.audit.system).2) :
    Move c c' ∧ c'.audit.system.current_spe < spes := by
  have hidle : c.audit.system.thread = .idle := by
    have hfits := h.fits
    rwa [hpoint] at hfits
  cases args with
  | nil =>
    simp only [event, hpoint, stutter] at hstep
    obtain ⟨t, hcontrol, hthread', hcurrent', _⟩ := System.step_outside (Audit.step_system hstep).1
    simp only [System.control, hidle, if_true, Option.some.injEq] at hcontrol
    subst t
    simp only [advance, hpoint] at hcalls hpoint'
    refine ⟨.kick hpoint hpoint' hcalls hthread' fun e => ?_, hcurrent' ▸ h.current⟩
    rw [counts, System.step_counts (Audit.step_system hstep).1 e, System.column]
    split <;> rfl
  | cons arg args =>
    simp only [event, hpoint, stutter] at hstep
    obtain ⟨t, hcontrol, hthread', hcurrent', _⟩ := System.step_outside (Audit.step_system hstep).1
    simp only [System.control, hidle, if_true, Option.some.injEq] at hcontrol
    subst t
    simp only [advance, hpoint] at hcalls hpoint'
    refine ⟨.add hpoint hpoint' hcalls (hthread'.trans hidle) (funext fun e => ?_), hcurrent' ▸ h.current⟩
    rw [counts, System.step_counts (Audit.step_system hstep).1 e, System.column]
    split <;> rfl

/-- Making the next call. -/
theorem Orderly.move_between (h : c.Orderly bodies size) (hpoint : c.point = .between) (hbusy : c.finished = false)
    (hstep : stutter (Audit.step bodies) c.audit c.event = some c'.audit)
    (hcalls : c'.calls = (c.advance c'.audit.system).1) (hpoint' : c'.point = (c.advance c'.audit.system).2) :
    Move c c' ∧ c'.audit.system.current_spe < spes := by
  have hidle : c.audit.system.thread = .idle := by
    have hfits := h.fits
    rwa [hpoint] at hfits
  have hcurrent : cyclic.next spes c.audit.system.current_spe < spes := by
    have := h.current
    unfold cyclic.next
    split <;> omega
  cases hlist : c.calls with
  | nil => simp [finished, hpoint, hlist] at hbusy
  | cons call calls =>
    cases call with
    | fifoNoop | fifo_addition adds =>
      simp only [event, hpoint, hlist, stutter] at hstep
      obtain ⟨t, hcontrol, hthread', hcurrent', _⟩ := System.step_outside (Audit.step_system hstep).1
      simp only [System.control, hidle, if_true, Option.some.injEq] at hcontrol
      subst t
      simp only [advance, hpoint, hlist] at hcalls hpoint'
      refine ⟨.begin hpoint (hcalls ▸ hlist) rfl hpoint' hthread' (counts_of_none (fun _ => rfl) hstep) rfl, ?_⟩
      rw [hcurrent']
      exact hcurrent
    | whileNotEmpty =>
      simp only [event, hpoint, hlist, stutter] at hstep
      obtain ⟨t, hcontrol, hthread', hcurrent', _⟩ := System.step_outside (Audit.step_system hstep).1
      simp only [System.control, hidle, if_true, Option.some.injEq] at hcontrol
      subst t
      simp only [advance, hpoint, hlist] at hcalls hpoint'
      exact ⟨.scan hpoint hlist (hcalls.trans hlist.symm) hpoint' hthread' (counts_of_none (fun _ => rfl) hstep),
        hcurrent' ▸ h.current⟩
    | fifoWait =>
      simp only [event, hpoint, hlist, stutter, Option.some.injEq] at hstep
      simp only [advance, hpoint, hlist] at hcalls hpoint'
      exact ⟨.wait hpoint (hcalls ▸ hlist) hpoint' hstep.symm, hstep ▸ h.current⟩

theorem Orderly.move (h : c.Orderly bodies size) (hstep : c.step bodies .thread = some c') :
    Move c c' ∧ c'.audit.system.current_spe < spes := by
  obtain ⟨hbusy, haudit, hcalls, hpoint'⟩ := step_thread hstep
  cases hpoint : c.point with
  | between => exact h.move_between hpoint hbusy haudit hcalls hpoint'
  | selecting args =>
    rw [event, hpoint] at haudit
    exact h.move_selecting hpoint haudit hcalls hpoint'
  | adding spe args => exact h.move_adding hpoint haudit hcalls hpoint'
  | kicking =>
    obtain ⟨spe, hthread⟩ : ∃ spe, c.audit.system.thread = .fifoKick spe := by
      have hfits := h.fits
      rwa [hpoint] at hfits
    simp only [event, hpoint, stutter] at haudit
    obtain ⟨t, hcontrol, hthread', hcurrent', _⟩ := System.step_outside (Audit.step_system haudit).1
    simp only [System.control, hthread, Option.some.injEq] at hcontrol
    subst t
    simp only [advance, hpoint] at hcalls hpoint'
    refine ⟨.kicked hpoint hthread hpoint' hcalls hthread' fun e => ?_, hcurrent' ▸ h.current⟩
    rw [counts, System.step_counts (Audit.step_system haudit).1 e, System.column, hthread]
    simp only [Thread.fifoKick.injEq, eq_comm (a := spe)]
    split <;> rfl
  | scanning =>
    rw [event, hpoint] at haudit
    exact h.move_scanning hpoint haudit hcalls hpoint'
  | waiting i res =>
    simp only [event, hpoint, stutter, Option.some.injEq] at haudit
    simp only [advance, hpoint, ← haudit] at hcalls hpoint'
    refine ⟨?_, haudit ▸ h.current⟩
    by_cases hi : i < spes
    · simp only [dif_pos hi] at hcalls hpoint'
      refine .tested hpoint hi ?_ ?_ haudit.symm
      · rw [hpoint']
        split <;> rfl
      · rw [hcalls]
        split <;> rfl
    · simp only [dif_neg hi] at hcalls hpoint'
      by_cases hres : res = 0
      · subst hres
        simp only [ne_eq, not_true_eq_false, if_false] at hcalls hpoint'
        exact .waited hpoint (by omega) hpoint' hcalls haudit.symm
      · simp only [ne_eq, hres, not_false_eq_true, if_true] at hcalls hpoint'
        exact .again hpoint (by omega) hres hpoint' hcalls haudit.symm

theorem Orderly.thread (h : c.Orderly bodies size) (hsize : 0 < size) (hstep : c.step bodies .thread = some c') :
    c'.Orderly bodies size := by
  obtain ⟨hmove, hcurrent⟩ := h.move hstep
  have hsound : c'.audit.Sound bodies size := by
    obtain ⟨_, haudit⟩ | ⟨event, hevent, haudit⟩ := stutter_eq_some.mp (step_thread hstep).2.1
    · rw [haudit]
      exact h.sound
    · exact h.sound.step hsize (restrict_eq_some.mpr ⟨matched_of_keeps (h.issued hevent), haudit⟩)
  have htasks := h.tasks
  have hkicking := h.kicking
  have hfits := h.fits
  -- Outside a kick no front is left unincremented.
  have hquiet : ∀ {thread : Thread spes}, c.audit.system.thread = thread → (∀ e, thread ≠ .fifoKick e) →
      c'.counts = c.counts → (∀ e, c'.audit.system.thread ≠ .fifoKick e) →
      ∀ e, (c'.counts e).kicking = true ↔ c'.audit.system.thread = .fifoKick e := by
    intro thread hthread hno hcounts hno' e
    rw [hcounts, hkicking e, hthread]
    simp [hno e, hno' e]
  cases hmove with
  | begin hpoint hcalls hargs hpoint' hthread hcounts =>
    rw [hpoint] at hfits htasks
    refine ⟨hsound, ?_, ?_, hquiet hfits (by simp) hcounts (by simp [hthread]), hcurrent, by simp [hpoint']⟩
    · rw [hpoint']
      exact ⟨_, _, hthread⟩
    · rw [hpoint', hcounts]
      exact htasks
  | full hpoint hpoint' hcalls hthread hfull hcounts =>
    rw [hpoint] at hfits htasks
    obtain ⟨command, handle, hbusy⟩ := hfits
    rw [hbusy] at hthread
    refine ⟨hsound, ?_, ?_, hquiet hbusy (by simp) hcounts (by simp [hthread]), hcurrent, by simp [hpoint']⟩
    · rw [hpoint']
      exact ⟨_, _, hthread⟩
    · rw [hpoint', hcounts]
      exact htasks
  | @select args spe hpoint hpoint' hcalls hthread hcounts =>
    rw [hpoint] at hfits htasks
    obtain ⟨command, handle, hbusy⟩ := hfits
    refine ⟨hsound, by rw [hpoint']; exact hthread, ?_, ?_, hcurrent, by simp [hpoint']⟩
    · intro e
      have hclosed := htasks e
      rw [hpoint', hcounts e]
      by_cases he : e = spe
      · simpa [he, Point.opens] using hclosed
      · simpa [he, Point.opens] using hclosed
    · intro e
      have hnot : (c.counts e).kicking = false := by
        rw [← Bool.not_eq_true, hkicking e, hbusy]
        simp
      rw [hcounts e, hthread]
      split <;> simp [hnot]
  | add hpoint hpoint' hcalls hthread hcounts =>
    rw [hpoint] at hfits htasks
    refine ⟨hsound, by rw [hpoint']; exact hthread, ?_, hquiet hfits (by simp) hcounts (by simp [hthread]), hcurrent,
      by simp [hpoint']⟩
    rw [hpoint', hcounts]
    exact htasks
  | @kick spe hpoint hpoint' hcalls hthread hcounts =>
    rw [hpoint] at hfits htasks
    refine ⟨hsound, by rw [hpoint']; exact ⟨_, hthread⟩, ?_, ?_, hcurrent, by simp [hpoint']⟩
    · intro e
      have hopen := htasks e
      rw [hpoint', hcounts e]
      by_cases he : e = spe
      · simp [he, Point.opens]
      · simpa [he, Point.opens] using hopen
    · intro e
      have hnot : (c.counts e).kicking = false := by
        rw [← Bool.not_eq_true, hkicking e, hfits]
        simp
      rw [hcounts e, hthread]
      by_cases he : e = spe
      · simp [he]
      · simp [he, hnot, Ne.symm he]
  | @kicked spe hpoint hthread hpoint' hcalls hthread' hcounts =>
    rw [hpoint] at htasks
    refine ⟨hsound, by rw [hpoint']; exact hthread', ?_, ?_, hcurrent, by simp [hpoint']⟩
    · intro e
      have hclosed := htasks e
      rw [hpoint', hcounts e]
      split
      · exact hclosed
      · exact hclosed
    · intro e
      have hother := hkicking e
      rw [hcounts e, hthread']
      rw [hthread, Thread.fifoKick.injEq] at hother
      by_cases he : e = spe
      · simp [he]
      · simpa [he, Ne.symm he] using hother
  | scan hpoint hcalls hcalls' hpoint' hthread hcounts =>
    rw [hpoint] at hfits htasks
    refine ⟨hsound, by rw [hpoint']; exact ⟨_, hthread⟩, ?_, hquiet hfits (by simp) hcounts (by simp [hthread]),
      hcurrent, fun _ => ⟨_, hcalls'.trans hcalls⟩⟩
    rw [hpoint', hcounts]
    exact htasks
  | passed hpoint hthread hi hdrained hpoint' hcalls hthread' hcounts =>
    rw [hpoint] at htasks
    refine ⟨hsound, by rw [hpoint']; exact ⟨_, hthread'⟩, ?_, hquiet hthread (by simp) hcounts (by simp [hthread']),
      hcurrent, fun _ => ?_⟩
    · rw [hpoint', hcounts]
      exact htasks
    · rw [hcalls]
      exact h.scanning hpoint
  | remaining hpoint hthread hi hremaining hpoint' hcalls hthread' hcounts
  | empty hpoint hthread hi hpoint' hcalls hthread' hcounts =>
    rw [hpoint] at htasks
    refine ⟨hsound, by rw [hpoint']; exact hthread', ?_, hquiet hthread (by simp) hcounts (by simp [hthread']),
      hcurrent, by simp [hpoint']⟩
    rw [hpoint', hcounts]
    exact htasks
  | wait hpoint hcalls hpoint' haudit | tested hpoint hi hpoint' hcalls haudit
  | again hpoint hi hres hpoint' hcalls haudit | waited hpoint hi hpoint' hcalls haudit =>
    rw [hpoint] at hfits htasks
    have hcounts : c'.counts = c.counts := by
      funext e
      rw [counts, haudit]
      rfl
    refine ⟨hsound, ?_, ?_, ?_, hcurrent, by simp [hpoint']⟩
    · rw [hpoint', haudit]
      exact hfits
    · rw [hpoint', hcounts]
      exact htasks
    · rw [hcounts, haudit]
      exact hkicking

theorem exists_audit {event : Event spes} {t : System world spes} (hcontrol : c.audit.system.control event = some t)
    (hcolumns : ∀ e action, c.audit.system.column event e = some action →
      ∃ after, (c.audit.system.spe e).step bodies action = some after) :
    ∃ audit, c.audit.step bodies event = some audit := by
  obtain ⟨system, hsystem⟩ := System.exists_step hcontrol hcolumns
  simp only [Audit.step, hsystem]
  exact ⟨_, rfl⟩

/-- The application never gets stuck: until it is finished its thread can go on. -/
theorem Orderly.enabled (h : c.Orderly bodies size) (hbusy : c.finished = false) :
    ∃ c', c.step bodies .thread = some c' := by
  suffices haudit : ∃ audit, stutter (Audit.step bodies) c.audit c.event = some audit by
    obtain ⟨audit, haudit⟩ := haudit
    simp only [step, hbusy, haudit]
    exact ⟨_, rfl⟩
  have hfits := h.fits
  have hkicking := h.kicking
  simp only [counts, Spe.counts] at hkicking
  cases hpoint : c.point with
  | between =>
    replace hfits : c.audit.system.thread = .idle := by rwa [hpoint] at hfits
    cases hlist : c.calls with
    | nil => simp [finished, hpoint, hlist] at hbusy
    | cons call calls =>
      simp only [event, hpoint, hlist]
      cases call with
      | fifoNoop | fifo_addition adds | whileNotEmpty =>
        exact exists_audit (by rw [System.control, if_pos hfits]) (fun _ _ haction => by cases haction)
      | fifoWait => exact ⟨_, rfl⟩
  | selecting args =>
    rw [hpoint] at hfits
    obtain ⟨command, handle, hthread⟩ := hfits
    simp only [event, hpoint]
    obtain ⟨t, hcontrol⟩ : ∃ t, c.audit.system.control .selectfifo = some t := by
      simp only [System.control, hthread, dif_pos h.current]
      split <;> exact ⟨_, rfl⟩
    refine exists_audit hcontrol fun e action haction => ?_
    simp only [System.column, hthread, Option.ite_none_right_eq_some, Option.some.injEq] at haction
    obtain ⟨⟨_, hfree⟩, rfl⟩ := haction
    have hidle : (c.audit.system.spe e).kicking = false := by
      rw [← Bool.not_eq_true, hkicking e, hthread]
      simp
    exact ⟨_, Spe.step_fifoBegin.mpr ⟨⟨hidle, hfree⟩, rfl⟩⟩
  | adding spe args =>
    replace hfits : c.audit.system.thread = .idle := by rwa [hpoint] at hfits
    have hidle : ∀ e, (c.audit.system.spe e).kicking = false := by
      intro e
      rw [← Bool.not_eq_true, hkicking e, hfits]
      simp
    cases args with
    | nil =>
      simp only [event, hpoint]
      refine exists_audit (by rw [System.control, if_pos hfits]) fun e action haction => ?_
      simp only [System.column, Option.ite_none_right_eq_some, Option.some.injEq] at haction
      obtain ⟨_, rfl⟩ := haction
      exact ⟨_, Spe.step_send_front.mpr ⟨hidle e, rfl⟩⟩
    | cons arg args =>
      simp only [event, hpoint]
      refine exists_audit (by rw [System.control, if_pos hfits]) fun e action haction => ?_
      simp only [System.column, Option.ite_none_right_eq_some, Option.some.injEq] at haction
      obtain ⟨_, rfl⟩ := haction
      exact ⟨_, Spe.step_fifoAdd.mpr ⟨hidle e, rfl⟩⟩
  | kicking =>
    rw [hpoint] at hfits
    obtain ⟨spe, hthread⟩ := hfits
    simp only [event, hpoint]
    refine exists_audit (t := { c.audit.system with thread := .idle }) (by simp [System.control, hthread]) ?_
    intro e action haction
    simp only [System.column, Option.ite_none_right_eq_some, Option.some.injEq] at haction
    obtain ⟨hthread, rfl⟩ := haction
    exact ⟨_, Spe.step_closeFront.mpr ⟨(hkicking e).mpr hthread, rfl⟩⟩
  | scanning =>
    rw [hpoint] at hfits
    obtain ⟨i, hthread⟩ := hfits
    simp only [event, hpoint]
    obtain ⟨t, hcontrol⟩ : ∃ t, c.audit.system.control .scan = some t := by
      simp only [System.control, hthread]
      split
      · split <;> exact ⟨_, rfl⟩
      · exact ⟨_, rfl⟩
    exact exists_audit hcontrol (fun _ _ haction => by cases haction)
  | waiting i res =>
    simp only [event, hpoint]
    exact ⟨_, rfl⟩

theorem Orderly.step (h : c.Orderly bodies size) (hsize : 0 < size) {turn : Turn spes}
    (hstep : c.step bodies turn = some c') : c'.Orderly bodies size := by
  cases turn with
  | thread => exact h.thread hsize hstep
  | machine event =>
    obtain ⟨hevent, haudit, heq⟩ := step_machine hstep
    rw [heq]
    exact h.machine hsize hevent haudit

/-- The event of the system that a turn stands for. -/
def label (c : Client world spes) : Turn spes → Option (Event spes)
  | .thread => c.event
  | .machine event => some event

/-- Seen from the system, each turn is an idle step or an event that the discipline
allows. -/
theorem Orderly.label (h : c.Orderly bodies size) {turn : Turn spes} (hstep : c.step bodies turn = some c') :
    (c.label turn = none ∧ c'.audit = c.audit) ∨
      ∃ event, c.label turn = some event ∧ c.audit.system.keeps Spe.issued event = true ∧
        c.audit.step bodies event = some c'.audit := by
  cases turn with
  | thread =>
    obtain ⟨hnone, haudit⟩ | ⟨event, hevent, haudit⟩ := stutter_eq_some.mp (step_thread hstep).2.1
    · exact .inl ⟨hnone, haudit⟩
    · exact .inr ⟨event, hevent, h.issued hevent, haudit⟩
  | machine event =>
    obtain ⟨hevent, haudit, _⟩ := step_machine hstep
    exact .inr ⟨event, rfl, machine_issued hevent, haudit⟩

/-- The events of the system that some turns stand for, one after another. -/
def labels (bodies : TaskBodies world) : Client world spes → List (Turn spes) → List (Event spes)
  | _, [] => []
  | c, turn :: turns =>
    match c.step bodies turn with
    | none => []
    | some c' => (c.label turn).toList ++ labels bodies c' turns

/-- So a run of the application is a run of the system over just these events. -/
theorem Orderly.labels (h : c.Orderly bodies size) (hsize : 0 < size) {turns : List (Turn spes)}
    (hrun : Reaches (Client.step bodies) c turns c') :
    Reaches (restrict (System.keeps Spe.issued) (System.step bodies)) c.audit.system (Client.labels bodies c turns)
      c'.audit.system := by
  induction turns generalizing c with
  | nil =>
    obtain rfl := reaches_nil.mp hrun
    exact reaches_nil.mpr rfl
  | cons turn turns ih =>
    obtain ⟨middle, hstep, hrest⟩ := reaches_cons.mp hrun
    have hlater := ih (h.step hsize hstep) hrest
    simp only [Client.labels, hstep]
    obtain ⟨hnone, hsame⟩ | ⟨event, hevent, hissued, haudit⟩ := h.label hstep
    · rwa [hnone, Option.toList_none, List.nil_append, ← hsame]
    · rw [hevent, Option.toList_some, List.singleton_append]
      exact reaches_cons.mpr ⟨_, restrict_eq_some.mpr ⟨hissued, (Audit.step_system haudit).1⟩, hlater⟩

/-- The tasks that some calls issue. -/
def taskCalls (calls : List Call) : Nat := calls.countP (·.args.isSome)

/-- The tasks begun, those of the calls to be made, and the one that waits for a slot. -/
def issuedTasks (c : Client world spes) : Nat :=
  ∑ e, (c.counts e).begun + taskCalls c.calls + c.point.pending

/-- No task is lost and none is issued twice. -/
theorem Orderly.issuedTasks_eq (h : c.Orderly bodies size) {turn : Turn spes} (hstep : c.step bodies turn = some c') :
    c'.issuedTasks = c.issuedTasks := by
  cases turn with
  | machine event =>
    obtain ⟨hevent, haudit, heq⟩ := step_machine hstep
    have hbegun : ∀ e, (c'.counts e).begun = (c.counts e).begun := by
      intro e
      rw [counts]
      obtain hsame | hless := machine_counts hevent haudit e
      · rw [hsame]
      · rw [hless]
    simp only [issuedTasks, hbegun]
    rw [heq]
  | thread =>
    have hsame : ∀ {c' : Client world spes}, c'.counts = c.counts →
        ∑ e, (c'.counts e).begun = ∑ e, (c.counts e).begun := fun heq => by rw [heq]
    cases (h.move hstep).1 with
    | begin hpoint hcalls hargs hpoint' hthread hcounts =>
      simp only [issuedTasks, hsame hcounts, hpoint, hpoint', hcalls, taskCalls, List.countP_cons, hargs, Point.pending]
      simp
      omega
    | full hpoint hpoint' hcalls hthread hfull hcounts =>
      simp only [issuedTasks, hsame hcounts, hpoint, hpoint', hcalls, Point.pending]
    | @select args spe hpoint hpoint' hcalls hthread hcounts =>
      have hone : ∀ e, (c'.counts e).begun = (c.counts e).begun + if e = spe then 1 else 0 := by
        intro e
        rw [hcounts e]
        split <;> rfl
      simp only [issuedTasks, hone, Finset.sum_add_distrib, Finset.sum_ite_eq', Finset.mem_univ, if_true, hpoint,
        hpoint', hcalls, Point.pending]
      omega
    | add hpoint hpoint' hcalls hthread hcounts =>
      simp only [issuedTasks, hsame hcounts, hpoint, hpoint', hcalls, Point.pending]
    | kick hpoint hpoint' hcalls hthread hcounts | kicked hpoint hthread hpoint' hcalls hthread' hcounts =>
      have hbegun : ∀ e, (c'.counts e).begun = (c.counts e).begun := by
        intro e
        rw [hcounts e]
        split <;> rfl
      simp only [issuedTasks, hbegun, hpoint, hpoint', hcalls, Point.pending]
    | scan hpoint hcalls hcalls' hpoint' hthread hcounts =>
      simp only [issuedTasks, hsame hcounts, hpoint, hpoint', hcalls', Point.pending]
    | passed hpoint hthread hi hdrained hpoint' hcalls hthread' hcounts =>
      simp only [issuedTasks, hsame hcounts, hpoint, hpoint', hcalls, Point.pending]
    | remaining hpoint hthread hi hremaining hpoint' hcalls hthread' hcounts =>
      simp only [issuedTasks, hsame hcounts, hpoint, hpoint', hcalls, Point.pending]
    | empty hpoint hthread hi hpoint' hcalls hthread' hcounts =>
      obtain ⟨calls, hlist⟩ := h.scanning hpoint
      simp [issuedTasks, hsame hcounts, hpoint, hpoint', hcalls, hlist, taskCalls, Call.args, Point.pending]
    | wait hpoint hcalls hpoint' haudit =>
      simp [issuedTasks, counts, haudit, hpoint, hpoint', hcalls, taskCalls, Call.args, Point.pending]
    | tested hpoint hi hpoint' hcalls haudit =>
      simp only [issuedTasks, counts, haudit, hpoint, hpoint', hcalls, Point.pending]
    | again hpoint hi hres hpoint' hcalls haudit =>
      simp only [issuedTasks, counts, haudit, hpoint, hpoint', hcalls, Point.pending]
    | waited hpoint hi hpoint' hcalls haudit =>
      simp only [issuedTasks, counts, haudit, hpoint, hpoint', hcalls, Point.pending]

/-- An application that issues its tasks whole, in whatever order and with whatever waits
between them. Each of its runs, however the SPUs, the transfers and the monitor get in
between, is a run, over the events of its own turns, of the discipline under which the
slots stay isolated; it never gets stuck; and each of its task calls has been begun once or
is yet to be made. -/
theorem issues_whole_tasks (hsize : 2 ≤ size) (hspes : 0 < spes) (bodies : TaskBodies world)
    (memory : Fin spes → Memory world) (calls : List Call) (turns : List (Turn spes)) (c : Client world spes)
    (hrun : Reaches (step bodies) (.init memory size calls) turns c) :
    Reaches (restrict (System.keeps Spe.issued) (System.step bodies)) (.init memory size)
        (labels bodies (.init memory size calls) turns) c.audit.system ∧
      (c.finished = false → ∃ c', c.step bodies .thread = some c') ∧
      ∑ e, (c.audit.system.spe e).log.begun.length + taskCalls c.calls +
        c.point.pending = taskCalls calls := by
  have hpos : 0 < size := by omega
  have hinit : (Client.init memory size calls).Orderly bodies size := .init bodies memory calls hpos hspes
  have hinv : c.Orderly bodies size ∧ c.issuedTasks = taskCalls calls := by
    refine hrun.invariant (I := fun c => c.Orderly bodies size ∧ c.issuedTasks = taskCalls calls) ⟨hinit, ?_⟩ ?_
    · simp [issuedTasks, Client.init, counts, Spe.counts, Audit.init, System.init, Spe.init, Point.pending]
    · rintro before turn after ⟨horderly, htasks⟩ hstep
      exact ⟨horderly.step hpos hstep, (horderly.issuedTasks_eq hstep).trans htasks⟩
  exact ⟨hinit.labels hpos hrun, hinv.1.enabled, hinv.2⟩

theorem issues_whole_tasks_addition : ∃ c : Client Unit 1,
    Reaches (step Spe.idleBodies) (.init (fun _ => Spe.zeroed) 2 [.fifo_addition 3]) (List.replicate 7 .thread) c ∧
      c.finished = true ∧ ∑ e, (c.audit.system.spe e).log.begun.length + taskCalls c.calls +
        c.point.pending = taskCalls [.fifo_addition 3] := by
  have hvalue : ((List.replicate 7 Turn.thread).foldlM (step Spe.idleBodies)
      (.init (fun _ : Fin 1 => Spe.zeroed) 2 [.fifo_addition 3])).map finished = some true := by decide +kernel
  obtain ⟨c, hrun, hfinished⟩ := exists_reaches_of_observe hvalue
  exact ⟨c, hrun, hfinished,
    (issues_whole_tasks (by decide) (by decide) Spe.idleBodies (fun _ => Spe.zeroed) _ _ c hrun).2.2⟩

end Client

end speutils.fifo
