import SpeUtils.Fifo.Matched
import SpeUtils.Fifo.Slots
import SpeUtils.Fifo.System

open cyclic run speutils.ring speutils.taskmanager

namespace speutils.fifo

namespace HostSpe

/-- `fifoBegin` stores the first two words of the slot it opens. -/
theorem fifoBegin_task_fifo (host : HostSpe) (command handle : BitVec 32) :
    (host.fifoBegin command handle).fifos.task_fifo =
      Function.update (Function.update host.fifos.task_fifo (host.beginSlot * (TASK_SIZE / 4)) command)
        (host.beginSlot * (TASK_SIZE / 4) + 1) handle := by
  unfold fifoBegin beginSlot
  split <;> rfl

theorem fifoBegin_entry (host : HostSpe) (command handle : BitVec 32) :
    (host.fifoBegin command handle).entry_p = host.beginSlot * (TASK_SIZE / 4) ∧
      (host.fifoBegin command handle).entry_count = 2 := by
  unfold fifoBegin beginSlot
  split <;> exact ⟨rfl, rfl⟩

theorem fifoAdd_entry (host : HostSpe) (arg : BitVec 32) :
    (host.fifoAdd arg).entry_p = host.entry_p ∧
      (host.fifoAdd arg).entry_count =
        if host.entry_count + 1 ≠ TASK_SIZE / 4 then host.entry_count + 1 else host.entry_count := by
  unfold fifoAdd
  split <;> exact ⟨rfl, rfl⟩

end HostSpe

namespace Spe

variable {world : Type}

/-- Each task is issued as a begin, some additions and a kick, with nothing else open
on its SPE. -/
def issued (s : Spe world) : Action → Bool
  | .fifoBegin _ _ => s.log.kicked = s.log.begun.length
  | .fifoAdd _ | .send_front => s.log.kicked < s.log.begun.length
  | .fifoRegisterProgram _ _ => false
  | .closeFront | .runStage | .arrive _ | .reclaim => true

/-- The slot of the open task. -/
def openSlot (s : Spe world) : Option Nat :=
  if s.log.kicked < s.log.begun.length then s.log.begun.getLast? else none

/-- The word addresses that an action of the host stores to. -/
def stores (s : Spe world) : Action → List Nat
  | .fifoBegin _ _ =>
    let slot := s.host.beginSlot * (TASK_SIZE / 4)
    [slot, slot + 1]
  | .fifoAdd _ =>
    if s.host.entry_count + 1 ≠ TASK_SIZE / 4 then [s.host.entry_p + s.host.entry_count] else []
  | .fifoRegisterProgram _ _ =>
    let slot := ringGetFront s.host.ringCTX * (TASK_SIZE / 4)
    [slot, slot + 1, slot + 2, slot + 3]
  | .send_front | .closeFront | .runStage | .arrive _ | .reclaim => []

section Frame

variable {bodies : TaskBodies world} {s s' : Spe world} {action : Action}

theorem matched_of_issued (hissued : s.issued action = true) : s.matched action = true := by
  cases action with
  | fifoBegin command handle | send_front => exact hissued
  | fifoRegisterProgram addr bytes => cases hissued
  | fifoAdd arg | closeFront | runStage | arrive index | reclaim => rfl

/-- No step of any party changes a task word that it does not store to. -/
theorem step_task_fifo (hstep : s.step bodies action = some s') {address : Nat}
    (haddress : address ∉ s.stores action) :
    s'.host.fifos.task_fifo address = s.host.fifos.task_fifo address := by
  cases action with
  | fifoBegin command handle =>
    obtain ⟨_, rfl⟩ := step_fifoBegin.mp hstep
    simp only [stores, List.mem_cons, List.not_mem_nil, or_false, not_or] at haddress
    simp only [HostSpe.fifoBegin_task_fifo]
    rw [Function.update_of_ne haddress.2, Function.update_of_ne haddress.1]
  | fifoAdd arg =>
    obtain ⟨_, rfl⟩ := step_fifoAdd.mp hstep
    simp only [stores] at haddress
    simp only [HostSpe.fifoAdd]
    split
    · rename_i hroom
      rw [if_pos hroom, List.mem_singleton] at haddress
      exact Function.update_of_ne haddress _ _
    · rfl
  | fifoRegisterProgram addr bytes =>
    obtain ⟨_, rfl⟩ := step_fifoRegisterProgram.mp hstep
    simp only [stores, List.mem_cons, List.not_mem_nil, or_false, not_or] at haddress
    obtain ⟨h0, h1, h2, h3⟩ := haddress
    exact (Function.update_of_ne h3 _ _).trans ((Function.update_of_ne h2 _ _).trans
      ((Function.update_of_ne h1 _ _).trans (Function.update_of_ne h0 _ _)))
  | send_front =>
    obtain ⟨_, rfl⟩ := step_send_front.mp hstep
    rfl
  | closeFront =>
    obtain ⟨_, rfl⟩ := step_closeFront.mp hstep
    rfl
  | runStage =>
    obtain rfl := step_runStage.mp hstep
    rw [(runStage_host bodies (s.spu, s.host.fifos)).2]
  | arrive index =>
    obtain ⟨m, harrive, rfl⟩ := step_arrive.mp hstep
    rw [(arrive_kept harrive).task_fifo]
  | reclaim =>
    obtain ⟨_, rfl⟩ := step_reclaim.mp hstep
    rfl

end Frame

/-- An SPE on which tasks are issued one by one: the next word of an open task goes
behind its first two into its own slot, and the slots of kicked tasks hold what was
kicked until they are reclaimed. -/
structure Slotted (size : Nat) (s : Spe world) : Prop where
  matched : s.Matched size
  entry_p : s.log.kicked < s.log.begun.length →
    s.host.entry_p = s.log.kicked % size * (TASK_SIZE / 4)
  entry_count : s.log.kicked < s.log.begun.length →
    2 ≤ s.host.entry_count ∧ s.host.entry_count < TASK_SIZE / 4
  kept : ∀ i kick, s.log.kicks[i]? = some kick → s.log.reclaimed.length ≤ i →
    s.host.fifos.task (i % size) = kick.2

section Slots

variable {size : Nat} {bodies : TaskBodies world} {s s' : Spe world} {action : Action}

theorem Matched.beginSlot_eq (h : s.Matched size) (hsize : 0 < size) (hidle : s.kicking = false)
    (hclosed : s.log.kicked = s.log.begun.length) : s.host.beginSlot = s.log.kicked % size := by
  have hhost := h.inv.host
  rw [hidle] at hhost
  rw [hclosed]
  exact (hhost.openPosition hsize).front_eq

/-- The words that a call stores lie in the slot after the last task kicked. -/
theorem Slotted.stores_slot (h : s.Slotted size) (hsize : 0 < size) (hissued : s.issued action = true)
    (hstep : s.step bodies action = some s') {address : Nat} (haddress : address ∈ s.stores action) :
    s.log.kicked % size * (TASK_SIZE / 4) ≤ address ∧
      address < s.log.kicked % size * (TASK_SIZE / 4) + TASK_SIZE / 4 := by
  have hwords : TASK_SIZE / 4 = 32 := rfl
  cases action with
  | fifoBegin command handle =>
    obtain ⟨⟨hidle, _⟩, _⟩ := step_fifoBegin.mp hstep
    have hslot := h.matched.beginSlot_eq hsize hidle (of_decide_eq_true hissued)
    simp only [stores, hslot, List.mem_cons, List.not_mem_nil, or_false] at haddress
    omega
  | fifoAdd arg =>
    have hopen : s.log.kicked < s.log.begun.length := of_decide_eq_true hissued
    have hcount := h.entry_count hopen
    simp only [stores, h.entry_p hopen] at haddress
    split at haddress
    · rw [List.mem_singleton] at haddress
      omega
    · cases haddress
  | fifoRegisterProgram addr bytes => cases hissued
  | send_front | closeFront | runStage | arrive index | reclaim => cases haddress

/-- No step changes the words of a kicked task that is not reclaimed. -/
theorem Slotted.task_kept (h : s.Slotted size) (hsize : 0 < size) (hissued : s.issued action = true)
    (hstep : s.step bodies action = some s') {i : Nat} (hkicked : i < s.log.kicked)
    (hreclaimed : s.log.reclaimed.length ≤ i) :
    s'.host.fifos.task (i % size) = s.host.fifos.task (i % size) := by
  have hchain := h.matched.inv.chain
  have hslot : i % size ≠ s.log.kicked % size := by
    intro heq
    have := eq_of_mod_eq (by omega : i ≤ s.log.kicked) (by omega) heq
    omega
  funext word
  refine step_task_fifo hstep ?_
  intro haddress
  have hinside := h.stores_slot hsize hissued hstep haddress
  rw [show TASK_SIZE / 4 = 32 from rfl] at hinside
  have hword := word.isLt
  generalize i % size = slot at *
  generalize s.log.kicked % size = other at *
  omega

theorem Slotted.init (memory : Memory world) (hsize : 0 < size) : Slotted size (.init memory size) where
  matched := .init memory hsize
  entry_p := fun hopen => absurd hopen (Nat.lt_irrefl 0)
  entry_count := fun hopen => absurd hopen (Nat.lt_irrefl 0)
  kept := fun i kick hkick => by simp [Spe.init] at hkick

theorem Slotted.lt_kicked (h : s.Slotted size) {i : Nat} {kick : Nat × Task}
    (hkick : s.log.kicks[i]? = some kick) : i < s.log.kicked := by
  rw [← h.matched.oneOpen.length_kicks]
  exact (List.getElem?_eq_some_iff.mp hkick).1

/-- A step that is no kick keeps the slots when it leaves the entry pointer where the
next word belongs. -/
theorem Slotted.of_kicks (h : s.Slotted size) (hsize : 0 < size) (hissued : s.issued action = true)
    (hstep : s.step bodies action = some s') (hkicked : s'.log.kicked = s.log.kicked)
    (hkicks : s'.log.kicks = s.log.kicks) (hreclaimed : s.log.reclaimed.length ≤ s'.log.reclaimed.length)
    (hentry : s.log.kicked < s'.log.begun.length →
      s'.host.entry_p = s.log.kicked % size * (TASK_SIZE / 4) ∧
        2 ≤ s'.host.entry_count ∧ s'.host.entry_count < TASK_SIZE / 4) : s'.Slotted size := by
  refine ⟨h.matched.step hsize (matched_of_issued hissued) hstep, ?_, ?_, ?_⟩
  · rw [hkicked]
    exact fun hopen => (hentry hopen).1
  · rw [hkicked]
    exact fun hopen => (hentry hopen).2
  · intro i kick hkick hle
    rw [hkicks] at hkick
    rw [h.task_kept hsize hissued hstep (h.lt_kicked hkick) (by omega), h.kept i kick hkick (by omega)]

theorem Slotted.step (h : s.Slotted size) (hsize : 0 < size) (hissued : s.issued action = true)
    (hstep : s.step bodies action = some s') : s'.Slotted size := by
  have hentry : s.log.kicked < s.log.begun.length →
      s.host.entry_p = s.log.kicked % size * (TASK_SIZE / 4) ∧
        2 ≤ s.host.entry_count ∧ s.host.entry_count < TASK_SIZE / 4 :=
    fun hopen => ⟨h.entry_p hopen, h.entry_count hopen⟩
  cases action with
  | fifoBegin command handle =>
    obtain ⟨⟨hidle, _⟩, rfl⟩ := step_fifoBegin.mp hstep
    obtain ⟨hpointer, hcount⟩ := s.host.fifoBegin_entry command handle
    rw [h.matched.beginSlot_eq hsize hidle (of_decide_eq_true hissued)] at hpointer
    refine h.of_kicks hsize hissued hstep rfl rfl (Nat.le_refl _) ?_
    intro _
    simp only [hpointer, hcount]
    exact ⟨trivial, by decide⟩
  | fifoAdd arg =>
    obtain ⟨_, rfl⟩ := step_fifoAdd.mp hstep
    obtain ⟨hpointer, hcount⟩ := s.host.fifoAdd_entry arg
    refine h.of_kicks hsize hissued hstep rfl rfl (Nat.le_refl _) ?_
    intro hopen
    obtain ⟨hbefore, hlow, hhigh⟩ := hentry hopen
    rw [hpointer, hcount]
    refine ⟨hbefore, ?_⟩
    split <;> omega
  | send_front =>
    have hmatched := h.matched.step hsize (matched_of_issued hissued) hstep
    have hkept := fun i hkicked hle => h.task_kept (i := i) hsize hissued hstep hkicked hle
    obtain ⟨hidle, rfl⟩ := step_send_front.mp hstep
    have hclosed : ¬ s.log.begun.length < s.log.begun.length := Nat.lt_irrefl _
    refine ⟨hmatched, fun hopen => absurd hopen hclosed, fun hopen => absurd hopen hclosed, ?_⟩
    intro i kick hkick hle
    simp only [Ledger.kick, List.getElem?_append] at hkick
    split at hkick
    · exact (hkept i (h.lt_kicked hkick) hle).trans (h.kept i kick hkick hle)
    · -- The task just kicked: its words were recorded out of the slot itself.
      rw [List.getElem?_singleton] at hkick
      split at hkick
      · have hfront := (h.matched.frontPosition hidle).front_eq
        have hlength := h.matched.oneOpen.length_kicks
        obtain rfl := Option.some.inj hkick
        rw [show i = s.log.kicked by omega, ← hfront]
        rfl
      · cases hkick
  | closeFront =>
    obtain ⟨_, rfl⟩ := step_closeFront.mp hstep
    exact h.of_kicks hsize hissued hstep rfl rfl (Nat.le_refl _) hentry
  | fifoRegisterProgram addr bytes => cases hissued
  | runStage =>
    obtain ⟨hbegun, hkicked, hkicks⟩ := s.log.stage_kicks (s.spu, s.host.fifos)
    have hreclaimed := s.log.stage_reclaimed (s.spu, s.host.fifos)
    obtain rfl := step_runStage.mp hstep
    refine h.of_kicks hsize hissued hstep hkicked hkicks (Nat.le_of_eq (by rw [hreclaimed])) ?_
    rw [hbegun]
    exact hentry
  | arrive index =>
    obtain ⟨m, _, rfl⟩ := step_arrive.mp hstep
    exact h.of_kicks hsize hissued hstep rfl rfl (Nat.le_refl _) hentry
  | reclaim =>
    obtain ⟨_, rfl⟩ := step_reclaim.mp hstep
    exact h.of_kicks hsize hissued hstep rfl rfl (by simp [Ledger.reclaim]) hentry

theorem Slotted.openSlot_eq (h : s.Slotted size)
    (hopen : s.log.kicked < s.log.begun.length) : s.openSlot = some (s.log.kicked % size) := by
  have hlast : s.log.begun.length = s.log.kicked + 1 := by
    have := h.matched.oneOpen.begun_le
    omega
  have hbegun := h.matched.inv.host.begun
  rw [hlast, walk_succ] at hbegun
  rw [openSlot, if_pos hopen, hbegun, List.getLast?_concat]

end Slots

/-- The slots of an SPE in one state: how many words an open task has, and that
kicked tasks keep their words until they are reclaimed. -/
structure Isolated (size : Nat) (s : Spe world) : Prop where
  entry_count : ∀ slot, s.openSlot = some slot → 2 ≤ s.host.entry_count ∧ s.host.entry_count ≤ TASK_SIZE / 4
  kicked : ∀ i slot words, s.log.kicks[i]? = some (slot, words) → s.log.reclaimed.length ≤ i →
    slot = i % size ∧ s.host.fifos.task slot = words

/-- What an action stores lies in the slot that is open behind it, and it changes no
other task word. -/
structure Confined (size : Nat) (stores : List Nat) (s s' : Spe world) : Prop where
  inside : ∀ address ∈ stores, ∃ slot < size, s'.openSlot = some slot ∧
    slot * (TASK_SIZE / 4) ≤ address ∧ address < slot * (TASK_SIZE / 4) + TASK_SIZE / 4
  outside : ∀ address, address ∉ stores → s'.host.fifos.task_fifo address = s.host.fifos.task_fifo address

section

variable {size : Nat} {bodies : TaskBodies world} {s s' : Spe world} {action : Action}

theorem Slotted.isolated (h : s.Slotted size) : s.Isolated size := by
  constructor
  · intro slot hslot
    have hopen : s.log.kicked < s.log.begun.length := by
      by_contra hclosed
      rw [openSlot, if_neg hclosed] at hslot
      cases hslot
    have hcount := h.entry_count hopen
    exact ⟨hcount.1, Nat.le_of_lt hcount.2⟩
  · intro i slot words hkick hle
    have hslot : slot = i % size := by
      have hwalk := congrArg (·[i]?) h.matched.oneOpen.kicks
      simpa [walk, hkick, h.lt_kicked hkick] using hwalk
    refine ⟨hslot, ?_⟩
    rw [hslot]
    exact h.kept i (slot, words) hkick hle

theorem Slotted.confined (h : s.Slotted size) (hsize : 0 < size) (hissued : s.issued action = true)
    (hstep : s.step bodies action = some s') : Confined size (s.stores action) s s' := by
  refine ⟨?_, fun address haddress => step_task_fifo hstep haddress⟩
  intro address haddress
  have hslotted := h.step hsize hissued hstep
  have hinside := h.stores_slot hsize hissued hstep haddress
  have hopened : s'.log.kicked = s.log.kicked ∧ s'.log.kicked < s'.log.begun.length := by
    cases action with
    | fifoBegin command handle =>
      obtain ⟨_, rfl⟩ := step_fifoBegin.mp hstep
      have hclosed : s.log.kicked = s.log.begun.length := of_decide_eq_true hissued
      simp [Ledger.begin, hclosed]
    | fifoAdd arg =>
      obtain ⟨_, rfl⟩ := step_fifoAdd.mp hstep
      exact ⟨rfl, of_decide_eq_true hissued⟩
    | fifoRegisterProgram addr bytes => cases hissued
    | send_front | closeFront | runStage | arrive index | reclaim => cases haddress
  refine ⟨s.log.kicked % size, Nat.mod_lt _ hsize, ?_, hinside⟩
  rw [hslotted.openSlot_eq hopened.2, hopened.1]

end

end Spe

/-- The calls on an open task. -/
inductive HostCall where
  | fifoAdd (arg : BitVec 32)
  | fifoKick
  deriving DecidableEq

namespace HostCall

/-- The whole call, with nothing in between. -/
def events {spes : Nat} (e : Fin spes) : HostCall → List (Event spes)
  | .fifoAdd arg => [.fifoAdd e arg]
  | .fifoKick => [.fifoKick e, .kicked]

/-- The whole call on the column of its SPE. -/
def perform {world : Type} (bodies : TaskBodies world) (s : Spe world) : HostCall → Option (Spe world)
  | .fifoAdd arg => s.step bodies (.fifoAdd arg)
  | .fifoKick => (s.step bodies .send_front).bind fun s => s.step bodies .closeFront

end HostCall

namespace System

variable {world : Type} {spes size : Nat} {bodies : TaskBodies world}

/-- The system with the column of one SPE replaced. -/
def withSpe (s : System world spes) (e : Fin spes) (spe : Spe world) : System world spes :=
  { s with spe := Function.update s.spe e spe }

/-- An event that acts on no SPE. -/
theorem step_nowhere {s t : System world spes} {event : Event spes} (hcontrol : s.control event = some t)
    (hspe : t.spe = s.spe) (hnone : ∀ e, s.column event e = none) : s.step bodies event = some t := by
  have hcolumn : ∀ e, s.columnStep bodies event e = some (s.spe e) := by
    intro e
    simp [columnStep, hnone e]
  have hall : ∀ e, (s.columnStep bodies event e).isSome = true := by
    intro e
    rw [hcolumn e]
    rfl
  simp only [step, hcontrol]
  rw [dif_pos hall]
  congr 1
  simp only [hcolumn, Option.get_some, ← hspe]

/-- An event that acts on a single SPE. -/
theorem step_single {s t : System world spes} {event : Event spes} {e : Fin spes} {action : Action}
    (hcontrol : s.control event = some t) (hspe : t.spe = s.spe) (hself : s.column event e = some action)
    (hothers : ∀ e' ≠ e, s.column event e' = none) :
    s.step bodies event = ((s.spe e).step bodies action).map (t.withSpe e) := by
  have hcolumn : s.columnStep bodies event e = (s.spe e).step bodies action := by
    simp [columnStep, hself]
  have hother : ∀ e' ≠ e, s.columnStep bodies event e' = some (s.spe e') := by
    intro e' hne
    simp [columnStep, hothers e' hne]
  unfold step
  simp only [hcontrol]
  cases hstep : (s.spe e).step bodies action with
  | none =>
    rw [dif_neg]
    · rfl
    · intro hall
      have hsome := hall e
      rw [hcolumn, hstep] at hsome
      cases hsome
  | some spe =>
    have hall : ∀ e', (s.columnStep bodies event e').isSome = true := by
      intro e'
      by_cases he : e' = e
      · rw [he, hcolumn, hstep]
        rfl
      · rw [hother e' he]
        rfl
    rw [dif_pos hall, Option.map_some]
    congr 2
    funext e'
    by_cases he : e' = e
    · subst he
      rw [Function.update_self]
      apply Option.get_of_mem
      rw [hcolumn, hstep]
      rfl
    · rw [Function.update_of_ne he, hspe]
      apply Option.get_of_mem
      rw [hother e' he]
      rfl

/-- A call on an open task changes the column of its SPE and nothing else. -/
theorem foldlM_call (s : System world spes) (e : Fin spes) (call : HostCall) :
    (call.events e).foldlM (step bodies) s =
      if s.thread = .idle then (call.perform bodies (s.spe e)).map (s.withSpe e) else none := by
  by_cases hidle : s.thread = .idle
  · rw [if_pos hidle]
    cases call with
    | fifoAdd arg =>
      have hsingle : s.step bodies (.fifoAdd e arg) =
          ((s.spe e).step bodies (.fifoAdd arg)).map (s.withSpe e) :=
        step_single (by simp [control, hidle]) rfl (by simp [column]) (fun e' he => by simp [column, he])
      simp only [HostCall.events, List.foldlM_cons, List.foldlM_nil, hsingle, HostCall.perform]
      exact bind_pure _
    | fifoKick =>
      let t : System world spes := { s with thread := .fifoKick e }
      have hfirst : s.step bodies (.fifoKick e) = ((s.spe e).step bodies .send_front).map (t.withSpe e) :=
        step_single (by simp [control, hidle, t]) rfl (by simp [column]) (fun e' he => by simp [column, he])
      simp only [HostCall.events, List.foldlM_cons, List.foldlM_nil, hfirst, HostCall.perform]
      cases hkick : (s.spe e).step bodies .send_front with
      | none => rfl
      | some spe =>
        -- The thread comes back from the kick, and the column is written a second time.
        have hsecond : (t.withSpe e spe).step bodies .kicked =
            (((t.withSpe e spe).spe e).step bodies .closeFront).map ((s.withSpe e spe).withSpe e) :=
          step_single (by simp [control, withSpe, hidle, t]) rfl (by simp [column, withSpe, t])
            (fun e' he => by simp [column, withSpe, t, Ne.symm he])
        simp only [Option.map_some, Option.bind_eq_bind, Option.bind_some, hsecond]
        simp only [withSpe, Function.update_self]
        cases spe.step bodies .closeFront with
        | none => rfl
        | some spe' => simp [withSpe]
  · rw [if_neg hidle]
    cases call with
    | fifoAdd arg => simp [HostCall.events, step, control, hidle]
    | fifoKick => simp [HostCall.events, step, control, hidle]

/-- A call finds its own column as it was before the column of another SPE was
replaced. -/
theorem foldlM_call_withSpe {s : System world spes} (hidle : s.thread = .idle) {e e' : Fin spes} (hne : e ≠ e')
    (spe : Spe world) (call : HostCall) :
    (call.events e).foldlM (step bodies) (s.withSpe e' spe) =
      (call.perform bodies (s.spe e)).map ((s.withSpe e' spe).withSpe e) := by
  have hthread : (s.withSpe e' spe).thread = .idle := hidle
  have hcolumn : (s.withSpe e' spe).spe e = s.spe e := Function.update_of_ne hne _ _
  rw [foldlM_call, if_pos hthread, hcolumn]

/-- Calls on open tasks of different SPEs commute in every state. -/
theorem foldlM_call_comm (s : System world spes) {e e' : Fin spes} (hne : e ≠ e') (call call' : HostCall) :
    (call.events e ++ call'.events e').foldlM (step bodies) s =
      (call'.events e' ++ call.events e).foldlM (step bodies) s := by
  rw [List.foldlM_append, List.foldlM_append, foldlM_call, foldlM_call]
  by_cases hidle : s.thread = .idle
  · simp only [if_pos hidle]
    cases hfirst : call.perform bodies (s.spe e) with
    | none =>
      cases hsecond : call'.perform bodies (s.spe e') with
      | none => rfl
      | some spe' => simp [foldlM_call_withSpe hidle hne, hfirst]
    | some spe =>
      cases hsecond : call'.perform bodies (s.spe e') with
      | none => simp [foldlM_call_withSpe hidle hne.symm, hsecond]
      | some spe' =>
        simp only [Option.map_some, Option.bind_eq_bind, Option.bind_some, foldlM_call_withSpe hidle hne,
          foldlM_call_withSpe hidle hne.symm, hfirst, hsecond]
        simp only [withSpe, Function.update_comm hne]
  · simp only [if_neg hidle]
    rfl

/-- The word addresses that an event stores to on one SPE. -/
def stores (s : System world spes) (event : Event spes) (e : Fin spes) : List Nat :=
  match s.column event e with
  | none => []
  | some action => (s.spe e).stores action

/-- Slot isolation, for every number of SPEs and in every state of a run in which each
task is issued as a begin, any additions and a kick. An open task has between 2 and
32 words, every stored word lies in the slot open on its SPE, the words of a kicked
task stay until its slot is reclaimed, and calls on different SPEs commute. -/
theorem slots_isolated (hsize : 2 ≤ size) (bodies : TaskBodies world) (memory : Fin spes → Memory world)
    (events : List (Event spes)) (s : System world spes)
    (hrun : Reaches (restrict (keeps Spe.issued) (step bodies)) (.init memory size) events s) :
    (∀ e, (s.spe e).Isolated size) ∧
    (∀ event s', restrict (keeps Spe.issued) (step bodies) s event = some s' →
      ∀ e, Spe.Confined size (s.stores event e) (s.spe e) (s'.spe e)) ∧
    (∀ (e e' : Fin spes) (call call' : HostCall), e ≠ e' →
      (call.events e ++ call'.events e').foldlM (step bodies) s =
        (call'.events e' ++ call.events e).foldlM (step bodies) s) := by
  have hpos : 0 < size := by omega
  have hslotted : ∀ e, (s.spe e).Slotted size := by
    refine fun e => reaches_invariant ?_ (fun e => .init (memory e) hpos) hrun e
    intro before after action hbefore hissued hstep
    exact hbefore.step hpos hissued hstep
  refine ⟨fun e => (hslotted e).isolated, ?_, fun e e' call call' hne => foldlM_call_comm s hne call call'⟩
  intro event s' hstep e
  obtain ⟨hkeeps, hstep⟩ := restrict_eq_some.mp hstep
  unfold stores
  obtain ⟨hnone, hsame⟩ | ⟨action, haction, hspe⟩ := step_spe hstep e
  · rw [hnone, hsame]
    refine ⟨?_, fun _ _ => rfl⟩
    intro address haddress
    cases haddress
  · rw [haction]
    exact (hslotted e).confined hpos (ok_of_keeps hkeeps haction) hspe

/-- Two tasks open at once on two SPEs, their calls interleaved. -/
def interleavedPair : List (Event 2) :=
  [.fifoBegin messages.ADD 0, .selectfifo, .fifoBegin messages.ADD 1, .selectfifo, .fifoAdd 1 5,
    .fifoAdd 0 6, .fifoKick 1, .kicked]

theorem slots_isolated_interleavedPair : ∃ s,
    Reaches (restrict (keeps Spe.issued) (step Spe.idleBodies)) (.init (fun _ => Spe.zeroed) 2)
        interleavedPair s ∧
      (s.spe 0).openSlot = some 0 ∧ (s.spe 0).host.entry_count = 3 ∧ (s.spe 1).log.kicks.length = 1 ∧
      (∀ e, (s.spe e).Isolated 2) ∧
      (HostCall.events 0 (.fifoAdd 7) ++ HostCall.events 1 .fifoKick).foldlM (step Spe.idleBodies) s =
        (HostCall.events 1 .fifoKick ++ HostCall.events 0 (.fifoAdd 7)).foldlM (step Spe.idleBodies) s := by
  have hvalue : (interleavedPair.foldlM (restrict (keeps Spe.issued) (step Spe.idleBodies))
      (.init (fun _ => Spe.zeroed) 2)).map (fun s => ((s.spe 0).openSlot, (s.spe 0).host.entry_count,
        (s.spe 1).log.kicks.length)) = some (some 0, 3, 1) := by
    decide +kernel
  obtain ⟨s, hrun, hobserved⟩ := exists_reaches_of_observe hvalue
  simp only [Prod.mk.injEq] at hobserved
  obtain ⟨hslots, _, hcommute⟩ := slots_isolated (by decide) Spe.idleBodies _ interleavedPair s hrun
  exact ⟨s, hrun, hobserved.1, hobserved.2.1, hobserved.2.2, hslots,
    hcommute 0 1 (.fifoAdd 7) .fifoKick (by decide)⟩

end System

end speutils.fifo
