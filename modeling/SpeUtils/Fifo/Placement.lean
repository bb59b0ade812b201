import SpeUtils.Fifo.Client
import SpeUtils.Fifo.Late

open run speutils.ring speutils.taskmanager speutils.messages

namespace speutils.fifo

theorem Call.length_words {call : Call} {words : List (BitVec 32)} (hwords : call.words = some words) :
    words.length ≤ 5 := by
  cases call with
  | fifoNoop | fifo_addition adds =>
    obtain rfl := Option.some.inj hwords
    simp
  | whileNotEmpty | fifoWait => cases hwords

/-- A task slot begins with some words. -/
def Begins (words : List (BitVec 32)) (task : Task) : Prop :=
  ∀ (i : Fin 32) (hi : i < words.length), task i = words.get ⟨i, hi⟩

namespace HostSpe

variable {host : HostSpe} {words : List (BitVec 32)}

/-- The slot at the front holds some words from its start on, and the next word goes behind
them. -/
def Filling (host : HostSpe) (words : List (BitVec 32)) : Prop := host.Written (ringGetFront host.ringCTX) words

theorem Filling.fifoBegin (host : HostSpe) (command handle : BitVec 32) :
    Filling (host.fifoBegin command handle) [command, handle] := by
  unfold Filling
  rw [fifoBegin_ringCTX]
  exact Written.fifoBegin host command handle

theorem Filling.fifoAdd (h : host.Filling words) (hroom : words.length + 1 ≠ TASK_SIZE / 4) (arg : BitVec 32) :
    (host.fifoAdd arg).Filling (words ++ [arg]) := by
  have hwritten := Written.fifoAdd h hroom arg
  have hring : (host.fifoAdd arg).ringCTX = host.ringCTX := by
    unfold HostSpe.fifoAdd
    split <;> rfl
  unfold Filling
  rw [hring]
  exact hwritten

theorem Filling.begins (h : host.Filling words) : Begins words (host.fifos.task (ringGetFront host.ringCTX)) :=
  fun i hi => h.task_eq i hi

end HostSpe

/-- Nobody but the application's thread touches the slot that it is filling. -/
theorem Spe.step_filling {world : Type} {bodies : TaskBodies world} {s s' : Spe world} {action : Action}
    (hother : action.ofThread = false) (hstep : s.step bodies action = some s') {words : List (BitVec 32)}
    (h : s.host.Filling words) : s'.host.Filling words := by
  cases action with
  | runStage =>
    obtain rfl := step_runStage.mp hstep
    refine ⟨h.entry_p, h.entry_count, ?_⟩
    simp only [(runStage_host bodies (s.spu, s.host.fifos)).2]
    exact h.words
  | arrive index =>
    obtain ⟨m, harrive, rfl⟩ := step_arrive.mp hstep
    refine ⟨h.entry_p, h.entry_count, ?_⟩
    simp only [(arrive_kept harrive).task_fifo]
    exact h.words
  | reclaim =>
    obtain ⟨_, rfl⟩ := step_reclaim.mp hstep
    have hfront : ringGetFront (ringIncBack s.host.ringCTX) = ringGetFront s.host.ringCTX :=
      ringIncBack_front _
    unfold HostSpe.Filling
    simp only [HostSpe.reclaim, hfront]
    exact ⟨h.entry_p, h.entry_count, h.words⟩
  | fifoBegin command handle | fifoAdd arg | send_front | closeFront | fifoRegisterProgram addr bytes => cases hother

namespace Client

variable {world : Type} {spes size : Nat} {bodies : TaskBodies world} {c c' : Client world spes}

/-- What the thread does to the column of one SPE, if anything. -/
def action (c : Client world spes) (e : Fin spes) : Option Action :=
  c.event.bind fun event => c.audit.system.column event e

/-- A step of the thread, seen from one SPE. -/
theorem thread_spe (hstep : c.step bodies .thread = some c') (e : Fin spes) :
    (c.action e = none ∧ c'.audit.system.spe e = c.audit.system.spe e) ∨
      ∃ action, c.action e = some action ∧
        (c.audit.system.spe e).step bodies action = some (c'.audit.system.spe e) := by
  obtain ⟨hnone, haudit⟩ | ⟨event, hevent, haudit⟩ := stutter_eq_some.mp (step_thread hstep).2.1
  · exact .inl ⟨by rw [action, hnone, Option.bind_none], by rw [haudit]⟩
  · rw [action, hevent, Option.bind_some]
    exact System.step_spe (Audit.step_system haudit).1 e

theorem Orderly.kicks_length (h : c.Orderly bodies size) (e : Fin spes) :
    (c.audit.system.spe e).log.kicks.length = (c.counts e).kicked := (h.sound.oneOpen e).length_kicks

/-- Where nothing is published nothing is added to the kicks. -/
theorem Orderly.kicks_eq (h : c.Orderly bodies size) (h' : c'.Orderly bodies size) {turn : Turn spes}
    (hstep : c.step bodies turn = some c') {e : Fin spes} (hsame : (c'.counts e).kicked = (c.counts e).kicked) :
    (c'.audit.system.spe e).log.kicks = (c.audit.system.spe e).log.kicks := by
  obtain ⟨_, haudit⟩ | ⟨event, _, hissued, haudit⟩ := h.label hstep
  · rw [haudit]
  · obtain ⟨_, hspe⟩ | ⟨action, haction, hspe⟩ := System.step_spe (Audit.step_system haudit).1 e
    · rw [hspe]
    · obtain ⟨_, hkicks⟩ | ⟨_, hkicks⟩ :=
        Spe.step_kicks (Spe.matched_of_issued (System.ok_of_keeps hissued haction)) hspe
      · exact hkicks
      · have hlength := congrArg List.length hkicks
        rw [h'.kicks_length, hsame, ← h.kicks_length e, List.length_append, List.length_singleton] at hlength
        omega

/-- The words of the call in progress, in the thread's hands or in the slot that it is
filling. -/
def InHand (s : System world spes) : Point spes → List (List (BitVec 32)) → Prop
  | .selecting args, current => ∃ command handle, s.thread = .selectfifo command handle ∧
      current = [command :: handle :: args]
  | .adding spe args, current => ∃ done, (s.spe spe).host.Filling done ∧ current = [done ++ args]
  | .between, current | .kicking, current | .scanning, current | .waiting _ _, current => current = []

theorem InHand.length_le {s : System world spes} {point : Point spes} {current : List (List (BitVec 32))}
    (h : InHand s point current) : current.length ≤ 1 := by
  cases point with
  | selecting args =>
    obtain ⟨_, _, _, rfl⟩ := h
    exact Nat.le_refl 1
  | adding spe args =>
    obtain ⟨_, _, rfl⟩ := h
    exact Nat.le_refl 1
  | between | kicking | scanning | waiting i res =>
    obtain rfl : current = [] := h
    exact Nat.zero_le 1

/-- The tasks `placed` on the SPEs so far, each with the words of its call: together with
the `current` one and those of the calls to be made they are the tasks of the program, and
those placed on an SPE are its kicks. -/
structure Filed (calls : List Call) (placed : List (Fin spes × List (BitVec 32)))
    (current : List (List (BitVec 32))) (c : Client world spes) : Prop where
  order : placed.map Prod.snd ++ current ++ c.calls.filterMap Call.words = calls.filterMap Call.words
  current : InHand c.audit.system c.point current
  kicks : ∀ e, List.Forall₂ (fun words kick => Begins words kick.2) ((placed.filter (·.1 = e)).map Prod.snd)
    (c.audit.system.spe e).log.kicks

namespace Filed

variable {calls : List Call} {placed : List (Fin spes × List (BitVec 32))} {current : List (List (BitVec 32))}

theorem init (memory : Fin spes → Memory world) (calls : List Call) :
    Filed calls [] [] (.init memory size calls) where
  order := rfl
  current := rfl
  kicks := fun _ => .nil

/-- The words in hand are those of a call. -/
theorem length_le (h : c.Filed calls placed current) {words : List (BitVec 32)} (hwords : words ∈ current) :
    words.length ≤ 5 := by
  have hmem : words ∈ calls.filterMap Call.words := by
    rw [← h.order]
    simp [hwords]
  obtain ⟨call, _, hcall⟩ := List.mem_filterMap.mp hmem
  exact Call.length_words hcall

/-- As long as nothing is kicked, only the thread's hands may change. -/
theorem still (h : c.Filed calls placed current) {current' : List (List (BitVec 32))}
    (hcalls : current' ++ c'.calls.filterMap Call.words = current ++ c.calls.filterMap Call.words)
    (hcurrent : InHand c'.audit.system c'.point current')
    (hkicks : ∀ e, (c'.audit.system.spe e).log.kicks = (c.audit.system.spe e).log.kicks) :
    c'.Filed calls placed current' where
  order := by rw [List.append_assoc, hcalls, ← List.append_assoc, h.order]
  current := hcurrent
  kicks := fun e => by
    rw [hkicks e]
    exact h.kicks e

theorem machine (h : c.Filed calls placed current) (horderly : c.Orderly bodies size)
    (horderly' : c'.Orderly bodies size) {event : Event spes} (hstep : c.step bodies (.machine event) = some c') :
    c'.Filed calls placed current := by
  obtain ⟨hevent, haudit, heq⟩ := step_machine hstep
  have hcalls : c'.calls = c.calls := by rw [heq]
  have hpoint : c'.point = c.point := by rw [heq]
  have hkicks : ∀ e, (c'.audit.system.spe e).log.kicks = (c.audit.system.spe e).log.kicks := by
    intro e
    refine horderly.kicks_eq horderly' hstep ?_
    rw [counts]
    obtain hsame | hless := machine_counts hevent haudit e
    · rw [hsame]
    · rw [hless]
  refine h.still (by rw [hcalls]) ?_ hkicks
  have hcurrent := h.current
  rw [hpoint]
  cases hplace : c.point with
  | selecting args =>
    rw [hplace] at hcurrent
    obtain ⟨command, handle, hthread, hwords⟩ := hcurrent
    exact ⟨command, handle, (machine_outside hevent haudit).1.trans hthread, hwords⟩
  | adding spe args =>
    rw [hplace] at hcurrent
    obtain ⟨done, hfilling, hwords⟩ := hcurrent
    refine ⟨done, ?_, hwords⟩
    obtain ⟨_, hspe⟩ | ⟨action, haction, hspe⟩ := System.step_spe (Audit.step_system haudit).1 spe
    · rw [hspe]
      exact hfilling
    · exact Spe.step_filling (System.column_of_not_ofThread hevent haction) hspe hfilling
  | between | kicking | scanning | waiting i res =>
    rw [hplace] at hcurrent
    exact hcurrent

theorem thread (h : c.Filed calls placed current) (horderly : c.Orderly bodies size)
    (horderly' : c'.Orderly bodies size) (hstep : c.step bodies .thread = some c') :
    ∃ placed' current', c'.Filed calls placed' current' := by
  have hcurrent := h.current
  have hfits := horderly.fits
  have hkicks : (∀ e, (c'.counts e).kicked = (c.counts e).kicked) →
      ∀ e, (c'.audit.system.spe e).log.kicks = (c.audit.system.spe e).log.kicks :=
    fun hsame e => horderly.kicks_eq horderly' hstep (hsame e)
  cases (horderly.move hstep).1 with
  | @begin call args command handle hpoint hcalls hargs hpoint' hthread hcounts hwords =>
    rw [hpoint] at hcurrent
    obtain rfl : current = [] := hcurrent
    refine ⟨placed, [command :: handle :: args], h.still ?_ ?_ (hkicks fun e => by rw [hcounts])⟩
    · rw [hcalls, List.filterMap_cons, hwords]
      rfl
    · rw [hpoint']
      exact ⟨command, handle, hthread, rfl⟩
  | full hpoint hpoint' hcalls hthread hfull hcounts =>
    rw [hpoint] at hcurrent
    obtain ⟨command, handle, hbusy, hwords⟩ := hcurrent
    refine ⟨placed, current, h.still (by rw [hcalls]) ?_ (hkicks fun e => by rw [hcounts])⟩
    rw [hpoint']
    exact ⟨command, handle, hthread.trans hbusy, hwords⟩
  | @select args spe hpoint hpoint' hcalls hthread hcounts =>
    rw [hpoint] at hcurrent
    obtain ⟨command, handle, hbusy, hwords⟩ := hcurrent
    have hkept : ∀ e, (c'.counts e).kicked = (c.counts e).kicked := by
      intro e
      rw [hcounts e]
      split <;> rfl
    refine ⟨placed, current, h.still (by rw [hcalls]) ?_ (hkicks hkept)⟩
    rw [hpoint']
    refine ⟨[command, handle], ?_, hwords⟩
    have haction : c.action spe = if (spe : Nat) = c.audit.system.current_spe ∧
        ringHasFree (c.audit.system.spe spe).host.ringCTX = true then some (.fifoBegin command handle) else none := by
      simp [action, event, hpoint, System.column, hbusy]
    obtain ⟨hnone, hspe⟩ | ⟨action, hsome, hspe⟩ := thread_spe hstep spe
    · have hcount := hcounts spe
      rw [counts, hspe, if_pos rfl] at hcount
      simpa [counts] using congrArg Counts.begun hcount
    · rw [haction, Option.ite_none_right_eq_some, Option.some.injEq] at hsome
      obtain ⟨_, rfl⟩ := hsome
      obtain ⟨_, hafter⟩ := Spe.step_fifoBegin.mp hspe
      rw [← hafter]
      exact .fifoBegin ..
  | @add spe arg args hpoint hpoint' hcalls hthread hcounts =>
    rw [hpoint] at hcurrent
    obtain ⟨done, hfilling, rfl⟩ := hcurrent
    have hlength := h.length_le List.mem_cons_self
    refine ⟨placed, _, h.still (by rw [hcalls]) ?_ (hkicks fun e => by rw [hcounts])⟩
    rw [hpoint']
    refine ⟨done ++ [arg], ?_, by simp⟩
    have haction : c.action spe = some (.fifoAdd arg) := by simp [action, event, hpoint, System.column]
    obtain ⟨hnone, _⟩ | ⟨action, hsome, hspe⟩ := thread_spe hstep spe
    · rw [haction] at hnone
      cases hnone
    · rw [haction] at hsome
      obtain rfl := Option.some.inj hsome
      obtain ⟨_, hafter⟩ := Spe.step_fifoAdd.mp hspe
      rw [← hafter]
      refine hfilling.fifoAdd ?_ arg
      rw [List.length_append, List.length_cons] at hlength
      simp only [TASK_SIZE]
      omega
  | @kick spe hpoint hpoint' hcalls hthread hcounts =>
    rw [hpoint] at hcurrent
    obtain ⟨done, hfilling, rfl⟩ := hcurrent
    rw [List.append_nil] at h
    refine ⟨placed ++ [(spe, done)], [], ?_, by rw [hpoint']; rfl, ?_⟩
    · rw [← h.order, hcalls]
      simp
    · intro e
      rw [List.filter_append, List.map_append]
      by_cases he : spe = e
      · subst he
        have haction : c.action spe = some .send_front := by simp [action, event, hpoint, System.column]
        obtain ⟨hnone, _⟩ | ⟨action, hsome, hspe⟩ := thread_spe hstep spe
        · rw [haction] at hnone
          cases hnone
        · rw [haction] at hsome
          obtain rfl := Option.some.inj hsome
          obtain ⟨_, hafter⟩ := Spe.step_send_front.mp hspe
          rw [← hafter, List.filter_singleton]
          simp only [decide_true, cond_true, List.map_cons, List.map_nil, Ledger.kick]
          exact List.rel_append (h.kicks spe) (.cons hfilling.begins .nil)
      · have hkept := horderly.kicks_eq horderly' hstep (e := e) (by rw [hcounts e, if_neg (Ne.symm he)])
        rw [hkept, List.filter_singleton]
        simp only [he, decide_false, cond_false, List.map_nil, List.append_nil]
        exact h.kicks e
  | @kicked spe hpoint hthread hpoint' hcalls hthread' hcounts =>
    rw [hpoint] at hcurrent
    have hkept : ∀ e, (c'.counts e).kicked = (c.counts e).kicked := by
      intro e
      rw [hcounts e]
      split <;> rfl
    refine ⟨placed, current, h.still (by rw [hcalls]) ?_ (hkicks hkept)⟩
    rw [hpoint']
    exact hcurrent
  | scan hpoint hcalls hcalls' hpoint' hthread hcounts =>
    rw [hpoint] at hcurrent
    refine ⟨placed, current, h.still (by rw [hcalls']) ?_ (hkicks fun e => by rw [hcounts])⟩
    rw [hpoint']
    exact hcurrent
  | passed hpoint hthread hi hdrained hpoint' hcalls hthread' hcounts
  | remaining hpoint hthread hi hremaining hpoint' hcalls hthread' hcounts =>
    rw [hpoint] at hcurrent
    refine ⟨placed, current, h.still (by rw [hcalls]) ?_ (hkicks fun e => by rw [hcounts])⟩
    rw [hpoint']
    exact hcurrent
  | empty hpoint hthread hi hpoint' hcalls hthread' hcounts =>
    rw [hpoint] at hcurrent
    obtain ⟨rest, hlist⟩ := horderly.scanning hpoint
    refine ⟨placed, current, h.still ?_ ?_ (hkicks fun e => by rw [hcounts])⟩
    · rw [hcalls, hlist]
      rfl
    · rw [hpoint']
      exact hcurrent
  | wait hpoint hcalls hpoint' haudit =>
    rw [hpoint] at hcurrent
    refine ⟨placed, current, h.still ?_ ?_ fun e => by rw [haudit]⟩
    · rw [hcalls]
      rfl
    · rw [hpoint']
      exact hcurrent
  | tested hpoint hi hpoint' hcalls haudit | again hpoint hi hres hpoint' hcalls haudit
  | waited hpoint hi hpoint' hcalls haudit =>
    rw [hpoint] at hcurrent
    refine ⟨placed, current, h.still (by rw [hcalls]) ?_ fun e => by rw [haudit]⟩
    rw [hpoint']
    exact hcurrent

end Filed

/-- What the application asks for is what the SPUs run, one kick late. Wherever a run
stands, the tasks of the calls made so far have each been put on one SPE, in the order of the
program, but for the one in the thread's hands: together with that one and the calls still to
be made they are the tasks of the program, and all of them are put when it is finished. Those
put on an SPE are its kicks, in that order and with the words of their calls, and under the
slot of each of them that SPU acts on the words of the one before. A monitor test with its
reclaim is one step here; `Threads.faithful_iff` says when that is exact. -/
theorem executes_calls (hsize : 2 ≤ size) (hspes : 0 < spes) (bodies : TaskBodies world)
    (memory : Fin spes → Memory world) (calls : List Call) (turns : List (Turn spes)) (c : Client world spes)
    (hrun : Reaches (step bodies) (.init memory size calls) turns c) :
    ∃ (placed : List (Fin spes × List (BitVec 32))) (current : List (List (BitVec 32))),
      placed.map Prod.snd ++ current ++ c.calls.filterMap Call.words = calls.filterMap Call.words ∧
      InHand c.audit.system c.point current ∧ current.length ≤ 1 ∧
      (c.finished = true → placed.map Prod.snd = calls.filterMap Call.words) ∧
      ∀ e, List.Forall₂ (fun words kick => Begins words kick.2) ((placed.filter (·.1 = e)).map Prod.snd)
          (c.audit.system.spe e).log.kicks ∧
        (c.audit.system.spe e).RunsLate bodies ((memory e).lastSlot size) := by
  have hpos : 0 < size := by omega
  obtain ⟨_, ⟨placed, current, hfiled⟩, htrailing⟩ : c.Orderly bodies size ∧
      (∃ placed current, c.Filed calls placed current) ∧
      ∀ e, (c.audit.system.spe e).Trailing bodies size ((memory e).lastSlot size) := by
    refine hrun.invariant
      (I := fun c => c.Orderly bodies size ∧ (∃ placed current, c.Filed calls placed current) ∧
        ∀ e, (c.audit.system.spe e).Trailing bodies size ((memory e).lastSlot size)) ?_ ?_
    · exact ⟨.init bodies memory calls hpos hspes, ⟨[], [], .init memory calls⟩,
        fun e => .init bodies (memory e) hpos⟩
    · rintro before turn after ⟨horderly, ⟨placed, current, hfiled⟩, htrailing⟩ hstep
      have horderly' := horderly.step hpos hstep
      refine ⟨horderly', ?_, ?_⟩
      · cases turn with
        | thread => exact hfiled.thread horderly horderly' hstep
        | machine event => exact ⟨placed, current, hfiled.machine horderly horderly' hstep⟩
      · intro e
        obtain ⟨_, haudit⟩ | ⟨event, _, hissued, haudit⟩ := horderly.label hstep
        · rw [haudit]
          exact htrailing e
        · exact System.step_trailing hpos (htrailing e) hissued (Audit.step_system haudit).1
  refine ⟨placed, current, hfiled.order, hfiled.current, hfiled.current.length_le, ?_,
    fun e => ⟨hfiled.kicks e, (htrailing e).runsLate⟩⟩
  · intro hfinished
    obtain ⟨hcalls, hpoint⟩ : c.calls = [] ∧ c.point = .between := by simpa [finished] using hfinished
    have hcurrent := hfiled.current
    rw [hpoint] at hcurrent
    obtain rfl : current = [] := hcurrent
    have horder := hfiled.order
    rwa [hcalls, List.append_nil, List.filterMap_nil, List.append_nil] at horder

/-- Two additions are issued on one SPE, and the SPU runs both. -/
def additionsRun : List (Turn 1) :=
  List.replicate 14 .thread ++ List.replicate 20 (.machine (.runStage (Fin.last 0)))

theorem executes_calls_additions : ∃ c : Client Unit 1,
    Reaches (step Spe.idleBodies) (.init (fun _ => Spe.zeroed) 3 [.fifo_addition 3, .fifo_addition 5])
        additionsRun c ∧
      c.finished = true ∧
      (c.audit.system.spe 0).log.executed.map (fun done => (done.1, done.2 2)) = [(0, 0), (1, 3)] ∧
      ∃ placed : List (Fin 1 × List (BitVec 32)), placed.map Prod.snd =
          [[ADD, 0x1ee7C0DE#32, 3, 0x01#32, 0x02#32], [ADD, 0x1ee7C0DE#32, 5, 0x01#32, 0x02#32]] ∧
        ∀ e, List.Forall₂ (fun words kick => Begins words kick.2) ((placed.filter (·.1 = e)).map Prod.snd)
          (c.audit.system.spe e).log.kicks := by
  have hvalue : (additionsRun.foldlM (step Spe.idleBodies)
      (.init (fun _ : Fin 1 => Spe.zeroed) 3 [.fifo_addition 3, .fifo_addition 5])).map
      (fun c => (c.finished, (c.audit.system.spe 0).log.executed.map fun done => (done.1, done.2 2))) =
      some (true, [(0, 0), (1, 3)]) := by decide +kernel
  obtain ⟨c, hrun, hobserved⟩ := exists_reaches_of_observe hvalue
  simp only [Prod.mk.injEq] at hobserved
  obtain ⟨placed, _, _, _, _, hall, hkicks⟩ := executes_calls (by decide) (by decide) Spe.idleBodies
    (fun _ => Spe.zeroed) [.fifo_addition 3, .fifo_addition 5] additionsRun c hrun
  exact ⟨c, hrun, hobserved.1, hobserved.2, placed, hall hobserved.1, fun e => (hkicks e).1⟩

end Client

end speutils.fifo
