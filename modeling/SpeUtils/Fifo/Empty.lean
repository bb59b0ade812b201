import SpeUtils.Fifo.Matched
import SpeUtils.Fifo.System

open cyclic run speutils.ring speutils.taskmanager

namespace speutils.fifo

namespace Spe

variable {world : Type} {size : Nat} {s s' : Spe world} {bodies : TaskBodies world} {action : Action}

/-- The SPU and the monitor kick nothing and take nothing back. -/
theorem step_of_not_ofThread (haction : action.ofThread = false)
    (hstep : s.step bodies action = some s') :
    s'.kicking = s.kicking ∧ s'.log.kicks = s.log.kicks ∧
      s.log.reclaimed.length ≤ s'.log.reclaimed.length := by
  rw [(step_record hstep).2, (step_record hstep).1]
  cases action with
  | runStage =>
    refine ⟨rfl, (s.log.stage_kicks (s.spu, s.host.fifos)).2.2, ?_⟩
    rw [recorded, s.log.stage_reclaimed]
  | arrive index => exact ⟨rfl, rfl, Nat.le_refl _⟩
  | reclaim => exact ⟨rfl, rfl, by simp [recorded, Ledger.reclaim]⟩
  | fifoBegin command handle | fifoAdd arg | send_front | closeFront
  | fifoRegisterProgram addr bytes => cases haction

/-- Outside a kick the ring is empty exactly when every kicked task has been
reclaimed, and then every kicked task has been acknowledged. -/
theorem Matched.hasRemaining_iff (h : s.Matched size) (hidle : s.kicking = false) :
    ringHasRemaining s.host.ringCTX = true ↔ s.log.reclaimed.length < s.log.kicks.length := by
  have hposition := h.frontPosition hidle
  have hchain := h.inv.chain
  rw [h.oneOpen.length_kicks]
  exact hposition.hasRemaining_iff (by omega) (by omega)

/-- Once every kicked task has been reclaimed, every kicked task has been
acknowledged. -/
theorem Matched.acked_eq_kicks (h : s.Matched size)
    (hall : s.log.reclaimed.length = s.log.kicks.length) : s.log.acked = s.log.kicks.map Prod.fst := by
  have hchain := h.inv.chain
  have hlength := h.oneOpen.length_kicks
  rw [h.inv.acked, h.oneOpen.kicks, show s.log.acked.length = s.log.kicked by omega]

end Spe

namespace System

variable {world : Type} {spes size : Nat} {bodies : TaskBodies world} {s s' t : System world spes}
  {event : Event spes} {e : Fin spes} {action : Action}

/-- Inside a scan the thread can only make the next test. -/
theorem event_of_scanning {i : Nat} (hthread : s.thread = .fifoIsEmpty i)
    (hcontrol : s.control event = some t) : event = .scan ∨ event.ofThread = false := by
  cases event with
  | scan => exact .inl rfl
  | runStage spe | arrive spe index | fifothread => exact .inr rfl
  | _ => simp [control, hthread] at hcontrol

/-- The next test of a scan: a ring that is not empty ends it with 0, the last ring
with 1. -/
theorem control_scan {i : Nat} (hthread : s.thread = .fifoIsEmpty i) (hcontrol : s.control .scan = some t) :
    (∃ h : i < spes, ringHasRemaining (s.spe ⟨i, h⟩).host.ringCTX = true ∧ t.thread = .idle ∧
      t.isEmpty = some false) ∨
    (∃ h : i < spes, ringHasRemaining (s.spe ⟨i, h⟩).host.ringCTX = false ∧
      t.thread = .fifoIsEmpty (i + 1) ∧ t.isEmpty = s.isEmpty) ∨
    (spes ≤ i ∧ t.thread = .idle ∧ t.isEmpty = some true) := by
  simp only [control, hthread] at hcontrol
  split at hcontrol
  · rename_i hi
    split at hcontrol
    · rename_i hremaining
      obtain rfl := Option.some.inj hcontrol
      exact .inl ⟨hi, hremaining, rfl, rfl⟩
    · rename_i hremaining
      obtain rfl := Option.some.inj hcontrol
      exact .inr (.inl ⟨hi, by simpa using hremaining, rfl, rfl⟩)
  · rename_i hi
    obtain rfl := Option.some.inj hcontrol
    exact .inr (.inr ⟨Nat.le_of_not_lt hi, rfl, rfl⟩)

/-- A scan begins at the first ring. -/
theorem control_enter_scan {i : Nat} (hcontrol : s.control event = some t)
    (hthread : t.thread = .fifoIsEmpty i) : i = 0 ∨ ∃ j, s.thread = .fifoIsEmpty j := by
  cases event with
  | fifoIsEmpty =>
    simp only [control, Option.ite_none_right_eq_some, Option.some.injEq] at hcontrol
    obtain ⟨_, rfl⟩ := hcontrol
    exact .inl (Thread.fifoIsEmpty.inj hthread).symm
  | scan =>
    cases hbefore : s.thread with
    | fifoIsEmpty j => exact .inr ⟨j, rfl⟩
    | idle | selectfifo command handle | fifoKick spe | fifoRegisterProgram addr bytes spe =>
      simp [control, hbefore] at hcontrol
  | runStage spe | arrive spe index | fifothread =>
    exact .inr ⟨i, (control_of_not_ofThread rfl hcontrol).symm.trans hthread⟩
  | fifoAdd spe arg =>
    simp only [control, Option.ite_none_right_eq_some, Option.some.injEq] at hcontrol
    obtain ⟨_, rfl⟩ := hcontrol
    exact .inr ⟨i, hthread⟩
  | fifoBegin command handle | fifoKick spe | fifoRegisterProgram addr bytes =>
    simp only [control, Option.ite_none_right_eq_some, Option.some.injEq] at hcontrol
    obtain ⟨_, rfl⟩ := hcontrol
    cases hthread
  | kicked =>
    simp only [control] at hcontrol
    split at hcontrol
    · obtain rfl := Option.some.inj hcontrol
      cases hthread
    all_goals cases hcontrol
  | register =>
    simp only [control] at hcontrol
    split at hcontrol
    · split at hcontrol
      all_goals
        obtain rfl := Option.some.inj hcontrol
        cases hthread
    all_goals cases hcontrol
  | selectfifo =>
    simp only [control] at hcontrol
    split at hcontrol
    · split at hcontrol
      · split at hcontrol
        · obtain rfl := Option.some.inj hcontrol
          cases hthread
        · obtain rfl := Option.some.inj hcontrol
          exact .inr ⟨i, hthread⟩
      · cases hcontrol
    all_goals cases hcontrol

/-- The scan of `fifoIsEmpty` over a system in which each task is kicked before the
next begins: on the rings already tested every kicked task has been reclaimed. -/
structure Scanned (size : Nat) (s : System world spes) : Prop where
  matched : ∀ e, (s.spe e).Matched size
  kicking : ∀ e, (s.spe e).kicking = true → s.thread = .fifoKick e
  reclaimed : ∀ i, s.thread = .fifoIsEmpty i → ∀ e : Fin spes, e < i →
    (s.spe e).log.reclaimed.length = (s.spe e).log.kicks.length

/-- Steps of the SPU and the monitor leave a ring with everything reclaimed so. -/
theorem reclaimed_of_not_ofThread {c c' : Spe world} (hall : c.log.reclaimed.length = c.log.kicks.length)
    (hafter : c'.Matched size) (haction : action.ofThread = false)
    (hstep : c.step bodies action = some c') : c'.log.reclaimed.length = c'.log.kicks.length := by
  obtain ⟨_, hkicks, hle⟩ := Spe.step_of_not_ofThread haction hstep
  have hchain := hafter.inv.chain
  have hlength := hafter.oneOpen.length_kicks
  rw [hkicks] at hlength ⊢
  omega

theorem Scanned.init (memory : Fin spes → Memory world) (hsize : 0 < size) :
    Scanned size (.init memory size) where
  matched := fun e => .init (memory e) hsize
  kicking := by
    intro e hkicking
    cases hkicking
  reclaimed := by
    intro i hthread
    cases hthread

/-- During a scan no kick is in progress, so a ring shows whether every kicked task
has been reclaimed. -/
theorem Scanned.hasRemaining_iff (h : s.Scanned size) {i : Nat} (hthread : s.thread = .fifoIsEmpty i) :
    ringHasRemaining (s.spe e).host.ringCTX = true ↔
      (s.spe e).log.reclaimed.length ≠ (s.spe e).log.kicks.length := by
  have hidle : (s.spe e).kicking = false := by
    cases hkicking : (s.spe e).kicking with
    | false => rfl
    | true =>
      have hkick := h.kicking e hkicking
      rw [hthread] at hkick
      cases hkick
  have hchain := (h.matched e).inv.chain
  have hlength := (h.matched e).oneOpen.length_kicks
  rw [(h.matched e).hasRemaining_iff hidle]
  omega

theorem Scanned.step (h : s.Scanned size) (hsize : 0 < size) (hkeeps : s.keeps Spe.matched event = true)
    (hstep : s.step bodies event = some s') : s'.Scanned size := by
  have hmatched : ∀ e, (s'.spe e).Matched size := step_invariant
    (fun _ _ _ hbefore hok hspe => hbefore.step hsize hok hspe) h.matched hkeeps hstep
  refine ⟨hmatched, fun e => step_thread_of_kicking h.kicking hstep, ?_⟩
  intro i hthread e he
  obtain ⟨t, hcontrol, hthread', _⟩ := step_control hstep
  rw [hthread'] at hthread
  obtain rfl | ⟨j, hbefore⟩ := control_enter_scan hcontrol hthread
  · omega
  · obtain rfl | hother := event_of_scanning hbefore hcontrol
    · have hsame : s'.spe e = s.spe e := by
        obtain ⟨_, hsame⟩ | ⟨action, haction, _⟩ := step_spe hstep e
        · exact hsame
        · cases haction
      rw [hsame]
      obtain ⟨_, _, hidle, _⟩ | ⟨hj, hempty, hnext, _⟩ | ⟨_, hidle, _⟩ := control_scan hbefore hcontrol
      · rw [hidle] at hthread
        cases hthread
      · rw [hnext, Thread.fifoIsEmpty.injEq] at hthread
        by_cases hlast : e.val = j
        · obtain rfl : e = ⟨j, hj⟩ := Fin.ext hlast
          have hremaining := h.hasRemaining_iff (e := ⟨j, hj⟩) hbefore
          rw [hempty] at hremaining
          simpa using hremaining
        · exact h.reclaimed j hbefore e (by omega)
      · rw [hidle] at hthread
        cases hthread
    · rw [control_of_not_ofThread hother hcontrol, hbefore, Thread.fifoIsEmpty.injEq] at hthread
      have hall := h.reclaimed j hbefore e (by omega)
      obtain ⟨_, hsame⟩ | ⟨action, haction, hspe⟩ := step_spe hstep e
      · rw [hsame, hall]
      · exact reclaimed_of_not_ofThread hall (hmatched e) (column_of_not_ofThread hother haction) hspe

theorem Scanned.reaches (hsize : 0 < size) {memory : Fin spes → Memory world}
    {events : List (Event spes)}
    (hrun : Reaches (restrict (keeps Spe.matched) (System.step bodies)) (.init memory size) events s) :
    s.Scanned size := by
  refine hrun.invariant (.init memory hsize) ?_
  intro before event after hbefore hstep
  obtain ⟨hkeeps, hstep⟩ := restrict_eq_some.mp hstep
  exact hbefore.step hsize hkeeps hstep

/-- During a call that started with everything reclaimed, `count` tests have brought
the scan to ring `count`. -/
structure Passing (size count : Nat) (s : System world spes) : Prop where
  scanned : s.Scanned size
  thread : s.thread = .fifoIsEmpty count
  reclaimed : ∀ e, (s.spe e).log.reclaimed.length = (s.spe e).log.kicks.length

theorem Passing.step {count : Nat} (h : s.Passing size count) (hsize : 0 < size)
    (hkeeps : s.keeps Spe.matched event = true) (hstep : s.step bodies event = some s')
    (hcount : event = .scan → count < spes) :
    s'.Passing size (count + if event = .scan then 1 else 0) := by
  have hscanned := h.scanned.step hsize hkeeps hstep
  obtain ⟨t, hcontrol, hthread, _⟩ := step_control hstep
  by_cases hscan : event = .scan
  · subst hscan
    obtain ⟨_, hremaining, _⟩ | ⟨_, _, hnext, _⟩ | ⟨hlast, _, _⟩ := control_scan h.thread hcontrol
    · rw [h.scanned.hasRemaining_iff h.thread] at hremaining
      exact absurd (h.reclaimed _) hremaining
    · refine ⟨hscanned, hthread.trans hnext, ?_⟩
      intro e
      obtain ⟨_, hsame⟩ | ⟨action, haction, _⟩ := step_spe hstep e
      · rw [hsame, h.reclaimed e]
      · cases haction
    · have := hcount rfl
      omega
  · obtain hscan' | hother := event_of_scanning h.thread hcontrol
    · exact absurd hscan' hscan
    · rw [if_neg hscan]
      have hkept := control_of_not_ofThread hother hcontrol
      refine ⟨hscanned, (hthread.trans hkept).trans h.thread, ?_⟩
      intro e
      obtain ⟨_, hsame⟩ | ⟨action, haction, hspe⟩ := step_spe hstep e
      · rw [hsame, h.reclaimed e]
      · exact reclaimed_of_not_ofThread (h.reclaimed e) (hscanned.matched e)
          (column_of_not_ofThread hother haction) hspe

theorem Passing.reaches (hsize : 0 < size) {during : List (Event spes)} (h : s.Passing size 0)
    (hrun : Reaches (restrict (keeps Spe.matched) (System.step bodies)) s during s')
    (hcount : during.count .scan ≤ spes) : s'.Passing size (during.count .scan) := by
  have hpassing : 0 + during.count .scan ≤ spes → s'.Passing size (0 + during.count .scan) := by
    refine hrun.count (I := fun count s => count ≤ spes → s.Passing size count) .scan (fun _ => h) ?_
    intro count before event after hbefore hstep hle
    obtain ⟨hkeeps, hstep⟩ := restrict_eq_some.mp hstep
    refine (hbefore (by omega)).step hsize hkeeps hstep ?_
    rintro rfl
    simp only [if_true] at hle
    omega
  rw [Nat.zero_add] at hpassing
  exact hpassing hcount

/-- With everything reclaimed the next test of the scan is possible, and the one
after the last ring returns 1. -/
theorem Passing.scan {count : Nat} (h : s.Passing size count) (bodies : TaskBodies world) :
    ∃ s', s.step bodies .scan = some s' ∧ (count = spes → s'.thread = .idle ∧ s'.isEmpty = some true) := by
  have hcontrol : ∃ t, s.control .scan = some t := by
    simp only [control, h.thread]
    split
    · split <;> exact ⟨_, rfl⟩
    · exact ⟨_, rfl⟩
  obtain ⟨t, hcontrol⟩ := hcontrol
  have hcolumns : ∀ e, (s.columnStep bodies .scan e).isSome := fun _ => rfl
  refine ⟨{ t with spe := fun e => (s.columnStep bodies .scan e).get (hcolumns e) }, ?_, ?_⟩
  · simp only [System.step, hcontrol]
    rw [dif_pos hcolumns]
  · rintro rfl
    obtain ⟨hlt, _⟩ | ⟨hlt, _⟩ | ⟨_, hidle, htrue⟩ := control_scan h.thread hcontrol
    · omega
    · omega
    · exact ⟨hidle, htrue⟩

/-- `fifoIsEmpty` is exact. When it returns 1, every task kicked on any SPE has been
acknowledged. When every kicked task has been reclaimed before the call, the call
goes through all the rings, whatever the SPUs and the monitor do meanwhile, and
returns 1 after the last. -/
theorem fifoIsEmpty_exact (hsize : 2 ≤ size) (bodies : TaskBodies world)
    (memory : Fin spes → Memory world) (events : List (Event spes)) (s : System world spes)
    (hrun : Reaches (restrict (keeps Spe.matched) (step bodies)) (.init memory size) events s) :
    (∀ s', s.step bodies .scan = some s' → s'.thread = .idle → s'.isEmpty = some true →
      ∀ e, (s'.spe e).log.acked = (s'.spe e).log.kicks.map Prod.fst) ∧
    ((∀ e, (s.spe e).log.reclaimed = (s.spe e).log.kicks.map Prod.fst) →
      ∀ during stop,
        Reaches (restrict (keeps Spe.matched) (step bodies)) s (.fifoIsEmpty :: during) stop →
        during.count .scan ≤ spes →
        stop.thread = .fifoIsEmpty (during.count .scan) ∧
          ∃ s', stop.step bodies .scan = some s' ∧
            (during.count .scan = spes → s'.thread = .idle ∧ s'.isEmpty = some true)) := by
  have hpos : 0 < size := by omega
  have hscanned := Scanned.reaches hpos hrun
  constructor
  · intro s' hstep hidle htrue e
    obtain ⟨t, hcontrol, hthread, hresult⟩ := step_control hstep
    obtain ⟨i, hscanning⟩ : ∃ i, s.thread = .fifoIsEmpty i := by
      cases hbefore : s.thread with
      | fifoIsEmpty i => exact ⟨i, rfl⟩
      | idle | selectfifo command handle | fifoKick spe | fifoRegisterProgram addr bytes spe =>
        simp [control, hbefore] at hcontrol
    obtain ⟨_, _, _, hfalse⟩ | ⟨_, _, hnext, _⟩ | ⟨hlast, _, _⟩ := control_scan hscanning hcontrol
    · rw [hresult, hfalse] at htrue
      cases htrue
    · rw [hthread, hnext] at hidle
      cases hidle
    · have hsame : s'.spe e = s.spe e := by
        obtain ⟨_, hsame⟩ | ⟨action, haction, _⟩ := step_spe hstep e
        · exact hsame
        · cases haction
      rw [hsame]
      exact (hscanned.matched e).acked_eq_kicks (hscanned.reclaimed i hscanning e (by omega))
  · intro hall during stop hcall hcount
    obtain ⟨middle, hfirst, hrest⟩ := reaches_cons.mp hcall
    obtain ⟨hkeeps, hfirst⟩ := restrict_eq_some.mp hfirst
    have hpassing : middle.Passing size 0 := by
      refine ⟨hscanned.step hpos hkeeps hfirst, ?_, ?_⟩
      · obtain ⟨t, hcontrol, hthread, _⟩ := step_control hfirst
        simp only [control, Option.ite_none_right_eq_some, Option.some.injEq] at hcontrol
        rw [hthread, ← hcontrol.2]
      · intro e
        obtain ⟨_, hsame⟩ | ⟨action, haction, _⟩ := step_spe hfirst e
        · rw [hsame, hall e, List.length_map]
        · cases haction
    have hstop := hpassing.reaches hpos hrest hcount
    exact ⟨hstop.thread, hstop.scan bodies⟩

theorem fifoIsEmpty_exact_roundTrip : ∃ s stop s',
    Reaches (restrict (keeps Spe.matched) (step Spe.idleBodies)) (.init (fun _ => Spe.zeroed) 2)
        roundTrip s ∧
      Reaches (restrict (keeps Spe.matched) (step Spe.idleBodies)) s [.fifoIsEmpty, .scan] stop ∧
      stop.step Spe.idleBodies .scan = some s' ∧ s'.isEmpty = some true ∧
      (s'.spe 0).log.acked = (s'.spe 0).log.kicks.map Prod.fst := by
  have hvalue : (roundTrip.foldlM (restrict (keeps Spe.matched) (step Spe.idleBodies))
      (.init (fun _ => Spe.zeroed) 2)).map
      (fun s => ((s.spe 0).log.reclaimed, (s.spe 0).log.kicks.map Prod.fst)) = some ([0], [0]) := by
    decide +kernel
  have hwhole : ((roundTrip ++ [Event.fifoIsEmpty, Event.scan]).foldlM
      (restrict (keeps Spe.matched) (step Spe.idleBodies)) (.init (fun _ => Spe.zeroed) 2)).map
      (fun s : System Unit 1 => s.thread) = some (Thread.fifoIsEmpty 1) := by
    decide +kernel
  obtain ⟨s, hrun, hobserved⟩ := exists_reaches_of_observe hvalue
  obtain ⟨stop, hstop, _⟩ := exists_reaches_of_observe hwhole
  obtain ⟨middle, hmiddle, hcall⟩ := reaches_append.mp hstop
  obtain rfl := hmiddle.unique hrun
  simp only [Prod.mk.injEq] at hobserved
  have hall : ∀ e, (middle.spe e).log.reclaimed = (middle.spe e).log.kicks.map Prod.fst := by
    intro e
    rw [Subsingleton.elim e 0, hobserved.1, hobserved.2]
  have hexact := fifoIsEmpty_exact (by decide) Spe.idleBodies (fun _ => Spe.zeroed) roundTrip middle hrun
  obtain ⟨_, s', hscan, htrue⟩ := hexact.2 hall [.scan] stop hcall (by decide)
  obtain ⟨hidle, htrue⟩ := htrue (by decide)
  have hexact := fifoIsEmpty_exact (by decide) Spe.idleBodies (fun _ => Spe.zeroed) _ stop hstop
  exact ⟨middle, stop, s', hrun, hcall, hscan, htrue, hexact.1 s' hscan hidle htrue 0⟩

end System

end speutils.fifo
