import SpeUtils.Fifo.Liveness

open Filter cyclic run speutils.ring speutils.taskmanager

namespace speutils.fifo.Audit

variable {world : Type} {spes size : Nat} {bodies : TaskBodies world}

/-- Matched begins and kicks, with idle steps between. -/
abbrev idling (bodies : TaskBodies world) : Audit world spes → Option (Event spes) → Option (Audit world spes) :=
  stutter (restrict matched (step bodies))

/-- What the machine and its scheduler owe to a run without end: every SPU runs stage
after stage and the monitor test after test, and every transfer completes at some time. -/
structure Fair (x : Execution (@idling world spes bodies)) : Prop where
  spus : ∀ e, x.Recurs (· = some (.runStage e))
  monitor : x.Recurs (· = some .fifothread)
  transfers : ∀ n e, ∀ t ∈ ((x.state n).system.spe e).spu.queue,
    ∃ m ≥ n, t ∉ ((x.state m).system.spe e).spu.queue

section Executions

variable (x : Execution (@idling world spes bodies))

theorem Fair.drop {x : Execution (@idling world spes bodies)} (h : Fair x) (k : Nat) : Fair (x.drop k) where
  spus := fun e => (h.spus e).drop k
  monitor := h.monitor.drop k
  transfers := by
    intro n e t ht
    obtain ⟨m, hm, hgone⟩ := h.transfers (k + n) e t ht
    obtain ⟨j, rfl⟩ := Nat.exists_eq_add_of_le hm
    refine ⟨n + j, Nat.le_add_right n j, ?_⟩
    rwa [Execution.drop_state, ← Nat.add_assoc]

theorem sound_of_start (hsize : 0 < size) (hstart : (x.state 0).Sound bodies size) (n : Nat) :
    (x.state n).Sound bodies size :=
  x.always_of_stable (P := fun a => a.Sound bodies size) hstart (fun n h => h.idle_or_step hsize (x.next n)) n

theorem results_mono (e : Fin spes) {n m : Nat} (hle : n ≤ m) : (x.state n).results e <+: (x.state m).results e := by
  induction m, hle using Nat.le_induction with
  | base => exact List.prefix_refl _
  | succ m _ ih =>
    refine ih.trans ?_
    obtain ⟨_, hsame⟩ | ⟨event, _, hstep⟩ := stutter_eq_some.mp (x.next m)
    · rw [hsame]
    · obtain ⟨_, _, hsame, _⟩ | ⟨_, _, _, _, hmore, _⟩ := step_spe hstep e
      · rw [hsame]
      · rw [hmore]
        exact List.prefix_append _ _

variable (hquiet : ∀ n spe, x.label n ≠ some (.fifoKick spe))

include hquiet

theorem kicking_of_start (hidle : ∀ e, ((x.state 0).system.spe e).kicking = false) (n : Nat) (e : Fin spes) :
    ((x.state n).system.spe e).kicking = false := by
  refine x.always_of_stable (P := fun a => ∀ e, (a.system.spe e).kicking = false) hidle ?_ n e
  intro n hidle e
  obtain ⟨hsame, _⟩ | ⟨_, action, _, _, hkick, _, hspe⟩ := quiet_spe (hquiet n) (x.next n) e
  · rw [hsame]
    exact hidle e
  · rw [(Spe.step_record hspe).2]
    cases action with
    | send_front => exact absurd rfl hkick
    | closeFront => rfl
    | fifoBegin command handle | fifoAdd arg | fifoRegisterProgram addr bytes | runStage | arrive index | reclaim =>
      exact hidle e

variable (hsound : ∀ n, (x.state n).Sound bodies size)

include hsound

theorem eventually_acked (hfair : Fair x) (e : Fin spes) :
    ∀ᶠ n in atTop, ((x.state n).system.spe e).log.acked.length = ((x.state n).system.spe e).log.kicked := by
  have hleft : ∀ n, ¬ ((x.state n).system.spe e).log.acked.length = ((x.state n).system.spe e).log.kicked →
      ((x.state n).system.spe e).log.acked.length < ((x.state n).system.spe e).log.kicked := by
    intro n haway
    have hchain := ((hsound n).matched e).inv.chain
    omega
  refine x.eventually_of_variant
    (fun a => (a.system.spe e).log.acked.length = (a.system.spe e).log.kicked) (fun a => (a.system.spe e).work)
    (hfair.spus e) (.of_forall ?_) (.of_forall ?_) (.of_forall ?_)
  · intro n haway
    obtain ⟨hsame, _⟩ | ⟨_, action, _, _, hkick, hmatched, hspe⟩ := quiet_spe (hquiet n) (x.next n) e
    · rw [hsame]
    · by_cases hstage : action = .runStage
      · subst hstage
        exact Nat.le_of_lt (((hsound n).matched e).inv.work_lt (hleft n haway) hspe)
      · exact Nat.le_of_eq (Spe.work_eq hmatched hkick hstage hspe)
  · intro n haway hlabel
    obtain ⟨_, hnone⟩ | ⟨event, action, hevent, haction, _, _, hspe⟩ := quiet_spe (hquiet n) (x.next n) e
    · have hcolumn := hnone _ hlabel
      simp [System.column] at hcolumn
    · obtain rfl := Option.some.inj (hlabel.symm.trans hevent)
      obtain rfl : Action.runStage = action := by simpa [System.column] using haction
      exact ((hsound n).matched e).inv.work_lt (hleft n haway) hspe
  · intro n hall
    obtain ⟨hsame, _⟩ | ⟨_, action, _, _, hkick, hmatched, hspe⟩ := quiet_spe (hquiet n) (x.next n) e
    · rw [hsame]
      exact hall
    · exact (((hsound n).matched e).inv.settled hall hmatched hkick hspe).1

theorem eventually_transferred (hfair : Fair x) (e : Fin spes) :
    ∀ᶠ n in atTop, ((x.state n).system.spe e).spu.queue = [] := by
  refine x.eventually_nil (fun a => (a.system.spe e).spu.queue) ?_ (fun n => hfair.transfers n e)
  filter_upwards [eventually_acked x hquiet hsound hfair e] with n hall
  obtain ⟨hsame, _⟩ | ⟨_, action, _, _, hkick, hmatched, hspe⟩ := quiet_spe (hquiet n) (x.next n) e
  · rw [hsame]
  · exact (((hsound n).matched e).inv.settled hall hmatched hkick hspe).2

/-- The monitor reclaims everything once it can recognise every acknowledgement. -/
theorem eventually_reclaimed (hsize : 0 < size) (hfair : Fair x)
    (hresults : ∀ n e, ∀ result ∈ (x.state n).results e, result.task_id ≠ ACK_CLEAR) :
    ∀ᶠ n in atTop, ∀ e, ((x.state n).system.spe e).unreclaimed = 0 := by
  have hready : ∀ᶠ n in atTop, ∀ e, ((x.state n).system.spe e).unreclaimed ≠ 0 →
      ((x.state n).system.spe e).host.ackReady = true := by
    refine eventually_all.mpr fun e => ?_
    filter_upwards [eventually_acked x hquiet hsound hfair e, eventually_transferred x hquiet hsound hfair e] with
      n hall hqueue hleft
    refine ((hsound n).answering e).carries.ackReady ((hsound n).matched e).inv hall hqueue (hresults n e) ?_
    unfold Spe.unreclaimed at hleft
    omega
  have hlower : ∀ᶠ n in atTop, ¬ (∀ e, ((x.state n).system.spe e).unreclaimed = 0) →
      x.label n = some .fifothread →
      patrol spes (x.state (n + 1)).system.unreclaimed (x.state (n + 1)).system.monitor <
        patrol spes (x.state n).system.unreclaimed (x.state n).system.monitor := by
    filter_upwards [hready] with n hready haway hlabel
    obtain ⟨e, hleft⟩ := not_forall.mp haway
    have hnext := x.next n
    rw [hlabel] at hnext
    exact (hsound n).patrol_lt hsize hready hleft hnext
  refine x.eventually_of_variant (fun a => ∀ e, (a.system.spe e).unreclaimed = 0)
    (fun a => patrol spes a.system.unreclaimed a.system.monitor) hfair.monitor ?_ hlower (.of_forall ?_)
  · filter_upwards [hlower] with n hlower haway
    by_cases hlabel : x.label n = some .fifothread
    · exact Nat.le_of_lt (hlower haway hlabel)
    · exact Nat.le_of_eq ((hsound n).patrol_eq hsize (hquiet n) hlabel (x.next n))
  · intro n hnone e
    obtain ⟨_, hsame⟩ | ⟨_, hless⟩ := (hsound n).unreclaimed_spe hsize (hquiet n) (x.next n) e
    · rw [hsame]
      exact hnone e
    · rw [hnone e] at hless
      omega

end Executions

/-- Everything drains. From any state that matched begins and kicks have led to, outside a
kick, every fair run in which nothing more is kicked ends with all rings empty, for
`fifoIsEmpty` and `fifoWait` to see, exactly when no result has `ACK_CLEAR` for its first
word. -/
theorem drains_iff (hsize : 2 ≤ size) (memory : Fin spes → Memory world) (events : List (Event spes))
    (x : Execution (@idling world spes bodies))
    (hrun : Reaches (restrict matched (step bodies)) (.init memory size) events (x.state 0))
    (hidle : ∀ e, ((x.state 0).system.spe e).kicking = false)
    (hquiet : ∀ n spe, x.label n ≠ some (.fifoKick spe)) (hfair : Fair x) :
    (∀ᶠ n in atTop, ∀ e, ringHasRemaining ((x.state n).system.spe e).host.ringCTX = false) ↔
      ∀ n e, ∀ result ∈ (x.state n).results e, result.task_id ≠ ACK_CLEAR := by
  have hpos : 0 < size := by omega
  have hstart : (x.state 0).Sound bodies size :=
    hrun.invariant (I := fun a => a.Sound bodies size) (.init bodies memory hpos) fun _ _ _ h => h.step hpos
  have hsound := sound_of_start x hpos hstart
  have hempty : ∀ n e, ringHasRemaining ((x.state n).system.spe e).host.ringCTX = false ↔
      ((x.state n).system.spe e).unreclaimed = 0 := by
    intro n e
    have hremaining := ((hsound n).matched e).hasRemaining_iff_unreclaimed (kicking_of_start x hquiet hidle n e)
    rw [← Bool.not_eq_true, hremaining, Decidable.not_not]
  simp only [hempty]
  constructor
  · intro hdrained n e result hresult
    obtain ⟨m, hm⟩ := eventually_atTop.mp hdrained
    have hlater := (results_mono x e (Nat.le_max_left n m)).subset hresult
    rw [← (hsound _).seen_of_drained (hm _ (Nat.le_max_right n m) e)] at hlater
    exact ((hsound _).answering e).answers.recognised result hlater
  · exact eventually_reclaimed x hquiet hsound hpos hfair

section Settled

variable {a : Audit world spes}

/-- Nothing is left for the SPUs to do. -/
structure Settled (bodies : TaskBodies world) (size : Nat) (a : Audit world spes) : Prop where
  sound : a.Sound bodies size
  acked : ∀ e, (a.system.spe e).log.acked.length = (a.system.spe e).log.kicked
  queue : ∀ e, (a.system.spe e).spu.queue = []

/-- The SPUs and the monitor can go on for ever, and add no result. -/
theorem Settled.step (h : a.Settled bodies size) (hsize : 0 < size) {event : Event spes}
    (hevent : event = .fifothread ∨ ∃ e, event = .runStage e) :
    ∃ a', restrict matched (Audit.step bodies) a event = some a' ∧ a'.Settled bodies size ∧ a'.results = a.results := by
  have hcolumn : ∀ e action, a.system.column event e = some action → action = .runStage ∨
      (action = .reclaim ∧ (a.system.spe e).host.ackReady = true) := by
    intro e action haction
    obtain rfl | ⟨spe, rfl⟩ := hevent
    · simp only [System.column, Option.ite_none_right_eq_some, Option.some.injEq] at haction
      exact .inr ⟨haction.2.symm, haction.1.2⟩
    · simp only [System.column, Option.ite_none_right_eq_some, Option.some.injEq] at haction
      exact .inl haction.2.symm
  have hkeeps : a.matched event = true := by
    refine decide_eq_true fun e => ?_
    cases haction : a.system.column event e with
    | none => rfl
    | some action =>
      obtain rfl | ⟨rfl, _⟩ := hcolumn e action haction
      · rfl
      · rfl
  have hsystem : ∃ system, a.system.step bodies event = some system := by
    obtain ⟨t, hcontrol⟩ : ∃ t, a.system.control event = some t := by
      obtain rfl | ⟨spe, rfl⟩ := hevent
      · simp only [System.control]
        split
        · split <;> exact ⟨_, rfl⟩
        · exact ⟨_, rfl⟩
      · exact ⟨_, rfl⟩
    refine System.exists_step hcontrol fun e action haction => ?_
    obtain rfl | ⟨rfl, hready⟩ := hcolumn e action haction
    · exact ⟨_, rfl⟩
    · exact ⟨_, Spe.step_reclaim.mpr ⟨hready, rfl⟩⟩
  have hsome : ∃ a', restrict matched (Audit.step bodies) a event = some a' := by
    obtain ⟨system, hsystem⟩ := hsystem
    simp only [restrict, hkeeps, if_true, Audit.step, hsystem]
    exact ⟨_, rfl⟩
  obtain ⟨a', hstep⟩ := hsome
  have hstutter : idling bodies a (some event) = some a' := hstep
  have hquiet : ∀ spe, some event ≠ some (.fifoKick spe) := by
    obtain rfl | ⟨spe, rfl⟩ := hevent <;> simp
  have hkept : ∀ e, (a'.system.spe e).log.acked.length = (a'.system.spe e).log.kicked ∧
      (a'.system.spe e).spu.queue = [] := by
    intro e
    obtain ⟨hsame, _⟩ | ⟨_, action, _, _, hkick, hmatched, hspe⟩ := quiet_spe hquiet hstutter e
    · rw [hsame]
      exact ⟨h.acked e, h.queue e⟩
    · obtain ⟨hall, hsub⟩ := (h.sound.matched e).inv.settled (h.acked e) hmatched hkick hspe
      rw [h.queue e] at hsub
      exact ⟨hall, List.sublist_nil.mp hsub⟩
  refine ⟨a', hstep, ⟨h.sound.step hsize hstep, fun e => (hkept e).1, fun e => (hkept e).2⟩, funext fun e => ?_⟩
  obtain ⟨_, _, hsame, _⟩ | ⟨action, haction, _, _, hmore, _⟩ := step_spe hstep e
  · exact hsame
  · rw [hmore]
    obtain rfl | ⟨rfl, _⟩ := hcolumn e action haction
    · simp [Spe.produced, (h.sound.matched e).inv.idle (h.acked e)]
    · simp [Spe.produced]

end Settled

/-- A task is begun and kicked. -/
def kickedOnce : List (Event 1) := [.fifoBegin messages.ADD 0, .selectfifo] ++ System.kickOnly

/-- It is run by the SPU, its acknowledgement arrives, and the monitor reclaims its slot. -/
def servedOnce : List (Event 1) := List.replicate 16 (.runStage (Fin.last 0)) ++ [.arrive (Fin.last 0) 0, .fifothread]

/-- The SPU and the monitor take turns. -/
def turns (n : Nat) : Event 1 := if n % 2 = 0 then .runStage (Fin.last 0) else .fifothread

theorem exists_turns : ∃ (start : Audit Unit 1) (y : Execution (@idling Unit 1 Spe.idleBodies)),
    Reaches (restrict matched (step Spe.idleBodies)) (.init (fun _ => Spe.zeroed) 2) kickedOnce start ∧
      (start.system.spe 0).kicking = false ∧ (start.system.spe 0).unreclaimed = 1 ∧
      Reaches (idling Spe.idleBodies) start (servedOnce.map some) (y.state 0) ∧ y.label = (some <| turns ·) ∧
      ∀ n, (y.state n).Settled Spe.idleBodies 2 ∧ (y.state n).results 0 = [⟨0, 0, 0⟩] := by
  have hfirst : (kickedOnce.foldlM (restrict matched (step Spe.idleBodies)) (.init (fun _ => Spe.zeroed) 2)).map
      (fun a => ((a.system.spe 0).kicking, (a.system.spe 0).unreclaimed)) = some (false, 1) := by decide +kernel
  obtain ⟨start, hstart, hobserved⟩ := exists_reaches_of_observe hfirst
  simp only [Prod.mk.injEq] at hobserved
  have hwhole : ((kickedOnce ++ servedOnce).foldlM (restrict matched (step Spe.idleBodies))
      (.init (fun _ => Spe.zeroed) 2)).map (fun a => ((a.system.spe 0).log.acked.length,
        (a.system.spe 0).log.kicked, (a.system.spe 0).spu.queue, a.results 0)) = some (1, 1, [], [⟨0, 0, 0⟩]) := by
    decide +kernel
  obtain ⟨stop, hstop, hvalues⟩ := exists_reaches_of_observe hwhole
  simp only [Prod.mk.injEq] at hvalues
  obtain ⟨hacked, hkicked, hqueue, hresults⟩ := hvalues
  have hsound : stop.Sound Spe.idleBodies 2 :=
    hstop.invariant (I := fun a => a.Sound Spe.idleBodies 2) (.init _ _ (by decide)) fun _ _ _ h => h.step (by decide)
  have hsettled : stop.Settled Spe.idleBodies 2 :=
    ⟨hsound, fun e => by rw [Subsingleton.elim e 0, hacked, hkicked], fun e => by rw [Subsingleton.elim e 0, hqueue]⟩
  have hlive : ∀ (a : Audit Unit 1) n, a.Settled Spe.idleBodies 2 ∧ a.results 0 = [⟨0, 0, 0⟩] →
      ∃ a', idling Spe.idleBodies a (some (turns n)) = some a' ∧
        a'.Settled Spe.idleBodies 2 ∧ a'.results 0 = [⟨0, 0, 0⟩] := by
    rintro a n ⟨hsettled, hresults⟩
    have hturn : turns n = .fifothread ∨ ∃ e, turns n = .runStage e := by
      unfold turns
      split <;> simp
    obtain ⟨a', hstep, hnext, hsame⟩ := hsettled.step (by decide) hturn
    exact ⟨a', hstep, hnext, by rw [hsame, hresults]⟩
  obtain ⟨y, rfl, hlabels, hstates⟩ := Execution.exists_of_schedule _ (some <| turns ·) ⟨hsettled, hresults⟩ hlive
  obtain ⟨middle, hmiddle, hlast⟩ := reaches_append.mp hstop
  obtain rfl := hmiddle.unique hstart
  refine ⟨middle, y, hmiddle, hobserved.1, hobserved.2, ?_, hlabels, hstates⟩
  rw [Reaches, List.foldlM_map]
  exact hlast

theorem drains_iff_kickedOnce : ∃ x : Execution (@idling Unit 1 Spe.idleBodies),
    Fair x ∧ ((x.state 0).system.spe 0).unreclaimed = 1 ∧
      ∀ᶠ n in atTop, ∀ e, ringHasRemaining ((x.state n).system.spe e).host.ringCTX = false := by
  obtain ⟨start, y, hstart, hidle, hleft, hserved, hlabels, hstates⟩ := exists_turns
  obtain ⟨x, rfl, hlater⟩ := y.exists_of_reaches hserved
  rw [List.length_map] at hlater
  have hlabel : ∀ n, x.label (servedOnce.length + n) = some (turns n) := by
    intro n
    rw [(hlater n).2.1, hlabels]
  have hresults : ∀ n e, ∀ result ∈ (x.state n).results e, result.task_id ≠ ACK_CLEAR := by
    intro n e result hresult
    have hmem := (results_mono x e (Nat.le_add_left n servedOnce.length)).subset hresult
    rw [(hlater n).1, Subsingleton.elim e 0, (hstates n).2] at hmem
    obtain rfl := List.mem_singleton.mp hmem
    decide
  have hquiet : ∀ n spe, x.label n ≠ some (.fifoKick spe) := by
    intro n spe
    by_cases hn : n < servedOnce.length
    · have hmem := List.mem_of_getElem? ((hlater n).2.2 hn)
      intro heq
      rw [heq] at hmem
      simp [servedOnce] at hmem
    · obtain ⟨m, rfl⟩ := Nat.exists_eq_add_of_le (Nat.le_of_not_lt hn)
      rw [hlabel, turns]
      split <;> simp
  have hfair : Fair x := by
    refine ⟨?_, ?_, ?_⟩
    · intro e
      refine frequently_atTop.mpr fun n => ⟨servedOnce.length + 2 * n, by omega, ?_⟩
      rw [hlabel, turns, if_pos (by omega), Subsingleton.elim e (Fin.last 0)]
    · refine frequently_atTop.mpr fun n => ⟨servedOnce.length + (2 * n + 1), by omega, ?_⟩
      rw [hlabel, turns, if_neg (by omega)]
    · intro n e t _
      refine ⟨servedOnce.length + n, Nat.le_add_left _ _, ?_⟩
      rw [(hlater n).1, (hstates n).1.queue e]
      exact List.not_mem_nil
  refine ⟨x, hfair, hleft, ?_⟩
  exact (drains_iff (by decide) (fun _ => Spe.zeroed) kickedOnce x hstart
    (fun e => by rw [Subsingleton.elim e 0, hidle]) hquiet hfair).mpr hresults

end speutils.fifo.Audit
