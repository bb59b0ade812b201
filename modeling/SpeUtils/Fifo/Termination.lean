import SpeUtils.Fifo.Client

open Filter run speutils.ring speutils.taskmanager

namespace speutils.fifo.Client

variable {world : Type} {spes size : Nat} {bodies : TaskBodies world} {c c' : Client world spes}

/-- Steps that a call has in it, those of its loops apart. -/
def callRank (call : Call) : Nat := if call.args.isSome then 7 else 2

/-- Steps left inside a call, those of its loops apart. -/
def pointRank : Point spes → Nat
  | .between | .scanning => 0
  | .kicking | .waiting _ _ => 1
  | .adding _ args => args.length + 2
  | .selecting args => args.length + 3

def rank (c : Client world spes) : Nat := (c.calls.map callRank).sum + pointRank c.point

/-- Tests left in the loop that the thread is in, if every ring is found empty. -/
def lag (c : Client world spes) : Nat :=
  match c.point with
  | .between => spes + 2
  | .scanning =>
    match c.audit.system.thread with
    | .fifoIsEmpty i => spes + 1 - i
    | .idle | .selectfifo _ _ | .fifoKick _ | .fifoRegisterProgram _ _ _ => 0
  | .waiting i res => if res = 0 then spes - i else spes - i + spes + 2
  | .selecting _ | .adding _ _ | .kicking => 0

/-- On this SPE everything kicked has been reclaimed. -/
def drained (c : Client world spes) (e : Fin spes) : Prop := (c.audit.system.spe e).unreclaimed = 0

theorem drained_of_counts (hcounts : c'.counts = c.counts) {e : Fin spes} (h : c.drained e) : c'.drained e := by
  have hsame := congrFun hcounts e
  simp only [counts, Spe.counts, Counts.mk.injEq] at hsame
  unfold drained Spe.unreclaimed at h ⊢
  rw [hsame.2.1, hsame.2.2.1]
  exact h

theorem Orderly.hasRemaining_of_drained (h : c.Orderly bodies size) {e : Fin spes}
    (hthread : ∀ e, c.audit.system.thread ≠ .fifoKick e) :
    ringHasRemaining (c.audit.system.spe e).host.ringCTX = false ↔ c.drained e := by
  have hidle : (c.audit.system.spe e).kicking = false := by
    rw [← Bool.not_eq_true]
    exact fun hkicking => hthread e ((h.kicking e).mp hkicking)
  have hremaining := (h.sound.matched e).hasRemaining_iff_unreclaimed hidle
  rw [← Bool.not_eq_true, hremaining, Decidable.not_not]
  rfl

theorem Orderly.hasFree_of_drained (h : c.Orderly bodies size) (hsize : 2 ≤ size) {e : Fin spes}
    (hthread : ∀ e, c.audit.system.thread ≠ .fifoKick e) (hdrained : c.drained e) :
    ringHasFree (c.audit.system.spe e).host.ringCTX = true := by
  have hidle : (c.audit.system.spe e).kicking = false := by
    rw [← Bool.not_eq_true]
    exact fun hkicking => hthread e ((h.kicking e).mp hkicking)
  have hchain := (h.sound.matched e).inv.chain
  unfold drained Spe.unreclaimed at hdrained
  rw [((h.sound.matched e).frontPosition hidle).hasFree_iff (by omega) (by omega)]
  omega

/-- A step of the thread brings the rank down, or it is a turn of a loop. Then it kicks
nothing, and with every ring empty it brings the loop forward. -/
theorem Orderly.rank_or_lag (h : c.Orderly bodies size) (hsize : 2 ≤ size) (hmove : Move c c') :
    c'.rank < c.rank ∨
      (c'.rank = c.rank ∧ (∀ spe, c.event ≠ some (.fifoKick spe)) ∧ ((∀ e, c.drained e) → c'.lag < c.lag)) := by
  have hfits := h.fits
  cases hmove with
  | @begin call args _ _ hpoint hcalls hargs hpoint' hthread hcounts =>
    have hshort : args.length ≤ 3 := by
      cases call with
      | fifoNoop | fifo_addition adds =>
        obtain rfl := Option.some.inj hargs
        simp
      | whileNotEmpty | fifoWait => cases hargs
    left
    simp only [rank, hpoint, hpoint', hcalls, pointRank, List.map_cons, List.sum_cons, callRank, hargs,
      Option.isSome_some, if_true]
    omega
  | full hpoint hpoint' hcalls hthread hfull hcounts =>
    rw [hpoint] at hfits
    obtain ⟨command, handle, hbusy⟩ := hfits
    refine .inr ⟨by simp [rank, hpoint, hpoint', hcalls], by simp [event, hpoint], fun hdrained => ?_⟩
    have hfree := h.hasFree_of_drained hsize (by simp [hbusy]) (hdrained ⟨_, h.current⟩)
    rw [hfull ⟨_, h.current⟩ rfl] at hfree
    cases hfree
  | select hpoint hpoint' hcalls hthread hcounts => simp [rank, hpoint, hpoint', hcalls, pointRank]
  | add hpoint hpoint' hcalls hthread hcounts => simp [rank, hpoint, hpoint', hcalls, pointRank]
  | kick hpoint hpoint' hcalls hthread hcounts => simp [rank, hpoint, hpoint', hcalls, pointRank]
  | kicked hpoint hthread hpoint' hcalls hthread' hcounts => simp [rank, hpoint, hpoint', hcalls, pointRank]
  | scan hpoint hcalls hcalls' hpoint' hthread hcounts =>
    exact .inr ⟨by simp [rank, hpoint, hpoint', hcalls', pointRank], by simp [event, hpoint, hcalls],
      fun _ => by simp [lag, hpoint, hpoint', hthread]⟩
  | passed hpoint hthread hi hdrained hpoint' hcalls hthread' hcounts =>
    refine .inr ⟨by simp [rank, hpoint, hpoint', hcalls], by simp [event, hpoint], fun _ => ?_⟩
    simp only [lag, hpoint, hpoint', hthread, hthread']
    omega
  | @remaining i hpoint hthread hi hremaining hpoint' hcalls hthread' hcounts =>
    refine .inr ⟨by simp [rank, hpoint, hpoint', hcalls, pointRank], by simp [event, hpoint], fun hdrained => ?_⟩
    have hempty := (h.hasRemaining_of_drained (by simp [hthread])).mpr (hdrained ⟨i, hi⟩)
    rw [hremaining] at hempty
    cases hempty
  | empty hpoint hthread hi hpoint' hcalls hthread' hcounts =>
    obtain ⟨calls, hlist⟩ := h.scanning hpoint
    simp [rank, hpoint, hpoint', hcalls, hlist, pointRank, callRank, Call.args]
  | wait hpoint hcalls hpoint' haudit =>
    left
    simp only [rank, hpoint, hpoint', hcalls, pointRank, List.map_cons, List.sum_cons, callRank, Call.args,
      Option.isSome_none, Bool.false_eq_true, if_false]
    omega
  | @tested i res hpoint hi hpoint' hcalls haudit =>
    rw [hpoint] at hfits
    refine .inr ⟨by simp [rank, hpoint, hpoint', hcalls, pointRank], by simp [event, hpoint], fun hdrained => ?_⟩
    have hidle : c.audit.system.thread = .idle := hfits
    have hempty := (h.hasRemaining_of_drained (by simp [hidle])).mpr (hdrained ⟨i, hi⟩)
    simp only [lag, hpoint, hpoint', hempty, Bool.false_eq_true, if_false]
    split <;> omega
  | again hpoint hi hres hpoint' hcalls haudit =>
    refine .inr ⟨by simp [rank, hpoint, hpoint', hcalls, pointRank], by simp [event, hpoint], fun _ => ?_⟩
    simp only [lag, hpoint, hpoint', if_true, if_neg hres]
    omega
  | waited hpoint hi hpoint' hcalls haudit => simp [rank, hpoint, hpoint', hcalls, pointRank]

/-- What else moves is no concern of the application's. -/
theorem machine_rank {event : Event spes} (hstep : c.step bodies (.machine event) = some c') :
    c'.rank = c.rank ∧ c'.lag = c.lag ∧ c'.finished = c.finished ∧ (∀ spe, event ≠ .fifoKick spe) := by
  obtain ⟨hevent, haudit, heq⟩ := step_machine hstep
  have hthread := (machine_outside hevent haudit).1
  have hpoint : c'.point = c.point := by rw [heq]
  have hcalls : c'.calls = c.calls := by rw [heq]
  refine ⟨by rw [rank, rank, hpoint, hcalls], by rw [lag, lag, hpoint, hthread],
    by rw [finished, finished, hpoint, hcalls], ?_⟩
  rintro spe rfl
  cases hevent

/-- What the machine, its scheduler and the application's process owe to a run without
end. -/
structure Fair (x : Execution (@step world spes bodies)) : Prop where
  thread : ∀ n, (x.state n).finished = false → ∃ m ≥ n, x.label m = .thread
  spus : ∀ e, x.Recurs (· = .machine (.runStage e))
  monitor : x.Recurs (· = .machine .fifothread)
  transfers : ∀ n e, ∀ t ∈ ((x.state n).audit.system.spe e).spu.queue,
    ∃ m ≥ n, t ∉ ((x.state m).audit.system.spe e).spu.queue

section Executions

variable (x : Execution (@step world spes bodies)) (horderly : ∀ n, (x.state n).Orderly bodies size)

/-- The run of the system below the application. -/
def below : Execution (@Audit.idling world spes bodies) where
  state := fun n => (x.state n).audit
  label := fun n => (x.state n).label (x.label n)
  next := by
    intro n
    obtain ⟨hnone, hsame⟩ | ⟨event, hevent, hissued, haudit⟩ := (horderly n).label (x.next n)
    · rw [hnone, hsame]
      rfl
    · rw [hevent]
      exact restrict_eq_some.mpr ⟨matched_of_keeps hissued, haudit⟩

theorem below_fair (hfair : Fair x) : Audit.Fair (below x horderly) where
  spus := by
    intro e
    refine (hfair.spus e).mono fun n hlabel => ?_
    simp [below, hlabel, label]
  monitor := by
    refine hfair.monitor.mono fun n hlabel => ?_
    simp [below, hlabel, label]
  transfers := hfair.transfers

include horderly in
theorem rank_or_lag_step (hsize : 2 ≤ size) (n : Nat) :
    (x.state (n + 1)).rank < (x.state n).rank ∨
      ((x.state (n + 1)).rank = (x.state n).rank ∧
        (∀ spe, (x.state n).label (x.label n) ≠ some (.fifoKick spe)) ∧
        ((∀ e, (x.state n).drained e) → (x.state (n + 1)).lag ≤ (x.state n).lag ∧
          (x.label n = .thread → (x.state (n + 1)).lag < (x.state n).lag))) := by
  have hnext := x.next n
  cases hlabel : x.label n with
  | machine event =>
    rw [hlabel] at hnext
    obtain ⟨hrank, hlag, _, hquiet⟩ := machine_rank hnext
    exact .inr ⟨hrank, by simpa [label] using hquiet, fun _ => ⟨Nat.le_of_eq hlag, by simp⟩⟩
  | thread =>
    rw [hlabel] at hnext
    obtain hless | ⟨hrank, hquiet, hlag⟩ := (horderly n).rank_or_lag hsize ((horderly n).move hnext).1
    · exact .inl hless
    · exact .inr ⟨hrank, hquiet, fun hdrained => ⟨Nat.le_of_lt (hlag hdrained), fun _ => hlag hdrained⟩⟩

include horderly in
/-- With every acknowledgement recognisable, the application finishes: else it would wait
for ever in one loop, kicking nothing, until the rings have drained and the loop ends. -/
theorem exists_finished (hsize : 2 ≤ size) (hfair : Fair x)
    (hresults : ∀ n e, ∀ result ∈ (x.state n).audit.results e, result.task_id ≠ ACK_CLEAR) :
    ∃ n, (x.state n).finished = true := by
  by_contra hnever
  have hbusy : ∀ n, (x.state n).finished = false := by
    intro n
    rw [← Bool.not_eq_true]
    exact fun hfinished => hnever ⟨n, hfinished⟩
  have hstep := rank_or_lag_step x horderly hsize
  obtain ⟨k, hk⟩ := x.exists_constant rank fun n => by
    obtain hless | ⟨hsame, _⟩ := hstep n
    · exact Nat.le_of_lt hless
    · exact Nat.le_of_eq hsame
  have hloop : ∀ n, (∀ spe, (x.state (k + n)).label (x.label (k + n)) ≠ some (.fifoKick spe)) ∧
      ((∀ e, (x.state (k + n)).drained e) → (x.state (k + n + 1)).lag ≤ (x.state (k + n)).lag ∧
        (x.label (k + n) = .thread → (x.state (k + n + 1)).lag < (x.state (k + n)).lag)) := by
    intro n
    obtain hless | ⟨_, hloop⟩ := hstep (k + n)
    · rw [hk (k + n) (by omega), hk (k + n + 1) (by omega)] at hless
      exact absurd hless (Nat.lt_irrefl _)
    · exact hloop
  have hdrained : ∀ᶠ n in atTop, ∀ e, (x.state (k + n)).drained e :=
    Audit.eventually_reclaimed ((below x horderly).drop k) (fun n => (hloop n).1) (fun n => (horderly (k + n)).sound)
      (by omega) ((below_fair x horderly hfair).drop k) (fun n => hresults (k + n))
  have hthread : (x.drop k).Recurs (· = .thread) := by
    refine frequently_atTop.mpr fun n => ?_
    obtain ⟨m, hm, hlabel⟩ := hfair.thread (k + n) (hbusy _)
    obtain ⟨j, rfl⟩ := Nat.exists_eq_add_of_le hm
    exact ⟨n + j, Nat.le_add_right n j, by rwa [Execution.drop_label, ← Nat.add_assoc]⟩
  have hfalse : ∀ᶠ _ in atTop (α := Nat), False := by
    refine (x.drop k).eventually_of_variant (fun _ => False) lag hthread ?_ ?_ (.of_forall fun _ => id)
    · filter_upwards [hdrained] with n hdrained _
      exact ((hloop n).2 hdrained).1
    · filter_upwards [hdrained] with n hdrained _ hlabel
      exact ((hloop n).2 hdrained).2 hlabel
  obtain ⟨_, hnot⟩ := hfalse.exists
  exact hnot

end Executions

section Ends

/-- The rings that the current sweep of `fifoIsEmpty` or `fifoWait` has found empty are
empty: nothing is kicked meanwhile. -/
def Swept (c : Client world spes) : Prop :=
  match c.point with
  | .waiting i res => res = 0 → ∀ e : Fin spes, e < i → c.drained e
  | .scanning => ∀ i, c.audit.system.thread = .fifoIsEmpty i → ∀ e : Fin spes, e < i → c.drained e
  | .between | .selecting _ | .adding _ _ | .kicking => True

/-- The last call is a wait; once it is made, it is still going on or everything has been
reclaimed. -/
def Ends (c : Client world spes) : Prop :=
  (∃ last, c.calls.getLast? = some last ∧ last.args = none) ∨
    (c.calls = [] ∧ ((∃ i res, c.point = .waiting i res) ∨ (c.point = .between ∧ ∀ e, c.drained e)))

theorem machine_drained {event : Event spes} (hstep : c.step bodies (.machine event) = some c') {e : Fin spes}
    (h : c.drained e) : c'.drained e := by
  obtain ⟨hevent, haudit, _⟩ := step_machine hstep
  unfold drained Spe.unreclaimed at h ⊢
  obtain hsame | hless := machine_counts hevent haudit e
  · simp only [counts, Spe.counts, Counts.mk.injEq] at hsame
    rw [hsame.2.1, hsame.2.2.1]
    exact h
  · simp only [counts, Spe.counts, Counts.mk.injEq] at hless
    rw [hless.2.1, hless.2.2.1]
    omega

theorem Orderly.swept (h : c.Orderly bodies size) (hswept : c.Swept) {turn : Turn spes}
    (hstep : c.step bodies turn = some c') : c'.Swept := by
  cases turn with
  | machine event =>
    obtain ⟨hevent, haudit, heq⟩ := step_machine hstep
    have hthread := (machine_outside hevent haudit).1
    have hpoint' : c'.point = c.point := by rw [heq]
    unfold Swept at hswept ⊢
    rw [hpoint', hthread]
    cases hpoint : c.point with
    | waiting i res =>
      simp only [hpoint] at hswept
      exact fun hres e he => machine_drained hstep (hswept hres e he)
    | scanning =>
      simp only [hpoint] at hswept
      exact fun i hi e he => machine_drained hstep (hswept i hi e he)
    | between | selecting args | adding spe args | kicking => trivial
  | thread =>
    have hfits := h.fits
    unfold Swept at hswept ⊢
    cases (h.move hstep).1 with
    | begin hpoint hcalls hargs hpoint' hthread hcounts => simp [hpoint']
    | full hpoint hpoint' hcalls hthread hfull hcounts => simp [hpoint']
    | select hpoint hpoint' hcalls hthread hcounts => simp [hpoint']
    | add hpoint hpoint' hcalls hthread hcounts => simp [hpoint']
    | kick hpoint hpoint' hcalls hthread hcounts => simp [hpoint']
    | kicked hpoint hthread hpoint' hcalls hthread' hcounts => simp [hpoint']
    | remaining hpoint hthread hi hremaining hpoint' hcalls hthread' hcounts => simp [hpoint']
    | empty hpoint hthread hi hpoint' hcalls hthread' hcounts => simp [hpoint']
    | waited hpoint hi hpoint' hcalls haudit => simp [hpoint']
    | scan hpoint hcalls hcalls' hpoint' hthread hcounts =>
      simp only [hpoint', hthread, Thread.fifoIsEmpty.injEq]
      rintro i rfl e he
      exact absurd he (Nat.not_lt_zero e)
    | wait hpoint hcalls hpoint' haudit =>
      simp only [hpoint']
      exact fun _ e he => absurd he (Nat.not_lt_zero e)
    | again hpoint hi hres hpoint' hcalls haudit =>
      simp only [hpoint']
      exact fun _ e he => absurd he (Nat.not_lt_zero e)
    | @passed i hpoint hthread hi hdrained hpoint' hcalls hthread' hcounts =>
      simp only [hpoint] at hswept
      simp only [hpoint', hthread', Thread.fifoIsEmpty.injEq]
      rintro j rfl e he
      refine drained_of_counts hcounts ?_
      obtain hlt | heq := Nat.lt_succ_iff_lt_or_eq.mp he
      · exact hswept i hthread e hlt
      · rw [h.hasRemaining_of_drained (by simp [hthread])] at hdrained
        obtain rfl : e = ⟨i, hi⟩ := Fin.ext heq
        exact hdrained
    | @tested i res hpoint hi hpoint' hcalls haudit =>
      simp only [hpoint] at hswept
      rw [hpoint] at hfits
      have hidle : c.audit.system.thread = .idle := hfits
      simp only [hpoint']
      intro hres e he
      cases hremaining : ringHasRemaining (c.audit.system.spe ⟨i, hi⟩).host.ringCTX with
      | true => simp [hremaining] at hres
      | false =>
        simp only [hremaining, Bool.false_eq_true, if_false] at hres
        rw [h.hasRemaining_of_drained (by simp [hidle])] at hremaining
        unfold drained at hremaining hswept ⊢
        rw [haudit]
        obtain hlt | heq := Nat.lt_succ_iff_lt_or_eq.mp he
        · exact hswept hres e hlt
        · obtain rfl : e = ⟨i, hi⟩ := Fin.ext heq
          exact hremaining

theorem Orderly.ends (h : c.Orderly bodies size) (hswept : c.Swept) (hends : c.Ends) {turn : Turn spes}
    (hstep : c.step bodies turn = some c') : c'.Ends := by
  -- Where a call is taken off the list, the last one stays the last or was itself the one.
  have hpop : ∀ {call : Call}, c.calls = call :: c'.calls →
      (∃ last, c'.calls.getLast? = some last ∧ last.args = none) ∨ (c'.calls = [] ∧ call.args = none) := by
    intro call hcalls
    obtain ⟨last, hlast, hwait⟩ | ⟨hnone, _⟩ := hends
    · rw [hcalls] at hlast
      cases hrest : c'.calls with
      | nil =>
        rw [hrest] at hlast
        obtain rfl : call = last := by simpa using hlast
        exact .inr ⟨rfl, hwait⟩
      | cons next rest =>
        rw [hrest, List.getLast?_cons_cons] at hlast
        exact .inl ⟨last, hlast, hwait⟩
    · rw [hnone] at hcalls
      cases hcalls
  -- Elsewhere the list stays as it is, and an empty one tells where the thread stands.
  have hkeep : c'.calls = c.calls → (∀ i res, c.point ≠ .waiting i res) → c.point ≠ .between → c'.Ends := by
    intro hcalls hwaiting hbetween
    obtain ⟨last, hlast, hwait⟩ | ⟨_, ⟨i, res, hpoint⟩ | ⟨hpoint, _⟩⟩ := hends
    · exact .inl ⟨last, by rwa [hcalls], hwait⟩
    · exact absurd hpoint (hwaiting i res)
    · exact absurd hpoint hbetween
  cases turn with
  | machine event =>
    obtain ⟨_, _, heq⟩ := step_machine hstep
    have hpoint : c'.point = c.point := by rw [heq]
    have hcalls : c'.calls = c.calls := by rw [heq]
    unfold Ends at hends ⊢
    rw [hpoint, hcalls]
    obtain hlast | ⟨hnone, hwaiting | ⟨hbetween, hall⟩⟩ := hends
    · exact .inl hlast
    · exact .inr ⟨hnone, .inl hwaiting⟩
    · exact .inr ⟨hnone, .inr ⟨hbetween, fun e => machine_drained hstep (hall e)⟩⟩
  | thread =>
    cases (h.move hstep).1 with
    | begin hpoint hcalls hargs hpoint' hthread hcounts =>
      obtain hlast | ⟨_, hwait⟩ := hpop hcalls
      · exact .inl hlast
      · rw [hargs] at hwait
        cases hwait
    | full hpoint hpoint' hcalls hthread hfull hcounts => exact hkeep hcalls (by simp [hpoint]) (by simp [hpoint])
    | select hpoint hpoint' hcalls hthread hcounts => exact hkeep hcalls (by simp [hpoint]) (by simp [hpoint])
    | add hpoint hpoint' hcalls hthread hcounts => exact hkeep hcalls (by simp [hpoint]) (by simp [hpoint])
    | kick hpoint hpoint' hcalls hthread hcounts => exact hkeep hcalls (by simp [hpoint]) (by simp [hpoint])
    | kicked hpoint hthread hpoint' hcalls hthread' hcounts =>
      exact hkeep hcalls (by simp [hpoint]) (by simp [hpoint])
    | passed hpoint hthread hi hdrained hpoint' hcalls hthread' hcounts =>
      exact hkeep hcalls (by simp [hpoint]) (by simp [hpoint])
    | remaining hpoint hthread hi hremaining hpoint' hcalls hthread' hcounts =>
      exact hkeep hcalls (by simp [hpoint]) (by simp [hpoint])
    | scan hpoint hcalls hcalls' hpoint' hthread hcounts =>
      obtain ⟨last, hlast, hwait⟩ | ⟨hnone, _⟩ := hends
      · exact .inl ⟨last, by rwa [hcalls'], hwait⟩
      · rw [hnone] at hcalls
        cases hcalls
    | empty hpoint hthread hi hpoint' hcalls hthread' hcounts =>
      obtain ⟨calls, hlist⟩ := h.scanning hpoint
      rw [hlist, List.tail_cons] at hcalls
      obtain hlast | ⟨hnone, _⟩ := hpop (hcalls ▸ hlist)
      · exact .inl hlast
      · refine .inr ⟨hnone, .inr ⟨hpoint', fun e => drained_of_counts hcounts ?_⟩⟩
        simp only [Swept, hpoint] at hswept
        exact hswept _ hthread e (Nat.lt_of_lt_of_le e.isLt hi)
    | wait hpoint hcalls hpoint' haudit =>
      obtain hlast | ⟨hnone, _⟩ := hpop hcalls
      · exact .inl hlast
      · exact .inr ⟨hnone, .inl ⟨_, _, hpoint'⟩⟩
    | tested hpoint hi hpoint' hcalls haudit | again hpoint hi hres hpoint' hcalls haudit =>
      obtain ⟨last, hlast, hwait⟩ | ⟨hnone, _⟩ := hends
      · exact .inl ⟨last, by rwa [hcalls], hwait⟩
      · exact .inr ⟨hcalls.trans hnone, .inl ⟨_, _, hpoint'⟩⟩
    | waited hpoint hi hpoint' hcalls haudit =>
      obtain ⟨last, hlast, hwait⟩ | ⟨hnone, _⟩ := hends
      · exact .inl ⟨last, by rwa [hcalls], hwait⟩
      · refine .inr ⟨hcalls.trans hnone, .inr ⟨hpoint', fun e => ?_⟩⟩
        simp only [Swept, hpoint] at hswept
        unfold drained at hswept ⊢
        rw [haudit]
        exact hswept trivial e (Nat.lt_of_lt_of_le e.isLt hi)

end Ends

/-- The invariant of a run whose last call is a wait. -/
structure Waits (bodies : TaskBodies world) (size : Nat) (calls : List Call) (c : Client world spes) : Prop where
  orderly : c.Orderly bodies size
  tasks : c.issuedTasks = taskCalls calls
  swept : c.Swept
  ends : c.Ends

theorem Waits.init (bodies : TaskBodies world) (memory : Fin spes → Memory world) {calls : List Call} {last : Call}
    (hlast : calls.getLast? = some last) (hwait : last.args = none) (hsize : 0 < size) (hspes : 0 < spes) :
    Waits bodies size calls (.init memory size calls) where
  orderly := .init bodies memory calls hsize hspes
  tasks := by simp [issuedTasks, Client.init, counts, Spe.counts, Audit.init, System.init, Spe.init, Point.pending]
  swept := trivial
  ends := .inl ⟨last, hlast, hwait⟩

theorem Waits.step {calls : List Call} (h : c.Waits bodies size calls) (hsize : 0 < size) {turn : Turn spes}
    (hstep : c.step bodies turn = some c') : c'.Waits bodies size calls where
  orderly := h.orderly.step hsize hstep
  tasks := (h.orderly.issuedTasks_eq hstep).trans h.tasks
  swept := h.orderly.swept h.swept hstep
  ends := h.orderly.ends h.swept h.ends hstep

theorem point_of_finished (hfinished : c.finished = true) : c.calls = [] ∧ c.point = .between := by
  simpa [finished] using hfinished

theorem Waits.drained {calls : List Call} (h : c.Waits bodies size calls) (hfinished : c.finished = true)
    (e : Fin spes) : c.drained e := by
  obtain ⟨hcalls, hpoint⟩ := point_of_finished hfinished
  obtain ⟨last, hlast, _⟩ | ⟨_, ⟨i, res, hwaiting⟩ | ⟨_, hall⟩⟩ := h.ends
  · rw [hcalls] at hlast
    cases hlast
  · rw [hpoint] at hwaiting
    cases hwaiting
  · exact hall e

theorem args_of_wait {last : Call} (hwait : last = .whileNotEmpty ∨ last = .fifoWait) : last.args = none := by
  obtain rfl | rfl := hwait
  · rfl
  · rfl

/-- An application whose last call is a wait has, when it is finished, had each of its
tasks executed once, and the monitor has recognised every result. A monitor test with its
reclaim is one step, which `Threads.faithful_iff` delimits. -/
theorem finished_all_recognised (hsize : 2 ≤ size) (hspes : 0 < spes) (bodies : TaskBodies world)
    (memory : Fin spes → Memory world) (calls : List Call) (last : Call) (hlast : calls.getLast? = some last)
    (hwait : last = .whileNotEmpty ∨ last = .fifoWait) (turns : List (Turn spes)) (c : Client world spes)
    (hrun : Reaches (step bodies) (.init memory size calls) turns c) (hfinished : c.finished = true) :
    (∀ e, c.audit.seen e = c.audit.results e) ∧
      ∑ e, (c.audit.system.spe e).log.executed.length = taskCalls calls := by
  have hpos : 0 < size := by omega
  have hargs := args_of_wait hwait
  have hwaits : c.Waits bodies size calls :=
    hrun.invariant (I := fun c => c.Waits bodies size calls) (.init bodies memory hlast hargs hpos hspes)
      fun _ _ _ h => h.step hpos
  obtain ⟨hcalls, hpoint⟩ := point_of_finished hfinished
  have hseen : ∀ e, c.audit.seen e = c.audit.results e :=
    fun e => hwaits.orderly.sound.seen_of_drained (hwaits.drained hfinished e)
  refine ⟨hseen, ?_⟩
  have hexecuted : ∀ e, (c.audit.system.spe e).log.executed.length = (c.counts e).begun := by
    intro e
    have hanswers := (hwaits.orderly.sound.answering e).answers
    have htasks := hwaits.orderly.tasks e
    have hdrained := hwaits.drained hfinished e
    have hchain := (hwaits.orderly.sound.matched e).inv.chain
    rw [hanswers.outcomes.length_eq, ← hseen e, hanswers.complete]
    unfold Client.drained Spe.unreclaimed at hdrained
    simp only [hpoint, Point.opens, Nat.add_zero, counts, Spe.counts] at htasks ⊢
    omega
  have htasks := hwaits.tasks
  simp only [issuedTasks, hcalls, hpoint, Point.pending, taskCalls, List.countP_nil, Nat.add_zero] at htasks
  simp only [hexecuted]
  exact htasks

/-- A `fifoNoop`, run by the SPU, acknowledged and reclaimed, and a `fifoWait` for it. -/
def noopAndWait : List (Turn 1) :=
  List.replicate 4 .thread ++ Audit.servedOnce.map .machine ++ List.replicate 3 .thread

theorem finished_all_recognised_noop : ∃ c : Client Unit 1,
    Reaches (step Spe.idleBodies) (.init (fun _ => Spe.zeroed) 2 [.fifoNoop, .fifoWait]) noopAndWait c ∧
      c.finished = true ∧ c.audit.seen 0 = c.audit.results 0 ∧
      ∑ e, (c.audit.system.spe e).log.executed.length = 1 := by
  have hvalue : (noopAndWait.foldlM (step Spe.idleBodies)
      (.init (fun _ => Spe.zeroed) 2 [.fifoNoop, .fifoWait])).map finished = some true := by decide +kernel
  obtain ⟨c, hrun, hfinished⟩ := exists_reaches_of_observe hvalue
  obtain ⟨hseen, hexecuted⟩ := finished_all_recognised (by decide) (by decide) Spe.idleBodies (fun _ => Spe.zeroed)
    [.fifoNoop, .fifoWait] .fifoWait rfl (.inr rfl) noopAndWait c hrun hfinished
  exact ⟨c, hrun, hfinished, hseen 0, hexecuted⟩

/-- The application of `task_iface.c` and its like terminate. On any number of SPEs, in
every fair run from the start, an application whose last call is a wait finishes exactly
when no task is acknowledged with `ACK_CLEAR` for its first word. Here too the monitor's test
and reclaim are one step, as far as `Threads.faithful_iff` goes. -/
theorem finishes_iff (hsize : 2 ≤ size) (hspes : 0 < spes) (bodies : TaskBodies world)
    (memory : Fin spes → Memory world) (calls : List Call) (last : Call) (hlast : calls.getLast? = some last)
    (hwait : last = .whileNotEmpty ∨ last = .fifoWait) (x : Execution (@step world spes bodies))
    (hstart : x.state 0 = .init memory size calls) (hfair : Fair x) :
    (∃ n, (x.state n).finished = true) ↔
      ∀ n e, ∀ result ∈ (x.state n).audit.results e, result.task_id ≠ ACK_CLEAR := by
  have hpos : 0 < size := by omega
  have hargs := args_of_wait hwait
  have hwaits : ∀ n, (x.state n).Waits bodies size calls := by
    refine x.always_of_stable (P := fun c => c.Waits bodies size calls) ?_ fun n h => h.step hpos (x.next n)
    rw [hstart]
    exact .init bodies memory hlast hargs hpos hspes
  have horderly : ∀ n, (x.state n).Orderly bodies size := fun n => (hwaits n).orderly
  constructor
  · rintro ⟨k, hfinished⟩ n e result hresult
    -- A finished application takes no further step.
    have hstays : ∀ m ≥ k, (x.state m).finished = true := by
      intro m hm
      induction m, hm using Nat.le_induction with
      | base => exact hfinished
      | succ m _ ih =>
        have hnext := x.next m
        cases hlabel : x.label m with
        | machine event =>
          rw [hlabel] at hnext
          rw [(machine_rank hnext).2.2.1]
          exact ih
        | thread =>
          rw [hlabel] at hnext
          rw [(step_thread hnext).1] at ih
          cases ih
    have hlater := (Audit.results_mono (below x horderly) e (Nat.le_max_left n k)).subset hresult
    have hdone := (hwaits (max n k)).drained (hstays _ (Nat.le_max_right n k)) e
    have hseen := (horderly (max n k)).sound.seen_of_drained hdone
    change result ∈ (x.state (max n k)).audit.results e at hlater
    rw [← hseen] at hlater
    exact ((horderly (max n k)).sound.answering e).answers.recognised result hlater
  · exact exists_finished x horderly hsize hfair

theorem exists_idle_turns : ∃ y : Execution (@step Unit 1 Spe.idleBodies),
    Reaches (step Spe.idleBodies) (.init (fun _ => Spe.zeroed) 2 [.fifoNoop, .fifoWait]) noopAndWait (y.state 0) ∧
      y.label = (.machine <| Audit.turns ·) ∧
      ∀ n, (y.state n).finished = true ∧ (y.state n).audit.Settled Spe.idleBodies 2 := by
  have hvalue : (noopAndWait.foldlM (step Spe.idleBodies) (.init (fun _ => Spe.zeroed) 2 [.fifoNoop, .fifoWait])).map
      (fun c => (c.finished, (c.audit.system.spe 0).log.acked.length, (c.audit.system.spe 0).log.kicked,
        (c.audit.system.spe 0).spu.queue)) = some (true, 1, 1, []) := by decide +kernel
  obtain ⟨stop, hrun, hobserved⟩ := exists_reaches_of_observe hvalue
  simp only [Prod.mk.injEq] at hobserved
  obtain ⟨hfinished, hacked, hkicked, hqueue⟩ := hobserved
  have horderly : stop.Orderly Spe.idleBodies 2 := hrun.invariant (I := fun c => c.Orderly Spe.idleBodies 2)
    (.init _ _ _ (by decide) (by decide)) fun _ _ _ h => h.step (by decide)
  have hsettled : stop.audit.Settled Spe.idleBodies 2 :=
    ⟨horderly.sound, fun e => by rw [Subsingleton.elim e 0, hacked, hkicked],
      fun e => by rw [Subsingleton.elim e 0, hqueue]⟩
  have hlive : ∀ (c : Client Unit 1) n, c.finished = true ∧ c.audit.Settled Spe.idleBodies 2 →
      ∃ c', c.step Spe.idleBodies (.machine (Audit.turns n)) = some c' ∧
        c'.finished = true ∧ c'.audit.Settled Spe.idleBodies 2 := by
    rintro c n ⟨hfinished, hsettled⟩
    have hturn : Audit.turns n = .fifothread ∨ ∃ e, Audit.turns n = .runStage e := by
      unfold Audit.turns
      split <;> simp
    obtain ⟨audit, hstep, hnext, _⟩ := hsettled.step (by decide) hturn
    have hother : (Audit.turns n).ofThread = false := by
      unfold Audit.turns
      split <;> rfl
    refine ⟨{ c with audit }, ?_, hfinished, hnext⟩
    simp [step, hother, (restrict_eq_some.mp hstep).2]
  obtain ⟨y, rfl, hlabels, hstates⟩ :=
    Execution.exists_of_schedule _ (Turn.machine <| Audit.turns ·) ⟨hfinished, hsettled⟩ hlive
  exact ⟨y, hrun, hlabels, hstates⟩

theorem finishes_iff_noop : ∃ x : Execution (@step Unit 1 Spe.idleBodies),
    x.state 0 = .init (fun _ => Spe.zeroed) 2 [.fifoNoop, .fifoWait] ∧ Fair x ∧
      (∃ n, (x.state n).finished = true) ∧
      ∀ n e, ∀ result ∈ (x.state n).audit.results e, result.task_id ≠ ACK_CLEAR := by
  obtain ⟨y, hserved, hlabels, hstates⟩ := exists_idle_turns
  obtain ⟨x, hstart, hlater⟩ := y.exists_of_reaches hserved
  have hlabel : ∀ n, x.label (noopAndWait.length + n) = .machine (Audit.turns n) := by
    intro n
    rw [(hlater n).2.1, hlabels]
  have hfair : Fair x := by
    refine ⟨?_, ?_, ?_, ?_⟩
    · intro n hbusy
      have hshort : n < noopAndWait.length := by
        by_contra hlong
        obtain ⟨m, rfl⟩ := Nat.exists_eq_add_of_le (Nat.le_of_not_lt hlong)
        rw [(hlater m).1, (hstates m).1] at hbusy
        cases hbusy
      -- The last of these turns is the thread's.
      have hlast := (hlater 24).2.2 (by decide)
      exact ⟨24, Nat.le_of_lt_succ hshort, (Option.some.inj hlast).symm⟩
    · intro e
      refine frequently_atTop.mpr fun n => ⟨noopAndWait.length + 2 * n, by omega, ?_⟩
      rw [hlabel, Audit.turns, if_pos (by omega), Subsingleton.elim e (Fin.last 0)]
    · refine frequently_atTop.mpr fun n => ⟨noopAndWait.length + (2 * n + 1), by omega, ?_⟩
      rw [hlabel, Audit.turns, if_neg (by omega)]
    · intro n e t _
      refine ⟨noopAndWait.length + n, Nat.le_add_left _ _, ?_⟩
      rw [(hlater n).1, (hstates n).2.queue e]
      exact List.not_mem_nil
  have hfinished : ∃ n, (x.state n).finished = true := by
    refine ⟨noopAndWait.length + 0, ?_⟩
    rw [(hlater 0).1]
    exact (hstates 0).1
  exact ⟨x, hstart, hfair, hfinished, (finishes_iff (by decide) (by decide) Spe.idleBodies (fun _ => Spe.zeroed)
    [.fifoNoop, .fifoWait] .fifoWait rfl (.inr rfl) x hstart hfair).mp hfinished⟩

end speutils.fifo.Client
