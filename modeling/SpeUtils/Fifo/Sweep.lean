import SpeUtils.Fifo.Isolation
import SpeUtils.Lib.Loop
import SpeUtils.Lib.Rotation

open cyclic loop run speutils.ring speutils.taskmanager

namespace speutils.fifo

namespace HostSpe

/-- The inner loop of `fifothread` on one SPE, with the number of its turns. -/
def sweep (fuel : Nat) (host : HostSpe) : Option (Nat × HostSpe) :=
  repeatWhile (fun host => some host.ackReady) reclaim fuel host

/-- The length of the run of acknowledged slots that starts at the ring's back. -/
def acknowledged (host : HostSpe) : Nat :=
  runLength host.ringCTX.size host.fifos.ack_fifo (fun ack => ack.task_id != ACK_CLEAR) host.ringCTX.back

/-- The acks with the first word of `count` slots cleared, from the ring's back on. -/
def clearAcks (host : HostSpe) (count : Nat) (slot : Nat) : ack_s :=
  if ∃ k < count, (host.ringCTX.back + k) % host.ringCTX.size = slot then
    { host.fifos.ack_fifo slot with task_id := ACK_CLEAR }
  else host.fifos.ack_fifo slot

/-- The host's column once the monitor has reclaimed `count` slots. -/
def reclaimed (host : HostSpe) (count : Nat) : HostSpe :=
  { host with
    fifos := { host.fifos with ack_fifo := host.clearAcks count }
    ringCTX := { host.ringCTX with back := (host.ringCTX.back + count) % host.ringCTX.size } }

variable {host : HostSpe}

theorem acknowledged_le (host : HostSpe) : host.acknowledged ≤ host.ringCTX.size := runLength_le

theorem clearAcks_zero : host.clearAcks 0 = host.fifos.ack_fifo := by
  funext slot
  simp [clearAcks]

/-- Clearing a slot a second time changes nothing. -/
theorem clearAcks_succ (count : Nat) :
    host.clearAcks (count + 1) =
      Function.update (host.clearAcks count) ((host.ringCTX.back + count) % host.ringCTX.size)
        { host.clearAcks count ((host.ringCTX.back + count) % host.ringCTX.size) with task_id := ACK_CLEAR } := by
  funext slot
  by_cases hslot : slot = (host.ringCTX.back + count) % host.ringCTX.size
  · subst hslot
    rw [Function.update_self, clearAcks, if_pos ⟨count, Nat.lt_succ_self count, rfl⟩, clearAcks]
    split <;> rfl
  · have hsame : (∃ k < count + 1, (host.ringCTX.back + k) % host.ringCTX.size = slot) ↔
        ∃ k < count, (host.ringCTX.back + k) % host.ringCTX.size = slot := by
      constructor
      · rintro ⟨k, hk, rfl⟩
        obtain hlt | rfl := Nat.lt_succ_iff_lt_or_eq.mp hk
        · exact ⟨k, hlt, rfl⟩
        · exact absurd rfl hslot
      · rintro ⟨k, hk, rfl⟩
        exact ⟨k, Nat.lt_succ_of_lt hk, rfl⟩
    rw [Function.update_of_ne hslot]
    simp only [clearAcks, hsame]

theorem reclaimed_succ (hsize : 0 < host.ringCTX.size) (count : Nat) :
    (host.reclaimed count).reclaim = host.reclaimed (count + 1) := by
  simp only [reclaim, reclaimed, ringIncBack_eq, ringGetBack, next_mod hsize, clearAcks_succ, Nat.add_assoc]

theorem iterate_reclaim (hback : host.ringCTX.back < host.ringCTX.size) (count : Nat) :
    reclaim^[count] host = host.reclaimed count := by
  induction count with
  | zero =>
    simp only [Function.iterate_zero, id, reclaimed, clearAcks_zero, Nat.add_zero, Nat.mod_eq_of_lt hback]
  | succ count ih =>
    rw [Function.iterate_succ_apply', ih, reclaimed_succ (Nat.zero_lt_of_lt hback)]

/-- A slot that is still to come in the lap stands as it did. -/
theorem clearAcks_next {count : Nat} (hcount : count < host.ringCTX.size) :
    host.clearAcks count ((host.ringCTX.back + count) % host.ringCTX.size) =
      host.fifos.ack_fifo ((host.ringCTX.back + count) % host.ringCTX.size) := by
  refine if_neg ?_
  rintro ⟨k, hk, heq⟩
  have := eq_of_mod_eq (by omega) (by omega) heq
  omega

/-- After a whole lap the monitor is back at a slot that it has cleared itself. -/
theorem clearAcks_lap (hsize : 0 < host.ringCTX.size) :
    (host.clearAcks host.ringCTX.size ((host.ringCTX.back + host.ringCTX.size) % host.ringCTX.size)).task_id =
      ACK_CLEAR := by
  rw [clearAcks, if_pos ⟨0, hsize, by rw [Nat.add_zero, Nat.add_mod_right]⟩]

theorem ackReady_reclaimed (count : Nat) :
    (host.reclaimed count).ackReady =
      ((host.clearAcks count ((host.ringCTX.back + count) % host.ringCTX.size)).task_id != ACK_CLEAR) := rfl

theorem ackReady_of_lt {count : Nat} (hlt : count < host.acknowledged) :
    (host.reclaimed count).ackReady = true := by
  rw [ackReady_reclaimed, clearAcks_next (Nat.lt_of_lt_of_le hlt host.acknowledged_le)]
  exact of_lt_runLength hlt

theorem ackReady_acknowledged (hsize : 0 < host.ringCTX.size) :
    (host.reclaimed host.acknowledged).ackReady = false := by
  rw [ackReady_reclaimed]
  obtain hlt | heq := Nat.lt_or_eq_of_le host.acknowledged_le
  · rw [clearAcks_next hlt]
    exact at_runLength hlt
  · rw [heq, clearAcks_lap hsize]
    exact bne_self_eq_false ACK_CLEAR

theorem sweep_eq (hback : host.ringCTX.back < host.ringCTX.size) {fuel : Nat} (hfuel : host.ringCTX.size < fuel) :
    host.sweep fuel = some (host.acknowledged, host.reclaimed host.acknowledged) := by
  have hturns : host.acknowledged < fuel := Nat.lt_of_le_of_lt host.acknowledged_le hfuel
  rw [sweep, repeatWhile_eq_some ?_ ?_ hturns, iterate_reclaim hback]
  · intro count hcount
    rw [iterate_reclaim hback, ackReady_of_lt hcount]
  · rw [iterate_reclaim hback, ackReady_acknowledged (Nat.zero_lt_of_lt hback)]

end HostSpe

namespace System

variable {world : Type} {spes : Nat} {bodies : TaskBodies world} {s : System world spes} {e : Fin spes}

/-- One turn of the inner loop in the system. -/
theorem step_reclaim (bodies : TaskBodies world) (hmonitor : s.monitor = e) (hready : (s.spe e).host.ackReady = true) :
    ∃ s', s.step bodies .fifothread = some s' ∧ s'.monitor = e ∧ (s'.spe e).host = (s.spe e).host.reclaim ∧
      ∀ e' ≠ e, s'.spe e' = s.spe e' := by
  obtain ⟨spe, hspe, hhost⟩ : ∃ spe, (s.spe e).step bodies .reclaim = some spe ∧
      spe.host = (s.spe e).host.reclaim :=
    ⟨_, Spe.step_reclaim.mpr ⟨hready, rfl⟩, rfl⟩
  have hstep : s.step bodies .fifothread = ((s.spe e).step bodies .reclaim).map (s.withSpe e) := by
    refine step_single ?_ rfl ?_ ?_
    · simp [control, hmonitor, hready]
    · simp [column, hmonitor, hready]
    · intro e' he'
      have hne : ¬ e'.val = e.val := fun heq => he' (Fin.ext heq)
      simp [column, hmonitor, hne]
  rw [hspe] at hstep
  refine ⟨s.withSpe e spe, hstep, hmonitor, ?_, fun e' he' => Function.update_of_ne he' _ _⟩
  have hself : (s.withSpe e spe).spe e = spe := Function.update_self ..
  rw [hself, hhost]

theorem reaches_reclaim (bodies : TaskBodies world) {turns : Nat} (hmonitor : s.monitor = e)
    (hready : ∀ i < turns, (HostSpe.reclaim^[i] (s.spe e).host).ackReady = true) :
    ∃ s', Reaches (step bodies) s (List.replicate turns .fifothread) s' ∧ s'.monitor = e ∧
      (s'.spe e).host = HostSpe.reclaim^[turns] (s.spe e).host ∧ ∀ e' ≠ e, s'.spe e' = s.spe e' := by
  induction turns with
  | zero => exact ⟨s, reaches_nil.mpr rfl, hmonitor, rfl, fun e' _ => rfl⟩
  | succ turns ih =>
    obtain ⟨before, hrun, hbefore, hhost, hothers⟩ := ih fun i hi => hready i (Nat.lt_succ_of_lt hi)
    have hnow : (before.spe e).host.ackReady = true := by
      rw [hhost]
      exact hready turns (Nat.lt_succ_self turns)
    obtain ⟨s', hstep, hafter, hreclaim, hothers'⟩ := step_reclaim bodies hbefore hnow
    refine ⟨s', ?_, hafter, ?_, fun e' he' => (hothers' e' he').trans (hothers e' he')⟩
    · rw [List.replicate_succ']
      exact reaches_snoc.mpr ⟨before, hrun, hstep⟩
    · rw [hreclaim, hhost, Function.iterate_succ_apply']

/-- A visit of the monitor to one SPE, while nothing else happens: a step for each turn of
the inner loop and one for the test that ends it. -/
theorem reaches_sweep {fuel turns : Nat} {host : HostSpe} (hmonitor : s.monitor = e)
    (hsweep : (s.spe e).host.sweep fuel = some (turns, host)) :
    ∃ s', Reaches (step bodies) s (List.replicate (turns + 1) .fifothread) s' ∧
      s'.monitor = next spes e ∧ (s'.spe e).host = host ∧ ∀ e' ≠ e, s'.spe e' = s.spe e' := by
  obtain ⟨rfl, hturns, hexit⟩ := of_repeatWhile_eq_some hsweep
  obtain ⟨last, hrun, hlast, hhost, hothers⟩ :=
    reaches_reclaim bodies hmonitor fun i hi => Option.some.inj (hturns i hi)
  have hnone : (last.spe e).host.ackReady = false := by
    rw [hhost]
    exact Option.some.inj hexit
  refine ⟨{ last with monitor := next spes e }, ?_, rfl, hhost, hothers⟩
  rw [List.replicate_succ']
  refine reaches_snoc.mpr ⟨last, hrun, step_nowhere ?_ rfl ?_⟩
  · simp [control, hlast, hnone]
  · intro e'
    have hother : ¬ (e'.val = e.val ∧ (last.spe e').host.ackReady = true) := by
      rintro ⟨heq, hready⟩
      obtain rfl : e' = e := Fin.ext heq
      rw [hnone] at hready
      cases hready
    simp only [column, hlast, if_neg hother]

end System

/-- One sweep of the monitor. From any content of the acks, the inner loop of `fifothread`
ends after as many turns as slots are acknowledged in a row from the back. It clears the
first word of these slots, moves the back behind them and changes nothing else. -/
theorem sweep_acknowledged (host : HostSpe) (hback : host.ringCTX.back < host.ringCTX.size) :
    ∃ turns ≤ host.ringCTX.size,
      (∀ k < turns, (host.fifos.ack_fifo ((host.ringCTX.back + k) % host.ringCTX.size)).task_id ≠ ACK_CLEAR) ∧
      (turns < host.ringCTX.size →
        (host.fifos.ack_fifo ((host.ringCTX.back + turns) % host.ringCTX.size)).task_id = ACK_CLEAR) ∧
      ∃ ack_fifo : Nat → ack_s,
        (∀ k < turns, ack_fifo ((host.ringCTX.back + k) % host.ringCTX.size) =
          { host.fifos.ack_fifo ((host.ringCTX.back + k) % host.ringCTX.size) with task_id := ACK_CLEAR }) ∧
        (∀ slot, (∀ k < turns, (host.ringCTX.back + k) % host.ringCTX.size ≠ slot) →
          ack_fifo slot = host.fifos.ack_fifo slot) ∧
        ∀ fuel > host.ringCTX.size, host.sweep fuel = some (turns,
          { host with
            fifos := { host.fifos with ack_fifo }
            ringCTX := { host.ringCTX with back := (host.ringCTX.back + turns) % host.ringCTX.size } }) := by
  refine ⟨host.acknowledged, host.acknowledged_le, ?_, ?_, host.clearAcks host.acknowledged, ?_, ?_, ?_⟩
  · intro k hk
    have hrun : ((host.fifos.ack_fifo ((host.ringCTX.back + k) % host.ringCTX.size)).task_id != ACK_CLEAR) = true :=
      of_lt_runLength hk
    exact bne_iff_ne.mp hrun
  · intro hlt
    have hgap : ((host.fifos.ack_fifo ((host.ringCTX.back + host.acknowledged) % host.ringCTX.size)).task_id !=
        ACK_CLEAR) = false := at_runLength hlt
    exact bne_eq_false_iff_eq.mp hgap
  · intro k hk
    exact if_pos ⟨k, hk, rfl⟩
  · intro slot hslot
    refine if_neg ?_
    rintro ⟨k, hk, heq⟩
    exact hslot k hk heq
  · intro fuel hfuel
    exact HostSpe.sweep_eq hback hfuel

/-- A ring of four slots with the back at its last one, where all slots but the one with
index 2 are acknowledged with retval 7 and callback 9. -/
def threeAcked : HostSpe where
  ringCTX := { front := 2, back := 3, size := 4 }
  fifos := { allocate_fifo (fun _ => 0) (fun _ => ⟨0, 7, 9⟩) 4 with
    ack_fifo := fun slot => ⟨if slot = 2 then ACK_CLEAR else 1, 7, 9⟩ }
  entry_p := 0
  entry_count := 0
  isKicked := true

/-- The sweep wraps and stops at the gap after three turns. -/
theorem sweep_acknowledged_threeAcked :
    ∃ turns ≤ 4, (∀ fuel > 4, ∃ host, threeAcked.sweep fuel = some (turns, host)) ∧
      (threeAcked.sweep 5).map (fun result => (result.1, result.2.ringCTX.back,
        (List.range 4).map result.2.fifos.ack_fifo)) =
        some (3, 2, [⟨ACK_CLEAR, 7, 9⟩, ⟨ACK_CLEAR, 7, 9⟩, ⟨ACK_CLEAR, 7, 9⟩, ⟨ACK_CLEAR, 7, 9⟩]) := by
  obtain ⟨turns, hturns, _, _, ack_fifo, _, _, hsweep⟩ := sweep_acknowledged threeAcked (by decide)
  exact ⟨turns, hturns, fun fuel hfuel => ⟨_, hsweep fuel hfuel⟩, by decide⟩

end speutils.fifo
