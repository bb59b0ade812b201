import SpeUtils.Fifo.Matched
import SpeUtils.Fifo.System

open cyclic run speutils.ring speutils.taskmanager

namespace speutils.fifo

namespace Spe

variable {world : Type} {size : Nat} {s s' : Spe world} {bodies : TaskBodies world} {action : Action}

/-- The books of one SPE after `K` kicks. The `i`-th kicked task has slot `i mod N`
on both sides. The SPU has acknowledged the first few of them, each once; when it
has seen the last count and finds nothing more, it has admitted all of them; the
monitor has reclaimed the first few, all with their acknowledgement arrived; and
outside a kick the ring holds the kicked tasks that are not reclaimed. A task is
admitted under the entry that it is acknowledged with; the slot that is fetched for it
is another. The books are about what the SPU does: a step books an acknowledgement
where it starts the put of one, and a fetch or a task body where there is one. -/
structure Accounts (bodies : TaskBodies world) (size : Nat) (s : Spe world) : Prop where
  kicks : s.log.kicks.map Prod.fst = walk size s.log.kicks.length
  acked : s.log.acked = walk size s.log.acked.length
  acked_le : s.log.acked.length ≤ s.log.kicks.length
  admitted : s.log.admitted <+: s.log.kicks.map Prod.fst
  drained : s.spu.tstate.front = s.host.fifos.atomic.count →
    s.spu.tstate.in_back = s.spu.tstate.front →
      s.log.admitted = s.log.kicks.map Prod.fst ∧ s.log.fetched.length = s.log.kicks.length
  reclaimed : s.log.reclaimed = walk size s.log.reclaimed.length
  arrived : ∀ i < s.log.reclaimed.length, i ∈ s.log.arrived
  gap : s.kicking = false →
    (s.host.ringCTX.front + size - s.host.ringCTX.back) % size =
        s.log.kicks.length - s.log.reclaimed.length ∧
      s.log.kicks.length - s.log.reclaimed.length ≤ size - 1
  booked : ∀ action s', s.step bodies action = some s' → Booked bodies s s'

theorem Matched.toAccounts (h : s.Matched size) (hsize : 0 < size) : s.Accounts bodies size := by
  have hinv := h.inv
  have hone := h.oneOpen
  have hchain := hinv.chain
  have hlength := hone.length_kicks
  have hin : s.spu.tstate.in_back = behind size s.log.fetched.length := hinv.spu.position.in_back
  refine ⟨?_, hinv.acked, by omega, ?_, ?_, hinv.host.reclaimed, hinv.acks.reclaimed_arrived, ?_,
    fun _ _ => step_booked⟩
  · rw [hlength, hone.kicks]
  · rw [hinv.admitted, hone.kicks]
    exact walk_prefix (by omega)
  · intro hread hnone
    rw [hinv.admitted, hone.kicks, hlength]
    suffices hall : s.log.fetched.length = s.log.kicked by rw [hall]; exact ⟨rfl, rfl⟩
    by_cases hpos : s.log.kicked = 0
    · omega
    · have hline := hinv.host.line
      rw [Publishes, if_neg hpos] at hline
      have hbehind : behind size s.log.fetched.length = behind size s.log.kicked := by
        rw [← hin, hnone, hread, hline.2]
      exact eq_of_behind_eq (by omega) (by omega) hbehind
  · intro hidle
    have hposition := h.frontPosition hidle
    rw [hposition.front_eq, hposition.back_eq, hlength]
    exact ⟨gap_mod (by omega) (by omega), by omega⟩

end Spe

namespace System

variable {world : Type} {spes size : Nat}

/-- In every run in which each task is kicked before the next begins on its SPE, the
books of every SPE balance in every state, whatever the order of the host's steps,
the stages, the transfers and the monitor's steps. -/
theorem accounts (hsize : 2 ≤ size) (bodies : TaskBodies world) (memory : Fin spes → Memory world)
    (events : List (Event spes)) (s : System world spes)
    (hrun : Reaches (restrict (keeps Spe.matched) (step bodies)) (.init memory size) events s)
    (e : Fin spes) : (s.spe e).Accounts bodies size := by
  have hpos : 0 < size := by omega
  have hmatched : (s.spe e).Matched size := by
    refine reaches_invariant ?_ (fun e => .init (memory e) hpos) hrun e
    intro before after action hbefore hok hstep
    exact hbefore.step hpos hok hstep
  exact hmatched.toAccounts hpos

theorem accounts_roundTrip : ∃ s,
    Reaches (restrict (keeps Spe.matched) (step Spe.idleBodies)) (.init (fun _ => Spe.zeroed) 2)
        roundTrip s ∧
      (s.spe 0).log.reclaimed = [0] ∧ (s.spe 0).Accounts Spe.idleBodies 2 := by
  have hvalue : (roundTrip.foldlM (restrict (keeps Spe.matched) (step Spe.idleBodies))
      (.init (fun _ => Spe.zeroed) 2)).map (fun s => (s.spe 0).log.reclaimed) = some [0] := by
    decide +kernel
  obtain ⟨s, hrun, hreclaimed⟩ := exists_reaches_of_observe hvalue
  exact ⟨s, hrun, hreclaimed, accounts (by decide) Spe.idleBodies _ roundTrip s hrun 0⟩

end System

end speutils.fifo
