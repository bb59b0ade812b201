import SpeUtils.Fifo.Spe

open cyclic speutils.taskmanager

namespace speutils.fifo

/-- The acknowledgements between SPU and monitor. `acked` puts have been started
and the first `reclaimed` of them consumed; `arrived` lists those carried out. An
outstanding put has not arrived, and an ack slot differs from `ACK_CLEAR` only
where the acknowledgement of this lap has arrived. -/
structure Acks (size : Nat) (queue : List Transfer) (ack_fifo : Nat → ack_s) (acked : Nat)
    (arrived : List Nat) (reclaimed : Nat) : Prop where
  queue_put : ∀ t ∈ queue, t.dir = .put →
    t.serial < acked ∧ t.slot = t.serial % size ∧ t.serial ∉ arrived
  serials_nodup : (Ledger.putSerials queue).Nodup
  arrived_lt : ∀ i ∈ arrived, i < acked
  reclaimed_arrived : ∀ i < reclaimed, i ∈ arrived
  set_arrived : ∀ i, reclaimed ≤ i → i < reclaimed + size →
    (ack_fifo (i % size)).task_id ≠ ACK_CLEAR → i ∈ arrived

namespace Ledger

theorem mem_putSerials {ts : List Transfer} {i : Nat} :
    i ∈ putSerials ts ↔ ∃ t ∈ ts, t.dir = .put ∧ t.serial = i := by
  simp [putSerials, and_assoc]

theorem putSerials_append (ts us : List Transfer) :
    putSerials (ts ++ us) = putSerials ts ++ putSerials us := by
  simp [putSerials]

theorem putSerials_perm {ts us : List Transfer} (h : ts.Perm us) :
    (putSerials ts).Perm (putSerials us) :=
  (h.filter _).map _

end Ledger

/-- Carrying out transfers changes an ack slot only where one of them is a put
into it. -/
theorem foldl_perform_ack {world : Type} (ts : List Transfer) (m : Spu world × fifo_s) (slot : Nat) :
    (ts.foldl (fun m t => t.perform m) m).2.ack_fifo slot = m.2.ack_fifo slot ∨
      ∃ t ∈ ts, t.dir = .put ∧ t.slot = slot := by
  induction ts generalizing m with
  | nil => exact .inl rfl
  | cons t ts ih =>
    cases ih (t.perform m) with
    | inr h =>
      obtain ⟨u, hu, hput⟩ := h
      exact .inr ⟨u, List.mem_cons_of_mem _ hu, hput⟩
    | inl h =>
      by_cases hslot : t.dir = .put ∧ t.slot = slot
      · exact .inr ⟨t, List.mem_cons_self, hslot⟩
      · refine .inl (h.trans ?_)
        unfold Transfer.perform
        cases hdir : t.dir with
        | get => rfl
        | put =>
          have hne : slot ≠ t.slot := by
            rintro rfl
            exact hslot ⟨hdir, rfl⟩
          simp [hne]

namespace Acks

variable {size : Nat} {queue : List Transfer} {ack_fifo : Nat → ack_s} {acked reclaimed : Nat}
  {arrived : List Nat}

theorem init {ack_fifo : Nat → ack_s} (hclear : ∀ slot < size, (ack_fifo slot).task_id = ACK_CLEAR) :
    Acks size [] ack_fifo 0 [] 0 where
  queue_put := by
    intro t ht
    cases ht
  serials_nodup := List.nodup_nil
  arrived_lt := by
    intro i hi
    cases hi
  reclaimed_arrived := by
    intro i hi
    omega
  set_arrived := by
    intro i _ hi hset
    exact absurd (hclear _ (Nat.mod_lt _ (by omega))) hset

/-- Starting a get concerns no acknowledgement. -/
theorem get (h : Acks size queue ack_fifo acked arrived reclaimed) {t : Transfer} (ht : t.dir = .get) :
    Acks size (queue ++ [t]) ack_fifo acked arrived reclaimed where
  queue_put := by
    intro u hu hput
    obtain hu | hu := List.mem_append.mp hu
    · exact h.queue_put u hu hput
    · obtain rfl := List.mem_singleton.mp hu
      rw [ht] at hput
      cases hput
  serials_nodup := by
    have hnone : Ledger.putSerials [t] = [] := by simp [Ledger.putSerials, ht]
    rw [Ledger.putSerials_append, hnone, List.append_nil]
    exact h.serials_nodup
  arrived_lt := h.arrived_lt
  reclaimed_arrived := h.reclaimed_arrived
  set_arrived := h.set_arrived

/-- Starting the put of the next acknowledgement. -/
theorem put (h : Acks size queue ack_fifo acked arrived reclaimed) {t : Transfer}
    (hput : t.dir = .put) (hserial : t.serial = acked) (hslot : t.slot = acked % size) :
    Acks size (queue ++ [t]) ack_fifo (acked + 1) arrived reclaimed where
  queue_put := by
    intro u hu hdir
    obtain hu | hu := List.mem_append.mp hu
    · obtain ⟨hlt, huslot, hnot⟩ := h.queue_put u hu hdir
      exact ⟨by omega, huslot, hnot⟩
    · obtain rfl := List.mem_singleton.mp hu
      refine ⟨by omega, by rw [hserial, hslot], ?_⟩
      intro harrived
      have := h.arrived_lt _ harrived
      omega
  serials_nodup := by
    have hone : Ledger.putSerials [t] = [acked] := by simp [Ledger.putSerials, hput, hserial]
    rw [Ledger.putSerials_append, hone]
    refine List.nodup_append.mpr ⟨h.serials_nodup, List.nodup_singleton _, ?_⟩
    intro i hi j hj
    obtain ⟨u, hu, hdir, rfl⟩ := Ledger.mem_putSerials.mp hi
    obtain rfl := List.mem_singleton.mp hj
    have := (h.queue_put u hu hdir).1
    omega
  arrived_lt := by
    intro i hi
    have := h.arrived_lt i hi
    omega
  reclaimed_arrived := h.reclaimed_arrived
  set_arrived := h.set_arrived

/-- Some outstanding transfers complete, in any order. Less than a lap separates
the outstanding puts from the reclaimed ones, so each arrives in the slot of its
own lap. -/
theorem complete {world : Type} (h : Acks size queue ack_fifo acked arrived reclaimed)
    (hlap : acked < reclaimed + size) {ts rest : List Transfer} (hperm : queue.Perm (ts ++ rest))
    {m : Spu world × fifo_s} (hack : m.2.ack_fifo = ack_fifo) :
    Acks size rest (ts.foldl (fun m t => t.perform m) m).2.ack_fifo acked
      (arrived ++ Ledger.putSerials ts) reclaimed := by
  have hmem : ∀ {t}, t ∈ ts ∨ t ∈ rest → t ∈ queue :=
    fun ht => hperm.mem_iff.mpr (List.mem_append.mpr ht)
  have hnodup : (Ledger.putSerials ts ++ Ledger.putSerials rest).Nodup := by
    rw [← Ledger.putSerials_append]
    exact (Ledger.putSerials_perm hperm).nodup h.serials_nodup
  obtain ⟨_, hrest, hdisjoint⟩ := List.nodup_append.mp hnodup
  refine ⟨?_, hrest, ?_, ?_, ?_⟩
  · intro t ht hput
    obtain ⟨hlt, hslot, hnot⟩ := h.queue_put t (hmem (.inr ht)) hput
    refine ⟨hlt, hslot, ?_⟩
    intro harrived
    obtain harrived | harrived := List.mem_append.mp harrived
    · exact hnot harrived
    · exact hdisjoint _ harrived _ (Ledger.mem_putSerials.mpr ⟨t, ht, hput, rfl⟩) rfl
  · intro i hi
    obtain hi | hi := List.mem_append.mp hi
    · exact h.arrived_lt i hi
    · obtain ⟨t, ht, hput, rfl⟩ := Ledger.mem_putSerials.mp hi
      exact (h.queue_put t (hmem (.inl ht)) hput).1
  · intro i hi
    exact List.mem_append_left _ (h.reclaimed_arrived i hi)
  · intro i hle hlt hset
    obtain hsame | ⟨t, ht, hput, hslot⟩ := foldl_perform_ack ts m (i % size)
    · rw [hsame, hack] at hset
      exact List.mem_append_left _ (h.set_arrived i hle hlt hset)
    · obtain ⟨htlt, htslot, hnot⟩ := h.queue_put t (hmem (.inl ht)) hput
      have htle : reclaimed ≤ t.serial := by
        by_contra hearly
        exact hnot (h.reclaimed_arrived _ (by omega))
      have hserial : t.serial = i := by
        have hmod : t.serial % size = i % size := htslot.symm.trans hslot
        obtain hle' | hle' := Nat.le_total t.serial i
        · exact eq_of_mod_eq hle' (by omega) hmod
        · exact (eq_of_mod_eq hle' (by omega) hmod.symm).symm
      exact List.mem_append_right _ (Ledger.mem_putSerials.mpr ⟨t, ht, hput, hserial⟩)

/-- The monitor consumes the acknowledgement at the back: it has arrived, and the
slot it clears starts the next lap empty. -/
theorem reclaim (h : Acks size queue ack_fifo acked arrived reclaimed) (hsize : 0 < size)
    (hset : (ack_fifo (reclaimed % size)).task_id ≠ ACK_CLEAR) (cleared : ack_s)
    (hclear : cleared.task_id = ACK_CLEAR) :
    reclaimed < acked ∧ reclaimed ∈ arrived ∧
      Acks size queue (Function.update ack_fifo (reclaimed % size) cleared) acked arrived
        (reclaimed + 1) := by
  have harrived : reclaimed ∈ arrived := h.set_arrived reclaimed (by omega) (by omega) hset
  refine ⟨h.arrived_lt _ harrived, harrived, h.queue_put, h.serials_nodup, h.arrived_lt, ?_, ?_⟩
  · intro i hi
    by_cases heq : i = reclaimed
    · exact heq ▸ harrived
    · exact h.reclaimed_arrived i (by omega)
  · intro i hle hlt hseti
    by_cases hslot : i % size = reclaimed % size
    · rw [hslot, Function.update_self] at hseti
      exact absurd hclear hseti
    · rw [Function.update_of_ne hslot] at hseti
      refine h.set_arrived i (by omega) ?_ hseti
      by_contra hlast
      have heq : i = reclaimed + size := by omega
      exact hslot (by rw [heq, Nat.add_mod_right])

end Acks

end speutils.fifo
