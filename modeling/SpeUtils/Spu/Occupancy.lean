import SpeUtils.Spu.Pipeline

open cyclic speutils.fifo

namespace speutils.taskmanager

theorem increment_eq (value boundary : Nat) : increment value boundary = next boundary value := rfl

theorem contextOf_ne (cycle : BitVec 32) {i j : Nat} (hi : i < 4) (hj : j < 4) (hne : i ≠ j) :
    contextOf cycle i ≠ contextOf cycle j := by
  intro heq
  have hval := congrArg Fin.val heq
  simp only [contextOf, STAGES, BitVec.toNat_add, BitVec.toNat_ofNat] at hval
  omega

/-- Every context is at some offset from the counter. -/
theorem exists_contextOf (cycle : BitVec 32) (x : Fin 4) : ∃ j < 4, contextOf cycle j = x := by
  refine ⟨(x.val + 4 - cycle.toNat % 4) % 4, Nat.mod_lt _ (by decide), ?_⟩
  apply Fin.ext
  simp only [contextOf, STAGES, BitVec.toNat_add, BitVec.toNat_ofNat]
  omega

/-- One iteration later every context is one offset further on. -/
theorem contextOf_pred (cycle : BitVec 32) (j : Nat) :
    contextOf (cycle - 1#32) (j + 1) = contextOf cycle j := by
  apply Fin.ext
  simp only [contextOf, STAGES, BitVec.toNat_add, BitVec.toNat_sub, BitVec.toNat_ofNat]
  omega

theorem contextOf_pred_zero (cycle : BitVec 32) : contextOf (cycle - 1#32) 0 = contextOf cycle 3 := by
  apply Fin.ext
  simp only [contextOf, STAGES, BitVec.toNat_add, BitVec.toNat_sub, BitVec.toNat_ofNat]
  omega

/-- Decrementing the counter moves the three younger tasks on by one offset. -/
private theorem rotate (cycle : BitVec 32) :
    contextOf (cycle - 1#32) 3 = contextOf cycle 2 ∧ contextOf (cycle - 1#32) 2 = contextOf cycle 1 ∧
      contextOf (cycle - 1#32) 1 = contextOf cycle 0 :=
  ⟨contextOf_pred cycle 2, contextOf_pred cycle 1, contextOf_pred cycle 0⟩

namespace Control

/-- The entry of the task at an offset, if there is one. -/
def part (c : Control) (offset : Nat) : List Nat :=
  if c.active (contextOf c.cycle offset) then [c.entry (contextOf c.cycle offset)] else []

/-- The entries of the tasks in the pipe, the oldest first. -/
def flight (c : Control) : List Nat := c.part 3 ++ c.part 2 ++ c.part 1 ++ c.part 0

/-- The control state after `fetched` tasks have been admitted and `acked` of
them acknowledged: the indices stand just behind these positions of the queue,
and the pipe holds exactly the tasks in between. -/
structure At (size fetched acked : Nat) (c : Control) : Prop where
  max_entries : c.max_entries = size
  in_back : c.tstate.in_back = behind size fetched
  out_back : c.tstate.out_back = behind size acked
  le : acked ≤ fetched
  flight : c.flight = (List.range' acked (fetched - acked)).map (· % size)
  idle : c.stage = .stage1 → c.active (contextOf c.cycle 0) = false

section

variable {size fetched acked : Nat} {c : Control} {atomic : atomic_s} {x : Fin 4}

theorem At.fetch (hat : At size fetched acked c) (hsize : 0 < size) (hstage : c.stage = .stage1)
    (hact : c.acting atomic = some x) :
    At size (fetched + 1) acked (c.step atomic) ∧ (c.step atomic).entry x = fetched % size := by
  have hentry := (step_fetch hstage hact).2
  rw [increment_eq, hat.max_entries, hat.in_back, next_behind hsize] at hentry
  refine ⟨⟨?_, ?_, ?_, ?_, ?_, ?_⟩, hentry⟩
  · rw [step_max_entries, hat.max_entries]
  · rw [behind_succ hsize, ← next_behind hsize, ← hat.in_back, ← hat.max_entries, ← increment_eq]
    simp only [acting, hstage] at hact
    split at hact
    · rename_i hfetch
      simp [step, hstage, hfetch]
    · cases hact
  · rw [← hat.out_back]
    simp only [step, hstage]
    split <;> rfl
  · exact Nat.le_succ_of_le hat.le
  · -- The fetched task goes behind the others, at offset zero, which was empty.
    simp only [acting, hstage] at hact
    split at hact
    · rename_i hfetch
      have hne : ∀ j, 0 < j → j < 4 → contextOf c.cycle j ≠ contextOf c.cycle 0 :=
        fun j hj hj4 => contextOf_ne c.cycle hj4 (by omega) (by omega)
      have hflight : (c.step atomic).flight = c.flight ++ [fetched % size] := by
        have hidle := hat.idle hstage
        rw [hat.in_back] at hfetch
        simp [Control.flight, part, step, hstage, hfetch, hidle, hat.in_back, hat.max_entries, increment_eq,
          next_behind hsize, hne 1, hne 2, hne 3]
      rw [hflight, hat.flight, show fetched + 1 - acked = fetched - acked + 1 by have := hat.le; omega,
        List.range'_concat]
      simp [Nat.add_sub_cancel' hat.le]
    · cases hact
  · simp only [step, hstage]
    split <;> simp

theorem At.retire (hat : At size fetched acked c) (hsize : 0 < size) (hstage : c.stage = .stage4)
    (hact : c.acting atomic = some x) :
    At size fetched (acked + 1) (c.step atomic) ∧ acked < fetched ∧ c.entry x = acked % size := by
  simp only [acting, hstage] at hact
  split at hact
  · rename_i hactive
    obtain rfl := Option.some.inj hact
    have hne : ∀ j, j < 3 → contextOf c.cycle j ≠ contextOf c.cycle 3 :=
      fun j hj => contextOf_ne c.cycle (by omega) (by omega) (by omega)
    have hold : c.flight = c.entry (contextOf c.cycle 3) :: (c.part 2 ++ c.part 1 ++ c.part 0) := by
      simp [Control.flight, part, hactive]
    have hnew : (c.step atomic).flight = c.part 2 ++ c.part 1 ++ c.part 0 := by
      simp [Control.flight, part, step, hstage, hactive, contextOf_pred_zero, rotate c.cycle, hne 0, hne 1, hne 2]
    have hlist := hold.symm.trans hat.flight
    have hlt : acked < fetched := by
      by_contra hnot
      rw [show fetched - acked = 0 by omega] at hlist
      simp at hlist
    rw [show fetched - acked = fetched - (acked + 1) + 1 by omega, List.range'_succ,
      List.map_cons, List.cons.injEq] at hlist
    refine ⟨⟨?_, ?_, ?_, hlt, hnew.trans hlist.2, ?_⟩, hlt, hlist.1⟩
    · rw [step_max_entries, hat.max_entries]
    · rw [← hat.in_back]
      simp [step, hstage, hactive]
    · rw [behind_succ hsize, ← next_behind hsize, ← hat.out_back, ← hat.max_entries, ← increment_eq]
      simp [step, hstage, hactive]
    · simp [step, hstage, hactive, contextOf_pred_zero]
  · cases hact

/-- Stages that neither admit nor acknowledge leave the positions alone. -/
theorem At.other (hat : At size fetched acked c)
    (hact : c.stage = .stage1 ∨ c.stage = .stage4 → c.acting atomic = none) :
    At size fetched acked (c.step atomic) := by
  obtain ⟨hmax, hin, hout, hle, hflight, hidle⟩ := hat
  cases hstage : c.stage with
  | stage1 =>
    have hnone := hact (.inl hstage)
    simp only [acting, hstage] at hnone
    split at hnone
    · cases hnone
    · rename_i hfetch
      refine ⟨?_, ?_, ?_, hle, ?_, ?_⟩
      · rw [step_max_entries, hmax]
      · simpa [step, hstage, hfetch] using hin
      · simpa [step, hstage, hfetch] using hout
      · simpa [step, hstage, hfetch, Control.flight, part] using hflight
      · simp [step, hstage, hfetch]
  | stage2 | stage3 =>
    refine ⟨?_, ?_, ?_, hle, ?_, ?_⟩
    · rw [step_max_entries, hmax]
    · simpa [step, hstage] using hin
    · simpa [step, hstage] using hout
    · simpa [step, hstage, Control.flight, part] using hflight
    · simp [step, hstage]
  | stage4 =>
    have hnone := hact (.inr hstage)
    simp only [acting, hstage] at hnone
    split at hnone
    · cases hnone
    · rename_i hactive
      refine ⟨?_, ?_, ?_, hle, ?_, ?_⟩
      · rw [step_max_entries, hmax]
      · simpa [step, hstage, hactive] using hin
      · simpa [step, hstage, hactive] using hout
      · rw [← hflight]
        simp [Control.flight, part, step, hstage, hactive, contextOf_pred_zero, rotate c.cycle]
      · simp [step, hstage, hactive, contextOf_pred_zero]

/-- With as many acknowledgements as admissions the pipe is empty. -/
theorem At.empty (hat : At size fetched acked c) (heq : fetched = acked) (x : Fin 4) :
    c.active x = false := by
  have hflight := hat.flight
  rw [heq, Nat.sub_self, List.range'_zero, List.map_nil] at hflight
  obtain ⟨j, hj, rfl⟩ := exists_contextOf c.cycle x
  have hparts : c.part 3 = [] ∧ c.part 2 = [] ∧ c.part 1 = [] ∧ c.part 0 = [] := by
    simpa [Control.flight, and_assoc] using hflight
  have hpart : c.part j = [] := by
    obtain ⟨h3, h2, h1, h0⟩ := hparts
    have hcases : j = 0 ∨ j = 1 ∨ j = 2 ∨ j = 3 := by omega
    rcases hcases with rfl | rfl | rfl | rfl <;> assumption
  simpa [part] using hpart

end

end Control

theorem Spu.init_at {world : Type} (task : Fin 4 → Task) (ack : Fin 4 → ack_s) (world₀ : world)
    {size : Nat} (hsize : 0 < size) : (Spu.init task ack world₀ size).control.At size 0 0 where
  max_entries := rfl
  in_back := (behind_zero hsize).symm
  out_back := (behind_zero hsize).symm
  le := Nat.le_refl 0
  flight := rfl
  idle := fun _ => rfl

end speutils.taskmanager
