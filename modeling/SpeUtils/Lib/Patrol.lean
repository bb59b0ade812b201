import SpeUtils.Lib.Rotation
import Mathlib.Algebra.BigOperators.Group.Finset.Basic
import Mathlib.Algebra.Order.BigOperators.Group.Finset

namespace cyclic

/-- What is left to do for a walker on a cycle that counts down the counter it stands at
and moves on when it is zero: every single count, and the way to the next of them. -/
def patrol (size : Nat) (counter : Nat → Nat) (position : Nat) : Nat :=
  (∑ i ∈ Finset.range size, counter i) * (size + 1) + runLength size counter (· == 0) position

variable {size position : Nat} {counter counter' : Nat → Nat}

theorem patrol_count (hposition : position < size) (hother : ∀ i, i ≠ position → counter' i = counter i)
    (hcount : counter' position + 1 = counter position) :
    patrol size counter' position < patrol size counter position := by
  have hsum : ∑ i ∈ Finset.range size, counter' i < ∑ i ∈ Finset.range size, counter i := by
    refine Finset.sum_lt_sum ?_ ⟨position, Finset.mem_range.mpr hposition, by omega⟩
    intro i _
    by_cases hi : i = position
    · subst hi
      omega
    · exact Nat.le_of_eq (hother i hi)
  have hrun : runLength size counter' (· == 0) position ≤ size := runLength_le
  unfold patrol
  calc (∑ i ∈ Finset.range size, counter' i) * (size + 1) + runLength size counter' (· == 0) position
    _ < (∑ i ∈ Finset.range size, counter' i) * (size + 1) + (size + 1) := by omega
    _ = (∑ i ∈ Finset.range size, counter' i + 1) * (size + 1) := by rw [Nat.add_mul, Nat.one_mul]
    _ ≤ (∑ i ∈ Finset.range size, counter i) * (size + 1) := Nat.mul_le_mul_right _ hsum
    _ ≤ _ := Nat.le_add_right _ _

theorem patrol_move (hposition : position < size) (hzero : counter position = 0)
    (hleft : ∃ i < size, counter i ≠ 0) :
    patrol size counter (next size position) < patrol size counter position := by
  obtain ⟨i, hi, hne⟩ := hleft
  have hsome : runLength size counter (· == 0) position < size := by
    by_contra hall
    obtain ⟨k, hk, hmod⟩ := exists_add_mod_eq hi position
    have hlt : k < runLength size counter (· == 0) position := by omega
    have hzero := of_lt_runLength hlt
    rw [hmod] at hzero
    exact hne (by simpa using hzero)
  have hstop := at_runLength hsome
  have hpos : 0 < runLength size counter (· == 0) position := by
    by_contra hnone
    rw [show runLength size counter (· == 0) position = 0 by omega, Nat.add_zero, Nat.mod_eq_of_lt hposition] at hstop
    simp [hzero] at hstop
  have hshorter : runLength size counter (· == 0) (next size position) <
      runLength size counter (· == 0) position := by
    by_contra hlong
    have hlt : runLength size counter (· == 0) position - 1 < runLength size counter (· == 0) (next size position) := by
      omega
    have hbefore := of_lt_runLength hlt
    have hsame : (next size position + (runLength size counter (· == 0) position - 1)) % size =
        (position + runLength size counter (· == 0) position) % size := by
      have hnext := next_mod (by omega : 0 < size) position
      rw [Nat.mod_eq_of_lt hposition] at hnext
      rw [hnext, Nat.mod_add_mod]
      congr 1
      omega
    rw [hsame, hstop] at hbefore
    cases hbefore
  unfold patrol
  omega

end cyclic
