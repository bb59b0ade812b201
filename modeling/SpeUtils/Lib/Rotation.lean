import SpeUtils.Lib.Cyclic
import Mathlib.Data.Int.CardIntervalMod
import Mathlib.Logic.Function.Iterate

namespace cyclic

theorem iterate_next {size : Nat} (hsize : 0 < size) (n k : Nat) :
    (next size)^[k] (n % size) = (n + k) % size := by
  induction k with
  | zero => rfl
  | succ k ih => rw [Function.iterate_succ_apply', ih, next_mod hsize, Nat.add_assoc]

/-- Every index is met within one lap. -/
theorem exists_add_mod_eq {size index : Nat} (hindex : index < size) (start : Nat) :
    ∃ k < size, (start + k) % size = index := by
  have hsize : 0 < size := Nat.zero_lt_of_lt hindex
  have hlt := Nat.mod_lt start hsize
  refine ⟨(index + size - start % size) % size, Nat.mod_lt _ hsize, ?_⟩
  have hsum : start % size + (index + size - start % size) = index + size := by omega
  rw [Nat.add_mod_mod, ← Nat.mod_add_mod, hsum, Nat.add_mod_right, Nat.mod_eq_of_lt hindex]

/-- Among the indices of a cycle that have a property there is a first one to be met from
any position. -/
theorem exists_first {size index : Nat} {p : Nat → Prop} [DecidablePred p] (hindex : index < size)
    (hp : p index) (start : Nat) :
    ∃ k < size, p ((start + k) % size) ∧ ∀ j < k, ¬ p ((start + j) % size) := by
  obtain ⟨k, hk, heq⟩ := exists_add_mod_eq hindex start
  have hsome : ∃ k, p ((start + k) % size) := ⟨k, by rwa [heq]⟩
  refine ⟨Nat.find hsome, ?_, Nat.find_spec hsome, fun j hj => Nat.find_min hsome hj⟩
  exact Nat.lt_of_le_of_lt (Nat.find_min' hsome (by rwa [heq])) hk

theorem countP_range (p : Nat → Prop) [DecidablePred p] (n : Nat) :
    (List.range n).countP (fun k => decide (p k)) = n.count p := by
  induction n with
  | zero => rfl
  | succ n ih =>
    rw [List.range_succ, List.countP_append, ih, Nat.count_succ, List.countP_singleton]
    simp

/-- On a walk of `count` steps each index is met `count / size` times, rounded down or
up. -/
theorem count_window {size index : Nat} (hindex : index < size) (start count : Nat) :
    (window size id start count).count index = count / size ∨
      (window size id start count).count index = (count + size - 1) / size := by
  have hsize : 0 < size := Nat.zero_lt_of_lt hindex
  obtain ⟨first, _, hfirst⟩ := exists_add_mod_eq hindex start
  -- The index is met at the steps congruent to the first one.
  have hmet : ∀ k, (start + k) % size = index ↔ k ≡ first [MOD size] := by
    intro k
    rw [← hfirst]
    constructor
    · intro heq
      exact Nat.ModEq.add_left_cancel' start heq
    · intro heq
      exact Nat.ModEq.add_left start heq
  have hcount : (window size id start count).count index =
      count / size + if first % size < count % size then 1 else 0 := by
    rw [← Nat.count_modEq_card count hsize first, ← countP_range, window, List.count, List.countP_map]
    refine List.countP_congr fun k _ => ?_
    simp [hmet k]
  rw [hcount]
  split
  · rename_i hrest
    have hsplit := Nat.div_add_mod count size
    have hup : count + size - 1 = (count % size - 1) + size * (count / size + 1) := by
      rw [Nat.mul_add]
      omega
    have hlt := Nat.mod_lt count hsize
    have hsmall : (count % size - 1) / size = 0 := Nat.div_eq_of_lt (by omega)
    right
    rw [hup, Nat.add_mul_div_left _ _ hsize, hsmall, Nat.zero_add]
  · exact .inl rfl

section Runs

variable {A : Type*} {size : Nat} {slots : Nat → A} {p : A → Bool} {start : Nat}

/-- How many slots in a row have a property, walking the cycle once from the position
`start`. -/
def runLength (size : Nat) (slots : Nat → A) (p : A → Bool) (start : Nat) : Nat :=
  ((window size slots start size).takeWhile p).length

theorem runLength_eq : runLength size slots p start = (window size slots start size).findIdx fun a => !p a := by
  have hle : (window size slots start size).findIdx (fun a => !p a) ≤ (window size slots start size).length :=
    List.findIdx_le_length
  rw [runLength, List.takeWhile_eq_take_findIdx_not, List.length_take, Nat.min_eq_left hle]

theorem runLength_le : runLength size slots p start ≤ size := by
  rw [runLength_eq]
  exact le_of_le_of_eq List.findIdx_le_length (length_window slots start)

theorem of_lt_runLength {k : Nat} (hk : k < runLength size slots p start) :
    p (slots ((start + k) % size)) = true := by
  rw [runLength_eq] at hk
  have hslot := List.not_of_lt_findIdx hk
  simpa [window] using hslot

/-- The run is maximal: it stops at a slot without the property or covers the whole
cycle. -/
theorem at_runLength (hlt : runLength size slots p start < size) :
    p (slots ((start + runLength size slots p start) % size)) = false := by
  have hindex : (window size slots start size).findIdx (fun a => !p a) < (window size slots start size).length := by
    rw [← runLength_eq, length_window]
    exact hlt
  have hslot := List.findIdx_getElem (w := hindex)
  simp only [← runLength_eq] at hslot
  simpa [window] using hslot

end Runs

end cyclic
