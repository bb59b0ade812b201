import Mathlib.Data.List.Nodup
import Mathlib.Data.List.Range
import Mathlib.Data.Nat.ModEq
import Mathlib.Logic.Function.Basic

namespace cyclic

/-- The successor of an index in a cycle of `size` positions, with the wrap
written as a comparison. -/
def next (size index : Nat) : Nat :=
  if index + 1 ≥ size then 0 else index + 1

/-- The position just behind the `n`-th one. At `n = 0` this is the last index
of the cycle. -/
def behind (size n : Nat) : Nat :=
  (n + size - 1) % size

/-- The first `n` positions visited by walking the cycle from index zero. -/
def walk (size n : Nat) : List Nat :=
  (List.range n).map (· % size)

/-- The positions after `start` up to and including `stop`, in walking order. -/
def after (size start stop : Nat) : List Nat :=
  (List.range ((stop + size - start) % size)).map fun k => (start + 1 + k) % size

theorem next_mod {size : Nat} (hsize : 0 < size) (n : Nat) :
    next size (n % size) = (n + 1) % size := by
  have hlt := Nat.mod_lt n hsize
  have hmod : (n + 1) % size = (n % size + 1) % size := by rw [Nat.mod_add_mod]
  unfold next
  split
  · have heq : n % size + 1 = size := by omega
    rw [hmod, heq, Nat.mod_self]
  · rw [hmod]
    exact (Nat.mod_eq_of_lt (by omega)).symm

theorem next_behind {size : Nat} (hsize : 0 < size) (n : Nat) :
    next size (behind size n) = n % size := by
  have heq : n + size - 1 + 1 = n + size := by omega
  rw [behind, next_mod hsize, heq, Nat.add_mod_right]

theorem behind_succ {size : Nat} (hsize : 0 < size) (n : Nat) :
    behind size (n + 1) = n % size := by
  have heq : n + 1 + size - 1 = n + size := by omega
  rw [behind, heq, Nat.add_mod_right]

@[simp] theorem behind_zero {size : Nat} (hsize : 0 < size) : behind size 0 = size - 1 := by
  rw [behind, Nat.mod_eq_of_lt] <;> omega

/-- Equal indices stand for equal positions as long as the positions lie less
than one lap apart. -/
theorem eq_of_mod_eq {size a b : Nat} (hle : a ≤ b) (hlap : b < a + size)
    (heq : a % size = b % size) : a = b := by
  have hdvd : size ∣ b - a := (Nat.modEq_iff_dvd' hle).mp heq
  have hzero := Nat.eq_zero_of_dvd_of_lt hdvd (by omega)
  omega

theorem eq_of_behind_eq {size a b : Nat} (hle : a ≤ b) (hlap : b < a + size)
    (heq : behind size a = behind size b) : a = b := by
  have h : a + size - 1 = b + size - 1 := eq_of_mod_eq (by omega) (by omega) heq
  omega

@[simp] theorem length_walk (size n : Nat) : (walk size n).length = n := by simp [walk]

theorem walk_succ (size n : Nat) : walk size (n + 1) = walk size n ++ [n % size] := by
  simp [walk, List.range_succ]

theorem mem_walk {size n slot : Nat} : slot ∈ walk size n ↔ ∃ i < n, i % size = slot := by
  simp [walk]

theorem walk_prefix {size m n : Nat} (hle : m ≤ n) : walk size m <+: walk size n := by
  obtain ⟨k, rfl⟩ := Nat.exists_eq_add_of_le hle
  simp [walk, List.range_add]

/-- The last index stays unvisited until the walk has closed its first lap. -/
theorem last_not_mem_walk {size n : Nat} (hsize : 0 < size) (hn : n < size) :
    size - 1 ∉ walk size n := by
  intro hmem
  obtain ⟨i, hi, heq⟩ := mem_walk.mp hmem
  rw [Nat.mod_eq_of_lt (by omega)] at heq
  omega

theorem drop_walk (size n k : Nat) :
    (walk size n).drop k = (List.range' k (n - k)).map (· % size) := by
  rw [walk, ← List.map_drop, List.range_eq_range', List.drop_range']
  simp

theorem mem_drop_walk {size n k slot : Nat} :
    slot ∈ (walk size n).drop k ↔ ∃ i, k ≤ i ∧ i < n ∧ i % size = slot := by
  rw [drop_walk, List.mem_map]
  constructor
  · rintro ⟨i, hi, rfl⟩
    rw [List.mem_range'_1] at hi
    exact ⟨i, hi.1, by omega, rfl⟩
  · rintro ⟨i, hk, hn, rfl⟩
    exact ⟨i, List.mem_range'_1.mpr ⟨hk, by omega⟩, rfl⟩

/-- A stretch of a walk shorter than one lap visits no index twice. -/
theorem nodup_drop_walk {size n k : Nat} (hlap : n ≤ k + size) :
    ((walk size n).drop k).Nodup := by
  rw [drop_walk]
  refine List.Nodup.map_on ?_ List.nodup_range'
  intro i hi j hj heq
  rw [List.mem_range'_1] at hi hj
  obtain hij | hij := Nat.le_total i j
  · exact eq_of_mod_eq hij (by omega) heq
  · exact (eq_of_mod_eq hij (by omega) heq.symm).symm

/-- The gap between two positions less than a lap apart, read off their
indices. -/
theorem gap_mod {size a b : Nat} (hle : a ≤ b) (hlap : b < a + size) :
    (b % size + size - a % size) % size = b - a := by
  have hsize : 0 < size := by omega
  have ha := Nat.mod_lt a hsize
  have hb := Nat.mod_lt b hsize
  have hda := Nat.div_add_mod a size
  have hdb := Nat.div_add_mod b size
  have hcong : b % size + size - a % size ≡ b - a [MOD size] := by
    have hsum : (b % size + size - a % size) + a ≡ (b - a) + a [MOD size] := by
      have hleft : b % size + size - a % size + a = b % size + size * (1 + a / size) := by
        rw [Nat.mul_add]
        omega
      rw [hleft, Nat.sub_add_cancel hle]
      unfold Nat.ModEq
      rw [Nat.add_mul_mod_self_left, Nat.mod_mod]
    exact Nat.ModEq.add_right_cancel' a hsum
  have hmod : (b % size + size - a % size) % size = (b - a) % size := hcong
  rw [hmod, Nat.mod_eq_of_lt (by omega)]

/-- Extending a walk from position `a` to position `b` visits exactly the
indices between the two. -/
theorem walk_append_after {size a b : Nat} (hle : a ≤ b) (hlap : b < a + size) :
    walk size a ++ after size (behind size a) (behind size b) = walk size b := by
  have hgap : (behind size b + size - behind size a) % size = b - a := by
    have h : (behind size b + size - behind size a) % size = b + size - 1 - (a + size - 1) :=
      gap_mod (by omega) (by omega)
    rw [h]
    omega
  have hshift : ∀ k, (behind size a + 1 + k) % size = (a + k) % size := by
    intro k
    have heq : (a + size - 1) + (1 + k) = a + k + size := by omega
    rw [behind, Nat.add_assoc, Nat.mod_add_mod, heq, Nat.add_mod_right]
  have hsplit : List.range b = List.range a ++ (List.range (b - a)).map (a + ·) := by
    conv_lhs => rw [← Nat.add_sub_cancel' hle]
    exact List.range_add
  simp only [walk, after, hgap, hshift]
  rw [hsplit]
  simp [Function.comp_def]

theorem after_behind_succ {size : Nat} (hsize : 2 ≤ size) (n : Nat) :
    after size (behind size n) (behind size (n + 1)) = [n % size] := by
  have happend := walk_append_after (Nat.le_succ n) (by omega : n + 1 < n + size)
  rw [walk_succ] at happend
  exact List.append_cancel_left happend

/-- The last index of a walk, with the end of the cycle standing in for the empty
one. -/
theorem walk_getLast {size : Nat} (hsize : 0 < size) (n : Nat) :
    (walk size n).getLast?.getD (size - 1) = behind size n := by
  cases n with
  | zero => rw [behind_zero hsize]; rfl
  | succ n => simp [walk_succ, behind_succ hsize]

theorem mem_after_behind {size a b slot : Nat} (hle : a ≤ b) (hlap : b < a + size)
    (hmem : slot ∈ after size (behind size a) (behind size b)) :
    ∃ i, a ≤ i ∧ i < b ∧ i % size = slot := by
  apply mem_drop_walk.mp
  rw [← walk_append_after hle hlap, List.drop_left' (length_walk size a)]
  exact hmem

section Slots

variable {A : Type*} {size count : Nat}

/-- What `count` slots hold, walking the cycle from the position `start`. -/
def window (size : Nat) (slots : Nat → A) (start count : Nat) : List A :=
  (List.range count).map fun k => slots ((start + k) % size)

@[simp] theorem length_window (slots : Nat → A) (start : Nat) :
    (window size slots start count).length = count := by simp [window]

/-- A value stored just behind the window extends it, as long as the window leaves a
slot of the cycle out. -/
theorem window_push (hroom : count < size) (slots : Nat → A) (start : Nat) (value : A) :
    window size (Function.update slots ((start + count) % size) value) start (count + 1) =
      window size slots start count ++ [value] := by
  have hkept : ∀ k ∈ List.range count,
      Function.update slots ((start + count) % size) value ((start + k) % size) =
        slots ((start + k) % size) := by
    intro k hk
    have hlt := List.mem_range.mp hk
    apply Function.update_of_ne
    intro heq
    have := eq_of_mod_eq (by omega) (by omega) heq
    omega
  simp only [window, List.range_succ, List.map_append, List.map_cons, List.map_nil,
    Function.update_self]
  rw [List.map_congr_left hkept]

theorem window_pop (slots : Nat → A) (start : Nat) :
    window size slots start (count + 1) =
      slots (start % size) :: window size slots (start + 1) count := by
  rw [window, List.range_succ_eq_map, List.map_cons, List.map_map, Nat.add_zero]
  congr 1
  apply List.map_congr_left
  intro k _
  rw [Function.comp_apply, Nat.succ_eq_add_one, Nat.add_comm k, ← Nat.add_assoc]

end Slots

end cyclic
