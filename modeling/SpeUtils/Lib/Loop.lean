import Mathlib.Logic.Function.Iterate

namespace loop

variable {S : Type*}

/-- `while (test) body` with the number of its turns, for fewer turns than `fuel`. A test
without a value stops the program, and then there is no result either. -/
def repeatWhile (test : S → Option Bool) (body : S → S) : Nat → S → Option (Nat × S)
  | 0, _ => none
  | fuel + 1, s =>
    match test s with
    | none => none
    | some false => some (0, s)
    | some true => (repeatWhile test body fuel (body s)).map fun result => (result.1 + 1, result.2)

variable {test : S → Option Bool} {body : S → S} {s : S} {fuel : Nat}

/-- A loop ends at the first of its states that fails the test, given the fuel to get
there. -/
theorem repeatWhile_eq_some {turns : Nat} (hturns : ∀ i < turns, test (body^[i] s) = some true)
    (hexit : test (body^[turns] s) = some false) (hfuel : turns < fuel) :
    repeatWhile test body fuel s = some (turns, body^[turns] s) := by
  induction turns generalizing s fuel with
  | zero =>
    obtain ⟨fuel, rfl⟩ := Nat.exists_eq_succ_of_ne_zero (Nat.ne_of_gt hfuel)
    have hnow : test s = some false := hexit
    simp [repeatWhile, hnow]
  | succ turns ih =>
    obtain ⟨fuel, rfl⟩ := Nat.exists_eq_succ_of_ne_zero (Nat.ne_of_gt (Nat.zero_lt_of_lt hfuel))
    have hnow : test s = some true := hturns 0 (Nat.succ_pos turns)
    have hrest : repeatWhile test body fuel (body s) = some (turns, body^[turns] (body s)) := by
      refine ih ?_ ?_ (Nat.lt_of_succ_lt_succ hfuel)
      · intro i hi
        have hlater := hturns (i + 1) (Nat.succ_lt_succ hi)
        rwa [Function.iterate_succ_apply] at hlater
      · rwa [Function.iterate_succ_apply] at hexit
    simp [repeatWhile, hnow, hrest, Function.iterate_succ_apply]

/-- What a loop that has returned went through. -/
theorem of_repeatWhile_eq_some {turns : Nat} {stop : S}
    (hloop : repeatWhile test body fuel s = some (turns, stop)) :
    stop = body^[turns] s ∧ (∀ i < turns, test (body^[i] s) = some true) ∧ test stop = some false := by
  induction fuel generalizing s turns with
  | zero => cases hloop
  | succ fuel ih =>
    rw [repeatWhile] at hloop
    split at hloop
    · cases hloop
    · rename_i hexit
      cases hloop
      exact ⟨rfl, fun i hi => absurd hi (Nat.not_lt_zero i), hexit⟩
    · rename_i hmore
      obtain ⟨⟨turns', stop'⟩, hrest, heq⟩ := Option.map_eq_some_iff.mp hloop
      cases heq
      obtain ⟨hstop, hturns, hexit⟩ := ih hrest
      refine ⟨hstop, ?_, hexit⟩
      intro i hi
      cases i with
      | zero => exact hmore
      | succ i => exact hturns i (Nat.lt_of_succ_lt_succ hi)

/-- A loop none of whose states fails the test returns for no amount of fuel. -/
theorem repeatWhile_eq_none (hforever : ∀ i, test (body^[i] s) ≠ some false) (fuel : Nat) :
    repeatWhile test body fuel s = none := by
  induction fuel generalizing s with
  | zero => rfl
  | succ fuel ih =>
    have hrest : repeatWhile test body fuel (body s) = none := by
      apply ih
      intro i
      have hlater := hforever (i + 1)
      rwa [Function.iterate_succ_apply] at hlater
    cases hnow : test s with
    | none => simp [repeatWhile, hnow]
    | some more =>
      cases more with
      | false => exact absurd hnow (hforever 0)
      | true => simp [repeatWhile, hnow, hrest]

end loop
