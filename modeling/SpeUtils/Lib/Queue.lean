import SpeUtils.Lib.Run

open run

namespace queue

variable {A : Type*}

inductive Op (A : Type*) where
  | push (value : A)
  | pop

/-- A first-in-first-out queue, with the values that have been taken from it. -/
structure Fifo (A : Type*) where
  items : List A
  out : List A

namespace Fifo

/-- The queue holds at most `bound` values and gives out the oldest. -/
def step (bound : Nat) (f : Fifo A) : Op A → Option (Fifo A)
  | .push value => if f.items.length < bound then some { f with items := f.items ++ [value] } else none
  | .pop =>
    match f.items with
    | [] => none
    | value :: rest => some { items := rest, out := f.out ++ [value] }

/-- The value that an operation puts into the queue. -/
def pushed : Op A → Option A
  | .push value => some value
  | .pop => none

/-- Every value pushed has come out or is still queued, all in the order of the
pushes. -/
theorem out_append_items {bound : Nat} {ops : List (Op A)} {start stop : Fifo A}
    (hrun : Reaches (step bound) start ops stop) :
    stop.out ++ stop.items = start.out ++ start.items ++ ops.filterMap pushed := by
  induction ops generalizing start with
  | nil =>
    obtain rfl := reaches_nil.mp hrun
    simp
  | cons op ops ih =>
    obtain ⟨middle, hfirst, hrest⟩ := reaches_cons.mp hrun
    rw [ih hrest]
    cases op with
    | push value =>
      simp only [step, Option.ite_none_right_eq_some, Option.some.injEq] at hfirst
      obtain ⟨_, rfl⟩ := hfirst
      simp [pushed]
    | pop =>
      simp only [step] at hfirst
      split at hfirst
      · cases hfirst
      · rename_i value rest hitems
        obtain rfl := Option.some.inj hfirst
        rw [List.filterMap_cons_none rfl, hitems]
        simp

end Fifo

end queue
