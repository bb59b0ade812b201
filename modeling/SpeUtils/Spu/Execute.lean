import SpeUtils.Spu.Programs
import SpeUtils.Fifo.Slots
import Mathlib.Algebra.BigOperators.Intervals

open heap speutils.linkedlist speutils.ring speutils.fifo speutils.messages

namespace speutils.taskmanager

/-- A signed loop variable below its bound can be incremented without overflow. -/
theorem toInt_add_one {i bound : BitVec 32} (hlt : i.slt bound = true) : (i + 1).toInt = i.toInt + 1 := by
  have hslt := BitVec.slt_iff_toInt_lt.mp hlt
  have hbound := BitVec.toInt_lt (x := bound)
  have hlow := BitVec.le_toInt i
  have hone : (1 : BitVec 32).toInt = 1 := by decide
  rw [BitVec.toInt_add, hone, Int.bmod_eq_emod]
  split <;> omega

/-- The loop of `case ADD` in `stage3`, with the loop variable at `i`:
`for (; i < task[2]; i++) res += task[3] + i + task[4]`. -/
def addTerms (task : Task) (i res : BitVec 32) : BitVec 32 :=
  if i.slt (task 2) then addTerms task (i + 1) (res + (task 3 + i + task 4)) else res
termination_by ((task 2).toInt - i.toInt).toNat
decreasing_by
  rename_i hlt
  have hnext := toInt_add_one hlt
  have hslt := BitVec.slt_iff_toInt_lt.mp hlt
  omega

/-- The word of a task that both stages switch on. -/
def command (task : Task) : BitVec 32 := task 0

/-- The cases of `stage3` that need no program: what is left in the acknowledgement
buffer, or nothing in the default case. `res` is the uninitialised local that the
terms are added to, and `NOOP` leaves the buffer as it is. -/
def executeBuiltin (res : BitVec 32) (task : Task) (ack : ack_s) : Option ack_s :=
  if task 0 = ADD then some { ack with retval := addTerms task 0 res }
  else if task 0 = NOOP then some ack
  else none

/-- The switch of `stage3`. In the default case `prog->LS == memalign(..)` is a
comparison again, so a program without local store is called through the null
pointer. `pic` stands for the loaded programs. -/
def Store.stage3 (pic : Nat → Task → ack_s → Task × ack_s) (res : BitVec 32) (fuel : Nat) (s : Store)
    (task : Task) (ack : ack_s) : Option (Store × Task × ack_s) :=
  match executeBuiltin res task ack with
  | some ack => some (s, task, ack)
  | none => do
    let (prog, s) ← s.find3 fuel (task 0)
    if prog = none then return (s, task, ack)
    else
      let program ← read s.records prog
      let code ← program.LS
      let (task, ack) := pic code task ack
      return (s, task, ack)

/-- The sum that an `ADD` task asks for. -/
def additionSum (n a b : BitVec 32) : Int :=
  ∑ i ∈ Finset.range n.toInt.toNat, (a.toInt + i + b.toInt)

/-- What the loop adds from one value of the loop variable on. -/
theorem addTerms_eq (task : Task) (i res : BitVec 32) (hi : 0 ≤ i.toInt) :
    addTerms task i res = res + BitVec.ofInt 32
      (∑ k ∈ Finset.Ico i.toInt.toNat (task 2).toInt.toNat, ((task 3).toInt + k + (task 4).toInt)) := by
  induction i, res using addTerms.induct task with
  | case1 i res hlt ih =>
    have hnext := toInt_add_one hlt
    have hslt := BitVec.slt_iff_toInt_lt.mp hlt
    have hsplit : (i + 1).toInt.toNat = i.toInt.toNat + 1 := by omega
    have hterm : BitVec.ofInt 32 ((task 3).toInt + (i.toInt.toNat : Int) + (task 4).toInt) =
        task 3 + i + task 4 := by
      rw [Int.toNat_of_nonneg hi, BitVec.ofInt_add, BitVec.ofInt_add, BitVec.ofInt_toInt,
        BitVec.ofInt_toInt, BitVec.ofInt_toInt]
    rw [addTerms, if_pos hlt, ih (by omega), hsplit,
      Finset.sum_eq_sum_Ico_succ_bot (by omega : i.toInt.toNat < (task 2).toInt.toNat),
      BitVec.ofInt_add, hterm, BitVec.add_assoc]
  | case2 i res hge =>
    have hle : ¬ i.toInt < (task 2).toInt := fun hlt => hge (BitVec.slt_iff_toInt_lt.mpr hlt)
    rw [addTerms, if_neg hge, Finset.Ico_eq_empty (by omega)]
    simp

/-- The loop adds the sum to whatever the uninitialised local held. -/
theorem addTerms_zero (task : Task) (res : BitVec 32) :
    addTerms task 0 res = res + BitVec.ofInt 32 (additionSum (task 2) (task 3) (task 4)) := by
  rw [addTerms_eq task 0 res (by decide), additionSum, Finset.range_eq_Ico]
  rfl

theorem Store.stage3_add (pic : Nat → Task → ack_s → Task × ack_s) (res : BitVec 32) (fuel : Nat)
    (s : Store) {task : Task} (hadd : task 0 = ADD) (ack : ack_s) :
    s.stage3 pic res fuel task ack = some (s, task, { ack with
      retval := res + BitVec.ofInt 32 (additionSum (task 2) (task 3) (task 4)) }) := by
  simp only [stage3, executeBuiltin, if_pos hadd, addTerms_zero]

/-- The acknowledgement of an `ADD` task carries its sum, which is zero when there is
nothing to add. -/
structure AddsUp (task : Task) (ack : ack_s) : Prop where
  retval : ack.retval = BitVec.ofInt 32 (additionSum (task 2) (task 3) (task 4))
  nothing : (task 2).toInt ≤ 0 → ack.retval = 0

/-- An `ADD` task is executed without a look at the program table, and its
acknowledgement carries the sum exactly when the uninitialised `res` happened to hold
zero. The words it reads are those that `fifo_addition` writes. -/
theorem addsUp_iff (pic : Nat → Task → ack_s → Task × ack_s) (res : BitVec 32) (fuel : Nat) (s : Store)
    (task : Task) (hadd : task 0 = ADD) (ack : ack_s) :
    (∃ ack', s.stage3 pic res fuel task ack = some (s, task, ack') ∧ (AddsUp task ack' ↔ res = 0)) ∧
      ∀ (host : HostSpe) (adds : BitVec 32),
        let sent := (host.fifo_addition adds).fifos.task host.beginSlot
        sent 0 = ADD ∧ sent 2 = adds ∧ sent 3 = 1 ∧ sent 4 = 2 := by
  constructor
  · refine ⟨_, s.stage3_add pic res fuel hadd ack, ?_⟩
    constructor
    · intro hadds
      simpa using hadds.retval
    · rintro rfl
      refine ⟨BitVec.zero_add _, ?_⟩
      intro hnone
      rw [additionSum, Int.toNat_of_nonpos hnone, Finset.range_zero, Finset.sum_empty]
      rfl
  · intro host adds
    obtain ⟨hcommand, _, hterms, hfirst, hsecond⟩ := host.fifo_addition_task adds
    exact ⟨hcommand, hterms, hfirst, hsecond⟩

/-- The task that `fifo_addition(3)` kicks on a fresh ring of two slots. -/
def threeTerms : Task :=
  ((HostSpe.init (fun _ => 0) (fun _ => ⟨0, 0, 0⟩) 2).fifo_addition 3).fifos.task 0

theorem addsUp_iff_threeTerms : ∃ ack,
    Store.main.stage3 (fun _ task ack => (task, ack)) 0 0 threeTerms ⟨0, 0, 0⟩ =
        some (Store.main, threeTerms, ack) ∧
      AddsUp threeTerms ack := by
  obtain ⟨ack, hstage, hiff⟩ := (addsUp_iff (fun _ task ack => (task, ack)) 0 0 Store.main threeTerms rfl
    ⟨0, 0, 0⟩).1
  exact ⟨ack, hstage, hiff.mpr rfl⟩

/-- With 5 left on the stack the three terms 3, 4 and 5 come back as 17. -/
theorem threeTerms_not_addsUp : ∃ ack,
    Store.main.stage3 (fun _ task ack => (task, ack)) 5 0 threeTerms ⟨0, 0, 0⟩ =
        some (Store.main, threeTerms, ack) ∧
      ack.retval = 17 ∧ additionSum (threeTerms 2) (threeTerms 3) (threeTerms 4) = 12 ∧
      ¬ AddsUp threeTerms ack := by
  have hsum : additionSum (threeTerms 2) (threeTerms 3) (threeTerms 4) = 12 := by decide
  refine ⟨_, Store.main.stage3_add _ 5 0 rfl ⟨0, 0, 0⟩, ?_, hsum, ?_⟩
  · rw [hsum]
    decide
  · intro hadds
    have hretval := hadds.retval
    rw [hsum] at hretval
    revert hretval
    decide

end speutils.taskmanager
