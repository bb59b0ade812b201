import SpeUtils.Spu.Execute
import SpeUtils.Spu.Registration
import SpeUtils.Lib.Run

open heap run speutils.linkedlist speutils.ring speutils.fifo speutils.messages

namespace speutils.taskmanager

/-- The calls on the host that build a whole task by themselves. -/
inductive Call where
  | fifoNoop
  | fifo_addition (adds : BitVec 32)
  | fifoRegisterProgram (addr : BitVec 64) (size : BitVec 32)
  deriving DecidableEq

/-- Such a call, with the column of the host's table that it finds on one SPE. -/
structure Emission where
  host : HostSpe
  call : Call

/-- The words that the call leaves in its slot. -/
def Emission.task (e : Emission) : Task :=
  match e.call with
  | .fifoNoop => e.host.fifoNoop.fifos.task e.host.beginSlot
  | .fifo_addition adds => (e.host.fifo_addition adds).fifos.task e.host.beginSlot
  | .fifoRegisterProgram addr size =>
    (e.host.fifoRegisterProgram addr size).fifos.task (ringGetFront e.host.ringCTX)

/-- The command word of each call. -/
def Call.command : Call → BitVec 32
  | .fifoNoop => NOOP
  | .fifo_addition _ => ADD
  | .fifoRegisterProgram _ _ => REGISTER_PROGRAM

theorem Emission.task_command (e : Emission) : e.task 0 = e.call.command := by
  unfold Emission.task Call.command
  cases e.call with
  | fifoNoop => exact e.host.fifoNoop_task
  | fifo_addition adds => exact (e.host.fifo_addition_task adds).1
  | fifoRegisterProgram addr size => exact (e.host.fifoRegisterProgram_task_front addr size).1

/-- The commands that `stage2` has a case for. -/
def builtin2 (command : BitVec 32) : Bool := command = REGISTER_PROGRAM || command = ADD

/-- The commands that `stage3` has a case for. -/
def builtin3 (command : BitVec 32) : Bool := command = ADD || command = NOOP

/-- One execution of the second or the third stage on a task, with what its
uninitialised locals and its acknowledgement buffer hold. -/
inductive Work where
  | stage2 (e : Emission) (program : Ptr)
  | stage3 (e : Emission) (res : BitVec 32) (ack : ack_s)

namespace Work

def loaded : Work → Option Emission
  | .stage2 e _ => some e
  | .stage3 _ _ _ => none

def executed : Work → Option Emission
  | .stage2 _ _ => none
  | .stage3 e _ _ => some e

/-- Whether the stage has a case for the command and leaves the table alone. -/
def builtin : Work → Bool
  | .stage2 e _ => builtin2 (command e.task)
  | .stage3 e _ _ => builtin3 (command e.task)

def perform (pic : Nat → Task → ack_s → Task × ack_s) (fuel : Nat) (s : Store) : Work → Option Store
  | .stage2 e program => s.stage2 program fuel e.task
  | .stage3 e res ack => (s.stage3 pic res fuel e.task ack).map Prod.fst

end Work

section Table

variable {s s' : Store} {pic : Nat → Task → ack_s → Task × ack_s} {fuel : Nat} {work : Work}

/-- Every lookup follows the null pointer while the table is not set up. -/
theorem Store.find_null (hnull : s.programs = none) (list : Ptr) (fuel : Nat) (command : BitVec 32) :
    s.find list fuel command = none := by
  simp [Store.find, listFirstEntry, hnull]

theorem executeBuiltin_eq_none {res : BitVec 32} {task : Task} {ack : ack_s}
    (hcommand : builtin3 (task 0) = false) : executeBuiltin res task ack = none := by
  simp only [builtin3, Bool.or_eq_false_iff, decide_eq_false_iff_not] at hcommand
  simp [executeBuiltin, hcommand.1, hcommand.2]

/-- Without a table a stage completes exactly on the commands that it has a case
for, and it leaves the table null. -/
theorem Work.perform_null (hnull : s.programs = none) (pic : Nat → Task → ack_s → Task × ack_s) (fuel : Nat)
    (work : Work) :
    ((work.perform pic fuel s).isSome ↔ work.builtin = true) ∧
      ∀ s', work.perform pic fuel s = some s' → s'.programs = none := by
  cases work with
  | stage2 e program =>
    simp only [Work.perform, Work.builtin, command, builtin2, Store.stage2, Store.find2, Store.find_null hnull,
      Option.map_none]
    by_cases hregister : e.task 0 = REGISTER_PROGRAM
    · simp [hregister, Store.register, hnull]
    · by_cases hadd : e.task 0 = ADD
      · simp [hadd, hnull, ADD, REGISTER_PROGRAM]
      · simp [hregister, hadd]
  | stage3 e res ack =>
    simp only [Work.perform, Work.builtin, command, Store.stage3, Store.find3, Store.find_null hnull]
    cases hcommand : builtin3 (e.task 0) with
    | false => simp [executeBuiltin_eq_none hcommand]
    | true =>
      simp only [builtin3, Bool.or_eq_true, decide_eq_true_eq] at hcommand
      obtain hadd | hnoop := hcommand
      · simp [executeBuiltin, hadd, hnull]
      · simp [executeBuiltin, hnoop, hnull, NOOP, ADD]

/-- From the state that `main` sets up, a sequence of stages completes exactly when
each has a case for its command. -/
theorem reaches_null_iff (hnull : s.programs = none) (works : List Work) :
    (∃ s', Reaches (fun s work => Work.perform pic fuel s work) s works s') ↔
      ∀ work ∈ works, work.builtin = true := by
  induction works generalizing s with
  | nil => simp
  | cons work works ih =>
    obtain ⟨hdone, hkept⟩ := Work.perform_null hnull pic fuel work
    simp only [reaches_cons, List.mem_cons, forall_eq_or_imp, ← hdone]
    constructor
    · rintro ⟨s', middle, hfirst, hrest⟩
      exact ⟨by simp [hfirst], (ih (hkept middle hfirst)).mp ⟨s', hrest⟩⟩
    · rintro ⟨hfirst, hrest⟩
      obtain ⟨middle, hmiddle⟩ := Option.isSome_iff_exists.mp hfirst
      obtain ⟨s', hs'⟩ := (ih (hkept middle hmiddle)).mpr hrest
      exact ⟨s', middle, hmiddle, hs'⟩

end Table

/-- The host's own tasks go through both stages: every execution completes, none
searches the program table, and on the commands of the tasks the two stages agree
what is built in. -/
structure NeverFaults (pic : Nat → Task → ack_s → Task × ack_s) (fuel : Nat) (emissions : List Emission)
    (works : List Work) : Prop where
  completes : ∃ s, Reaches (fun s work => Work.perform pic fuel s work) Store.main works s
  unsearched : ∀ work ∈ works, work.builtin = true
  agree : ∀ e ∈ emissions, builtin2 (e.task 0) = builtin3 (e.task 0)

section Additions

variable {emissions : List Emission} {works : List Work}

theorem Emission.addition_of_builtin {e : Emission} (hsecond : builtin2 (e.task 0) = true)
    (hthird : builtin3 (e.task 0) = true) : ∃ adds, e.call = .fifo_addition adds := by
  rw [e.task_command] at hsecond hthird
  cases hcall : e.call with
  | fifo_addition adds => exact ⟨adds, rfl⟩
  | fifoNoop =>
    rw [hcall] at hsecond
    have hnoop : builtin2 NOOP = true := hsecond
    exact absurd hnoop (by decide)
  | fifoRegisterProgram addr size =>
    rw [hcall] at hthird
    have hregister : builtin3 REGISTER_PROGRAM = true := hthird
    exact absurd hregister (by decide)

/-- Both stages know the commands of all the tasks only if these are additions. -/
theorem builtin_iff_additions (hloaded : works.filterMap Work.loaded = emissions)
    (hexecuted : works.filterMap Work.executed = emissions) :
    (∀ work ∈ works, work.builtin = true) ↔ ∀ e ∈ emissions, ∃ adds, e.call = .fifo_addition adds := by
  constructor
  · intro hbuiltin e he
    have hsecond : builtin2 (e.task 0) = true := by
      rw [← hloaded, List.mem_filterMap] at he
      obtain ⟨work, hwork, hloads⟩ := he
      cases work with
      | stage2 e' program =>
        obtain rfl := Option.some.inj hloads
        exact hbuiltin _ hwork
      | stage3 e' res ack => cases hloads
    have hthird : builtin3 (e.task 0) = true := by
      rw [← hexecuted, List.mem_filterMap] at he
      obtain ⟨work, hwork, hexecutes⟩ := he
      cases work with
      | stage2 e' program => cases hexecutes
      | stage3 e' res ack =>
        obtain rfl := Option.some.inj hexecutes
        exact hbuiltin _ hwork
    exact e.addition_of_builtin hsecond hthird
  · intro hall work hwork
    cases work with
    | stage2 e program =>
      have he : e ∈ emissions := hloaded ▸ List.mem_filterMap.mpr ⟨_, hwork, rfl⟩
      obtain ⟨adds, hcall⟩ := hall e he
      simp [Work.builtin, command, builtin2, e.task_command, hcall, Call.command]
    | stage3 e res ack =>
      have he : e ∈ emissions := hexecuted ▸ List.mem_filterMap.mpr ⟨_, hwork, rfl⟩
      obtain ⟨adds, hcall⟩ := hall e he
      simp [Work.builtin, command, builtin3, e.task_command, hcall, Call.command]

end Additions

/-- A sequence of the host's own tasks, each passed through the second and the third
stage, in any order of the stages of different tasks. The stages complete exactly
when all the tasks are additions: `stage2` has no case for `NOOP` and `stage3` none
for `REGISTER_PROGRAM`, and looking either up follows the null table. -/
theorem neverFaults_iff (pic : Nat → Task → ack_s → Task × ack_s) (fuel : Nat) (emissions : List Emission)
    (works : List Work) (hloaded : works.filterMap Work.loaded = emissions)
    (hexecuted : works.filterMap Work.executed = emissions) :
    ((∃ s, Reaches (fun s work => Work.perform pic fuel s work) Store.main works s) ↔
        ∀ e ∈ emissions, ∃ adds, e.call = .fifo_addition adds) ∧
      (NeverFaults pic fuel emissions works ↔ ∀ e ∈ emissions, ∃ adds, e.call = .fifo_addition adds) := by
  have hcompletes : (∃ s, Reaches (fun s work => Work.perform pic fuel s work) Store.main works s) ↔
      ∀ work ∈ works, work.builtin = true := reaches_null_iff rfl works
  have hiff := builtin_iff_additions hloaded hexecuted
  refine ⟨hcompletes.trans hiff, ?_⟩
  constructor
  · intro hnever
    exact hiff.mp hnever.unsearched
  · intro hall
    refine ⟨hcompletes.mpr (hiff.mpr hall), hiff.mpr hall, ?_⟩
    intro e he
    obtain ⟨adds, hcall⟩ := hall e he
    rw [e.task_command, hcall]
    exact (by decide : builtin2 ADD = builtin3 ADD)

/-- A call on the column of a fresh ring of two slots. -/
def freshEmission (call : Call) : Emission where
  host := .init (fun _ => 0) (fun _ => ⟨0, 0, 0⟩) 2
  call

theorem neverFaults_iff_addition :
    NeverFaults (fun _ task ack => (task, ack)) 5 [freshEmission (.fifo_addition 3)]
      [.stage2 (freshEmission (.fifo_addition 3)) none,
        .stage3 (freshEmission (.fifo_addition 3)) 0 ⟨0, 0, 0⟩] := by
  refine (neverFaults_iff _ 5 [freshEmission (.fifo_addition 3)] _ rfl rfl).2.mpr ?_
  intro e he
  rw [List.mem_singleton.mp he]
  exact ⟨3, rfl⟩

/-- The first `fifoNoop` already stops `stage2`, the first `fifoRegisterProgram`
stops `stage3`, and neither stage knows the other's command. -/
theorem noop_register_fault :
    Store.main.stage2 none 5 (freshEmission .fifoNoop).task = none ∧
      Store.main.stage3 (fun _ task ack => (task, ack)) 0 5
        (freshEmission (.fifoRegisterProgram 0x10000#64 100)).task ⟨0, 0, 0⟩ = none ∧
      ¬ NeverFaults (fun _ task ack => (task, ack)) 5 [freshEmission .fifoNoop]
        [.stage2 (freshEmission .fifoNoop) none, .stage3 (freshEmission .fifoNoop) 0 ⟨0, 0, 0⟩] ∧
      builtin2 NOOP ≠ builtin3 NOOP ∧ builtin2 REGISTER_PROGRAM ≠ builtin3 REGISTER_PROGRAM := by
  have hnoop : (freshEmission .fifoNoop).task 0 = NOOP := Emission.task_command _
  have hregister : (freshEmission (.fifoRegisterProgram 0x10000#64 100)).task 0 = REGISTER_PROGRAM :=
    Emission.task_command _
  refine ⟨?_, ?_, ?_, by decide, by decide⟩
  · rw [Store.stage2, hnoop, if_neg (by decide), if_neg (by decide), Store.find2, Store.find_null rfl]
    rfl
  · rw [Store.stage3, executeBuiltin_eq_none (by rw [hregister]; decide), hregister, Store.find3,
      Store.find_null rfl]
    rfl
  · intro hnever
    have hbuiltin := hnever.unsearched (.stage2 (freshEmission .fifoNoop) none) (by simp)
    rw [Work.builtin, command, hnoop] at hbuiltin
    exact absurd hbuiltin (by decide)

end speutils.taskmanager
