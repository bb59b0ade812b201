import SpeUtils.Spu.Buffers
import SpeUtils.Spu.Execute

open speutils.fifo speutils.messages

namespace speutils.taskmanager

/-- What is left open about the task bodies once the built-in cases of `stage3` are
spelled out: `res` is the stack word that becomes the uninitialised local, `settle`
what a built-in task leaves behind, `program` the default case. -/
structure Behaviour (world : Type) where
  stage2 : world → Nat → Task → world
  res : world → BitVec 32
  settle : world → Task → world
  program : world → Nat → Task → ack_s → world × Task × ack_s

section

variable {world : Type}

def Behaviour.bodies (b : Behaviour world) : TaskBodies world where
  stage2 := b.stage2
  stage3 := fun w id task ack =>
    match executeBuiltin (b.res w) task ack with
    | some ack => (b.settle w task, task, ack)
    | none => b.program w id task ack

/-- An acknowledgement buffer changes only when `stage3` executes its context. -/
theorem runStage_ack (bodies : TaskBodies world) (m : Spu world × fifo_s) (x : Fin 4) :
    ((runStage bodies m).1.pipe x).ack =
      if m.1.stage = .stage3 ∧ m.1.acting m.2 = some x then
        (bodies.stage3 m.1.world (m.1.pipe x).id (m.1.pipe x).task (m.1.pipe x).ack).2.2
      else (m.1.pipe x).ack := by
  cases hstage : m.1.stage with
  | stage1 =>
    simp only [runStage, hstage, stage1_eq, reduceCtorEq, false_and, if_false]
    split
    · by_cases hx : x = m.1.context 0
      · simp [hx]
      · simp [hx]
    · rfl
  | stage2 =>
    simp only [runStage, hstage, stage2_eq, reduceCtorEq, false_and, if_false]
    split
    · exact (dmaWaitTag_kept _ m).ack x
    · rfl
  | stage3 =>
    have hacting : m.1.acting m.2 = if (m.1.pipe (m.1.context 2)).active then some (m.1.context 2) else none := by
      simp only [Spu.acting, Control.acting, Spu.control_stage, hstage]
      rfl
    simp only [runStage, hstage, stage3_eq, true_and, hacting]
    by_cases hactive : (m.1.pipe (m.1.context 2)).active = true
    · by_cases hx : x = m.1.context 2
      · subst hx
        simp [hactive]
      · simp [hactive, hx, Ne.symm hx]
    · simp [hactive]
  | stage4 =>
    simp only [runStage, hstage, stage4_eq, reduceCtorEq, false_and, if_false]
    split
    · by_cases hx : x = m.1.context 3
      · simp [hx]
      · simp [hx]
    · rfl

end

namespace Launch

variable {world : Type} (l : Launch world)

theorem run_ack (n : Nat) (x : Fin 4) :
    ((l.run (n + 1)).pipe x).ack =
      if (l.run n).stage = .stage3 ∧ l.acting n = some x then
        (l.bodies.stage3 (l.run n).world x ((l.found n).1.pipe x).task ((l.run n).pipe x).ack).2.2
      else ((l.run n).pipe x).ack := by
  have hkept := l.found_kept n
  have hstage : (l.found n).1.stage = (l.run n).stage := congrArg Control.stage hkept.control
  rw [run_succ, runStage_ack, l.found_acting, hstage, hkept.world, hkept.ack, (l.found_buffers n).id]

/-- The buffer of a context keeps an acknowledgement between its execution and the
stage that sends it. -/
theorem ack_kept (t : Nat) {n : Nat} (hfrom : 4 * (t + 2) + 3 ≤ n) (hto : n ≤ 4 * (t + 3) + 3) :
    ((l.run n).pipe (turn t)).ack = ((l.run (4 * (t + 2) + 3)).pipe (turn t)).ack := by
  induction n, hfrom using Nat.le_induction with
  | base => rfl
  | succ n hfrom ih =>
    rw [run_ack, if_neg, ih (by omega)]
    rintro ⟨hstage, hact⟩
    have hoffset : n % 4 = 2 := l.stage_iff.mp hstage
    have hturn := l.acting_turn hact
    have hmod := turn_mod t
    omega

theorem puts_le_succ (n : Nat) : (l.run n).puts ≤ (l.run (n + 1)).puts := by
  have hputs := runStage_puts l.bodies (l.found n)
  rw [← run_succ, (l.found_kept n).puts] at hputs
  rw [hputs]
  split
  · exact Nat.le_succ _
  · exact Nat.le_refl _

theorem puts_mono {n k : Nat} (h : n ≤ k) : (l.run n).puts ≤ (l.run k).puts := by
  induction k, h using Nat.le_induction with
  | base => exact Nat.le_refl _
  | succ k _ ih => exact Nat.le_trans ih (l.puts_le_succ k)

/-- The put that the `n`-th stage has started from a context is still outstanding
before the `k`-th. -/
def Outstanding (n : Nat) (x : Fin 4) (k : Nat) : Prop :=
  ∃ t ∈ (l.run k).queue, t.dir = .put ∧ t.context = x ∧ t.serial = (l.run n).puts

/-- A stage starts no put with the number of an earlier one. -/
theorem mem_found_queue {k : Nat} {t : Transfer} (hdir : t.dir = .put) (hserial : t.serial < (l.run k).puts)
    (ht : t ∈ (l.run (k + 1)).queue) : t ∈ (l.found k).1.queue := by
  rw [run_succ, runStage_queue] at ht
  split at ht
  · obtain ht | ht := List.mem_append.mp ht
    · exact ht
    · obtain rfl := List.mem_singleton.mp ht
      cases hdir
  · exact (List.mem_filter.mp ht).1
  · obtain ht | ht := List.mem_append.mp ht
    · exact ht
    · obtain rfl := List.mem_singleton.mp ht
      simp only [(l.found_kept k).puts] at hserial
      exact absurd hserial (Nat.lt_irrefl _)
  · exact ht

/-- A put that is outstanding was so before the last stage, which has not executed its
context. -/
theorem Outstanding.pred {n k : Nat} {x : Fin 4} (hsent : (l.run n).puts < (l.run k).puts)
    (hout : l.Outstanding n x (k + 1)) :
    l.Outstanding n x k ∧ ((l.run (k + 1)).pipe x).ack = ((l.run k).pipe x).ack := by
  obtain ⟨t, ht, hdir, hcontext, hserial⟩ := hout
  have hfound := l.mem_found_queue hdir (hserial ▸ hsent) ht
  refine ⟨⟨t, (arriveAll_queue (l.arrivals k) _).subset hfound, hdir, hcontext, hserial⟩, ?_⟩
  rw [run_ack, if_neg]
  rintro ⟨hstage, hact⟩
  rw [← l.found_acting k] at hact
  have hstage' : (l.found k).1.control.stage = .stage3 := by
    rw [(l.found_kept k).control]
    exact hstage
  have hloaded := Control.loaded_of_acting (.inl hstage') hact
  exact (l.found_buffers k).loaded x hloaded t hfound hcontext

/-- While a put is outstanding its buffer holds what it held when the put was
started. -/
theorem Outstanding.ack_eq {n k : Nat} {x : Fin 4} (hstage : (l.run n).stage = .stage4)
    (hact : l.acting n = some x) (hk : n < k) (hout : l.Outstanding n x k) :
    ((l.run k).pipe x).ack = ((l.run n).pipe x).ack := by
  have hstart : (l.run (n + 1)).puts = (l.run n).puts + 1 := by
    have hputs := runStage_puts l.bodies (l.found n)
    have hstage' : (l.found n).1.stage = .stage4 := (congrArg Control.stage (l.found_kept n).control).trans hstage
    rw [← run_succ, l.found_acting, hact, hstage'] at hputs
    simpa [(l.found_kept n).puts] using hputs
  induction k, hk using Nat.le_induction with
  | base => rw [run_ack, if_neg (by simp [hstage])]
  | succ k hk ih =>
    have hsent : (l.run n).puts < (l.run k).puts := by
      have hmono : (l.run (n + 1)).puts ≤ (l.run k).puts := l.puts_mono hk
      omega
    obtain ⟨hbefore, hack⟩ := hout.pred l hsent
    rw [hack, ih hbefore]

/-- The launch executes these words as a task that `stage1` has fetched into a context
in iteration `t`. -/
structure Processes (t : Nat) (x : Fin 4) (task : Task) : Prop where
  fetched : l.acting (4 * t) = some x
  words : ((l.found (4 * (t + 2) + 2)).1.pipe x).task = task

/-- The acknowledgement that `stage4` sends for the task fetched in iteration `t`: the
content of the buffer for as long as the put may read it. -/
structure Sends (t : Nat) (x : Fin 4) (ack : ack_s) : Prop where
  started : l.Outstanding (4 * (t + 3) + 3) x (4 * (t + 3) + 4)
  carried : ∀ k, 4 * (t + 3) + 3 < k → l.Outstanding (4 * (t + 3) + 3) x k → ((l.run k).pipe x).ack = ack

variable {l} {t : Nat} {x : Fin 4} {task : Task}

theorem Processes.sends (hp : l.Processes t x task) :
    l.Sends t x (l.bodies.stage3 (l.run (4 * (t + 2) + 2)).world x task
      ((l.run (4 * (t + 2) + 2)).pipe x).ack).2.2 := by
  obtain rfl := l.acting_fetch hp.fetched
  have hactive := (l.acting_fetch_iff t).mp hp.fetched
  have hexecutes : l.acting (4 * (t + 2) + 2) = some (turn t) := by
    rw [l.acting_later t (by omega) (by omega), if_pos hactive]
  have hretires : l.acting (4 * (t + 3) + 3) = some (turn t) := by
    rw [l.acting_later t (by omega) (by omega), if_pos hactive]
  have hstage : (l.run (4 * (t + 2) + 2)).stage = .stage3 := l.stage_iff.mpr (by simp [Stage.offset])
  have hexecuted := l.run_ack (4 * (t + 2) + 2) (turn t)
  rw [if_pos ⟨hstage, hexecutes⟩, hp.words] at hexecuted
  refine ⟨?_, ?_⟩
  · have hqueue := runStage_queue l.bodies (l.found (4 * (t + 3) + 3))
    have hkept := l.found_kept (4 * (t + 3) + 3)
    have hlast : (l.found (4 * (t + 3) + 3)).1.stage = .stage4 :=
      (congrArg Control.stage hkept.control).trans (l.retire_stage (t + 3))
    rw [← run_succ, l.found_acting, hretires, hlast] at hqueue
    rw [Outstanding, hqueue]
    exact ⟨_, List.mem_append_right _ (List.mem_singleton_self _), rfl, rfl, hkept.puts⟩
  · intro k hk hout
    rw [hout.ack_eq l (l.retire_stage (t + 3)) hretires hk, ← hexecuted]
    exact l.ack_kept t (by omega) (Nat.le_refl _)

end Launch

theorem Behaviour.stage3_ack {world : Type} (b : Behaviour world) (w : world) (id : Nat) {task : Task}
    (hcommand : task 0 = NOOP ∨ task 0 = ADD) (ack : ack_s) :
    (b.bodies.stage3 w id task ack).2.2 = { ack with
      retval := if task 0 = ADD then b.res w + BitVec.ofInt 32 (additionSum (task 2) (task 3) (task 4))
        else ack.retval } := by
  obtain hnoop | hadd := hcommand
  · simp [Behaviour.bodies, executeBuiltin, hnoop, NOOP, ADD]
  · simp only [Behaviour.bodies, executeBuiltin, hadd, if_true, addTerms_zero]

/-- Two acknowledgements say the same, and the monitor recognises both. -/
structure SameAck (ack ack' : ack_s) : Prop where
  task_id : ack.task_id = ack'.task_id
  retval : ack.retval = ack'.retval
  recognised : ack.task_id ≠ ACK_CLEAR ∧ ack'.task_id ≠ ACK_CLEAR

/-- Two launches that execute the same `NOOP` or `ADD` words, each in some context and
iteration, after any history. Their acknowledgements agree and are recognised exactly
when the buffers happened to hold the same usable `task_id`, which nothing ever
writes, and with it the same `retval` for a `NOOP` or the same stack word for an
`ADD`. -/
theorem sameAck_iff {world world' : Type} (b : Behaviour world) (b' : Behaviour world') {l : Launch world}
    {l' : Launch world'} (hb : l.bodies = b.bodies) (hb' : l'.bodies = b'.bodies) {t t' : Nat} {x x' : Fin 4}
    {task : Task} (hp : l.Processes t x task) (hp' : l'.Processes t' x' task)
    (hcommand : task 0 = NOOP ∨ task 0 = ADD) :
    let s := l.run (4 * (t + 2) + 2)
    let s' := l'.run (4 * (t' + 2) + 2)
    ∃ ack ack', l.Sends t x ack ∧ l'.Sends t' x' ack' ∧
      (SameAck ack ack' ↔
        (s.pipe x).ack.task_id = (s'.pipe x').ack.task_id ∧ (s.pipe x).ack.task_id ≠ ACK_CLEAR ∧
          (task 0 = NOOP → (s.pipe x).ack.retval = (s'.pipe x').ack.retval) ∧
          (task 0 = ADD → b.res s.world = b'.res s'.world)) := by
  have hsends := hp.sends
  have hsends' := hp'.sends
  rw [hb, b.stage3_ack _ _ hcommand] at hsends
  rw [hb', b'.stage3_ack _ _ hcommand] at hsends'
  refine ⟨_, _, hsends, hsends', ?_⟩
  constructor
  · rintro ⟨htask, hretval, hclear, _⟩
    refine ⟨htask, hclear, ?_, ?_⟩
    · intro hnoop
      simpa [hnoop, NOOP, ADD] using hretval
    · intro hadd
      simpa [hadd] using hretval
  · rintro ⟨htask, hclear, hnoop, hadd⟩
    refine ⟨htask, ?_, hclear, htask ▸ hclear⟩
    obtain hcommand | hcommand := hcommand
    · simp [hcommand, NOOP, ADD, hnoop hcommand]
    · simp [hcommand, hadd hcommand]

/-- The task bodies of an SPU that is given nothing but built-in tasks. -/
def builtinsOnly : Behaviour Unit where
  stage2 := fun w _ _ => w
  res := fun _ => 0
  settle := fun w _ => w
  program := fun w _ task ack => (w, task, ack)

/-- The words of `fifo_addition(1)`. -/
def additionWords (word : Nat) : BitVec 32 := [ADD, 0x1ee7C0DE, 1, 1, 2].getD word 0

/-- One published slot, both slots of the ring with these words in them, and ack buffers
that `memalign` has left with this first word. -/
def oneAdd (leftover : BitVec 32) : Launch Unit where
  bodies := builtinsOnly.bodies
  task := fun _ _ => 0
  ack := fun _ => ⟨leftover, 0, 0⟩
  world₀ := ()
  max_entries := 2
  fifo := fun _ => ⟨fun word => additionWords (word % 32), fun _ => ⟨0, 0, 0⟩, ⟨0, 1⟩, 2⟩
  arrivals := fun _ => []

theorem oneAdd_processes {leftover : BitVec 32} (hleftover : leftover = 7 ∨ leftover = ACK_CLEAR) :
    (oneAdd leftover).Processes 0 0 (fun word => additionWords word) := by
  refine ⟨rfl, funext ?_⟩
  obtain rfl | rfl := hleftover
  · decide +kernel
  · decide +kernel

theorem sameAck_iff_oneAdd : ∃ ack ack',
    (oneAdd 7).Sends 0 0 ack ∧ (oneAdd 7).Sends 0 0 ack' ∧ SameAck ack ack' := by
  obtain ⟨ack, ack', hsends, hsends', hiff⟩ := sameAck_iff builtinsOnly builtinsOnly rfl rfl
    (oneAdd_processes (.inl rfl)) (oneAdd_processes (.inl rfl)) (.inr rfl)
  exact ⟨ack, ack', hsends, hsends', hiff.mpr ⟨rfl, by decide +kernel, fun _ => rfl, fun _ => rfl⟩⟩

/-- The same addition acknowledged out of two different leftovers, one of which the
monitor takes for an empty slot. -/
theorem oneAdd_not_sameAck : ∃ ack ack',
    (oneAdd 7).Sends 0 0 ack ∧ (oneAdd ACK_CLEAR).Sends 0 0 ack' ∧ ack.task_id = 7 ∧
      ack'.task_id = ACK_CLEAR ∧ ¬ SameAck ack ack' := by
  have hclear : ((oneAdd ACK_CLEAR).bodies.stage3 ((oneAdd ACK_CLEAR).run 10).world 0
      (fun word => additionWords word) (((oneAdd ACK_CLEAR).run 10).pipe 0).ack).2.2.task_id = ACK_CLEAR := by
    decide +kernel
  refine ⟨_, _, (oneAdd_processes (.inl rfl)).sends, (oneAdd_processes (.inr rfl)).sends,
    by decide +kernel, hclear, ?_⟩
  intro hsame
  exact hsame.recognised.2 hclear

end speutils.taskmanager
