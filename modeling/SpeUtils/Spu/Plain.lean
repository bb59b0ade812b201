import SpeUtils.Spu.Independence
import SpeUtils.Spu.Gets

open speutils.fifo

namespace speutils.taskmanager

section

variable {world : Type} {m : Spu world × fifo_s} {x : Fin 4}

/-- The stages without a task body, and those that find no task, leave the world alone. -/
theorem Acted.world_idle {bodies : TaskBodies world} {acting : Option (Fin 4)} {s : Spu world}
    (h : Acted bodies m acting s) (hidle : m.1.stage = .stage1 ∨ m.1.stage = .stage4 ∨ acting = none) :
    s.world = m.1.world := by
  cases hact : acting with
  | none => exact (h.idle hact).2
  | some x =>
    obtain hstage | hstage | hnone := hidle
    · exact (h.fetch x hstage hact).2
    · exact (h.acknowledge x hstage hact).2
    · rw [hact] at hnone
      cases hnone

/-- Transfers that are not gets into a buffer leave it alone. -/
theorem foldl_perform_task {ts : List Transfer} (hnone : ∀ t ∈ ts, t.getsInto x = false) :
    ((ts.foldl (fun m t => t.perform m) m).1.pipe x).task = (m.1.pipe x).task := by
  obtain ⟨_, hsame⟩ | ⟨t, ht, hget, _⟩ := foldl_perform_get ts m x
  · exact hsame
  · rw [hnone t ht] at hget
    cases hget

theorem arriveAll_task {indices : List Nat} (hnone : ∀ t ∈ m.1.queue, t.getsInto x = false) :
    ((arriveAll indices m).1.pipe x).task = (m.1.pipe x).task := by
  induction indices generalizing m with
  | nil => rfl
  | cons index indices ih =>
    rw [arriveAll, List.foldl_cons]
    cases harrive : arrive index m with
    | none => exact ih hnone
    | some n =>
      have hqueue := arrive_queue harrive
      have hfirst : (n.1.pipe x).task = (m.1.pipe x).task := by
        simp only [arrive] at harrive
        split at harrive
        · cases harrive
        · next t ht =>
          obtain rfl := Option.some.inj harrive
          have hone : ∀ u ∈ [t], u.getsInto x = false := by
            intro u hu
            rw [List.mem_singleton.mp hu]
            exact hnone t (List.mem_of_getElem? ht)
          exact foldl_perform_task hone
      refine (ih fun t ht => ?_).trans hfirst
      rw [Option.getD_some, hqueue] at ht
      exact hnone t (List.mem_of_mem_eraseIdx ht)

/-- A loaded context keeps its words until it is executed. -/
theorem runStage_task_loaded (bodies : TaskBodies world) (hbuffers : Buffers m.1) (hloaded : m.1.control.Loaded x)
    (hother : m.1.stage = .stage3 → m.1.acting m.2 ≠ some x) :
    ((runStage bodies m).1.pipe x).task = (m.1.pipe x).task := by
  have hnone : ∀ t ∈ m.1.queue, t.getsInto x = false := by
    intro t ht
    simp [Transfer.getsInto, hbuffers.loaded x hloaded t ht]
  rw [runStage_task]
  split
  · next y _ _ =>
    exact foldl_perform_task fun t ht => hnone t (List.mem_filter.mp ht).1
  · next y hstage hact =>
    refine if_neg ?_
    rintro rfl
    exact hother hstage hact
  · rfl

end

/-- The task manager without a pipeline: what its task bodies keep and what its
acknowledgement buffers hold. -/
structure Plain (world : Type) where
  world : world
  ack : Fin 4 → ack_s

/-- One task from beginning to end. -/
def Plain.process {world : Type} (bodies : TaskBodies world) (p : Plain world) (x : Fin 4) (task : Task) :
    Plain world :=
  let (world, _, ack) := bodies.stage3 (bodies.stage2 p.world x task) x task (p.ack x)
  { world, ack := Function.update p.ack x ack }

namespace Launch

variable {world : Type} (l : Launch world)

/-- Iteration `t` finds a task to fetch. -/
def Fetches (t : Nat) : Prop := l.acting (4 * t) = some (turn t)

instance (t : Nat) : Decidable (l.Fetches t) := inferInstanceAs (Decidable (_ = _))

/-- The words of the task that iteration `t` has fetched, as `stage2` acts on them. -/
def words (t : Nat) : Task := ((l.run (4 * (t + 1) + 2)).pipe (turn t)).task

/-- The plain manager before the task of iteration `t`, with the same tasks. -/
def plain (l : Launch world) : Nat → Plain world
  | 0 => { world := l.world₀, ack := l.ack }
  | t + 1 => if l.Fetches t then (l.plain t).process l.bodies (turn t) (l.words t) else l.plain t

/-- The plain manager's world after `stage2` of the task of iteration `t`, if there is one. -/
def begun (t : Nat) : world :=
  if l.Fetches t then l.bodies.stage2 (l.plain t).world (turn t) (l.words t) else (l.plain t).world

/-- When `stage2` is about to act on the next task, the pipeline has left everything as the
plain manager does halfway through the task of iteration `t`. -/
structure InStep (t : Nat) : Prop where
  world : (l.run (4 * (t + 2) + 1)).world = l.begun t
  ack : ∀ x, ((l.run (4 * (t + 2) + 1)).pipe x).ack = (l.plain t).ack x

/-- For the task of iteration `t` and the next one it makes no difference which comes
first, the `stage3` of the one or the `stage2` of the other. -/
def Commutes (t : Nat) : Prop :=
  let early := l.bodies.stage3 (l.bodies.stage2 (l.begun t) (turn (t + 1)) (l.words (t + 1))) (turn t) (l.words t)
    ((l.plain t).ack (turn t))
  let late := l.bodies.stage3 (l.begun t) (turn t) (l.words t) ((l.plain t).ack (turn t))
  early.1 = l.bodies.stage2 late.1 (turn (t + 1)) (l.words (t + 1)) ∧ early.2.2 = late.2.2

section Steps

theorem fetches_iff (t : Nat) : l.Fetches t ↔ ((l.run (4 * t + 1)).pipe (turn t)).active = true :=
  l.acting_fetch_iff t

/-- The later stages act on what was fetched, and on nothing else. -/
theorem acting_eq (t k : Nat) (hk : 0 < k) (hk3 : k ≤ 3) :
    l.acting (4 * (t + k) + k) = if l.Fetches t then some (turn t) else none := by
  rw [l.acting_later t hk hk3]
  exact if_congr (l.fetches_iff t).symm rfl rfl

/-- The first tasks are not behind others. -/
theorem acting_early {n : Nat} (hn : n = 1 ∨ n = 2 ∨ n = 6) : l.acting n = none := by
  have hstage : (l.run n).control.stage ≠ .stage1 := by
    intro h
    have hoffset : n % 4 = 0 := l.stage_iff.mp h
    omega
  have hcontext := contextOf_neg (n / 4) (n % 4)
  have hact := Control.acting_of_ne_stage1 (l.fifo n).atomic hstage
  have hearly : ((l.run n).pipe (contextOf (-BitVec.ofNat 32 (n / 4)) (n % 4))).active = false := by
    obtain rfl | rfl | rfl := hn
    · exact l.early_inactive (t := 2) (by omega) (by omega) (by omega)
    · exact l.early_inactive (t := 1) (by omega) (by omega) (by omega)
    · exact l.early_inactive (t := 2) (by omega) (by omega) (by omega)
  rw [Spu.control_cycle, Spu.control_stage, (l.run_clock _).1, (l.run_clock _).2, stageAt_offset, Spu.control_active,
    hearly] at hact
  exact hact

theorem run_world_idle {n : Nat} (h : n % 4 = 0 ∨ n % 4 = 3 ∨ l.acting n = none) :
    (l.run (n + 1)).world = (l.run n).world := by
  have hkept := l.found_kept n
  have hstage : (l.found n).1.stage = (l.run n).stage := congrArg Control.stage hkept.control
  rw [(l.run_acted n).world_idle, hkept.world]
  rw [hstage]
  exact h.imp l.stage_iff.mpr (Or.imp l.stage_iff.mpr id)

theorem turn_eq {t n j : Nat} (hn : n / 4 = t + j) : turn t = contextOf (-BitVec.ofNat 32 (n / 4)) j := by
  have hturn := turn_mod t
  have hcontext := contextOf_neg (n / 4) j
  apply Fin.ext
  omega

/-- Between its two stages a task is loaded. -/
theorem loaded_between {t n : Nat} (hfetch : l.Fetches t) (hfrom : 4 * (t + 1) + 2 ≤ n) (hto : n < 4 * (t + 2) + 2) :
    (l.run n).control.Loaded (turn t) := by
  have hactive : ((l.run n).pipe (turn t)).active = true := by
    rw [(l.turn_kept t (by omega) (by omega)).1]
    exact (l.fetches_iff t).mp hfetch
  refine ⟨hactive, ?_⟩
  rw [Spu.control_cycle, Spu.control_stage, (l.run_clock n).2]
  by_cases hnext : n < 4 * (t + 2)
  · refine .inr (.inr ⟨turn_eq (by omega), ?_⟩)
    have hoffset : n % 4 = 2 ∨ n % 4 = 3 := by omega
    exact hoffset.imp l.stage_iff.mpr l.stage_iff.mpr
  · exact .inl (turn_eq (by omega))

/-- Transfers do not touch the words of a loaded task. -/
theorem found_task {n : Nat} {x : Fin 4} (hloaded : (l.run n).control.Loaded x) :
    ((l.found n).1.pipe x).task = ((l.run n).pipe x).task := by
  refine arriveAll_task fun t ht => ?_
  simp [Transfer.getsInto, (l.run_buffers n).loaded x hloaded t ht]

theorem words_kept {t n : Nat} (hfetch : l.Fetches t) (hfrom : 4 * (t + 1) + 2 ≤ n) (hto : n ≤ 4 * (t + 2) + 2) :
    ((l.run n).pipe (turn t)).task = l.words t := by
  induction n, hfrom using Nat.le_induction with
  | base => rfl
  | succ n hfrom ih =>
    have hloaded := l.loaded_between hfetch hfrom (by omega)
    have hkept := l.found_kept n
    rw [run_succ, runStage_task_loaded l.bodies (l.found_buffers n) (by rwa [hkept.control]), l.found_task hloaded,
      ih (by omega)]
    intro hstage hact
    rw [l.found_acting] at hact
    have hturn := l.acting_turn hact
    have hmod := turn_mod t
    have hoffset : n % 4 = 2 := l.stage_iff.mp ((congrArg Control.stage hkept.control).symm.trans hstage)
    omega

/-- And so `stage3` acts on them as well. -/
theorem processes {t : Nat} (hfetch : l.Fetches t) : l.Processes t (turn t) (l.words t) where
  fetched := hfetch
  words := by
    have hexecutes := l.acting_eq t 2 (by omega) (by omega)
    rw [if_pos hfetch] at hexecutes
    have hstage : (l.run (4 * (t + 2) + 2)).control.stage = .stage3 := l.stage_iff.mpr (by simp [Stage.offset])
    have hloaded := Control.loaded_of_acting (.inl hstage) hexecutes
    rw [l.found_task hloaded]
    exact l.words_kept hfetch (by omega) (Nat.le_refl _)

theorem run_world_load {t : Nat} (hfetch : l.Fetches t) :
    (l.run (4 * (t + 1) + 2)).world = l.bodies.stage2 (l.run (4 * (t + 1) + 1)).world (turn t) (l.words t) := by
  have hloads := l.acting_eq t 1 (by omega) (by omega)
  rw [if_pos hfetch] at hloads
  have hkept := l.found_kept (4 * (t + 1) + 1)
  have hstage : (l.found (4 * (t + 1) + 1)).1.stage = .stage2 :=
    (congrArg Control.stage hkept.control).trans (l.stage_iff.mpr (by simp [Stage.offset]))
  obtain ⟨_, _, hworld⟩ := (l.run_acted _).load _ hstage hloads
  rwa [hkept.world, (l.found_buffers _).id] at hworld

theorem run_world_execute {t : Nat} (hfetch : l.Fetches t) :
    (l.run (4 * (t + 2) + 3)).world = (l.bodies.stage3 (l.run (4 * (t + 2) + 2)).world (turn t) (l.words t)
      ((l.run (4 * (t + 2) + 2)).pipe (turn t)).ack).1 := by
  have hexecutes := l.acting_eq t 2 (by omega) (by omega)
  rw [if_pos hfetch] at hexecutes
  have hkept := l.found_kept (4 * (t + 2) + 2)
  have hstage : (l.found (4 * (t + 2) + 2)).1.stage = .stage3 :=
    (congrArg Control.stage hkept.control).trans (l.stage_iff.mpr (by simp [Stage.offset]))
  have hworld := congrArg Prod.fst ((l.run_acted _).execute _ hstage hexecutes).2
  rwa [hkept.world, hkept.ack, (l.found_buffers _).id, (l.processes hfetch).words] at hworld

/-- Behind its execution an iteration changes neither the world nor an acknowledgement. -/
theorem run_after_execute (t : Nat) : (l.run (4 * (t + 3) + 1)).world = (l.run (4 * (t + 2) + 3)).world ∧
    ∀ x, ((l.run (4 * (t + 3) + 1)).pipe x).ack = ((l.run (4 * (t + 2) + 3)).pipe x).ack := by
  constructor
  · rw [l.run_world_idle (.inl (by omega))]
    exact l.run_world_idle (n := 4 * (t + 2) + 3) (.inr (.inl (by omega)))
  · intro x
    have hlast : ((l.run (4 * (t + 3))).pipe x).ack = ((l.run (4 * (t + 2) + 3)).pipe x).ack := by
      refine (l.run_ack (4 * (t + 2) + 3) x).trans (if_neg ?_)
      rintro ⟨hstage, _⟩
      have hoffset : (4 * (t + 2) + 3) % 4 = 2 := l.stage_iff.mp hstage
      omega
    rw [← hlast, l.run_ack, if_neg]
    rintro ⟨hstage, _⟩
    have hoffset : (4 * (t + 3)) % 4 = 2 := l.stage_iff.mp hstage
    omega

theorem ack_load (t : Nat) (x : Fin 4) :
    ((l.run (4 * (t + 2) + 2)).pipe x).ack = ((l.run (4 * (t + 2) + 1)).pipe x).ack := by
  rw [l.run_ack, if_neg]
  rintro ⟨hstage, _⟩
  have hoffset : (4 * (t + 2) + 1) % 4 = 2 := l.stage_iff.mp hstage
  omega

theorem ack_execute (t : Nat) (x : Fin 4) : ((l.run (4 * (t + 2) + 3)).pipe x).ack =
    if l.Fetches t ∧ x = turn t then
      (l.bodies.stage3 (l.run (4 * (t + 2) + 2)).world (turn t) (l.words t)
        ((l.run (4 * (t + 2) + 2)).pipe (turn t)).ack).2.2
    else ((l.run (4 * (t + 2) + 2)).pipe x).ack := by
  have hstage : (l.run (4 * (t + 2) + 2)).stage = .stage3 := l.stage_iff.mpr (by simp [Stage.offset])
  rw [l.run_ack, l.acting_eq t 2 (by omega) (by omega)]
  by_cases hfetch : l.Fetches t
  · by_cases hx : x = turn t
    · subst hx
      rw [if_pos ⟨hstage, if_pos hfetch⟩, if_pos ⟨hfetch, rfl⟩, (l.processes hfetch).words]
    · rw [if_neg (by simp [hfetch, Ne.symm hx]), if_neg (by simp [hx])]
  · rw [if_neg (by simp [hfetch]), if_neg (by simp [hfetch])]

end Steps

section Plain

variable {l} {t : Nat}

theorem plain_succ (hfetch : l.Fetches t) :
    l.plain (t + 1) = (l.plain t).process l.bodies (turn t) (l.words t) := if_pos hfetch

theorem plain_idle (hidle : ¬ l.Fetches t) : l.plain (t + 1) = l.plain t := if_neg hidle

/-- At first there is nothing in front of the first task. -/
theorem inStep_zero (l : Launch world) : l.InStep 0 := by
  have hidle : ∀ n, n = 1 ∨ n = 2 ∨ n = 6 → (l.run (n + 1)).world = (l.run n).world :=
    fun n hn => l.run_world_idle (.inr (.inr (l.acting_early hn)))
  have hearly : (l.run 5).world = l.world₀ := by
    rw [l.run_world_idle (.inl rfl), l.run_world_idle (.inr (.inl rfl)), hidle 2 (by omega), hidle 1 (by omega),
      l.run_world_idle (.inl rfl)]
    rfl
  have hlate : (l.run 9).world = (l.run 6).world := by
    rw [l.run_world_idle (.inl rfl), l.run_world_idle (.inr (.inl rfl)), hidle 6 (by omega)]
  have hack : ∀ n < 10, ∀ x, ((l.run n).pipe x).ack = l.ack x := by
    intro n hn x
    induction n with
    | zero => rfl
    | succ n ih =>
      rw [l.run_ack, if_neg, ih (by omega)]
      rintro ⟨hstage, hact⟩
      have hoffset : n % 4 = 2 := l.stage_iff.mp hstage
      rw [l.acting_early (by omega)] at hact
      cases hact
  refine ⟨?_, hack 9 (by omega)⟩
  rw [begun]
  split
  · next hfetch =>
    have hload := l.run_world_load hfetch
    exact (hlate.trans hload).trans (by rw [hearly]; rfl)
  · next hfetch =>
    have hnone := l.acting_eq 0 1 (by omega) (by omega)
    rw [if_neg hfetch] at hnone
    have hsame : (l.run 6).world = (l.run 5).world := l.run_world_idle (.inr (.inr hnone))
    exact (hlate.trans hsame).trans hearly

/-- What the next two stages make of the world: `stage2` of the next task, then `stage3` of
this one. -/
theorem InStep.halfway (h : l.InStep t) : (l.run (4 * (t + 2) + 2)).world =
    if l.Fetches (t + 1) then l.bodies.stage2 (l.begun t) (turn (t + 1)) (l.words (t + 1)) else l.begun t := by
  split
  · next hnext =>
    rw [← h.world]
    exact l.run_world_load hnext
  · next hnext =>
    have hnone := l.acting_eq (t + 1) 1 (by omega) (by omega)
    rw [if_neg hnext] at hnone
    rw [← h.world]
    exact l.run_world_idle (.inr (.inr hnone))

/-- An iteration without a task to execute. -/
theorem InStep.idle (h : l.InStep t) (hfetch : ¬ l.Fetches t) : l.InStep (t + 1) := by
  obtain ⟨hworld, hack⟩ := l.run_after_execute t
  have hnone := l.acting_eq t 2 (by omega) (by omega)
  rw [if_neg hfetch] at hnone
  refine ⟨?_, fun x => ?_⟩
  · refine hworld.trans ((l.run_world_idle (.inr (.inr hnone))).trans ?_)
    rw [h.halfway, begun, begun, if_neg hfetch, plain_idle hfetch]
  · refine (hack x).trans ((l.ack_execute t x).trans ?_)
    rw [if_neg fun hexecutes => hfetch hexecutes.1, l.ack_load, h.ack, plain_idle hfetch]

/-- The acknowledgements of the other contexts stay. -/
theorem InStep.ack_succ (h : l.InStep t) (hfetch : l.Fetches t) (x : Fin 4) :
    ((l.run (4 * (t + 1 + 2) + 1)).pipe x).ack = (l.plain (t + 1)).ack x ↔
      (x = turn t → (l.bodies.stage3 (l.run (4 * (t + 2) + 2)).world (turn t) (l.words t)
          ((l.plain t).ack (turn t))).2.2 =
        (l.bodies.stage3 (l.begun t) (turn t) (l.words t) ((l.plain t).ack (turn t))).2.2) := by
  have hack := ((l.run_after_execute t).2 x).trans (l.ack_execute t x)
  have hbegun : l.begun t = l.bodies.stage2 (l.plain t).world (turn t) (l.words t) := if_pos hfetch
  rw [show 4 * (t + 1 + 2) + 1 = 4 * (t + 3) + 1 by omega, hack, plain_succ hfetch, Plain.process, hbegun, l.ack_load,
    l.ack_load, h.ack, h.ack]
  by_cases hx : x = turn t
  · subst hx
    simp [hfetch]
  · simp [hx]

/-- One more iteration stays in step exactly when the order does not matter. -/
theorem InStep.succ_iff (h : l.InStep t) :
    l.InStep (t + 1) ↔ (l.Fetches t → l.Fetches (t + 1) → l.Commutes t) := by
  by_cases hfetch : l.Fetches t
  · have hworld := (l.run_after_execute t).1.trans (l.run_world_execute hfetch)
    have hplain := plain_succ hfetch
    have hbegun : l.begun t = l.bodies.stage2 (l.plain t).world (turn t) (l.words t) := if_pos hfetch
    rw [l.ack_load, h.ack, h.halfway] at hworld
    have hlate : (l.plain (t + 1)).world =
        (l.bodies.stage3 (l.begun t) (turn t) (l.words t) ((l.plain t).ack (turn t))).1 := by
      rw [hplain, hbegun]
      rfl
    by_cases hnext : l.Fetches (t + 1)
    · rw [if_pos hnext] at hworld
      constructor
      · intro hstep _ _
        refine ⟨?_, ?_⟩
        · rw [← hworld, ← hlate]
          exact hstep.world.trans (if_pos hnext)
        · have hturn := (h.ack_succ hfetch (turn t)).mp (hstep.ack (turn t)) rfl
          rwa [h.halfway, if_pos hnext] at hturn
      · intro hcommutes
        obtain ⟨hsame, hack⟩ := hcommutes hfetch hnext
        refine ⟨?_, fun x => (h.ack_succ hfetch x).mpr fun _ => ?_⟩
        · refine (hworld.trans hsame).trans ?_
          rw [← hlate]
          exact (if_pos hnext).symm
        · rwa [h.halfway, if_pos hnext]
    · rw [if_neg hnext] at hworld
      refine ⟨fun _ _ habsurd => absurd habsurd hnext, fun _ => ⟨?_, fun x => (h.ack_succ hfetch x).mpr fun _ => ?_⟩⟩
      · refine hworld.trans ?_
        rw [← hlate]
        exact (if_neg hnext).symm
      · rw [h.halfway, if_neg hnext]
  · exact ⟨fun _ hbusy => absurd hbusy hfetch, fun _ => h.idle hfetch⟩

/-- The pipeline keeps step with the plain manager, one task halfway, for as long as no two
tasks in a row depend on which of the two stages comes first. The acknowledgement that it
sends for a task is then the plain manager's. -/
theorem pipelining_iff (l : Launch world) (k : Nat) :
    ((∀ t ≤ k, l.InStep t) ↔ ∀ t < k, l.Fetches t → l.Fetches (t + 1) → l.Commutes t) ∧
      ((∀ t ≤ k, l.InStep t) → ∀ t < k, l.Fetches t → l.Sends t (turn t) ((l.plain (t + 1)).ack (turn t))) := by
  refine ⟨⟨?_, ?_⟩, ?_⟩
  · intro hall t ht
    exact (hall t (Nat.le_of_lt ht)).succ_iff.mp (hall (t + 1) ht)
  · intro hcommutes t
    induction t with
    | zero => exact fun _ => inStep_zero l
    | succ t ih => exact fun ht => (ih (Nat.le_of_lt ht)).succ_iff.mpr (hcommutes t ht)
  · intro hall t ht hfetch
    have hsends := (l.processes hfetch).sends
    have hack := ((l.run_after_execute t).2 (turn t)).trans (l.ack_execute t (turn t))
    rw [if_pos ⟨hfetch, rfl⟩] at hack
    rwa [← hack, (hall (t + 1) ht).ack] at hsends

end Plain

end Launch

end speutils.taskmanager
