import SpeUtils.Fifo.Isolation
import SpeUtils.Fifo.Liveness
import SpeUtils.Spu.Gets

open cyclic run speutils.ring speutils.taskmanager

namespace speutils.fifo

/-- What the last slot of the ring holds before the first task is written to it. -/
def Memory.lastSlot {world : Type} (memory : Memory world) (size : Nat) : Task :=
  fun word => memory.words ((size - 1) * (TASK_SIZE / 4) + word)

/-- Each kicked slot with the words of the task kicked before it, and the first with
`start`. -/
def late (start : Task) (kicks : List (Nat × Task)) : List (Nat × Task) :=
  (kicks.map Prod.fst).zip (start :: kicks.map Prod.snd)

theorem late_prefix_kick (start : Task) (kicks : List (Nat × Task)) (kick : Nat × Task) :
    late start kicks <+: late start (kicks ++ [kick]) := by
  induction kicks generalizing start with
  | nil => exact List.nil_prefix
  | cons first rest ih =>
    obtain ⟨slot, words⟩ := first
    exact List.cons_prefix_cons.mpr ⟨rfl, ih words⟩

theorem late_getElem? {start words : Task} {kicks : List (Nat × Task)} {i slot : Nat}
    (hslot : (kicks.map Prod.fst)[i]? = some slot) (hwords : (start :: kicks.map Prod.snd)[i]? = some words) :
    (late start kicks)[i]? = some (slot, words) :=
  List.getElem?_zip_eq_some.mpr ⟨hslot, hwords⟩

@[simp] theorem length_late (start : Task) (kicks : List (Nat × Task)) : (late start kicks).length = kicks.length := by
  simp [late]

theorem snoc_prefix {A : Type} {done items : List A} {next : A} (hdone : done <+: items)
    (hnext : items[done.length]? = some next) : done ++ [next] <+: items := by
  obtain ⟨rest, rfl⟩ := hdone
  rw [List.getElem?_append_right (Nat.le_refl _), Nat.sub_self] at hnext
  cases rest with
  | nil => cases hnext
  | cons first later =>
    obtain rfl : first = next := by simpa using hnext
    exact ⟨later, by simp⟩

namespace Spe

variable {world : Type} {size : Nat} {start : Task} {s s' : Spe world} {bodies : TaskBodies world} {action : Action}

/-- The slot behind each position keeps its words until the next task is begun there: the
words of the task kicked at the position before, and for the first position what was
there at the start. -/
structure Lasting (size : Nat) (start : Task) (s : Spe world) : Prop where
  slotted : s.Slotted size
  slots : ∀ i words, (start :: s.log.kicks.map Prod.snd)[i]? = some words → s.log.begun.length < i + size →
    s.host.fifos.task (behind size i) = words

/-- Only a kick adds to the kicks, and it records the words of the front slot. -/
theorem step_kicks (hmatched : s.matched action = true) (hstep : s.step bodies action = some s') :
    (action ≠ .send_front ∧ s'.log.kicks = s.log.kicks) ∨
      action = .send_front ∧ s'.log.kicks =
        s.log.kicks ++ [(ringGetFront s.host.ringCTX, s.host.fifos.task (ringGetFront s.host.ringCTX))] := by
  rw [(step_record hstep).1]
  cases action with
  | send_front => exact .inr ⟨rfl, rfl⟩
  | fifoRegisterProgram addr bytes => cases hmatched
  | runStage => exact .inl ⟨by simp, (s.log.stage_kicks _).2.2⟩
  | fifoBegin command handle | fifoAdd arg | closeFront | arrive index | reclaim => exact .inl ⟨by simp, rfl⟩

theorem step_begun_le (hstep : s.step bodies action = some s') : s.log.begun.length ≤ s'.log.begun.length := by
  rw [(step_record hstep).1]
  cases action with
  | fifoBegin command handle | fifoRegisterProgram addr bytes => simp [recorded, Ledger.begin, Ledger.kick]
  | runStage => simp [recorded, s.log.stage_kicks]
  | fifoAdd arg | send_front | closeFront | arrive index | reclaim => exact Nat.le_refl _

namespace Lasting

theorem init (memory : Memory world) (hsize : 0 < size) : Lasting size (memory.lastSlot size) (.init memory size) where
  slotted := .init memory hsize
  slots := by
    intro i words hwords _
    obtain rfl : i = 0 := by
      have hlt := (List.getElem?_eq_some_iff.mp hwords).1
      simpa [Spe.init] using hlt
    rw [behind_zero hsize]
    exact Option.some.inj hwords

/-- Nothing is stored to the slot behind a position before the ring has come round to it. -/
theorem task_kept (h : s.Lasting size start) (hsize : 0 < size) (hissued : s.issued action = true)
    (hstep : s.step bodies action = some s') {i : Nat} (hi : i ≤ s.log.kicked)
    (hroom : s'.log.begun.length < i + size) :
    s'.host.fifos.task (behind size i) = s.host.fifos.task (behind size i) := by
  funext word
  refine step_task_fifo hstep ?_
  intro haddress
  have hmatched := matched_of_issued hissued
  have hslotted := h.slotted.step hsize hissued hstep
  obtain ⟨slot, _, hopen, hlow, hhigh⟩ := (h.slotted.confined hsize hissued hstep).inside _ haddress
  have hunkicked : s'.log.kicked < s'.log.begun.length := by
    by_contra hclosed
    rw [openSlot, if_neg hclosed] at hopen
    cases hopen
  have hkicked : s'.log.kicked = s.log.kicked := by
    refine step_kicked hmatched ?_ hstep
    rintro rfl
    cases haddress
  have hslot : behind size i = behind size (s.log.kicked + 1) := by
    rw [hslotted.openSlot_eq hunkicked, hkicked] at hopen
    obtain rfl := Option.some.inj hopen
    have hword := word.isLt
    rw [show TASK_SIZE / 4 = 32 from rfl] at hlow hhigh
    rw [behind_succ hsize]
    generalize s.log.kicked % size = other at *
    omega
  have := eq_of_behind_eq (by omega) (by omega) hslot
  omega

theorem step (h : s.Lasting size start) (hsize : 0 < size) (hissued : s.issued action = true)
    (hstep : s.step bodies action = some s') : s'.Lasting size start := by
  have hmatched := matched_of_issued hissued
  have hlength := h.slotted.matched.oneOpen.length_kicks
  have hbegun := step_begun_le hstep
  refine ⟨h.slotted.step hsize hissued hstep, ?_⟩
  intro i words hwords hroom
  obtain ⟨_, hkicks⟩ | ⟨rfl, hkicks⟩ := step_kicks hmatched hstep
  · rw [hkicks] at hwords
    have hlt := (List.getElem?_eq_some_iff.mp hwords).1
    simp only [List.length_cons, List.length_map, hlength] at hlt
    rw [h.task_kept hsize hissued hstep (by omega) hroom]
    exact h.slots i words hwords (by omega)
  · rw [hkicks, List.map_append, List.map_singleton, ← List.cons_append, List.getElem?_append] at hwords
    split at hwords
    · rename_i hlt
      simp only [List.length_cons, List.length_map, hlength] at hlt
      rw [h.task_kept hsize hissued hstep (by omega) hroom]
      exact h.slots i words hwords (by omega)
    · rename_i hge
      -- The task just kicked: its words were recorded out of the slot itself.
      simp only [List.length_cons, List.length_map, hlength] at hge hwords
      rw [List.getElem?_singleton] at hwords
      split at hwords
      · obtain rfl := Option.some.inj hwords
        obtain ⟨hidle, rfl⟩ := step_send_front.mp hstep
        have hfront := (h.slotted.matched.frontPosition hidle).front_eq
        rw [show i = s.log.kicked + 1 by omega, behind_succ hsize, ← hfront]
        rfl
      · cases hwords

end Lasting

/-- What the SPU has acted on. Each task runs under its own slot with the words of the task
kicked before it, the first with what the last slot of the ring held at the start; so once
all tasks are acknowledged, all words kicked have been acted on but the last. To act on
words is to hand them to the task body of `stage2` or `stage3`. -/
structure RunsLate (bodies : TaskBodies world) (start : Task) (s : Spe world) : Prop where
  loaded : s.log.loaded <+: late start s.log.kicks
  executed : s.log.executed <+: late start s.log.kicks
  drained : s.log.acked.length = s.log.kicked → s.log.executed = late start s.log.kicks
  booked : ∀ action s', s.step bodies action = some s' → Booked bodies s s'

/-- The invariant behind it. -/
structure Trailing (bodies : TaskBodies world) (size : Nat) (start : Task) (s : Spe world) : Prop where
  lasting : s.Lasting size start
  answering : ∃ results seen, s.Answering bodies size results seen
  fetching : Fetching size (start :: s.log.kicks.map Prod.snd) s.log.acked.length s.spu.control s.spu.queue
    (fun x => (s.spu.pipe x).task)
  loads : s.log.loaded.length = s.log.acked.length + s.spu.control.loads
  loaded : s.log.loaded <+: late start s.log.kicks
  executed : s.log.executed <+: late start s.log.kicks

namespace Trailing

theorem inv (h : s.Trailing bodies size start) : s.Inv size := h.lasting.slotted.matched.inv

theorem buffers (h : s.Trailing bodies size start) : Buffers s.spu := by
  obtain ⟨results, seen, hanswering⟩ := h.answering
  exact hanswering.carries.buffers

theorem length_executed (h : s.Trailing bodies size start) :
    s.log.executed.length = s.log.acked.length + s.spu.control.finished := by
  obtain ⟨results, seen, hanswering⟩ := h.answering
  rw [hanswering.answers.outcomes.length_eq, hanswering.carries.pending.length]

theorem runsLate (h : s.Trailing bodies size start) : s.RunsLate bodies start where
  loaded := h.loaded
  executed := h.executed
  booked := fun _ _ => step_booked
  drained := by
    intro hall
    refine h.executed.eq_of_length_le ?_
    rw [length_late, h.lasting.slotted.matched.oneOpen.length_kicks, h.length_executed, ← hall]
    exact Nat.le_add_right _ _

theorem init (bodies : TaskBodies world) (memory : Memory world) (hsize : 0 < size) :
    Trailing bodies size (memory.lastSlot size) (.init memory size) where
  lasting := .init memory hsize
  answering := ⟨[], [], .init bodies memory hsize⟩
  fetching := .init _ _ fun _ => rfl
  loads := rfl
  loaded := List.nil_prefix
  executed := List.nil_prefix

/-- Every slot that a get may still read holds the words of its position. -/
theorem slots (h : s.Trailing bodies size start) {offset : Nat} (hpending : s.spu.control.Unexecuted offset) :
    (start :: s.log.kicks.map Prod.snd)[s.log.acked.length + s.spu.control.older offset]? =
      some (s.host.fifos.task (behind size (s.log.acked.length + s.spu.control.older offset))) := by
  have hchain := h.inv.chain
  have hlt : offset < 4 := by
    obtain hlt | ⟨rfl, _⟩ := hpending.2 <;> omega
  have hposition := h.inv.spu.position.position_lt hlt hpending.1
  have hlength := h.lasting.slotted.matched.oneOpen.length_kicks
  obtain ⟨words, hwords⟩ : ∃ words,
      (start :: s.log.kicks.map Prod.snd)[s.log.acked.length + s.spu.control.older offset]? = some words := by
    refine ⟨_, List.getElem?_eq_getElem ?_⟩
    simp only [List.length_cons, List.length_map, hlength]
    omega
  rw [h.lasting.slots _ words hwords (by omega), hwords]

/-- The next task in line, under its own slot and with the words of its position. -/
theorem next (h : s.Trailing bodies size start) {offset : Nat} (hlt : offset < 4)
    (hactive : s.spu.control.active (contextOf s.spu.control.cycle offset) = true) {words : Task}
    (hwords : (start :: s.log.kicks.map Prod.snd)[s.log.acked.length + s.spu.control.older offset]? = some words) :
    (late start s.log.kicks)[s.log.acked.length + s.spu.control.older offset]? =
      some ((s.spu.pipe (contextOf s.spu.control.cycle offset)).entry, words) := by
  have hchain := h.inv.chain
  have hposition := h.inv.spu.position.position_lt hlt (Control.taken_eq_one hactive)
  have hentry := h.inv.spu.position.entry_eq hlt hactive
  refine late_getElem? ?_ hwords
  rw [h.lasting.slotted.matched.oneOpen.kicks, walk, List.getElem?_map, List.getElem?_range (by omega), Option.map_some]
  exact congrArg some hentry.symm

/-- What a stage does to the tasks that are not executed yet. -/
theorem stage_fetching (h : s.Trailing bodies size start) :
    Fetching size (start :: s.log.kicks.map Prod.snd) (s.log.stage (s.spu, s.host.fifos)).acked.length
      (runStage bodies (s.spu, s.host.fifos)).1.control (runStage bodies (s.spu, s.host.fifos)).1.queue
      (fun x => ((runStage bodies (s.spu, s.host.fifos)).1.pipe x).task) := by
  have hfetching := h.fetching
  have hqueue := runStage_queue bodies (s.spu, s.host.fifos)
  have htask := fun x => runStage_task bodies (s.spu, s.host.fifos) x
  rw [runStage_control]
  cases hact : s.spu.acting s.host.fifos with
  | none =>
    have hctl : s.spu.control.acting s.host.fifos.atomic = none := hact
    have hsame : (fun x => ((runStage bodies (s.spu, s.host.fifos)).1.pipe x).task) =
        fun x => (s.spu.pipe x).task := by
      funext x
      rw [htask, hact]
      cases s.spu.stage <;> rfl
    rw [s.log.stage_idle (m := (s.spu, s.host.fifos)) hact, (runStage_idle bodies hact).1, hsame]
    cases hstage : s.spu.stage with
    | stage1 =>
      refine hfetching.stay ?_ (Control.cycle_of_ne_stage4 (by simp [hstage])) (by simp [hstage]) fun _ _ => rfl
      intro offset hlt
      by_cases hzero : offset = 0
      · rw [hzero]
        exact Control.taken_fetch_none hstage hctl
      · exact Control.taken_fetch hstage (by omega) hlt
    | stage2 =>
      refine hfetching.stay ?_ (Control.cycle_of_ne_stage4 (by simp [hstage])) (by simp [hstage]) fun _ _ => rfl
      exact fun offset _ => Control.taken_middle (.inl hstage) offset
    | stage3 =>
      refine hfetching.stay ?_ (Control.cycle_of_ne_stage4 (by simp [hstage])) (by simp [hstage]) fun _ _ => rfl
      exact fun offset _ => Control.taken_middle (.inr hstage) offset
    | stage4 =>
      have hnone : s.spu.control.taken 3 = 0 := by
        have hidle := Control.taken_of_idle (c := s.spu.control) (by simp [hstage]) hctl
        rwa [Spu.control_stage, hstage] at hidle
      have hretire : Fetching size (start :: s.log.kicks.map Prod.snd)
          (s.log.acked.length + s.spu.control.taken 3) (s.spu.control.step s.host.fifos.atomic) s.spu.queue
          (fun x => (s.spu.pipe x).task) := hfetching.retire hstage fun _ _ => Iff.rfl
      rwa [hnone, Nat.add_zero] at hretire
  | some x =>
    have hctl : s.spu.control.acting s.host.fifos.atomic = some x := hact
    cases hstage : s.spu.stage with
    | stage1 =>
      have hempty : s.spu.control.active x = false := by
        have hcontext := Control.acting_context hctl
        rw [Spu.control_stage, hstage] at hcontext
        rw [hcontext]
        exact h.inv.spu.position.idle hstage
      have hsame : (fun x => ((runStage bodies (s.spu, s.host.fifos)).1.pipe x).task) =
          fun x => (s.spu.pipe x).task := by
        funext y
        rw [htask]
        simp only [hstage]
      simp only [hstage, hact] at hqueue
      rw [s.log.stage_fetch (m := (s.spu, s.host.fifos)) hstage hact, hqueue, hsame]
      exact hfetching.fetch h.inv.spu.position hstage hctl (h.buffers.empty x hempty) rfl rfl rfl
    | stage2 =>
      have hcomplete := hfetching.complete (m := (s.spu, s.host.fifos))
        (s.spu.queue.filter (·.tag = (s.spu.pipe x).id)) (s.spu.queue.filter (·.tag ≠ (s.spu.pipe x).id))
        (fun t => by simp only [List.mem_filter, decide_eq_true_eq, ← and_or_left, em, and_true])
        (fun _ hpending => h.slots hpending)
      have hwaited : (fun y => ((runStage bodies (s.spu, s.host.fifos)).1.pipe y).task) =
          fun y => (((s.spu.queue.filter (·.tag = (s.spu.pipe x).id)).foldl (fun m t => t.perform m)
            (s.spu, s.host.fifos)).1.pipe y).task := by
        funext y
        rw [htask]
        simp only [hstage, hact]
        rfl
      simp only [hstage, hact] at hqueue
      rw [s.log.stage_load (m := (s.spu, s.host.fifos)) hstage hact, hqueue, hwaited]
      refine hcomplete.stay ?_ (Control.cycle_of_ne_stage4 (by simp [hstage])) (by simp [hstage]) fun _ _ => rfl
      exact fun offset _ => Control.taken_middle (.inl hstage) offset
    | stage3 =>
      simp only [hstage] at hqueue
      rw [s.log.stage_execute (m := (s.spu, s.host.fifos)) hstage hact, hqueue]
      refine hfetching.stay ?_ (Control.cycle_of_ne_stage4 (by simp [hstage])) (by simp [hstage]) ?_
      · exact fun offset _ => Control.taken_middle (.inr hstage) offset
      · -- The task that is executed now is in another buffer.
        rintro offset ⟨_, hearly⟩
        have hcontext := Control.acting_context hctl
        rw [Spu.control_stage, hstage] at hcontext
        have hlast : (s.spu.control.step s.host.fifos.atomic).stage = .stage4 := by simp [Control.step, hstage]
        have hlt : offset < 2 := by
          obtain hlt | ⟨_, hother⟩ := hearly
          · exact hlt
          · exact absurd hlast hother
        have hne : contextOf s.spu.control.cycle offset ≠ x := by
          rw [hcontext]
          exact contextOf_ne _ (by omega) (by decide) (Nat.ne_of_lt hlt)
        rw [htask]
        simp only [hstage, hact, if_neg hne]
    | stage4 =>
      have hone : s.spu.control.taken 3 = 1 := by
        have hacting := Control.taken_of_acting (c := s.spu.control) (by simp [hstage]) hctl
        rwa [Spu.control_stage, hstage] at hacting
      have hsame : (fun x => ((runStage bodies (s.spu, s.host.fifos)).1.pipe x).task) =
          fun x => (s.spu.pipe x).task := by
        funext y
        rw [htask]
        simp only [hstage]
      simp only [hstage, hact] at hqueue
      rw [s.log.stage_ack (m := (s.spu, s.host.fifos)) hstage hact, List.length_append, List.length_singleton,
        ← hone, hqueue, hsame]
      refine hfetching.retire hstage ?_
      intro t hget
      rw [List.mem_append, List.mem_singleton, or_iff_left_iff_imp]
      rintro rfl
      cases hget

theorem stage_loads (h : s.Trailing bodies size start) :
    (s.log.stage (s.spu, s.host.fifos)).loaded.length = (s.log.stage (s.spu, s.host.fifos)).acked.length +
      (runStage bodies (s.spu, s.host.fifos)).1.control.loads := by
  have hloads := h.loads
  have hstep := Control.loads_step s.host.fifos.atomic s.spu.control
  rw [runStage_control]
  cases hact : s.spu.acting s.host.fifos with
  | none =>
    have hidle := fun hstage => Control.taken_of_idle (c := s.spu.control) hstage hact
    rw [s.log.stage_idle (m := (s.spu, s.host.fifos)) hact, hloads]
    dsimp only
    cases hstage : s.spu.stage with
    | stage1 | stage3 =>
      simp only [Spu.control_stage, hstage, reduceCtorEq, if_false] at hstep
      omega
    | stage2 =>
      have hnone := hidle (by simp [hstage])
      simp only [Spu.control_stage, hstage, reduceCtorEq, if_false, if_true, Stage.offset] at hstep hnone
      omega
    | stage4 =>
      have hnone := hidle (by simp [hstage])
      simp only [Spu.control_stage, hstage, reduceCtorEq, if_false, if_true, Stage.offset] at hstep hnone
      omega
  | some x =>
    have htaken := fun hstage => Control.taken_of_acting (c := s.spu.control) hstage hact
    cases hstage : s.spu.stage with
    | stage1 =>
      rw [s.log.stage_fetch (m := (s.spu, s.host.fifos)) hstage hact]
      simp only [Spu.control_stage, hstage, reduceCtorEq, if_false] at hstep
      simp only [hloads]
      omega
    | stage2 =>
      have hone := htaken (by simp [hstage])
      rw [s.log.stage_load (m := (s.spu, s.host.fifos)) hstage hact]
      simp only [Spu.control_stage, hstage, reduceCtorEq, if_false, if_true, Stage.offset] at hstep hone
      simp only [List.length_append, List.length_singleton, hloads]
      omega
    | stage3 =>
      rw [s.log.stage_execute (m := (s.spu, s.host.fifos)) hstage hact]
      simp only [Spu.control_stage, hstage, reduceCtorEq, if_false] at hstep
      simp only [hloads]
      omega
    | stage4 =>
      have hone := htaken (by simp [hstage])
      rw [s.log.stage_ack (m := (s.spu, s.host.fifos)) hstage hact]
      simp only [Spu.control_stage, hstage, reduceCtorEq, if_false, if_true, Stage.offset] at hstep hone
      simp only [List.length_append, List.length_singleton, hloads]
      omega

/-- When `stage2` has waited, the words of the task are those of its position. -/
theorem loads_next (h : s.Trailing bodies size start) {x : Fin 4} (hstage : s.spu.stage = .stage2)
    (hact : s.spu.acting s.host.fifos = some x) :
    (late start s.log.kicks)[s.log.loaded.length]? =
      some ((s.spu.pipe x).entry, ((dmaWaitTag (s.spu.pipe x).id (s.spu, s.host.fifos)).1.pipe x).task) := by
  have hctl : s.spu.control.acting s.host.fifos.atomic = some x := hact
  have hactive := Control.acting_active (c := s.spu.control) (by simp [hstage]) hctl
  have hone := Control.taken_of_acting (c := s.spu.control) (by simp [hstage]) hctl
  have hcontext := Control.acting_context hctl
  have hcycle : (s.spu.control.step s.host.fifos.atomic).cycle = s.spu.control.cycle :=
    Control.cycle_of_ne_stage4 (by simp [hstage])
  have htaken : ∀ offset, (s.spu.control.step s.host.fifos.atomic).taken offset = s.spu.control.taken offset :=
    Control.taken_middle (.inl hstage)
  simp only [Spu.control_stage, hstage, Stage.offset] at hone hcontext
  have hqueue := runStage_queue bodies (s.spu, s.host.fifos)
  have htask := runStage_task bodies (s.spu, s.host.fifos) x
  simp only [hstage, hact] at hqueue htask
  have hheld := h.stage_fetching.held 1
  rw [s.log.stage_load (m := (s.spu, s.host.fifos)) hstage hact, runStage_control, hqueue] at hheld
  dsimp only at hheld
  rw [hcycle, ← hcontext, htask] at hheld
  simp only [Control.older, htaken] at hheld
  have hwords := hheld ⟨(htaken 1).trans hone, .inl (by decide)⟩ fun t ht => by
    simp [Transfer.getsInto, h.buffers.wait x t ht]
  have hlength : s.log.loaded.length = s.log.acked.length + s.spu.control.older 1 := by
    rw [h.loads, Control.loads_early (.inr hstage)]
  rw [hcontext] at hactive
  rw [hlength, h.next (by decide) hactive hwords, ← hcontext]

/-- What `stage3` executes are the words of its position. -/
theorem executes_next (h : s.Trailing bodies size start) {x : Fin 4} (hstage : s.spu.stage = .stage3)
    (hact : s.spu.acting s.host.fifos = some x) :
    (late start s.log.kicks)[s.log.executed.length]? = some ((s.spu.pipe x).entry, (s.spu.pipe x).task) := by
  have hctl : s.spu.control.acting s.host.fifos.atomic = some x := hact
  have hactive := Control.acting_active (c := s.spu.control) (by simp [hstage]) hctl
  have hone := Control.taken_of_acting (c := s.spu.control) (by simp [hstage]) hctl
  have hcontext := Control.acting_context hctl
  simp only [Spu.control_stage, hstage, Stage.offset] at hone hcontext
  have hheld := h.fetching.held 2 ⟨hone, .inr ⟨rfl, by simp [hstage]⟩⟩
  have hfree := h.buffers.loaded x (Control.loaded_of_acting (.inl hstage) hctl)
  rw [← hcontext] at hheld
  have hwords := hheld fun t ht => by simp [Transfer.getsInto, hfree t ht]
  have hlength : s.log.executed.length = s.log.acked.length + s.spu.control.older 2 := by
    rw [h.length_executed]
    simp [Control.finished, Control.older, hstage]
  rw [hcontext] at hactive
  rw [hlength, h.next (by decide) hactive hwords, ← hcontext]

theorem runStage (h : s.Trailing bodies size start) (hlasting : s'.Lasting size start)
    (hanswering : ∃ results seen, s'.Answering bodies size results seen)
    (hstep : s.step bodies .runStage = some s') : s'.Trailing bodies size start := by
  have hfetching := h.stage_fetching
  have hloads := h.stage_loads
  obtain rfl := step_runStage.mp hstep
  have hkicks := (s.log.stage_kicks (s.spu, s.host.fifos)).2.2
  refine ⟨hlasting, hanswering, ?_, hloads, ?_, ?_⟩
  · simp only [hkicks]
    exact hfetching
  · simp only [hkicks]
    cases hact : s.spu.acting s.host.fifos with
    | none =>
      rw [s.log.stage_idle (m := (s.spu, s.host.fifos)) hact]
      exact h.loaded
    | some x =>
      cases hstage : s.spu.stage with
      | stage1 =>
        rw [s.log.stage_fetch (m := (s.spu, s.host.fifos)) hstage hact]
        exact h.loaded
      | stage2 =>
        rw [s.log.stage_load (m := (s.spu, s.host.fifos)) hstage hact]
        exact snoc_prefix h.loaded (h.loads_next hstage hact)
      | stage3 =>
        rw [s.log.stage_execute (m := (s.spu, s.host.fifos)) hstage hact]
        exact h.loaded
      | stage4 =>
        rw [s.log.stage_ack (m := (s.spu, s.host.fifos)) hstage hact]
        exact h.loaded
  · simp only [hkicks]
    obtain ⟨hsame, _⟩ | ⟨x, hstage, hact, hdone, _⟩ := step_executed hstep
    · rw [hsame]
      exact h.executed
    · rw [hdone]
      exact snoc_prefix h.executed (h.executes_next hstage hact)

theorem arrive (h : s.Trailing bodies size start) {index : Nat} {m : Spu world × fifo_s}
    (harrive : taskmanager.arrive index (s.spu, s.host.fifos) = some m) :
    Fetching size (start :: s.log.kicks.map Prod.snd) s.log.acked.length m.1.control m.1.queue
      (fun x => (m.1.pipe x).task) := by
  rw [(arrive_kept harrive).control, arrive_queue harrive]
  cases ht : s.spu.queue[index]? with
  | none => simp [taskmanager.arrive, ht] at harrive
  | some t =>
    obtain ⟨hindex, hget⟩ := List.getElem?_eq_some_iff.mp ht
    have hperm : s.spu.queue.Perm (t :: s.spu.queue.eraseIdx index) := by
      rw [← hget]
      exact (List.getElem_cons_eraseIdx_perm hindex).symm
    have hcomplete := h.fetching.complete (m := (s.spu, s.host.fifos)) [t] (s.spu.queue.eraseIdx index)
      (fun u => by rw [hperm.mem_iff, List.mem_cons, List.mem_singleton]) (fun _ hpending => h.slots hpending)
    simp only [taskmanager.arrive, ht, Option.some.injEq] at harrive
    subst m
    exact hcomplete

/-- A step that is no stage leaves the SPU's records alone, and a kick adds to the words. -/
theorem other (h : s.Trailing bodies size start) (hmatched : s.matched action = true)
    (hstage : action ≠ .runStage) (hlasting : s'.Lasting size start)
    (hanswering : ∃ results seen, s'.Answering bodies size results seen)
    (hfetching : Fetching size (start :: s.log.kicks.map Prod.snd) s.log.acked.length s'.spu.control s'.spu.queue
      (fun x => (s'.spu.pipe x).task))
    (hstep : s.step bodies action = some s') : s'.Trailing bodies size start := by
  obtain ⟨_, hloaded, hexecuted, hacked⟩ := step_stages hstage hstep
  have hloads := h.loads
  rw [← step_control_eq hstage hstep, ← hloaded, ← hacked] at hloads
  obtain ⟨_, hkicks⟩ | ⟨_, hkicks⟩ := step_kicks hmatched hstep
  · refine ⟨hlasting, hanswering, ?_, hloads, ?_, ?_⟩
    · rw [hkicks, hacked]
      exact hfetching
    · rw [hkicks, hloaded]
      exact h.loaded
    · rw [hkicks, hexecuted]
      exact h.executed
  · refine ⟨hlasting, hanswering, ?_, hloads, ?_, ?_⟩
    · rw [hkicks, hacked, List.map_append, List.map_singleton, ← List.cons_append]
      exact hfetching.extend _
    · rw [hkicks, hloaded]
      exact h.loaded.trans (late_prefix_kick ..)
    · rw [hkicks, hexecuted]
      exact h.executed.trans (late_prefix_kick ..)

theorem step (h : s.Trailing bodies size start) (hsize : 0 < size) (hissued : s.issued action = true)
    (hstep : s.step bodies action = some s') : s'.Trailing bodies size start := by
  have hmatched := matched_of_issued hissued
  have hlasting := h.lasting.step hsize hissued hstep
  have hanswering : ∃ results seen, s'.Answering bodies size results seen := by
    obtain ⟨results, seen, hanswering⟩ := h.answering
    exact ⟨_, _, hanswering.step hsize (h.inv.safe_of_matched hmatched hstep) hstep⟩
  cases action with
  | runStage => exact h.runStage hlasting hanswering hstep
  | arrive index =>
    refine h.other hmatched (by simp) hlasting hanswering ?_ hstep
    obtain ⟨m, harrive, rfl⟩ := step_arrive.mp hstep
    exact h.arrive harrive
  | fifoBegin command handle =>
    refine h.other hmatched (by simp) hlasting hanswering ?_ hstep
    obtain ⟨_, rfl⟩ := step_fifoBegin.mp hstep
    exact h.fetching
  | fifoAdd arg =>
    refine h.other hmatched (by simp) hlasting hanswering ?_ hstep
    obtain ⟨_, rfl⟩ := step_fifoAdd.mp hstep
    exact h.fetching
  | send_front =>
    refine h.other hmatched (by simp) hlasting hanswering ?_ hstep
    obtain ⟨_, rfl⟩ := step_send_front.mp hstep
    exact h.fetching
  | closeFront =>
    refine h.other hmatched (by simp) hlasting hanswering ?_ hstep
    obtain ⟨_, rfl⟩ := step_closeFront.mp hstep
    exact h.fetching
  | fifoRegisterProgram addr bytes => cases hissued
  | reclaim =>
    refine h.other hmatched (by simp) hlasting hanswering ?_ hstep
    obtain ⟨_, rfl⟩ := step_reclaim.mp hstep
    exact h.fetching

end Trailing

end Spe

namespace System

variable {world : Type} {spes size : Nat}

theorem step_trailing {bodies : TaskBodies world} {start : Task} {s s' : System world spes} {event : Event spes}
    (hsize : 0 < size) {e : Fin spes} (h : (s.spe e).Trailing bodies size start)
    (hissued : s.keeps Spe.issued event = true) (hstep : s.step bodies event = some s') :
    (s'.spe e).Trailing bodies size start := by
  obtain ⟨_, hsame⟩ | ⟨action, haction, hspe⟩ := step_spe hstep e
  · rw [hsame]
    exact h
  · exact h.step hsize (ok_of_keeps hissued haction) hspe

/-- Every task runs one kick late. On each SPE, however the stages, the transfers and the
monitor are interleaved with tasks that are begun, filled and kicked one by one, the SPU
acts under the slot of each kicked task on the words of the task kicked before it. -/
theorem runs_late (hsize : 2 ≤ size) (bodies : TaskBodies world) (memory : Fin spes → Memory world)
    (events : List (Event spes)) (s : System world spes)
    (hrun : Reaches (restrict (keeps Spe.issued) (step bodies)) (.init memory size) events s) (e : Fin spes) :
    (s.spe e).RunsLate bodies ((memory e).lastSlot size) := by
  have hpos : 0 < size := by omega
  suffices htrailing : (s.spe e).Trailing bodies size ((memory e).lastSlot size) from htrailing.runsLate
  refine hrun.invariant (I := fun s => (s.spe e).Trailing bodies size ((memory e).lastSlot size))
    (.init bodies (memory e) hpos) ?_
  intro before event after hbefore hstep
  obtain ⟨hkeeps, hstep⟩ := restrict_eq_some.mp hstep
  exact step_trailing hpos hbefore hkeeps hstep

/-- Two additions, the second begun before the SPU comes to the first, and then all that
the SPU does for both. -/
def twoAdditions : List (Event 1) :=
  [.fifoBegin messages.ADD 7, .selectfifo, .fifoAdd (Fin.last 0) 3, .fifoKick (Fin.last 0), .kicked,
    .fifoBegin messages.ADD 8, .selectfifo, .fifoAdd (Fin.last 0) 5, .fifoKick (Fin.last 0), .kicked] ++
    List.replicate 20 (.runStage (Fin.last 0))

theorem runs_late_twoAdditions : ∃ s,
    Reaches (restrict (keeps Spe.issued) (step Spe.idleBodies)) (.init (fun _ => Spe.zeroed) 3) twoAdditions s ∧
      (s.spe 0).log.kicks.map (fun kick => (kick.1, kick.2 1, kick.2 2)) = [(0, 7, 3), (1, 8, 5)] ∧
      (s.spe 0).log.executed.map (fun done => (done.1, done.2 1, done.2 2)) = [(0, 0, 0), (1, 7, 3)] ∧
      (s.spe 0).RunsLate Spe.idleBodies (Spe.zeroed.lastSlot 3) := by
  have hvalue : (twoAdditions.foldlM (restrict (keeps Spe.issued) (step Spe.idleBodies))
      (.init (fun _ => Spe.zeroed) 3)).map (fun s =>
        ((s.spe 0).log.kicks.map (fun kick => (kick.1, kick.2 1, kick.2 2)),
          (s.spe 0).log.executed.map (fun done => (done.1, done.2 1, done.2 2)))) =
      some ([(0, 7, 3), (1, 8, 5)], [(0, 0, 0), (1, 7, 3)]) := by decide +kernel
  obtain ⟨s, hrun, hobserved⟩ := exists_reaches_of_observe hvalue
  simp only [Prod.mk.injEq] at hobserved
  exact ⟨s, hrun, hobserved.1, hobserved.2,
    runs_late (by decide) Spe.idleBodies (fun _ => Spe.zeroed) twoAdditions s hrun 0⟩

end System

end speutils.fifo
