import SpeUtils.Spu.Buffers
import SpeUtils.Spu.Flight

open cyclic speutils.fifo

namespace speutils.taskmanager

namespace Control

variable {atomic : atomic_s} {c : Control}

/-- The task at an offset has been fetched and is yet to be executed. -/
def Unexecuted (c : Control) (offset : Nat) : Prop :=
  c.taken offset = 1 ∧ (offset < 2 ∨ offset = 2 ∧ c.stage ≠ .stage4)

/-- How many tasks in the pipe `stage2` has waited for. -/
def loads (c : Control) : Nat := c.older 1 + if c.stage = .stage3 ∨ c.stage = .stage4 then c.taken 1 else 0

theorem loads_early (hstage : c.stage = .stage1 ∨ c.stage = .stage2) : c.loads = c.older 1 := by
  obtain hstage | hstage := hstage <;> simp [loads, hstage]

theorem loads_late (hstage : c.stage = .stage3 ∨ c.stage = .stage4) : c.loads = c.older 0 := by
  simp only [loads, older, if_pos hstage]

theorem loads_step (atomic : atomic_s) (c : Control) :
    (c.step atomic).loads + (if c.stage = .stage4 then c.taken 3 else 0) =
      c.loads + if c.stage = .stage2 then c.taken 1 else 0 := by
  cases hstage : c.stage with
  | stage1 =>
    have hnext : (c.step atomic).stage = .stage2 := by
      simp only [step, hstage]
      split <;> rfl
    have htaken : ∀ offset, 0 < offset → offset < 4 → (c.step atomic).taken offset = c.taken offset :=
      fun offset hpos hlt => taken_fetch hstage hpos hlt
    rw [loads_early (.inr hnext), loads_early (.inl hstage)]
    simp [older, htaken]
  | stage2 =>
    have hnext : (c.step atomic).stage = .stage3 := by simp [step, hstage]
    have htaken : ∀ offset, (c.step atomic).taken offset = c.taken offset := taken_middle (.inl hstage)
    rw [loads_late (.inl hnext), loads_early (.inr hstage)]
    simp [older, htaken]
  | stage3 =>
    have hnext : (c.step atomic).stage = .stage4 := by simp [step, hstage]
    have htaken : ∀ offset, (c.step atomic).taken offset = c.taken offset := taken_middle (.inr hstage)
    rw [loads_late (.inr hnext), loads_late (.inl hstage)]
    simp [older, htaken]
  | stage4 =>
    have hnext : (c.step atomic).stage = .stage1 := by
      simp only [step, hstage]
      split <;> rfl
    have htaken : ∀ offset < 3, (c.step atomic).taken (offset + 1) = c.taken offset :=
      fun offset hlt => taken_retire hstage hlt
    rw [loads_early (.inl hnext), loads_late (.inr hstage)]
    simp [older, htaken]
    omega

end Control

section

variable {world : Type}

/-- Where transfers leave a task buffer: as it was if none of them is a get into it, or
with the words of the slot that such a get reads. -/
theorem foldl_perform_get (ts : List Transfer) (m : Spu world × fifo_s) (x : Fin 4) :
    ((∀ t ∈ ts, t.getsInto x = false) ∧
        ((ts.foldl (fun m t => t.perform m) m).1.pipe x).task = (m.1.pipe x).task) ∨
      ∃ t ∈ ts, t.getsInto x = true ∧
        ((ts.foldl (fun m t => t.perform m) m).1.pipe x).task = m.2.task t.slot := by
  induction ts generalizing m with
  | nil => exact .inl ⟨fun t ht => absurd ht List.not_mem_nil, rfl⟩
  | cons t ts ih =>
    rw [List.foldl_cons]
    obtain ⟨hnone, hsame⟩ | ⟨u, hu, hget, hvalue⟩ := ih (t.perform m)
    · by_cases hget : t.getsInto x = true
      · obtain ⟨hdir, rfl⟩ : t.dir = .get ∧ t.context = x := by simpa [Transfer.getsInto] using hget
        refine .inr ⟨t, List.mem_cons_self, hget, hsame.trans ?_⟩
        simp [Transfer.perform, hdir]
      · refine .inl ⟨?_, hsame.trans ?_⟩
        · intro u hu
          obtain rfl | hu := List.mem_cons.mp hu
          · exact Bool.eq_false_iff.mpr hget
          · exact hnone u hu
        · cases hdir : t.dir with
          | put => simp [Transfer.perform, hdir]
          | get =>
            have hne : x ≠ t.context := by
              rintro rfl
              exact hget (by simp [Transfer.getsInto, hdir])
            simp [Transfer.perform, hdir, hne]
    · refine .inr ⟨u, List.mem_cons_of_mem _ hu, hget, hvalue.trans ?_⟩
      funext word
      simp only [fifo_s.task, (perform_kept t m).task_fifo]

/-- A task buffer changes only where `stage2` waits for its words, and where `stage3` hands
it to the task's own body. -/
theorem runStage_task (bodies : TaskBodies world) (m : Spu world × fifo_s) (x : Fin 4) :
    ((runStage bodies m).1.pipe x).task =
      match m.1.stage, m.1.acting m.2 with
      | .stage2, some y => ((dmaWaitTag (m.1.pipe y).id m).1.pipe x).task
      | .stage3, some y =>
        if x = y then (bodies.stage3 m.1.world (m.1.pipe x).id (m.1.pipe x).task (m.1.pipe x).ack).2.1
        else (m.1.pipe x).task
      | _, _ => (m.1.pipe x).task := by
  cases hstage : m.1.stage with
  | stage1 =>
    simp only [runStage, hstage, stage1_eq]
    split
    · by_cases hx : x = m.1.context 0
      · simp [hx]
      · simp [hx]
    · rfl
  | stage2 =>
    simp only [runStage, hstage, stage2_eq, Spu.acting, Control.acting, Spu.control_stage]
    by_cases h : (m.1.pipe (m.1.context 1)).active
    · have hactive : m.1.control.active (contextOf m.1.control.cycle 1) = true := h
      simp only [h, hactive, if_true]
      rfl
    · have hactive : ¬ m.1.control.active (contextOf m.1.control.cycle 1) = true := h
      simp only [h, hactive, Bool.false_eq_true, if_false]
  | stage3 =>
    simp only [runStage, hstage, stage3_eq, Spu.acting, Control.acting, Spu.control_stage]
    by_cases h : (m.1.pipe (m.1.context 2)).active
    · have hactive : m.1.control.active (contextOf m.1.control.cycle 2) = true := h
      simp only [h, hactive, if_true]
      by_cases hx : x = m.1.context 2
      · subst hx
        simp [Spu.context]
      · have hne : ¬ x = contextOf m.1.cycle 2 := hx
        simp [hx, hne]
    · have hactive : ¬ m.1.control.active (contextOf m.1.control.cycle 2) = true := h
      simp only [h, hactive, Bool.false_eq_true, if_false]
  | stage4 =>
    simp only [runStage, hstage, stage4_eq]
    split
    · by_cases hx : x = m.1.context 3
      · simp [hx]
      · simp [hx]
    · rfl

end

/-- The tasks in the pipe that are not executed yet, where `words` lists for each position
of the queue what its slot holds when it is read. A get reads the slot behind the position
of its task, and a buffer that no get is under way to holds the words of its task. -/
structure Fetching (size : Nat) (words : List Task) (acked : Nat) (c : Control) (queue : List Transfer)
    (task : Fin 4 → Task) : Prop where
  slots : ∀ offset, c.Unexecuted offset → ∀ t ∈ queue, t.getsInto (contextOf c.cycle offset) = true →
    t.slot = behind size (acked + c.older offset)
  held : ∀ offset, c.Unexecuted offset → (∀ t ∈ queue, t.getsInto (contextOf c.cycle offset) = false) →
    words[acked + c.older offset]? = some (task (contextOf c.cycle offset))

namespace Fetching

variable {size acked : Nat} {words : List Task} {c : Control} {queue : List Transfer} {task : Fin 4 → Task}
  {atomic : atomic_s} {x : Fin 4}

theorem init (words : List Task) (task : Fin 4 → Task) (hidle : ∀ x, c.active x = false) :
    Fetching size words 0 c [] task := by
  have hnone : ∀ offset, ¬ c.Unexecuted offset := by
    rintro offset ⟨hone, _⟩
    rw [Control.taken_eq_zero (hidle _)] at hone
    cases hone
  exact ⟨fun offset h => absurd h (hnone offset), fun offset h => absurd h (hnone offset)⟩

theorem extend (h : Fetching size words acked c queue task) (last : Task) :
    Fetching size (words ++ [last]) acked c queue task where
  slots := h.slots
  held := by
    intro offset hpending hnone
    have hheld := h.held offset hpending hnone
    exact (List.getElem?_append_left (List.getElem?_eq_some_iff.mp hheld).1).trans hheld

/-- Transfers that are carried out bring the words of their own tasks. -/
theorem complete {world : Type} {m : Spu world × fifo_s}
    (h : Fetching size words acked c queue (fun x => (m.1.pipe x).task)) (ts rest : List Transfer)
    (hmem : ∀ t, t ∈ queue ↔ t ∈ ts ∨ t ∈ rest)
    (hslots : ∀ offset, c.Unexecuted offset →
      words[acked + c.older offset]? = some (m.2.task (behind size (acked + c.older offset)))) :
    Fetching size words acked c rest
      (fun x => ((ts.foldl (fun m t => t.perform m) m).1.pipe x).task) where
  slots := fun offset hpending t ht => h.slots offset hpending t ((hmem t).mpr (.inr ht))
  held := by
    intro offset hpending hrest
    obtain ⟨hnone, hsame⟩ | ⟨t, ht, hget, hvalue⟩ := foldl_perform_get ts m (contextOf c.cycle offset)
    · rw [hsame]
      refine h.held offset hpending fun t ht => ?_
      obtain ht | ht := (hmem t).mp ht
      · exact hnone t ht
      · exact hrest t ht
    · rw [hvalue, h.slots offset hpending t ((hmem t).mpr (.inl ht)) hget]
      exact hslots offset hpending

/-- Nothing changes as long as every task that is still to be executed has been so before,
at the same position, in the same buffer and with the same gets under way. -/
theorem move {acked' : Nat} {c' : Control} {queue' : List Transfer} {task' : Fin 4 → Task}
    (h : Fetching size words acked c queue task) (hqueue : ∀ t, t.dir = .get → (t ∈ queue' ↔ t ∈ queue))
    (hpending : ∀ offset', c'.Unexecuted offset' → ∃ offset, c.Unexecuted offset ∧
      contextOf c'.cycle offset' = contextOf c.cycle offset ∧
      acked' + c'.older offset' = acked + c.older offset ∧
      task' (contextOf c.cycle offset) = task (contextOf c.cycle offset)) :
    Fetching size words acked' c' queue' task' := by
  have hget : ∀ {t : Transfer} {x : Fin 4}, t.getsInto x = true → t.dir = .get := by
    intro t x hget
    simp only [Transfer.getsInto, decide_eq_true_eq] at hget
    exact hget.1
  refine ⟨?_, ?_⟩
  · intro offset' hpending' t ht hinto
    obtain ⟨offset, hbefore, hcontext, hposition, _⟩ := hpending offset' hpending'
    rw [hcontext] at hinto
    rw [hposition]
    exact h.slots offset hbefore t ((hqueue t (hget hinto)).mp ht) hinto
  · intro offset' hpending' hnone
    obtain ⟨offset, hbefore, hcontext, hposition, htask⟩ := hpending offset' hpending'
    rw [hcontext] at hnone
    rw [hposition, hcontext, htask]
    refine h.held offset hbefore fun t ht => ?_
    by_contra hinto
    have hinto : t.getsInto (contextOf c.cycle offset) = true := by simpa using hinto
    rw [hnone t ((hqueue t (hget hinto)).mpr ht)] at hinto
    cases hinto

/-- A stage in the middle, or one without a task, leaves the tasks where they are. -/
theorem stay {task' : Fin 4 → Task} (h : Fetching size words acked c queue task)
    (htaken : ∀ offset < 4, (c.step atomic).taken offset = c.taken offset)
    (hcycle : (c.step atomic).cycle = c.cycle)
    (hexecuted : c.stage = .stage4 → (c.step atomic).stage = .stage4)
    (htask : ∀ offset, (c.step atomic).Unexecuted offset →
      task' (contextOf c.cycle offset) = task (contextOf c.cycle offset)) :
    Fetching size words acked (c.step atomic) queue task' := by
  refine h.move (fun _ _ => Iff.rfl) ?_
  rintro offset ⟨hone, hearly⟩
  have htask := htask offset ⟨hone, hearly⟩
  have hlt : offset < 4 := by
    obtain hlt | ⟨rfl, _⟩ := hearly <;> omega
  rw [htaken offset hlt] at hone
  have hbefore : offset < 2 ∨ offset = 2 ∧ c.stage ≠ .stage4 :=
    hearly.imp_right fun hlast => ⟨hlast.1, fun h => hlast.2 (hexecuted h)⟩
  refine ⟨offset, ⟨hone, hbefore⟩, ?_, ?_, htask⟩
  · rw [hcycle]
  · have holder : (c.step atomic).older offset = c.older offset := by
      unfold Control.older
      split <;> simp only [htaken 1 (by decide), htaken 2 (by decide), htaken 3 (by decide)]
    rw [holder]

/-- `stage4` sends off the oldest task, and the others move on by one offset. -/
theorem retire (h : Fetching size words acked c queue task) (hstage : c.stage = .stage4)
    {queue' : List Transfer} (hqueue : ∀ t, t.dir = .get → (t ∈ queue' ↔ t ∈ queue)) :
    Fetching size words (acked + c.taken 3) (c.step atomic) queue' task := by
  have hcycle : (c.step atomic).cycle = c.cycle - 1#32 := Control.cycle_of_stage4 hstage
  refine h.move hqueue ?_
  rintro offset ⟨hone, hearly⟩
  have htwo : offset < 3 := by
    obtain hlt | ⟨rfl, _⟩ := hearly <;> omega
  obtain rfl | ⟨before, rfl⟩ : offset = 0 ∨ ∃ before, offset = before + 1 := by
    cases offset with
    | zero => exact .inl rfl
    | succ before => exact .inr ⟨before, rfl⟩
  · rw [Control.taken_retire_zero hstage] at hone
    cases hone
  · rw [Control.taken_retire hstage (by omega)] at hone
    refine ⟨before, ⟨hone, .inl (by omega)⟩, ?_, ?_, rfl⟩
    · rw [hcycle, contextOf_pred]
    · have h2 : (c.step atomic).taken 2 = c.taken 1 := Control.taken_retire hstage (by decide)
      have h3 : (c.step atomic).taken 3 = c.taken 2 := Control.taken_retire hstage (by decide)
      obtain rfl | rfl : before = 0 ∨ before = 1 := by omega
      · simp only [Control.older, h2, h3]
        omega
      · simp only [Control.older, h3]
        omega

/-- `stage1` starts the get of the next task from the slot that `in_back` stands at. -/
theorem fetch {fetched : Nat} (h : Fetching size words acked c queue task) (hat : c.At size fetched acked)
    (hstage : c.stage = .stage1) (hact : c.acting atomic = some x)
    (hempty : ∀ t ∈ queue, t.getsInto x = false) {t : Transfer} (hdir : t.dir = .get) (hcontext : t.context = x)
    (hslot : t.slot = c.tstate.in_back) :
    Fetching size words acked (c.step atomic) (queue ++ [t]) task := by
  have hx : x = contextOf c.cycle 0 := by
    have hoffset := Control.acting_context hact
    rwa [hstage] at hoffset
  have hcycle : (c.step atomic).cycle = c.cycle := Control.cycle_of_ne_stage4 (by simp [hstage])
  have h1 : (c.step atomic).taken 1 = c.taken 1 := Control.taken_fetch hstage (by decide) (by decide)
  have h2 : (c.step atomic).taken 2 = c.taken 2 := Control.taken_fetch hstage (by decide) (by decide)
  have h3 : (c.step atomic).taken 3 = c.taken 3 := Control.taken_fetch hstage (by decide) (by decide)
  have holder : ∀ offset, (c.step atomic).older offset = c.older offset := by
    intro offset
    unfold Control.older
    split <;> simp only [h1, h2, h3]
  have hgets : t.getsInto x = true := by simp [Transfer.getsInto, hdir, hcontext]
  -- The older tasks have been in the pipe before, in other contexts.
  have hbefore : ∀ {offset}, (c.step atomic).Unexecuted offset → offset ≠ 0 →
      c.Unexecuted offset ∧ t.getsInto (contextOf c.cycle offset) = false := by
    rintro offset ⟨hone, hearly⟩ hpos
    have hlt : offset < 4 := by
      obtain hlt | ⟨rfl, _⟩ := hearly <;> omega
    rw [Control.taken_fetch hstage (by omega) hlt] at hone
    refine ⟨⟨hone, hearly.imp_right fun hlast => ⟨hlast.1, by simp [hstage]⟩⟩, ?_⟩
    have hne := contextOf_ne c.cycle hlt (by decide) hpos
    simp [Transfer.getsInto, hcontext, hx, hne.symm]
  refine ⟨?_, ?_⟩
  · intro offset hpending u hu hinto
    rw [hcycle] at hinto
    rw [holder]
    by_cases hzero : offset = 0
    · subst hzero
      rw [← hx] at hinto
      obtain hu | hu := List.mem_append.mp hu
      · rw [hempty u hu] at hinto
        cases hinto
      · obtain rfl := List.mem_singleton.mp hu
        have hsum := hat.sum
        rw [hat.taken_zero hstage, Nat.add_zero] at hsum
        rw [hslot, hat.in_back, hsum]
    · obtain ⟨hold, hother⟩ := hbefore hpending hzero
      obtain hu | hu := List.mem_append.mp hu
      · exact h.slots offset hold u hu hinto
      · obtain rfl := List.mem_singleton.mp hu
        rw [hother] at hinto
        cases hinto
  · intro offset hpending hnone
    rw [hcycle] at hnone ⊢
    rw [holder]
    by_cases hzero : offset = 0
    · subst hzero
      have hthis := hnone t (by simp)
      rw [← hx, hgets] at hthis
      cases hthis
    · exact h.held offset (hbefore hpending hzero).1 fun u hu => hnone u (List.mem_append_left _ hu)

end Fetching

end speutils.taskmanager
