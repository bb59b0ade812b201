import SpeUtils.Spu.Schedule
import SpeUtils.Spu.Occupancy

open speutils.fifo

namespace speutils.taskmanager

/-- A put from the acknowledgement buffer of a context. -/
def Transfer.putsFrom (x : Fin 4) (t : Transfer) : Bool := t.dir = .put ∧ t.context = x

/-- A get into the task buffer of a context. -/
def Transfer.getsInto (x : Fin 4) (t : Transfer) : Bool := t.dir = .get ∧ t.context = x

/-- The context holds a task whose fetch has been waited for. -/
def Control.Loaded (c : Control) (x : Fin 4) : Prop :=
  c.active x = true ∧
    (x = contextOf c.cycle 2 ∨ x = contextOf c.cycle 3 ∨
      (x = contextOf c.cycle 1 ∧ (c.stage = .stage3 ∨ c.stage = .stage4)))

namespace Control

variable {atomic : atomic_s} {c : Control} {x : Fin 4}

/-- Only the wait of `stage2` makes a context loaded. -/
theorem Loaded.of_step (hloaded : (c.step atomic).Loaded x) :
    c.Loaded x ∨ (c.stage = .stage2 ∧ c.acting atomic = some x) := by
  obtain ⟨hactive, hplace⟩ := hloaded
  cases hstage : c.stage with
  | stage1 =>
    have hnext : (c.step atomic).stage = .stage2 ∧ (c.step atomic).cycle = c.cycle := by
      simp only [step, hstage]
      split <;> exact ⟨rfl, rfl⟩
    rw [hnext.1, hnext.2] at hplace
    have hplace : x = contextOf c.cycle 2 ∨ x = contextOf c.cycle 3 := by simpa using hplace
    have hne : x ≠ contextOf c.cycle 0 := by
      obtain rfl | rfl := hplace
      · exact contextOf_ne _ (by omega) (by omega) (by omega)
      · exact contextOf_ne _ (by omega) (by omega) (by omega)
    have hkeeps : (c.step atomic).active x = c.active x := by
      refine (step_keeps fun hact => ?_).1
      have hcontext := acting_context hact
      rw [hstage] at hcontext
      exact absurd hcontext hne
    refine .inl ⟨hkeeps.symm.trans hactive, ?_⟩
    obtain hplace | hplace := hplace
    · exact .inl hplace
    · exact .inr (.inl hplace)
  | stage2 =>
    have hstep : c.step atomic = { c with stage := .stage3 } := by simp [step, hstage]
    rw [hstep] at hactive hplace
    obtain hplace | hplace | ⟨rfl, _⟩ := hplace
    · exact .inl ⟨hactive, .inl hplace⟩
    · exact .inl ⟨hactive, .inr (.inl hplace)⟩
    · refine .inr ⟨rfl, ?_⟩
      change c.active (contextOf c.cycle 1) = true at hactive
      simp [acting, hstage, hactive]
  | stage3 =>
    have hstep : c.step atomic = { c with stage := .stage4 } := by simp [step, hstage]
    rw [hstep] at hactive hplace
    obtain hplace | hplace | ⟨hplace, _⟩ := hplace
    · exact .inl ⟨hactive, .inl hplace⟩
    · exact .inl ⟨hactive, .inr (.inl hplace)⟩
    · exact .inl ⟨hactive, .inr (.inr ⟨hplace, .inl hstage⟩)⟩
  | stage4 =>
    have hnext : (c.step atomic).stage = .stage1 ∧ (c.step atomic).cycle = c.cycle - 1 := by
      simp only [step, hstage]
      split <;> exact ⟨rfl, rfl⟩
    have hbefore : c.active x = true := by
      by_contra hinactive
      have h : (c.step atomic).active x = false :=
        step_inactive (by simpa using hinactive) (by simp [hstage])
      rw [h] at hactive
      cases hactive
    rw [hnext.1, hnext.2] at hplace
    obtain hplace | hplace | ⟨_, hplace⟩ := hplace
    · have hshift : contextOf (c.cycle - 1) 2 = contextOf c.cycle 1 := contextOf_pred c.cycle 1
      rw [hshift] at hplace
      exact .inl ⟨hbefore, .inr (.inr ⟨hplace, .inr hstage⟩)⟩
    · have hshift : contextOf (c.cycle - 1) 3 = contextOf c.cycle 2 := contextOf_pred c.cycle 2
      rw [hshift] at hplace
      exact .inl ⟨hbefore, .inl hplace⟩
    · simp at hplace

/-- A context that a stage leaves inactive was inactive before, or was
acknowledged by that stage. -/
theorem inactive_of_step (hinactive : (c.step atomic).active x = false) :
    (c.active x = false ∧ (c.stage = .stage1 → c.acting atomic ≠ some x)) ∨
      (c.stage = .stage4 ∧ c.acting atomic = some x) := by
  by_cases hretire : c.stage = .stage4 ∧ c.acting atomic = some x
  · exact .inr hretire
  · refine .inl ⟨?_, ?_⟩
    · by_contra hactive
      have hmiddle : c.acting atomic = some x → c.stage = .stage2 ∨ c.stage = .stage3 := by
        intro hact
        cases hstage : c.stage with
        | stage1 =>
          have h := (step_fetch hstage hact).1
          rw [hinactive] at h
          cases h
        | stage2 => exact .inl rfl
        | stage3 => exact .inr rfl
        | stage4 => exact absurd ⟨hstage, hact⟩ hretire
      have hkeeps := (step_keeps hmiddle).1
      rw [hinactive] at hkeeps
      exact hactive hkeeps.symm
    · intro hstage hact
      have h := (step_fetch hstage hact).1
      rw [hinactive] at h
      cases h

/-- What `stage3` and `stage4` act on is loaded. -/
theorem loaded_of_acting (hstage : c.stage = .stage3 ∨ c.stage = .stage4)
    (hact : c.acting atomic = some x) : c.Loaded x := by
  have hcontext := acting_context hact
  obtain hstage | hstage := hstage
  · rw [hstage] at hcontext
    exact ⟨acting_active (by simp [hstage]) hact, .inl hcontext⟩
  · rw [hstage] at hcontext
    exact ⟨acting_active (by simp [hstage]) hact, .inr (.inl hcontext)⟩

end Control

section

variable {world : Type}

/-- The outstanding transfers of a pipeline. An empty context has no get into its
task buffer, a loaded one has no transfer at all, and nothing is put twice. -/
structure Buffers (s : Spu world) : Prop where
  id : ∀ x, (s.pipe x).id = x
  tag : ∀ t ∈ s.queue, t.tag = t.context
  empty : ∀ x, s.control.active x = false → ∀ t ∈ s.queue, t.getsInto x = false
  loaded : ∀ x, s.control.Loaded x → ∀ t ∈ s.queue, t.context ≠ x
  once : ∀ x, s.queue.countP (Transfer.putsFrom x) ≤ 1

/-- Losing transfers from the queue never hurts, as long as no context loses its task
and none becomes loaded over a transfer. -/
theorem Buffers.shrink {s r : Spu world} (h : Buffers s) (hid : ∀ x, (r.pipe x).id = (s.pipe x).id)
    (hqueue : r.queue.Sublist s.queue)
    (hempty : ∀ x, r.control.active x = false → s.control.active x = false)
    (hloaded : ∀ x, r.control.Loaded x → s.control.Loaded x ∨ ∀ t ∈ r.queue, t.context ≠ x) : Buffers r where
  id := fun x => (hid x).trans (h.id x)
  tag := fun t ht => h.tag t (hqueue.subset ht)
  empty := fun x hx t ht => h.empty x (hempty x hx) t (hqueue.subset ht)
  loaded := fun x hx t ht => (hloaded x hx).elim (fun hs => h.loaded x hs t (hqueue.subset ht)) (fun hr => hr t ht)
  once := fun x => (hqueue.countP_le).trans (h.once x)

/-- One more transfer: its context is not loaded behind it, and a get leaves no empty
context. A put is started only on a context without transfers, and a context loses its
task only when it has none. -/
theorem Buffers.push {s r : Spu world} (h : Buffers s) {t : Transfer}
    (hid : ∀ x, (r.pipe x).id = (s.pipe x).id) (hqueue : r.queue = s.queue ++ [t]) (htag : t.tag = t.context)
    (hempty : ∀ x, r.control.active x = false →
      t.getsInto x = false ∧ (s.control.active x = false ∨ ∀ u ∈ s.queue, u.context ≠ x))
    (hloaded : ∀ x, r.control.Loaded x → s.control.Loaded x ∧ t.context ≠ x)
    (honce : t.dir = .put → ∀ u ∈ s.queue, u.context ≠ t.context) : Buffers r := by
  have hmem : ∀ u ∈ r.queue, u ∈ s.queue ∨ u = t := by
    intro u hu
    simpa [hqueue] using hu
  refine ⟨fun x => (hid x).trans (h.id x), ?_, ?_, ?_, ?_⟩
  · intro u hu
    obtain hu | rfl := hmem u hu
    · exact h.tag u hu
    · exact htag
  · intro x hx u hu
    obtain ⟨hnew, hold⟩ := hempty x hx
    obtain hu | rfl := hmem u hu
    · obtain hold | hold := hold
      · exact h.empty x hold u hu
      · simp [Transfer.getsInto, hold u hu]
    · exact hnew
  · intro x hx u hu
    obtain ⟨hold, hnew⟩ := hloaded x hx
    obtain hu | rfl := hmem u hu
    · exact h.loaded x hold u hu
    · exact hnew
  · intro x
    rw [hqueue, List.countP_append, List.countP_singleton]
    by_cases hput : t.putsFrom x = true
    · obtain ⟨hdir, rfl⟩ : t.dir = .put ∧ t.context = x := by simpa [Transfer.putsFrom] using hput
      have hzero : s.queue.countP (Transfer.putsFrom t.context) = 0 := by
        rw [List.countP_eq_zero]
        intro u hu
        simp [Transfer.putsFrom, honce hdir u hu]
      rw [hzero]
      split <;> omega
    · rw [if_neg hput]
      exact h.once x

theorem Buffers.arriveAll {m : Spu world × fifo_s} (h : Buffers m.1) (indices : List Nat) :
    Buffers (arriveAll indices m).1 := by
  have hkept := arriveAll_kept indices m
  refine h.shrink hkept.id (arriveAll_queue indices m) ?_ ?_
  · intro x hx
    rwa [hkept.control] at hx
  · intro x hx
    rw [hkept.control] at hx
    exact .inl hx

/-- Waiting on the tag of a context takes every transfer of that context out of
the queue. -/
theorem Buffers.wait {s : Spu world} (h : Buffers s) (x : Fin 4) :
    ∀ t ∈ s.queue.filter (·.tag ≠ (s.pipe x).id), t.context ≠ x := by
  intro t ht
  rw [List.mem_filter] at ht
  rintro rfl
  have htag := h.tag t ht.1
  have hid := h.id t.context
  simp [htag, hid] at ht

variable {m : Spu world × fifo_s} {bodies : TaskBodies world} {x y : Fin 4}

theorem inactive_of_runStage (hinactive : (runStage bodies m).1.control.active x = false) :
    (m.1.control.active x = false ∧ (m.1.stage = .stage1 → m.1.acting m.2 ≠ some x)) ∨
      (m.1.stage = .stage4 ∧ m.1.acting m.2 = some x) := by
  rw [runStage_control] at hinactive
  exact Control.inactive_of_step hinactive

theorem loaded_of_runStage (hloaded : (runStage bodies m).1.control.Loaded x) :
    m.1.control.Loaded x ∨ (m.1.stage = .stage2 ∧ m.1.acting m.2 = some x) := by
  rw [runStage_control] at hloaded
  exact hloaded.of_step

/-- A loaded context stands at a later offset than the one fetched into. -/
theorem not_loaded_of_fetch (hstage : m.1.stage = .stage1) (hact : m.1.acting m.2 = some y) :
    ¬ m.1.control.Loaded y := by
  rintro ⟨_, hplace⟩
  have hcontext : y = contextOf m.1.cycle 0 := by
    have hoffset := Control.acting_context hact
    rwa [Spu.control_stage, hstage] at hoffset
  simp only [Spu.control_cycle, Spu.control_stage, hstage, hcontext] at hplace
  obtain hplace | hplace | ⟨_, hplace⟩ := hplace
  · exact contextOf_ne m.1.cycle (by omega) (by omega) (by omega) hplace
  · exact contextOf_ne m.1.cycle (by omega) (by omega) (by omega) hplace
  · simp at hplace

/-- The context that `stage4` acknowledges is given up. -/
theorem not_active_of_retire (bodies : TaskBodies world) (hstage : m.1.stage = .stage4)
    (hact : m.1.acting m.2 = some y) : (runStage bodies m).1.control.active y = false := by
  have hcontext : y = contextOf m.1.cycle 3 := by
    have hoffset := Control.acting_context hact
    rwa [Spu.control_stage, hstage] at hoffset
  rw [runStage_control, hcontext]
  exact Control.step_retire (c := m.1.control) m.2.atomic hstage

theorem Buffers.fetch (h : Buffers m.1) (hstage : m.1.stage = .stage1) (hact : m.1.acting m.2 = some y) :
    Buffers (taskmanager.runStage bodies m).1 := by
  have hqueue := runStage_queue bodies m
  simp only [hstage, hact] at hqueue
  refine h.push (runStage_id bodies m) hqueue (h.id y) ?_ ?_ ?_
  · intro x hx
    obtain ⟨hbefore, hother⟩ | ⟨hlast, _⟩ := inactive_of_runStage hx
    · have hne : y ≠ x := by
        rintro rfl
        exact hother hstage hact
      exact ⟨by simp [Transfer.getsInto, hne], .inl hbefore⟩
    · rw [hstage] at hlast
      cases hlast
  · intro x hx
    obtain hbefore | ⟨hother, _⟩ := loaded_of_runStage hx
    · refine ⟨hbefore, ?_⟩
      rintro rfl
      exact not_loaded_of_fetch hstage hact hbefore
    · rw [hstage] at hother
      cases hother
  · intro hput
    cases hput

theorem Buffers.retire (h : Buffers m.1) (hstage : m.1.stage = .stage4) (hact : m.1.acting m.2 = some y) :
    Buffers (taskmanager.runStage bodies m).1 := by
  have hqueue := runStage_queue bodies m
  simp only [hstage, hact] at hqueue
  have hdone : m.1.control.Loaded y := Control.loaded_of_acting (.inr hstage) hact
  refine h.push (runStage_id bodies m) hqueue (h.id y) ?_ ?_ (fun _ => h.loaded y hdone)
  · intro x hx
    refine ⟨by simp [Transfer.getsInto], ?_⟩
    obtain ⟨hbefore, _⟩ | ⟨_, hretired⟩ := inactive_of_runStage hx
    · exact .inl hbefore
    · obtain rfl : y = x := Option.some.inj (hact.symm.trans hretired)
      exact .inr (h.loaded y hdone)
  · intro x hx
    obtain hbefore | ⟨hother, _⟩ := loaded_of_runStage hx
    · refine ⟨hbefore, ?_⟩
      rintro rfl
      have hgiven := not_active_of_retire bodies hstage hact
      rw [hx.1] at hgiven
      cases hgiven
    · rw [hstage] at hother
      cases hother

theorem Buffers.runStage (h : Buffers m.1) (bodies : TaskBodies world) :
    Buffers (runStage bodies m).1 := by
  have hqueue := runStage_queue bodies m
  -- Apart from the two stages that start a transfer the queue can only shrink.
  have hshrink : (taskmanager.runStage bodies m).1.queue.Sublist m.1.queue →
      (m.1.stage = .stage4 → m.1.acting m.2 = none) →
      (m.1.stage = .stage2 → ∀ x, m.1.acting m.2 = some x →
        ∀ t ∈ (taskmanager.runStage bodies m).1.queue, t.context ≠ x) →
      Buffers (taskmanager.runStage bodies m).1 := by
    intro hsub hnone hwaited
    refine h.shrink (runStage_id bodies m) hsub ?_ ?_
    · intro x hx
      obtain ⟨hbefore, _⟩ | ⟨hstage, hact⟩ := inactive_of_runStage hx
      · exact hbefore
      · rw [hnone hstage] at hact
        cases hact
    · intro x hx
      obtain hbefore | ⟨hstage, hact⟩ := loaded_of_runStage hx
      · exact .inl hbefore
      · exact .inr (hwaited hstage x hact)
  cases hact : m.1.acting m.2 with
  | none =>
    have hsame : (taskmanager.runStage bodies m).1.queue = m.1.queue := by
      rw [hqueue, hact]
      cases m.1.stage <;> rfl
    refine hshrink (hsame ▸ List.Sublist.refl _) (fun _ => hact) ?_
    intro _ x hsome
    rw [hact] at hsome
    cases hsome
  | some y =>
    cases hstage : m.1.stage with
    | stage1 => exact h.fetch hstage hact
    | stage2 =>
      simp only [hstage, hact] at hqueue
      refine hshrink ?_ (by simp [hstage]) ?_
      · rw [hqueue]
        exact List.filter_sublist
      · intro _ x hx t ht
        obtain rfl : y = x := Option.some.inj (hact.symm.trans hx)
        rw [hqueue] at ht
        exact h.wait y t ht
    | stage3 =>
      simp only [hstage] at hqueue
      exact hshrink (hqueue ▸ List.Sublist.refl _) (by simp [hstage]) (by simp [hstage])
    | stage4 => exact h.retire hstage hact

end

namespace Launch

variable {world : Type} (l : Launch world)

theorem run_buffers (n : Nat) : Buffers (l.run n) := by
  induction n with
  | zero =>
    refine ⟨fun _ => rfl, ?_, ?_, ?_, fun _ => Nat.zero_le _⟩
    · intro t ht
      cases ht
    · intro x _ t ht
      cases ht
    · intro x _ t ht
      cases ht
  | succ n ih => exact (ih.arriveAll (l.arrivals n)).runStage l.bodies

theorem found_buffers (n : Nat) : Buffers (l.found n).1 := (l.run_buffers n).arriveAll (l.arrivals n)

/-- No buffer hazard, whatever completes when. In the state in which the `n`-th
stage runs: `stage1` starts a get only on a context that no task occupies and
that has no get outstanding; when `stage2` has waited, no get into the context's
task buffer is outstanding, and the words that are then in it are those that its
body is given; while `stage3` gives both buffers to its body and takes them back, no
get into the one and no put from the other is outstanding; and at most one put from
a buffer is outstanding at any time. -/
theorem no_buffer_hazard (n : Nat) (x : Fin 4) :
    ((l.found n).1.stage = .stage1 → l.acting n = some x →
      ((l.found n).1.pipe x).active = false ∧ ∀ t ∈ (l.found n).1.queue, t.getsInto x = false) ∧
    ((l.found n).1.stage = .stage2 → l.acting n = some x →
      (∀ t ∈ (dmaWaitTag ((l.found n).1.pipe x).id (l.found n)).1.queue, t.getsInto x = false) ∧
      (l.run (n + 1)).world = l.bodies.stage2 (l.found n).1.world ((l.found n).1.pipe x).id
        ((dmaWaitTag ((l.found n).1.pipe x).id (l.found n)).1.pipe x).task) ∧
    ((l.found n).1.stage = .stage3 → l.acting n = some x →
      (∀ t ∈ (l.found n).1.queue, t.getsInto x = false ∧ t.putsFrom x = false) ∧
      ((l.run (n + 1)).world, ((l.run (n + 1)).pipe x).task, ((l.run (n + 1)).pipe x).ack) =
        l.bodies.stage3 (l.found n).1.world ((l.found n).1.pipe x).id ((l.found n).1.pipe x).task
          ((l.found n).1.pipe x).ack) ∧
    (l.run n).queue.countP (Transfer.putsFrom x) ≤ 1 ∧
    (l.found n).1.queue.countP (Transfer.putsFrom x) ≤ 1 := by
  have hbuffers := l.found_buffers n
  have hkept := l.found_kept n
  refine ⟨?_, ?_, ?_, (l.run_buffers n).once x, hbuffers.once x⟩
  · intro hstage hact
    have hfetch : n % 4 = 0 := by
      have h := congrArg Control.stage hkept.control
      exact l.stage_iff.mp (h.symm.trans hstage)
    obtain ⟨t, rfl⟩ : ∃ t, n = 4 * t := ⟨n / 4, by omega⟩
    obtain rfl := l.acting_fetch hact
    have hinactive : (l.found (4 * t)).1.control.active (turn t) = false := by
      rw [hkept.control]
      exact l.turn_inactive t
    exact ⟨hinactive, hbuffers.empty _ hinactive⟩
  · intro hstage hact
    obtain ⟨_, hpipe, hworld⟩ := (l.run_acted n).load x hstage hact
    refine ⟨?_, ?_⟩
    · intro t ht
      rw [dmaWaitTag_queue] at ht
      simp [Transfer.getsInto, hbuffers.wait x t ht]
    · rw [hworld, hpipe]
  · intro hstage hact
    refine ⟨?_, ((l.run_acted n).execute x hstage hact).2⟩
    intro t ht
    rw [← l.found_acting n] at hact
    have hloaded := Control.loaded_of_acting (.inl hstage) hact
    simp [Transfer.getsInto, Transfer.putsFrom, hbuffers.loaded x hloaded t ht]

end Launch

end speutils.taskmanager
