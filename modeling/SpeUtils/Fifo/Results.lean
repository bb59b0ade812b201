import SpeUtils.Fifo.Matched
import SpeUtils.Spu.Flight
import SpeUtils.Spu.Independence

open cyclic run speutils.ring speutils.taskmanager speutils.fifo

namespace speutils.taskmanager

/-- The offsets at which a task has been executed and is yet to be acknowledged. -/
def Control.Finished (c : Control) (offset : Nat) : Prop := offset = 3 ∨ offset = 2 ∧ c.stage = .stage4

/-- How many tasks in the pipe have been executed. -/
def Control.finished (c : Control) : Nat := c.taken 3 + if c.stage = .stage4 then c.taken 2 else 0

/-- Where transfers leave an ack slot: as it was if none of them is a put into it, or with
the buffer that such a put was started from. -/
theorem foldl_perform_put {world : Type} (ts : List Transfer) (m : Spu world × fifo_s) (slot : Nat) :
    ((∀ t ∈ ts, t.dir = .put → t.slot ≠ slot) ∧
        (ts.foldl (fun m t => t.perform m) m).2.ack_fifo slot = m.2.ack_fifo slot) ∨
      ∃ t ∈ ts, t.dir = .put ∧ t.slot = slot ∧
        (ts.foldl (fun m t => t.perform m) m).2.ack_fifo slot = (m.1.pipe t.context).ack := by
  induction ts generalizing m with
  | nil => exact .inl ⟨fun t ht => absurd ht List.not_mem_nil, rfl⟩
  | cons t ts ih =>
    rw [List.foldl_cons]
    obtain ⟨hnone, hsame⟩ | ⟨u, hu, hput, hslot, hvalue⟩ := ih (t.perform m)
    · cases hdir : t.dir with
      | get =>
        refine .inl ⟨?_, hsame.trans (by simp [Transfer.perform, hdir])⟩
        intro u hu hput
        obtain rfl | hu := List.mem_cons.mp hu
        · rw [hdir] at hput
          cases hput
        · exact hnone u hu hput
      | put =>
        by_cases hslot : t.slot = slot
        · refine .inr ⟨t, List.mem_cons_self, hdir, hslot, hsame.trans ?_⟩
          simp [Transfer.perform, hdir, hslot]
        · refine .inl ⟨?_, hsame.trans (by simp [Transfer.perform, hdir, Ne.symm hslot])⟩
          intro u hu hput
          obtain rfl | hu := List.mem_cons.mp hu
          · exact hslot
          · exact hnone u hu hput
    · refine .inr ⟨u, List.mem_cons_of_mem _ hu, hput, hslot, hvalue.trans ?_⟩
      exact (perform_kept t m).ack u.context

end speutils.taskmanager

namespace speutils.fifo

theorem getElem?_snoc {A : Type} {items : List A} {i : Nat} {a : A} (hitem : items[i]? = some a) (last : A) :
    (items ++ [last])[i]? = some a :=
  (List.getElem?_append_left (List.getElem?_eq_some_iff.mp hitem).1).trans hitem

/-- The acknowledgements on their way back, where `results` lists what `stage3` has left
for each task in turn. Those sent have arrived or are outstanding, and a put carries the
result of its own task from the buffer to the slot where the monitor finds it. -/
structure Returns (size : Nat) (results : List ack_s) (ack : Fin 4 → ack_s) (queue : List Transfer)
    (ack_fifo : Nat → ack_s) (acked : Nat) (arrived : List Nat) (reclaimed : Nat) : Prop where
  sent : ∀ i < acked, i ∈ arrived ∨ ∃ t ∈ queue, t.dir = .put ∧ t.serial = i
  puts : ∀ t ∈ queue, t.dir = .put → results[t.serial]? = some (ack t.context)
  visible : ∀ i, reclaimed ≤ i → i ∈ arrived → results[i]? = some (ack_fifo (i % size))

namespace Returns

variable {size acked reclaimed : Nat} {results : List ack_s} {ack : Fin 4 → ack_s} {queue : List Transfer}
  {ack_fifo : Nat → ack_s} {arrived : List Nat}

theorem init (ack : Fin 4 → ack_s) (ack_fifo : Nat → ack_s) : Returns size [] ack [] ack_fifo 0 [] 0 where
  sent := fun i hi => absurd hi (Nat.not_lt_zero i)
  puts := fun _ ht => absurd ht List.not_mem_nil
  visible := fun _ _ hi => absurd hi List.not_mem_nil

theorem get (h : Returns size results ack queue ack_fifo acked arrived reclaimed) {t : Transfer}
    (ht : t.dir = .get) : Returns size results ack (queue ++ [t]) ack_fifo acked arrived reclaimed where
  sent := by
    intro i hi
    obtain harrived | ⟨u, hu, hput, hserial⟩ := h.sent i hi
    · exact .inl harrived
    · exact .inr ⟨u, List.mem_append_left _ hu, hput, hserial⟩
  puts := by
    intro u hu hput
    obtain hu | hu := List.mem_append.mp hu
    · exact h.puts u hu hput
    · obtain rfl := List.mem_singleton.mp hu
      rw [ht] at hput
      cases hput
  visible := h.visible

/-- `stage4` starts the put of the oldest result. -/
theorem put (h : Returns size results ack queue ack_fifo acked arrived reclaimed) {t : Transfer}
    (hserial : t.serial = acked) (hdir : t.dir = .put) (hresult : results[acked]? = some (ack t.context)) :
    Returns size results ack (queue ++ [t]) ack_fifo (acked + 1) arrived reclaimed where
  sent := by
    intro i hi
    obtain hlt | rfl := Nat.lt_succ_iff_lt_or_eq.mp hi
    · obtain harrived | ⟨u, hu, hput, hserial⟩ := h.sent i hlt
      · exact .inl harrived
      · exact .inr ⟨u, List.mem_append_left _ hu, hput, hserial⟩
    · exact .inr ⟨t, by simp, hdir, hserial⟩
  puts := by
    intro u hu hput
    obtain hu | hu := List.mem_append.mp hu
    · exact h.puts u hu hput
    · obtain rfl := List.mem_singleton.mp hu
      rw [hserial]
      exact hresult
  visible := h.visible

/-- `stage3` leaves a result in a buffer that no put is outstanding from. -/
theorem execute (h : Returns size results ack queue ack_fifo acked arrived reclaimed) {ack' : Fin 4 → ack_s}
    {x : Fin 4} (result : ack_s) (hother : ∀ y ≠ x, ack' y = ack y) (hfree : ∀ t ∈ queue, t.context ≠ x) :
    Returns size (results ++ [result]) ack' queue ack_fifo acked arrived reclaimed where
  sent := h.sent
  puts := by
    intro t ht hput
    rw [hother _ (hfree t ht)]
    exact getElem?_snoc (h.puts t ht hput) result
  visible := fun i hle harrived => getElem?_snoc (h.visible i hle harrived) result

/-- Transfers that are carried out bring their results to their own slots and leave the
others of the lap alone. -/
theorem complete {world : Type} {m : Spu world × fifo_s} {ts rest : List Transfer}
    (h : Returns size results (fun x => (m.1.pipe x).ack) queue m.2.ack_fifo acked arrived reclaimed)
    (hacks : Acks size queue m.2.ack_fifo acked arrived reclaimed) (hlap : acked < reclaimed + size)
    (hperm : queue.Perm (ts ++ rest)) :
    Returns size results (fun x => (m.1.pipe x).ack) rest (ts.foldl (fun m t => t.perform m) m).2.ack_fifo acked
      (arrived ++ Ledger.putSerials ts) reclaimed := by
  have hmem : ∀ {t}, t ∈ ts ∨ t ∈ rest → t ∈ queue :=
    fun ht => hperm.mem_iff.mpr (List.mem_append.mpr ht)
  -- Within a lap a slot belongs to one acknowledgement.
  have hsame : ∀ t ∈ ts, t.dir = .put → ∀ i, reclaimed ≤ i → i < acked → t.slot = i % size → t.serial = i := by
    intro t ht hput i hle hlt hslot
    obtain ⟨htlt, htslot, hnot⟩ := hacks.queue_put t (hmem (.inl ht)) hput
    have htle : reclaimed ≤ t.serial := by
      by_contra hearly
      exact hnot (hacks.reclaimed_arrived _ (by omega))
    have hmod : t.serial % size = i % size := htslot.symm.trans hslot
    obtain hle' | hle' := Nat.le_total t.serial i
    · exact eq_of_mod_eq hle' (by omega) hmod
    · exact (eq_of_mod_eq hle' (by omega) hmod.symm).symm
  refine ⟨?_, fun t ht => h.puts t (hmem (.inr ht)), ?_⟩
  · intro i hi
    obtain harrived | ⟨t, ht, hput, hserial⟩ := h.sent i hi
    · exact .inl (List.mem_append_left _ harrived)
    · obtain ht | ht := List.mem_append.mp (hperm.mem_iff.mp ht)
      · exact .inl (List.mem_append_right _ (Ledger.mem_putSerials.mpr ⟨t, ht, hput, hserial⟩))
      · exact .inr ⟨t, ht, hput, hserial⟩
  · intro i hle hi
    obtain ⟨hnone, hkept⟩ | ⟨t, ht, hput, hslot, hvalue⟩ := foldl_perform_put ts m (i % size)
    · rw [hkept]
      obtain hi | hi := List.mem_append.mp hi
      · exact h.visible i hle hi
      · obtain ⟨t, ht, hput, rfl⟩ := Ledger.mem_putSerials.mp hi
        exact absurd (hacks.queue_put t (hmem (.inl ht)) hput).2.1 (hnone t ht hput)
    · have hlt : i < acked := by
        obtain hi | hi := List.mem_append.mp hi
        · exact hacks.arrived_lt i hi
        · obtain ⟨u, hu, huput, rfl⟩ := Ledger.mem_putSerials.mp hi
          exact (hacks.queue_put u (hmem (.inl hu)) huput).1
      rw [hvalue, ← hsame t ht hput i hle hlt hslot]
      exact h.puts t (hmem (.inl ht)) hput

/-- The monitor clears the slot that it leaves behind. -/
theorem reclaim (h : Returns size results ack queue ack_fifo acked arrived reclaimed)
    (hacks : Acks size queue ack_fifo acked arrived reclaimed) (hlap : acked < reclaimed + size)
    (cleared : ack_s) :
    Returns size results ack queue (Function.update ack_fifo (reclaimed % size) cleared) acked arrived
      (reclaimed + 1) where
  sent := h.sent
  puts := h.puts
  visible := by
    intro i hle harrived
    have hlt := hacks.arrived_lt i harrived
    have hslot : i % size ≠ reclaimed % size := by
      intro heq
      have := eq_of_mod_eq (by omega) (by omega) heq.symm
      omega
    rw [Function.update_of_ne hslot]
    exact h.visible i (by omega) harrived

end Returns

/-- The results that have not been sent lie in the buffers of their contexts. -/
structure Pending (results : List ack_s) (acked : Nat) (c : Control) (ack : Fin 4 → ack_s) : Prop where
  length : results.length = acked + c.finished
  held : ∀ offset, c.Finished offset → c.taken offset = 1 →
    results[acked + c.older offset]? = some (ack (contextOf c.cycle offset))

namespace Pending

variable {results : List ack_s} {acked : Nat} {c : Control} {ack : Fin 4 → ack_s} {atomic : atomic_s} {x : Fin 4}

theorem init (ack : Fin 4 → ack_s) (hidle : ∀ x, c.active x = false) (hstage : c.stage ≠ .stage4) :
    Pending [] 0 c ack := by
  have hnone : ∀ offset, c.taken offset = 0 := fun offset => Control.taken_eq_zero (hidle _)
  refine ⟨by simp [Control.finished, hnone, hstage], ?_⟩
  intro offset _ htaken
  rw [hnone] at htaken
  cases htaken

/-- The first two stages do nothing to executed tasks. -/
theorem early (h : Pending results acked c ack) (hstage : c.stage = .stage1 ∨ c.stage = .stage2) :
    Pending results acked (c.step atomic) ack := by
  have hnow : c.stage ≠ .stage4 := by
    obtain hstage | hstage := hstage <;> simp [hstage]
  have hlast : (c.step atomic).stage ≠ .stage4 := by
    obtain hstage | hstage := hstage
    · simp only [Control.step, hstage]
      split <;> simp
    · simp [Control.step, hstage]
  have hcycle : (c.step atomic).cycle = c.cycle := Control.cycle_of_ne_stage4 hnow
  have htaken : (c.step atomic).taken 3 = c.taken 3 := by
    obtain hstage | hstage := hstage
    · exact Control.taken_fetch hstage (by decide) (by decide)
    · exact Control.taken_middle (.inl hstage) 3
  refine ⟨?_, ?_⟩
  · rw [h.length]
    simp only [Control.finished, hlast, hnow, if_false, htaken]
  · intro offset hfinished hone
    obtain rfl | ⟨_, hfour⟩ := hfinished
    · rw [htaken] at hone
      rw [hcycle]
      exact h.held 3 (.inl rfl) hone
    · exact absurd hfour hlast

theorem execute (h : Pending results acked c ack) (hstage : c.stage = .stage3) (hact : c.acting atomic = some x)
    (result : ack_s) : Pending (results ++ [result]) acked (c.step atomic) (Function.update ack x result) := by
  have htaken : ∀ offset, (c.step atomic).taken offset = c.taken offset := Control.taken_middle (.inr hstage)
  have hcycle : (c.step atomic).cycle = c.cycle := Control.cycle_of_ne_stage4 (by simp [hstage])
  have hlast : (c.step atomic).stage = .stage4 := by simp [Control.step, hstage]
  have hcontext : x = contextOf c.cycle 2 := by
    have hoffset := Control.acting_context hact
    rwa [hstage] at hoffset
  have hone : c.taken 2 = 1 := by
    have hacting := Control.taken_of_acting (by simp [hstage]) hact
    rwa [hstage] at hacting
  have hlength : results.length = acked + c.taken 3 := by
    rw [h.length]
    simp [Control.finished, hstage]
  refine ⟨?_, ?_⟩
  · simp only [List.length_append, List.length_singleton, hlength, Control.finished, hlast, if_true, htaken, hone]
    omega
  · intro offset hfinished hsome
    rw [htaken] at hsome
    rw [hcycle]
    obtain rfl | ⟨rfl, _⟩ := hfinished
    · rw [Function.update_of_ne (hcontext ▸ contextOf_ne c.cycle (by decide) (by decide) (by decide))]
      exact getElem?_snoc (h.held 3 (.inl rfl) hsome) result
    · rw [← hcontext, Function.update_self]
      simp only [Control.older, htaken, ← hlength]
      simp

/-- `stage3` without a task leaves the results as they are. -/
theorem idle (h : Pending results acked c ack) (hstage : c.stage = .stage3) (hact : c.acting atomic = none) :
    Pending results acked (c.step atomic) ack := by
  have htaken : ∀ offset, (c.step atomic).taken offset = c.taken offset := Control.taken_middle (.inr hstage)
  have hcycle : (c.step atomic).cycle = c.cycle := Control.cycle_of_ne_stage4 (by simp [hstage])
  have hlast : (c.step atomic).stage = .stage4 := by simp [Control.step, hstage]
  have hnone : c.taken 2 = 0 := by
    have hidle := Control.taken_of_idle (by simp [hstage]) hact
    rwa [hstage] at hidle
  refine ⟨?_, ?_⟩
  · rw [h.length]
    simp [Control.finished, hlast, hstage, htaken, hnone]
  · intro offset hfinished hsome
    rw [htaken] at hsome
    obtain rfl | ⟨rfl, _⟩ := hfinished
    · rw [hcycle]
      exact h.held 3 (.inl rfl) hsome
    · rw [hnone] at hsome
      cases hsome

/-- `stage4` gives up the oldest result, if there is one, and the next moves into its place. -/
theorem retire (h : Pending results acked c ack) (hstage : c.stage = .stage4) :
    Pending results (acked + c.taken 3) (c.step atomic) ack := by
  have hcycle : (c.step atomic).cycle = c.cycle - 1#32 := Control.cycle_of_stage4 hstage
  have hlast : (c.step atomic).stage = .stage1 := by
    simp only [Control.step, hstage]
    split <;> rfl
  have htaken : (c.step atomic).taken 3 = c.taken 2 := Control.taken_retire hstage (by decide)
  refine ⟨?_, ?_⟩
  · rw [h.length]
    simp [Control.finished, hlast, hstage, htaken]
    omega
  · intro offset hfinished hsome
    obtain rfl | ⟨_, hfour⟩ := hfinished
    · rw [htaken] at hsome
      have hheld := h.held 2 (.inr ⟨rfl, hstage⟩) hsome
      rw [hcycle, contextOf_pred]
      exact hheld
    · rw [hlast] at hfour
      cases hfour

/-- What `stage4` is about to send is the oldest result. -/
theorem oldest (h : Pending results acked c ack) (hstage : c.stage = .stage4) (hact : c.acting atomic = some x) :
    results[acked]? = some (ack x) ∧ c.taken 3 = 1 := by
  have hone : c.taken 3 = 1 := by
    have hacting := Control.taken_of_acting (by simp [hstage]) hact
    rwa [hstage] at hacting
  have hcontext : x = contextOf c.cycle 3 := by
    have hoffset := Control.acting_context hact
    rwa [hstage] at hoffset
  exact ⟨hcontext ▸ h.held 3 (.inl rfl) hone, hone⟩

end Pending

namespace Spe

variable {world : Type} {size : Nat} {s s' : Spe world} {bodies : TaskBodies world} {action : Action}
  {results : List ack_s}

/-- The acknowledgement that `stage3` leaves for the task it executes. -/
def produced (bodies : TaskBodies world) (s : Spe world) : Action → List ack_s
  | .runStage =>
    match s.spu.stage, s.spu.acting s.host.fifos with
    | .stage3, some x =>
      [(bodies.stage3 s.spu.world (s.spu.pipe x).id (s.spu.pipe x).task (s.spu.pipe x).ack).2.2]
    | _, _ => []
  | .fifoBegin _ _ | .fifoAdd _ | .send_front | .closeFront | .fifoRegisterProgram _ _ | .arrive _ | .reclaim => []

/-- The entry that the monitor has tested when it reclaims its slot. -/
def recognised (s : Spe world) : Action → List ack_s
  | .reclaim => [s.host.fifos.ack_fifo (ringGetBack s.host.ringCTX)]
  | .fifoBegin _ _ | .fifoAdd _ | .send_front | .closeFront | .fifoRegisterProgram _ _ | .runStage | .arrive _ => []

/-- The results of the executed tasks are all accounted for: in a buffer, on their way,
in their ack slot or behind the monitor. -/
structure Carries (size : Nat) (results : List ack_s) (s : Spe world) : Prop where
  buffers : Buffers s.spu
  pending : Pending results s.log.acked.length s.spu.control (fun x => (s.spu.pipe x).ack)
  returns : Returns size results (fun x => (s.spu.pipe x).ack) s.spu.queue s.host.fifos.ack_fifo
    s.log.acked.length s.log.arrived s.log.reclaimed.length

namespace Carries

theorem init (memory : Memory world) : Carries size [] (.init memory size) where
  buffers := by
    refine ⟨fun _ => rfl, ?_, ?_, ?_, fun _ => Nat.zero_le _⟩
    · exact fun _ ht => absurd ht List.not_mem_nil
    · exact fun _ _ _ ht => absurd ht List.not_mem_nil
    · exact fun _ _ _ ht => absurd ht List.not_mem_nil
  pending := .init _ (fun _ => rfl) (by simp [Spe.init, Spu.init])
  returns := .init _ _

/-- A step of the host's thread touches nothing of it. -/
theorem frame (h : Carries size results s) (hspu : s'.spu = s.spu)
    (hack : s'.host.fifos.ack_fifo = s.host.fifos.ack_fifo) (hacked : s'.log.acked = s.log.acked)
    (harrived : s'.log.arrived = s.log.arrived) (hreclaimed : s'.log.reclaimed = s.log.reclaimed) :
    Carries size results s' := by
  refine ⟨?_, ?_, ?_⟩
  · rw [hspu]
    exact h.buffers
  · rw [hspu, hacked]
    exact h.pending
  · rw [hspu, hack, hacked, harrived, hreclaimed]
    exact h.returns

theorem runStage (h : Carries size results s) (hinv : s.Inv size) (hstep : s.step bodies .runStage = some s') :
    Carries size (results ++ s.produced bodies .runStage) s' := by
  obtain rfl := step_runStage.mp hstep
  have hchain := hinv.chain
  have hbuffers := h.buffers.runStage (m := (s.spu, s.host.fifos)) bodies
  have hcontrol := runStage_control bodies (s.spu, s.host.fifos)
  have hqueue := runStage_queue bodies (s.spu, s.host.fifos)
  have hfifo := runStage_ack_fifo bodies (s.spu, s.host.fifos)
  have hack := fun x => runStage_ack bodies (s.spu, s.host.fifos) x
  have hpending := h.pending
  cases hact : s.spu.acting s.host.fifos with
  | none =>
    have hctl : s.spu.control.acting s.host.fifos.atomic = none := hact
    obtain ⟨hqueue, _, hfifo⟩ := runStage_idle bodies (m := (s.spu, s.host.fifos)) hact
    have hsame : (fun x => ((taskmanager.runStage bodies (s.spu, s.host.fifos)).1.pipe x).ack) =
        fun x => (s.spu.pipe x).ack := by
      funext x
      rw [hack, if_neg (by simp [hact])]
    have hnone : s.produced bodies .runStage = [] := by simp [produced, hact]
    rw [hnone, List.append_nil]
    refine ⟨hbuffers, ?_, ?_⟩
    · simp only [s.log.stage_idle (m := (s.spu, s.host.fifos)) hact]
      rw [hcontrol, hsame]
      cases hstage : s.spu.stage with
      | stage1 => exact hpending.early (.inl hstage)
      | stage2 => exact hpending.early (.inr hstage)
      | stage3 => exact hpending.idle hstage hctl
      | stage4 =>
        have hidle := Control.taken_of_idle (c := s.spu.control) (by simp [hstage]) hctl
        rw [Spu.control_stage, hstage] at hidle
        have hnone : s.spu.control.taken 3 = 0 := hidle
        have hretire : Pending results (s.log.acked.length + s.spu.control.taken 3)
          (s.spu.control.step s.host.fifos.atomic) (fun x => (s.spu.pipe x).ack) := hpending.retire hstage
        rwa [hnone, Nat.add_zero] at hretire
    · simp only [s.log.stage_idle (m := (s.spu, s.host.fifos)) hact]
      rw [hqueue, hfifo, hsame]
      exact h.returns
  | some x =>
    have hctl : s.spu.control.acting s.host.fifos.atomic = some x := hact
    by_cases hexecutes : s.spu.stage = .stage3
    · -- The only stage that writes to a buffer, and then to one without transfers.
      have hfree := h.buffers.loaded x (Control.loaded_of_acting (.inl hexecutes) hctl)
      have hproduced : s.produced bodies .runStage = [(bodies.stage3 s.spu.world (s.spu.pipe x).id
          (s.spu.pipe x).task (s.spu.pipe x).ack).2.2] := by simp [produced, hexecutes, hact]
      have hupdate : (fun y => ((taskmanager.runStage bodies (s.spu, s.host.fifos)).1.pipe y).ack) =
          Function.update (fun y => (s.spu.pipe y).ack) x
            (bodies.stage3 s.spu.world (s.spu.pipe x).id (s.spu.pipe x).task (s.spu.pipe x).ack).2.2 := by
        funext y
        rw [hack]
        by_cases hy : y = x
        · subst hy
          simp [hexecutes, hact]
        · simp [hact, hy, Ne.symm hy]
      simp only [hexecutes, hact] at hqueue hfifo
      rw [hproduced]
      refine ⟨hbuffers, ?_, ?_⟩
      · simp only [s.log.stage_execute (m := (s.spu, s.host.fifos)) hexecutes hact]
        rw [hcontrol, hupdate]
        exact hpending.execute hexecutes hctl _
      · simp only [s.log.stage_execute (m := (s.spu, s.host.fifos)) hexecutes hact]
        rw [hqueue, hfifo, hupdate]
        exact h.returns.execute _ (fun y hy => Function.update_of_ne hy ..) hfree
    · have hsame : (fun y => ((taskmanager.runStage bodies (s.spu, s.host.fifos)).1.pipe y).ack) =
          fun y => (s.spu.pipe y).ack := by
        funext y
        rw [hack, if_neg (fun hboth => hexecutes hboth.1)]
      have hnone : s.produced bodies .runStage = [] := by
        cases hstage : s.spu.stage with
        | stage3 => exact absurd hstage hexecutes
        | stage1 | stage2 | stage4 => simp [produced, hstage]
      rw [hnone, List.append_nil]
      cases hstage : s.spu.stage with
      | stage1 =>
        simp only [hstage, hact] at hqueue hfifo
        refine ⟨hbuffers, ?_, ?_⟩
        · simp only [s.log.stage_fetch (m := (s.spu, s.host.fifos)) hstage hact]
          rw [hcontrol, hsame]
          exact hpending.early (.inl hstage)
        · simp only [s.log.stage_fetch (m := (s.spu, s.host.fifos)) hstage hact]
          rw [hqueue, hfifo, hsame]
          exact h.returns.get rfl
      | stage2 =>
        simp only [hstage, hact] at hqueue hfifo
        refine ⟨hbuffers, ?_, ?_⟩
        · simp only [s.log.stage_load (m := (s.spu, s.host.fifos)) hstage hact]
          rw [hcontrol, hsame]
          exact hpending.early (.inr hstage)
        · simp only [s.log.stage_load (m := (s.spu, s.host.fifos)) hstage hact]
          rw [hqueue, hfifo, hsame]
          have hperm := (List.filter_append_perm (·.tag = (s.spu.pipe x).id) s.spu.queue).symm
          simp only [decide_not]
          exact h.returns.complete (m := (s.spu, s.host.fifos)) hinv.acks (by omega) hperm
      | stage3 => exact absurd hstage hexecutes
      | stage4 =>
        obtain ⟨holdest, hone⟩ := hpending.oldest hstage hctl
        simp only [hstage, hact] at hqueue hfifo
        refine ⟨hbuffers, ?_, ?_⟩
        · simp only [s.log.stage_ack (m := (s.spu, s.host.fifos)) hstage hact, List.length_append,
            List.length_singleton]
          rw [hcontrol, hsame, ← hone]
          exact hpending.retire hstage
        · simp only [s.log.stage_ack (m := (s.spu, s.host.fifos)) hstage hact, List.length_append,
            List.length_singleton]
          rw [hqueue, hfifo, hsame]
          exact h.returns.put hinv.puts rfl holdest

theorem arrive (h : Carries size results s) (hinv : s.Inv size) {index : Nat}
    (hstep : s.step bodies (.arrive index) = some s') : Carries size results s' := by
  obtain ⟨m, harrive, rfl⟩ := step_arrive.mp hstep
  have hchain := hinv.chain
  have hkept := arrive_kept harrive
  have hqueue := arrive_queue harrive
  have hsame : (fun x => (m.1.pipe x).ack) = fun x => (s.spu.pipe x).ack := funext hkept.ack
  refine ⟨?_, ?_, ?_⟩
  · refine h.buffers.shrink hkept.id ?_ ?_ ?_
    · rw [hqueue]
      exact List.eraseIdx_sublist _ _
    · exact fun x hx => by rwa [hkept.control] at hx
    · exact fun x hx => .inl (by rwa [hkept.control] at hx)
  · rw [hkept.control, hsame]
    exact h.pending
  · cases ht : s.spu.queue[index]? with
    | none => simp [taskmanager.arrive, ht] at harrive
    | some t =>
      obtain ⟨hindex, hget⟩ := List.getElem?_eq_some_iff.mp ht
      have hperm : s.spu.queue.Perm ([t] ++ s.spu.queue.eraseIdx index) := by
        rw [← hget]
        exact (List.getElem_cons_eraseIdx_perm hindex).symm
      have hcomplete := h.returns.complete (m := (s.spu, s.host.fifos)) hinv.acks (by omega) hperm
      simp only [taskmanager.arrive, ht, Option.some.injEq] at harrive
      rw [hqueue, hsame]
      subst m
      exact hcomplete

/-- The monitor finds the result of its own task and goes on to the next. -/
theorem reclaim (h : Carries size results s) (hinv : s.Inv size) (hsize : 0 < size)
    (hstep : s.step bodies .reclaim = some s') :
    Carries size results s' ∧
      results[s.log.reclaimed.length]? = some (s.host.fifos.ack_fifo (ringGetBack s.host.ringCTX)) := by
  obtain ⟨hready, rfl⟩ := step_reclaim.mp hstep
  have hchain := hinv.chain
  have hback : ringGetBack s.host.ringCTX = s.log.reclaimed.length % size := hinv.host.position.back_eq
  have hlength : (s.log.reclaim (ringGetBack s.host.ringCTX)).reclaimed.length = s.log.reclaimed.length + 1 := by
    simp [Ledger.reclaim]
  refine ⟨⟨h.buffers, h.pending, ?_⟩, ?_⟩
  · have hreturns := h.returns.reclaim hinv.acks (by omega)
      { s.host.fifos.ack_fifo (ringGetBack s.host.ringCTX) with task_id := ACK_CLEAR }
    rw [hlength]
    rw [← hback] at hreturns
    exact hreturns
  · have hset : (s.host.fifos.ack_fifo (s.log.reclaimed.length % size)).task_id ≠ ACK_CLEAR := by
      rw [← hback]
      simpa [HostSpe.ackReady] using hready
    have harrived := hinv.acks.set_arrived _ (Nat.le_refl _) (by omega) hset
    rw [hback]
    exact h.returns.visible _ (Nat.le_refl _) harrived

theorem step (h : Carries size results s) (hinv : s.Inv size) (hsize : 0 < size)
    (hstep : s.step bodies action = some s') : Carries size (results ++ s.produced bodies action) s' := by
  cases action with
  | runStage => exact h.runStage hinv hstep
  | arrive index =>
    rw [produced, List.append_nil]
    exact h.arrive hinv hstep
  | reclaim =>
    rw [produced, List.append_nil]
    exact (h.reclaim hinv hsize hstep).1
  | fifoBegin command handle =>
    obtain ⟨_, rfl⟩ := step_fifoBegin.mp hstep
    rw [produced, List.append_nil]
    exact h.frame rfl (HostSpe.fifoBegin_ack_fifo ..) rfl rfl rfl
  | fifoAdd arg =>
    obtain ⟨_, rfl⟩ := step_fifoAdd.mp hstep
    rw [produced, List.append_nil]
    refine h.frame rfl ?_ rfl rfl rfl
    simp only [HostSpe.fifoAdd]
    split <;> rfl
  | send_front =>
    obtain ⟨_, rfl⟩ := step_send_front.mp hstep
    rw [produced, List.append_nil]
    exact h.frame rfl rfl rfl rfl rfl
  | closeFront =>
    obtain ⟨_, rfl⟩ := step_closeFront.mp hstep
    rw [produced, List.append_nil]
    exact h.frame rfl rfl rfl rfl rfl
  | fifoRegisterProgram addr bytes =>
    obtain ⟨_, rfl⟩ := step_fifoRegisterProgram.mp hstep
    rw [produced, List.append_nil]
    exact h.frame rfl rfl rfl rfl rfl

end Carries

end Spe

end speutils.fifo
