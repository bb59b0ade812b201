import SpeUtils.Fifo.Isolation
import SpeUtils.Lib.Loop
import SpeUtils.Lib.Rotation

open cyclic loop run speutils.ring speutils.taskmanager

namespace speutils.fifo

/-- The test of the loop in `selectfifo`. There is no ring behind a null pointer. -/
def ringFull (ringCTX : Nat → Option ring_context_s) (current_spe : Nat) : Option Bool :=
  (ringCTX current_spe).map fun ctx => !ringHasFree ctx

/-- `selectfifo`, with what it returns and leaves in `current_spe`. Both labels of its
`switch` stand before the same statements, so the scheme does not matter. -/
def selectfifo (ringCTX : Nat → Option ring_context_s) (spes fuel current_spe : Nat) : Option Nat :=
  (repeatWhile (ringFull ringCTX) (next spes) fuel (next spes current_spe)).map Prod.snd

/-- What consecutive calls of `selectfifo` return. Each call finds the rings in a state of
its own. -/
def selectAll (spes fuel : Nat) : Nat → List (Nat → Option ring_context_s) → Option (List Nat)
  | _, [] => some []
  | current_spe, ringCTX :: calls => do
    let chosen ← selectfifo ringCTX spes fuel current_spe
    let rest ← selectAll spes fuel chosen calls
    return chosen :: rest

section Rounds

variable {spes fuel current_spe : Nat}

theorem next_current (hcurrent : current_spe < spes) : next spes current_spe = (current_spe + 1) % spes := by
  have hnext := next_mod (Nat.zero_lt_of_lt hcurrent) current_spe
  rwa [Nat.mod_eq_of_lt hcurrent] at hnext

/-- The loop passes over full rings in cyclic order. -/
theorem selectfifo_eq {ringCTX : Nat → Option ring_context_s} {k : Nat} (hcurrent : current_spe < spes)
    (hfree : ringFull ringCTX ((current_spe + 1 + k) % spes) = some false)
    (hfull : ∀ j < k, ringFull ringCTX ((current_spe + 1 + j) % spes) = some true) (hfuel : k < fuel) :
    selectfifo ringCTX spes fuel current_spe = some ((current_spe + 1 + k) % spes) := by
  have hspes : 0 < spes := Nat.zero_lt_of_lt hcurrent
  have hloop : repeatWhile (ringFull ringCTX) (next spes) fuel ((current_spe + 1) % spes) =
      some (k, (next spes)^[k] ((current_spe + 1) % spes)) := by
    refine repeatWhile_eq_some ?_ ?_ hfuel
    · intro j hj
      rw [iterate_next hspes]
      exact hfull j hj
    · rw [iterate_next hspes]
      exact hfree
  rw [selectfifo, next_current hcurrent, hloop, iterate_next hspes]
  rfl

/-- Without a free ring there is no way out of the loop. -/
theorem selectfifo_eq_none {ringCTX : Nat → Option ring_context_s} (hcurrent : current_spe < spes)
    (hnever : ∀ e < spes, ringFull ringCTX e ≠ some false) (fuel : Nat) :
    selectfifo ringCTX spes fuel current_spe = none := by
  have hspes : 0 < spes := Nat.zero_lt_of_lt hcurrent
  rw [selectfifo, next_current hcurrent, repeatWhile_eq_none]
  · rfl
  · intro i
    rw [iterate_next hspes]
    exact hnever _ (Nat.mod_lt _ hspes)

theorem ringFull_eq {rings : Nat → ring_context_s} {e : Nat} {free : Bool}
    (hfree : ringHasFree (rings e) = free) : ringFull (fun e => some (rings e)) e = some !free := by
  rw [ringFull, Option.map_some, hfree]

/-- While no ring is full, the calls take turns. -/
theorem selectAll_eq (hfuel : 0 < fuel) (calls : List (Nat → ring_context_s)) (hcurrent : current_spe < spes)
    (hfree : ∀ rings ∈ calls, ∀ e < spes, ringHasFree (rings e) = true) :
    selectAll spes fuel current_spe (calls.map fun rings e => some (rings e)) =
      some (window spes id (current_spe + 1) calls.length) := by
  have hspes : 0 < spes := Nat.zero_lt_of_lt hcurrent
  induction calls generalizing current_spe with
  | nil => rfl
  | cons rings calls ih =>
    have hlt : (current_spe + 1) % spes < spes := Nat.mod_lt _ hspes
    have hnow : selectfifo (fun e => some (rings e)) spes fuel current_spe = some ((current_spe + 1) % spes) := by
      refine selectfifo_eq (k := 0) hcurrent ?_ ?_ hfuel
      · exact ringFull_eq (hfree rings (List.mem_cons_self ..) _ hlt)
      · intro j hj
        exact absurd hj (Nat.not_lt_zero j)
    have hlater := ih hlt (fun rings hrings => hfree rings (List.mem_cons_of_mem _ hrings))
    have hshift : window spes id ((current_spe + 1) % spes + 1) calls.length =
        window spes id (current_spe + 1 + 1) calls.length := by
      refine List.map_congr_left fun k _ => ?_
      rw [id, id, Nat.add_assoc, Nat.mod_add_mod, ← Nat.add_assoc]
    rw [List.map_cons, selectAll, hnow, Option.bind_eq_bind, Option.bind_some, hlater, Option.bind_eq_bind,
      Option.bind_some, hshift, List.length_cons, window_pop]
    rfl

end Rounds

namespace System

variable {world : Type} {spes : Nat}

/-- The ring pointers in the host's table. -/
def rings (s : System world spes) (e : Nat) : Option ring_context_s :=
  if h : e < spes then some (s.spe ⟨e, h⟩).host.ringCTX else none

variable {bodies : TaskBodies world} {s : System world spes} {command handle : BitVec 32}

/-- One turn of the loop in `selectfifo`. -/
theorem step_ringFull (hthread : s.thread = .selectfifo command handle)
    (hfull : ringFull s.rings s.current_spe = some true) :
    s.step bodies .selectfifo = some { s with current_spe := next spes s.current_spe } := by
  obtain ⟨ctx, hctx, hring⟩ := Option.map_eq_some_iff.mp hfull
  unfold rings at hctx
  split at hctx
  · rename_i hlt
    obtain rfl := Option.some.inj hctx
    have hnone : ringHasFree (s.spe ⟨s.current_spe, hlt⟩).host.ringCTX = false := by simpa using hring
    refine step_nowhere ?_ rfl ?_
    · simp [control, hthread, hlt, hnone]
    · intro e
      have hother : ¬ (e.val = s.current_spe ∧ ringHasFree (s.spe e).host.ringCTX = true) := by
        rintro ⟨heq, hfree⟩
        obtain rfl : e = ⟨s.current_spe, hlt⟩ := Fin.ext heq
        rw [hnone] at hfree
        cases hfree
      simp only [column, hthread, if_neg hother]
  · cases hctx

theorem reaches_ringFull {turns : Nat} (hthread : s.thread = .selectfifo command handle)
    (hfull : ∀ i < turns, ringFull s.rings ((next spes)^[i] s.current_spe) = some true) :
    Reaches (step bodies) s (List.replicate turns .selectfifo)
      { s with current_spe := (next spes)^[turns] s.current_spe } := by
  induction turns with
  | zero => exact reaches_nil.mpr rfl
  | succ turns ih =>
    rw [List.replicate_succ', Function.iterate_succ_apply']
    refine reaches_snoc.mpr ⟨_, ih fun i hi => hfull i (Nat.lt_succ_of_lt hi), ?_⟩
    exact step_ringFull hthread (hfull turns (Nat.lt_succ_self turns))

/-- A call of `fifoBegin` in the system, while nothing else happens: its loop tests rings
until `selectfifo` returns, and the task is begun on the SPE returned and on no
other. -/
theorem reaches_selectfifo {fuel chosen : Nat} (hidle : s.thread = .idle)
    (hkicking : ∀ e, (s.spe e).kicking = false)
    (hselect : selectfifo s.rings spes fuel s.current_spe = some chosen) :
    ∃ (turns : Nat) (s' : System world spes) (h : chosen < spes),
      Reaches (step bodies) s (.fifoBegin command handle :: List.replicate (turns + 1) .selectfifo) s' ∧
      s'.thread = .idle ∧ s'.current_spe = chosen ∧
      (s'.spe ⟨chosen, h⟩).host = (s.spe ⟨chosen, h⟩).host.fifoBegin command handle ∧
      ∀ e, e ≠ ⟨chosen, h⟩ → s'.spe e = s.spe e := by
  obtain ⟨⟨turns, stop⟩, hloop, rfl⟩ := Option.map_eq_some_iff.mp hselect
  obtain ⟨rfl, hturns, hexit⟩ := of_repeatWhile_eq_some hloop
  obtain ⟨ctx, hctx, hring⟩ := Option.map_eq_some_iff.mp hexit
  unfold rings at hctx
  split at hctx
  · rename_i hlt
    obtain rfl := Option.some.inj hctx
    let e : Fin spes := ⟨(next spes)^[turns] (next spes s.current_spe), hlt⟩
    have hfree : ringHasFree (s.spe e).host.ringCTX = true := by simpa using hring
    let begun : System world spes :=
      { s with current_spe := next spes s.current_spe, thread := .selectfifo command handle }
    let last : System world spes := { begun with current_spe := e }
    let idle : System world spes := { last with thread := .idle }
    have hbegin : s.step bodies (.fifoBegin command handle) = some begun :=
      step_nowhere (by simp [control, hidle, begun]) rfl (fun _ => rfl)
    have hspin : Reaches (step bodies) begun (List.replicate turns .selectfifo) last :=
      reaches_ringFull rfl hturns
    have hfinal : last.step bodies .selectfifo =
        ((s.spe e).step bodies (.fifoBegin command handle)).map (idle.withSpe e) := by
      refine step_single ?_ rfl ?_ ?_
      · simp [control, idle, last, begun, e.isLt, hfree]
      · simp [column, last, begun, hfree]
      · intro e' he'
        have hne : ¬ e'.val = e.val := fun heq => he' (Fin.ext heq)
        simp [column, last, begun, hne]
    obtain ⟨spe, hspe, hhost⟩ : ∃ spe, (s.spe e).step bodies (.fifoBegin command handle) = some spe ∧
        spe.host = (s.spe e).host.fifoBegin command handle :=
      ⟨_, Spe.step_fifoBegin.mpr ⟨⟨hkicking e, hfree⟩, rfl⟩, rfl⟩
    rw [hspe, Option.map_some] at hfinal
    refine ⟨turns, idle.withSpe e spe, hlt, reaches_cons.mpr ⟨begun, hbegin, ?_⟩, rfl, rfl, ?_, ?_⟩
    · rw [List.replicate_succ']
      exact reaches_snoc.mpr ⟨last, hspin, hfinal⟩
    · have hself : (idle.withSpe e spe).spe e = spe := by simp [withSpe]
      exact (congrArg Spe.host hself).trans hhost
    · intro e' he'
      exact Function.update_of_ne he' _ _
  · cases hctx

end System

/-- Round-robin selection. While some ring has a free slot, `selectfifo` returns the first
one in the cyclic order behind `current_spe`. Over consecutive calls that find no ring
full, each SPE is chosen as often as any other, but for one time. -/
theorem selectfifo_round_robin (spes current_spe : Nat) (hcurrent : current_spe < spes) :
    (∀ rings : Nat → ring_context_s, (∃ e < spes, ringHasFree (rings e) = true) →
      ∃ k < spes, ringHasFree (rings ((current_spe + 1 + k) % spes)) = true ∧
        (∀ j < k, ringHasFree (rings ((current_spe + 1 + j) % spes)) = false) ∧
        ∀ fuel ≥ spes, selectfifo (fun e => some (rings e)) spes fuel current_spe =
          some ((current_spe + 1 + k) % spes)) ∧
    (∀ calls : List (Nat → ring_context_s), (∀ rings ∈ calls, ∀ e < spes, ringHasFree (rings e) = true) →
      ∀ fuel ≥ spes, ∃ chosen,
        selectAll spes fuel current_spe (calls.map fun rings e => some (rings e)) = some chosen ∧
          ∀ e < spes, chosen.count e = calls.length / spes ∨
            chosen.count e = (calls.length + spes - 1) / spes) := by
  constructor
  · rintro rings ⟨e, he, hfree⟩
    obtain ⟨k, hk, hfirst, hearlier⟩ := exists_first (p := fun e => ringHasFree (rings e) = true) he hfree
      (current_spe + 1)
    have hfull : ∀ j < k, ringHasFree (rings ((current_spe + 1 + j) % spes)) = false :=
      fun j hj => Bool.eq_false_iff.mpr (hearlier j hj)
    refine ⟨k, hk, hfirst, hfull, fun fuel hfuel => ?_⟩
    exact selectfifo_eq hcurrent (ringFull_eq hfirst) (fun j hj => ringFull_eq (hfull j hj)) (by omega)
  · intro calls hfree fuel hfuel
    refine ⟨_, selectAll_eq (by omega) calls hcurrent hfree, ?_⟩
    intro e he
    exact count_window he (current_spe + 1) calls.length

/-- Three SPEs, the ring of the first of them full. -/
def firstFull (e : Nat) : ring_context_s :=
  if e = 0 then { front := 1, back := 0, size := 2 } else .init 2

/-- From the last SPE the selection wraps and passes over the full ring. -/
theorem selectfifo_round_robin_firstFull :
    selectfifo (fun e => some (firstFull e)) 3 3 2 = some 1 ∧
      ∃ k < 3, (∀ j < k, ringHasFree (firstFull ((2 + 1 + j) % 3)) = false) ∧
        ∀ fuel ≥ 3, selectfifo (fun e => some (firstFull e)) 3 fuel 2 = some ((2 + 1 + k) % 3) := by
  obtain ⟨k, hk, _, hfull, hselect⟩ := (selectfifo_round_robin 3 2 (by decide)).1 firstFull ⟨1, by decide, rfl⟩
  exact ⟨by decide, k, hk, hfull, hselect⟩

end speutils.fifo
