import SpeUtils.Fifo.Select

open cyclic loop speutils.ring

namespace speutils.fifo

/-- Entries of each array in `struct host_fifo_s`. -/
def MAX_SPES : Nat := 16

/-- `struct host_fifo_s` with its arrays and the static `current_spe` beside it. Null
pointers are `none`, and `entry_p` is a word offset in the task memory. The thread
handles and mutexes are left out. -/
structure host_fifo_s where
  spes : Nat
  scheme : Nat
  current_spe : Nat
  ringCTX : Nat → Option ring_context_s
  fifos : Nat → Option fifo_s
  entry_p : Nat → Nat
  entry_count : Nat → Nat
  isKicked : Nat → Bool

/-- The static table before the first call. -/
def host_fifo_s.zero : host_fifo_s where
  spes := 0
  scheme := 0
  current_spe := 0
  ringCTX := fun _ => none
  fifos := fun _ => none
  entry_p := fun _ => 0
  entry_count := fun _ => 0
  isKicked := fun _ => false

/-- The body of the loop in `fifoInit`, where `words` and `acks` are what `memalign`
happens to return for each SPE. Allocations and `start_spu_thread` succeed; behind the
arrays there is no memory to write to. -/
def host_fifo_s.initSpe (words : Nat → Nat → BitVec 32) (acks : Nat → Nat → ack_s) (fifo_size : Nat)
    (hostfifo : host_fifo_s) (i : Nat) : Option host_fifo_s :=
  if i < MAX_SPES then
    let fifo := allocate_fifo (words i) (acks i) (fifo_size / TASK_SIZE)
    some { hostfifo with
      isKicked := Function.update hostfifo.isKicked i true
      fifos := Function.update hostfifo.fifos i (some { fifo with max_entries := fifo_size / TASK_SIZE })
      ringCTX := Function.update hostfifo.ringCTX i (ringInitContext (fifo_size / TASK_SIZE)) }
  else none

/-- `fifoInit`. -/
def fifoInit (words : Nat → Nat → BitVec 32) (acks : Nat → Nat → ack_s) (hostfifo : host_fifo_s)
    (fifo_size spes scheme : Nat) : Option host_fifo_s :=
  (List.range spes).foldlM (host_fifo_s.initSpe words acks fifo_size)
    { hostfifo with spes, scheme, current_spe := 0 }

namespace host_fifo_s

/-- What the table holds for one SPE, if both of its pointers lead somewhere. -/
def column (hostfifo : host_fifo_s) (spe : Nat) : Option HostSpe := do
  let ringCTX ← hostfifo.ringCTX spe
  let fifos ← hostfifo.fifos spe
  return {
    ringCTX
    fifos
    entry_p := hostfifo.entry_p spe
    entry_count := hostfifo.entry_count spe
    isKicked := hostfifo.isKicked spe }

def setColumn (hostfifo : host_fifo_s) (spe : Nat) (host : HostSpe) : host_fifo_s :=
  { hostfifo with
    ringCTX := Function.update hostfifo.ringCTX spe (some host.ringCTX)
    fifos := Function.update hostfifo.fifos spe (some host.fifos)
    entry_p := Function.update hostfifo.entry_p spe host.entry_p
    entry_count := Function.update hostfifo.entry_count spe host.entry_count
    isKicked := Function.update hostfifo.isKicked spe host.isKicked }

/-- `fifoBegin` with the SPE that it returns. -/
def fifoBegin (hostfifo : host_fifo_s) (fuel : Nat) (command handle : BitVec 32) : Option (Nat × host_fifo_s) := do
  let spe ← selectfifo hostfifo.ringCTX hostfifo.spes fuel hostfifo.current_spe
  let host ← hostfifo.column spe
  return (spe, { hostfifo with current_spe := spe }.setColumn spe (host.fifoBegin command handle))

/-- What a caller may expect after `fifoInit` of `fifo_size` bytes: every SPE has an empty
ring of as many entries as its fifo, which cover the size and leave a slot free, and the
first calls return. -/
structure Usable (fifo_size : Nat) (hostfifo : host_fifo_s) : Prop where
  rings : ∀ e < hostfifo.spes, ∃ ctx fifo,
    hostfifo.ringCTX e = some ctx ∧ hostfifo.fifos e = some fifo ∧
    ringHasRemaining ctx = false ∧ ctx.size = fifo.max_entries ∧
    fifo_size ≤ fifo.max_entries * TASK_SIZE ∧ ringHasFree ctx = true
  selects : ∃ fuel, (selectfifo hostfifo.ringCTX hostfifo.spes fuel hostfifo.current_spe).isSome = true
  begins : ∀ command handle, ∃ fuel, (hostfifo.fifoBegin fuel command handle).isSome = true

end host_fifo_s

section Init

variable {words : Nat → Nat → BitVec 32} {acks : Nat → Nat → ack_s} {hostfifo : host_fifo_s}
  {fifo_size spes scheme : Nat}

/-- The table once the loop of `fifoInit` has set up the first SPEs. -/
def initialised (words : Nat → Nat → BitVec 32) (acks : Nat → Nat → ack_s) (fifo_size : Nat)
    (hostfifo : host_fifo_s) (count : Nat) : host_fifo_s :=
  { hostfifo with
    isKicked := fun e => if e < count then true else hostfifo.isKicked e
    fifos := fun e =>
      if e < count then some (allocate_fifo (words e) (acks e) (fifo_size / TASK_SIZE)) else hostfifo.fifos e
    ringCTX := fun e => if e < count then ringInitContext (fifo_size / TASK_SIZE) else hostfifo.ringCTX e }

theorem update_ite {A : Type} (f g : Nat → A) (count : Nat) :
    Function.update (fun e => if e < count then g e else f e) count (g count) =
      fun e => if e < count + 1 then g e else f e := by
  funext e
  by_cases he : e = count
  · subst he
    rw [Function.update_self, if_pos (Nat.lt_succ_self e)]
  · have hiff : e < count + 1 ↔ e < count := by omega
    rw [Function.update_of_ne he]
    simp only [hiff]

theorem initSpe_initialised {count : Nat} (hcount : count < MAX_SPES) :
    host_fifo_s.initSpe words acks fifo_size (initialised words acks fifo_size hostfifo count) count =
      some (initialised words acks fifo_size hostfifo (count + 1)) := by
  rw [host_fifo_s.initSpe, if_pos hcount]
  have hrings := update_ite hostfifo.ringCTX (fun _ => ringInitContext (fifo_size / TASK_SIZE)) count
  have hfifos := update_ite hostfifo.fifos
    (fun e => some (allocate_fifo (words e) (acks e) (fifo_size / TASK_SIZE))) count
  have hkicked := update_ite hostfifo.isKicked (fun _ => true) count
  simp only [initialised, Option.some.injEq, host_fifo_s.mk.injEq, true_and]
  exact ⟨hrings, hfifos, hkicked⟩

theorem foldlM_initSpe (hspes : spes ≤ MAX_SPES) :
    (List.range spes).foldlM (host_fifo_s.initSpe words acks fifo_size) hostfifo =
      some (initialised words acks fifo_size hostfifo spes) := by
  induction spes with
  | zero => simp [initialised]
  | succ count ih =>
    rw [List.range_succ, List.foldlM_append, ih (Nat.le_of_succ_le hspes), Option.bind_eq_bind, Option.bind_some,
      List.foldlM_cons, initSpe_initialised hspes]
    rfl

theorem fifoInit_eq (hspes : spes ≤ MAX_SPES) :
    fifoInit words acks hostfifo fifo_size spes scheme =
      some (initialised words acks fifo_size { hostfifo with spes, scheme, current_spe := 0 } spes) :=
  foldlM_initSpe hspes

/-- The columns that `fifoInit` makes out of the static table are those the system starts
from. -/
theorem fifoInit_system {world : Type} (memory : Nat → Memory world) (hspes : spes ≤ MAX_SPES)
    (hsize : TASK_SIZE ≤ fifo_size) :
    ∃ hostfifo, fifoInit (fun e => (memory e).words) (fun e => (memory e).acks) .zero fifo_size spes scheme =
        some hostfifo ∧
      hostfifo.current_spe = (System.init (fun e : Fin spes => memory e) (fifo_size / TASK_SIZE)).current_spe ∧
      ∀ e : Fin spes, hostfifo.column e =
        some ((System.init (fun e : Fin spes => memory e) (fifo_size / TASK_SIZE)).spe e).host := by
  refine ⟨_, fifoInit_eq hspes, rfl, ?_⟩
  intro e
  have hentries : fifo_size / TASK_SIZE ≠ 0 := Nat.ne_of_gt (Nat.div_pos hsize (by decide))
  simp [host_fifo_s.column, initialised, ringInitContext, hentries, System.init, Spe.init, HostSpe.init,
    host_fifo_s.zero]

theorem ringHasFree_init (entries : Nat) : ringHasFree (.init entries) = true ↔ 2 ≤ entries := by
  have hnext : next entries 0 ≠ 0 ↔ 2 ≤ entries := by
    unfold next
    by_cases hwrap : 0 + 1 ≥ entries
    · rw [if_pos hwrap]
      omega
    · rw [if_neg hwrap]
      omega
  exact (ringHasFree_iff _).trans hnext

/-- The test of `selectfifo` on a new ring: a ring without entries does not exist, and one
of a single entry is always full. -/
theorem ringFull_initialised {e : Nat} (he : e < spes) :
    ringFull (initialised words acks fifo_size hostfifo spes).ringCTX e = some false ↔
      2 ≤ fifo_size / TASK_SIZE := by
  rw [← ringHasFree_init]
  by_cases hentries : fifo_size / TASK_SIZE = 0
  · simp [ringFull, initialised, he, ringInitContext, hentries, ringHasFree_init]
  · simp [ringFull, initialised, he, ringInitContext, hentries]

theorem selectfifo_first (hspes : 0 < spes) (hentries : 2 ≤ fifo_size / TASK_SIZE) :
    selectfifo (initialised words acks fifo_size hostfifo spes).ringCTX spes 1 0 = some (1 % spes) := by
  have hfree : ringFull (initialised words acks fifo_size hostfifo spes).ringCTX (1 % spes) = some false :=
    (ringFull_initialised (Nat.mod_lt 1 hspes)).mpr hentries
  exact selectfifo_eq (k := 0) hspes hfree (fun j hj => absurd hj (Nat.not_lt_zero j)) Nat.one_pos

/-- With fewer than two entries the first `selectfifo` never returns: it follows a null
pointer or spins. -/
theorem selectfifo_never (hspes : 0 < spes) (hfew : ¬ 2 ≤ fifo_size / TASK_SIZE) (fuel : Nat) :
    selectfifo (initialised words acks fifo_size hostfifo spes).ringCTX spes fuel 0 = none :=
  selectfifo_eq_none hspes (fun _ he hfree => hfew ((ringFull_initialised he).mp hfree)) fuel

theorem fifoBegin_first (hspes : 0 < hostfifo.spes) (hcurrent : hostfifo.current_spe = 0)
    (hentries : 2 ≤ fifo_size / TASK_SIZE) (command handle : BitVec 32) :
    ((initialised words acks fifo_size hostfifo hostfifo.spes).fifoBegin 1 command handle).isSome = true := by
  let table := initialised words acks fifo_size hostfifo hostfifo.spes
  have hselect : selectfifo table.ringCTX table.spes 1 table.current_spe = some (1 % hostfifo.spes) := by
    have hfirst : selectfifo table.ringCTX hostfifo.spes 1 0 = some (1 % hostfifo.spes) :=
      selectfifo_first hspes hentries
    rwa [← hcurrent] at hfirst
  obtain ⟨host, hhost⟩ : ∃ host, table.column (1 % hostfifo.spes) = some host := by
    have hne : fifo_size / TASK_SIZE ≠ 0 := by omega
    simp [table, host_fifo_s.column, initialised, Nat.mod_lt 1 hspes, ringInitContext, hne]
  change (table.fifoBegin 1 command handle).isSome = true
  rw [host_fifo_s.fifoBegin, hselect, Option.bind_eq_bind, Option.bind_some, hhost]
  rfl

/-- What the rings of a new table hold. -/
theorem rings_initialised (hne : fifo_size / TASK_SIZE ≠ 0) {e : Nat} (he : e < spes) :
    (initialised words acks fifo_size hostfifo spes).ringCTX e = some (.init (fifo_size / TASK_SIZE)) ∧
      (initialised words acks fifo_size hostfifo spes).fifos e =
        some (allocate_fifo (words e) (acks e) (fifo_size / TASK_SIZE)) := by
  simp [initialised, he, ringInitContext, hne]

end Init

/-- `fifoInit` rounds down, and a single entry is no use to the ring. What its callers
may expect holds exactly for multiples of the task size, from two tasks on. -/
theorem fifoInit_usable_iff (words : Nat → Nat → BitVec 32) (acks : Nat → Nat → ack_s) (hostfifo : host_fifo_s)
    (fifo_size spes scheme : Nat) (hspes : 1 ≤ spes) (hmax : spes ≤ MAX_SPES) :
    ∃ table, fifoInit words acks hostfifo fifo_size spes scheme = some table ∧ table.spes = spes ∧
      (table.Usable fifo_size ↔ TASK_SIZE ∣ fifo_size ∧ 2 * TASK_SIZE ≤ fifo_size) := by
  refine ⟨_, fifoInit_eq hmax, rfl, ?_⟩
  constructor
  · intro husable
    have hentries : 2 ≤ fifo_size / TASK_SIZE := by
      by_contra hfew
      obtain ⟨fuel, hreturns⟩ := husable.selects
      exact Option.isSome_iff_ne_none.mp hreturns (selectfifo_never hspes hfew fuel)
    obtain ⟨ctx, fifo, _, hfifo, _, _, hcover, _⟩ := husable.rings 0 hspes
    have hne : fifo_size / TASK_SIZE ≠ 0 := by omega
    rw [(rings_initialised hne hspes).2] at hfifo
    obtain rfl := Option.some.inj hfifo
    have hround : fifo_size ≤ fifo_size / TASK_SIZE * TASK_SIZE := hcover
    refine ⟨⟨fifo_size / TASK_SIZE, ?_⟩, ?_⟩
    · have hdown := Nat.div_mul_le_self fifo_size TASK_SIZE
      rw [Nat.mul_comm]
      omega
    · exact (Nat.le_div_iff_mul_le (by decide)).mp hentries
  · rintro ⟨hdvd, htwo⟩
    have hentries : 2 ≤ fifo_size / TASK_SIZE := (Nat.le_div_iff_mul_le (by decide)).mpr htwo
    have hne : fifo_size / TASK_SIZE ≠ 0 := by omega
    refine ⟨?_, ⟨1, ?_⟩, ?_⟩
    · intro e (he : e < spes)
      obtain ⟨hring, hfifo⟩ := rings_initialised hne he
      refine ⟨_, _, hring, hfifo, rfl, rfl, ?_, (ringHasFree_init _).mpr hentries⟩
      exact Nat.le_of_eq (Nat.div_mul_cancel hdvd).symm
    · exact Option.isSome_of_eq_some (selectfifo_first hspes hentries)
    · intro command handle
      refine ⟨1, fifoBegin_first ?_ rfl hentries command handle⟩
      exact hspes

/-- On 512 bytes and two SPEs everything is as expected. -/
theorem fifoInit_usable_iff_four :
    ∃ table, fifoInit (fun _ _ => 0) (fun _ _ => ⟨0, 0, 0⟩) .zero 512 2 0 = some table ∧ table.Usable 512 := by
  obtain ⟨table, hinit, _, husable⟩ := fifoInit_usable_iff (fun _ _ => 0) (fun _ _ => ⟨0, 0, 0⟩) .zero 512 2 0
    (by decide) (by decide)
  exact ⟨table, hinit, husable.mpr (by decide)⟩

/-- `fifoInit` for a single SPE, with memory that happened to be zero. -/
def initOne (fifo_size : Nat) : Option host_fifo_s :=
  fifoInit (fun _ _ => 0) (fun _ _ => ⟨0, 0, 0⟩) .zero fifo_size 1 0

/-- With 100 bytes there is no ring, with 128 bytes the first `selectfifo` spins for ever,
and of 300 bytes only two entries are covered. -/
theorem not_usable_fewBytes :
    (∃ table, initOne 100 = some table ∧ table.ringCTX 0 = none ∧ ¬ table.Usable 100) ∧
      (∃ table, initOne 128 = some table ∧
        (∀ fuel, selectfifo table.ringCTX table.spes fuel table.current_spe = none) ∧ ¬ table.Usable 128) ∧
      ∃ table, initOne 300 = some table ∧ (table.fifos 0).map (·.max_entries) = some 2 ∧ ¬ table.Usable 300 := by
  refine ⟨⟨_, fifoInit_eq (by decide), rfl, ?_⟩, ⟨_, fifoInit_eq (by decide), ?_, ?_⟩,
    ⟨_, fifoInit_eq (by decide), rfl, ?_⟩⟩
  · intro husable
    obtain ⟨ctx, fifo, hring, _⟩ := husable.rings 0 Nat.one_pos
    cases hring
  · exact selectfifo_never Nat.one_pos (by decide)
  · intro husable
    obtain ⟨fuel, hreturns⟩ := husable.selects
    exact Option.isSome_iff_ne_none.mp hreturns (selectfifo_never Nat.one_pos (by decide) fuel)
  · intro husable
    obtain ⟨ctx, fifo, _, hfifo, _, _, hcover, _⟩ := husable.rings 0 Nat.one_pos
    obtain rfl := Option.some.inj hfifo
    revert hcover
    decide

end speutils.fifo
