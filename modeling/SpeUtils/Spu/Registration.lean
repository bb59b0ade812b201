import SpeUtils.Spu.Programs
import SpeUtils.Fifo.Register

open heap speutils.linkedlist speutils.ring speutils.fifo speutils.messages

namespace speutils.taskmanager

/-- A call of `fifoRegisterProgram`, with the column of the host's table that it finds
on one SPE. -/
structure Registration where
  host : HostSpe
  addr : BitVec 64
  size : BitVec 32

namespace Registration

/-- The words that arrive on the SPU: four of the call and what the slot held before. -/
def task (r : Registration) : Task :=
  (r.host.fifoRegisterProgram r.addr r.size).fifos.task (ringGetFront r.host.ringCTX)

/-- What `fifoRegisterProgram` returns. -/
def handle (r : Registration) : BitVec 32 := r.addr.setWidth 32

/-- What the table is to hold for a program: its handle, its size rounded up to whole
quadwords, and no local store yet. -/
def expected (r : Registration) : BitVec 32 × Nat × Ptr :=
  (r.handle, (r.size.toNat + 15) / 16 * 16, none)

end Registration

/-- Registration takes effect: the table holds one entry for each program, no handle is
a built-in command, and a later task with a handle for its command finds that entry
in both stages, whatever the uninitialised local of `stage2` holds. -/
structure TakesEffect (registrations : List Registration) (s : Store) : Prop where
  table : (s.table.map fun record => record.map fun p => (p.id, p.size.toNat, p.LS)).Perm
    (registrations.map fun r => some r.expected)
  builtin : ∀ r ∈ registrations, r.handle ∉ messages.builtin
  stage2 : ∀ r ∈ registrations, ∀ program, ∃ fuel prog s', s.find2 program fuel r.handle = some (prog, s') ∧
    (read s'.records prog).map (fun p => (p.id, p.size.toNat, p.LS)) = some r.expected
  stage3 : ∀ r ∈ registrations, ∃ fuel prog s', s.find3 fuel r.handle = some (prog, s') ∧
    (read s'.records prog).map (fun p => (p.id, p.size.toNat, p.LS)) = some r.expected

/-- The record that `stage2` builds for a registration. -/
def Registration.record (r : Registration) : program_s where
  size := (r.size + 15) &&& ~~~0xF
  id := r.handle
  LS := none
  EA := (shiftLeft ((r.addr >>> 32).setWidth 32) 32).map fun high => (high ||| r.handle).signExtend 64

theorem Store.stage2_registration (program : Ptr) (fuel : Nat) (s : Store) (r : Registration) :
    s.stage2 program fuel r.task = some { s with records := s.records ++ [some r.record] } := by
  obtain ⟨h0, h1, h2, h3⟩ := HostSpe.fifoRegisterProgram_task_front r.host r.addr r.size
  have hcommand : r.task 0 = REGISTER_PROGRAM := h0
  have hsize : r.task 1 = r.size := h1
  have hhigh : r.task 2 = (r.addr >>> 32).setWidth 32 := h2
  have hlow : r.task 3 = r.handle := h3
  simp [stage2, hcommand, register, alloc, hsize, hhigh, hlow, Registration.record]

/-- Every registration builds its record, and none of them enters the table. -/
theorem Store.stage2_registrations (program : Ptr) (fuel : Nat) (registrations : List Registration)
    (s : Store) :
    (registrations.map Registration.task).foldlM (stage2 program fuel) s =
      some { s with records := s.records ++ registrations.map fun r => some r.record } := by
  induction registrations generalizing s with
  | nil => simp
  | cons r registrations ih =>
    rw [List.map_cons, List.foldlM_cons, stage2_registration, Option.bind_eq_bind, Option.bind_some, ih]
    simp

/-- Clearing the low four bits rounds down to a multiple of 16. -/
private theorem and_quadword_mask (value : BitVec 32) :
    (value &&& ~~~0xF#32).toNat = value.toNat / 16 * 16 := by
  have hmask : ∀ i, i < 32 → (~~~0xF#32).getLsbD i = decide (4 ≤ i) := by decide
  have hshift : value &&& ~~~0xF#32 = (value >>> 4) <<< 4 := by
    apply BitVec.eq_of_getLsbD_eq
    intro i hi
    rw [BitVec.getLsbD_and, hmask i hi, BitVec.getLsbD_shiftLeft, BitVec.getLsbD_ushiftRight]
    by_cases hlow : i < 4
    · simp [hlow]
    · simp [hlow, hi, Nat.le_of_not_lt hlow]
  have hlt := value.isLt
  rw [hshift, BitVec.toNat_shiftLeft, BitVec.toNat_ushiftRight, Nat.shiftRight_eq_div_pow,
    Nat.shiftLeft_eq]
  omega

namespace Registration

/-- The record itself is right for every size that can be rounded up. -/
theorem record_expected (r : Registration) (hsize : r.size.toNat ≤ 2 ^ 31 - 16) :
    (r.record.id, r.record.size.toNat, r.record.LS) = r.expected := by
  have hadd : (r.size + 15).toNat = r.size.toNat + 15 := by
    rw [BitVec.toNat_add]
    exact Nat.mod_eq_of_lt (by simp; omega)
  have hround : r.record.size.toNat = (r.size.toNat + 15) / 16 * 16 := by
    have hfield : r.record.size = (r.size + 15) &&& ~~~0xF#32 := rfl
    rw [hfield, and_quadword_mask, hadd]
  rw [hround]
  rfl

end Registration

/-- The address of a program comes through: the record names the address in main
memory and has the handle for its id. -/
structure AddressRoundTrips (r : Registration) (record : program_s) : Prop where
  EA : record.EA = some r.addr
  id : record.id = r.handle

/-- The high word is shifted by the full width of an `int`, so the address that
`stage2` computes has no defined value, whatever program is registered. Only the id
comes through. -/
theorem addressRoundTrips_never (program : Ptr) (fuel : Nat) (s : Store) (r : Registration) :
    ∃ s' record, s.stage2 program fuel r.task = some s' ∧ s'.records = s.records ++ [some record] ∧
      record.EA = none ∧ record.id = r.handle ∧ ¬ AddressRoundTrips r record := by
  refine ⟨_, r.record, s.stage2_registration program fuel r, rfl, rfl, rfl, ?_⟩
  intro hround
  cases hround.EA

/-- Whatever is registered, the pointer to the table stays null: the table is empty and
every lookup follows the null pointer. Registration takes effect exactly when there
is nothing to register. -/
theorem takesEffect_iff (program : Ptr) (fuel : Nat) (registrations : List Registration) :
    ∃ s, (registrations.map Registration.task).foldlM (Store.stage2 program fuel) Store.main = some s ∧
      (TakesEffect registrations s ↔ registrations = []) := by
  refine ⟨_, Store.stage2_registrations program fuel registrations Store.main, ?_⟩
  constructor
  · intro heffect
    have hlength := heffect.table.length_eq
    simp only [Store.table, Store.main, entries, read_null, List.map_nil, List.length_nil,
      List.length_map] at hlength
    exact List.length_eq_zero_iff.mp hlength.symm
  · rintro rfl
    refine ⟨.nil, ?_, ?_, ?_⟩
    · intro r hr
      cases hr
    · intro r hr
      cases hr
    · intro r hr
      cases hr

/-- One program of 100 bytes, registered on an SPE with an empty ring of two slots. -/
def oneProgram : Registration where
  host := .init (fun _ => 0) (fun _ => ⟨0, 0, 0⟩) 2
  addr := 0x10000
  size := 100

/-- Its record is built with the right handle and size, but the table is empty
afterwards, and a task that names the handle makes both stages follow the null
pointer. -/
theorem oneProgram_not_registered : ∃ s,
    Store.main.stage2 none 1 oneProgram.task = some s ∧
      s.records.map (fun record => record.map fun p => (p.id, p.size.toNat, p.LS)) =
        [some oneProgram.expected] ∧
      s.table = [] ∧ s.find2 none 1 oneProgram.handle = none ∧ s.find3 1 oneProgram.handle = none ∧
      ¬ TakesEffect [oneProgram] s := by
  refine ⟨_, Store.stage2_registration none 1 Store.main oneProgram, ?_, rfl, rfl, rfl, ?_⟩
  · have hrecord := oneProgram.record_expected (by simp [oneProgram])
    simp [Store.main, hrecord]
  · intro heffect
    have hlength := heffect.table.length_eq
    simp [Store.table, Store.main, entries] at hlength

theorem oneProgram_address_lost : ∃ s record,
    Store.main.stage2 none 1 oneProgram.task = some s ∧ s.records = [some record] ∧
      ¬ AddressRoundTrips oneProgram record := by
  refine ⟨_, oneProgram.record, Store.stage2_registration none 1 Store.main oneProgram, rfl, ?_⟩
  intro hround
  cases hround.EA

end speutils.taskmanager
