import SpeUtils.LinkedList
import SpeUtils.Fifo.Basic

open heap speutils.linkedlist speutils.ring speutils.fifo speutils.messages

namespace speutils.taskmanager

/-- `struct program_s`. `EA` is empty where the expression that computes it has no
defined value. -/
structure program_s where
  LS : Ptr
  id : BitVec 32
  EA : Option (BitVec 64)
  size : BitVec 32
  deriving DecidableEq, Repr

/-- The program table: the static pointer `programs`, the memory behind it and the
program records that `stage2` has allocated. -/
structure Store where
  programs : Ptr
  lists : Lists
  records : Heap program_s
  deriving DecidableEq, Repr

/-- A left shift of a 32-bit `int`, which C defines for amounts below 32 only. -/
def shiftLeft (value : BitVec 32) (amount : Nat) : Option (BitVec 32) :=
  if amount < 32 then some (value <<< amount) else none

namespace Store

/-- The table when `main` calls `pipeline`. `programs == listInit();` compares the new
list with the static pointer and drops the result. -/
def main : Store :=
  let (lists, _) := listInit { lists := [], nodes := [] }
  { programs := none, lists, records := [] }

/-- `case REGISTER_PROGRAM` of `stage2`. `malloc(sizeof(program))` asks for the bytes of a
pointer and not for those of the record, of which the four stores below write all. The
record is taken to fit what the allocator hands out: `stage2_registration` needs it for
the record to read back, and every run with a registration in it, for the stores to hit
nothing else (`Builtins`, `Loader`). The pointer to the record is dropped. -/
def register (s : Store) (task : Task) : Store :=
  let (records, _) := alloc s.records {
    size := (task 1 + 15) &&& ~~~0xF
    id := task 3
    LS := none
    EA := (shiftLeft (task 2) 32).map fun high => (high ||| task 3).signExtend 64 }
  { s with records }

/-- The loop of a program lookup. `list` is the list that `listNextEntry` is called
with. -/
def search (list : Ptr) (command : BitVec 32) : Nat → Ptr → Store → Option (Ptr × Store)
  | 0, _, _ => none
  | fuel + 1, prog, s => do
    let program ← read s.records prog
    if program.id = command then return (prog, s)
    else
      let (prog, lists) ← listNextEntry list s.lists
      if prog = none then return (none, { s with lists })
      else search list command fuel prog { s with lists }

def find (list : Ptr) (fuel : Nat) (command : BitVec 32) (s : Store) : Option (Ptr × Store) := do
  let (prog, lists) ← listFirstEntry s.programs s.lists
  search list command fuel prog { s with lists }

/-- The lookup of `stage2`, which goes on with the uninitialised `program` of another
case. -/
def find2 (program : Ptr) (fuel : Nat) (command : BitVec 32) (s : Store) : Option (Ptr × Store) :=
  find program fuel command s

/-- The lookup of `stage3`. -/
def find3 (fuel : Nat) (command : BitVec 32) (s : Store) : Option (Ptr × Store) :=
  find s.programs fuel command s

/-- The switch of `stage2`. After a successful lookup `prog->LS == memalign(..)` is
again a comparison, so `LS` stays as it is and nothing is fetched. -/
def stage2 (program : Ptr) (fuel : Nat) (s : Store) (task : Task) : Option Store :=
  if task 0 = REGISTER_PROGRAM then some (s.register task)
  else if task 0 = ADD then some s
  else (s.find2 program fuel (task 0)).map Prod.snd

/-- The records in the program table. -/
def table (s : Store) : List (Option program_s) :=
  (entries s.programs s.lists).map (read s.records)

end Store

end speutils.taskmanager
