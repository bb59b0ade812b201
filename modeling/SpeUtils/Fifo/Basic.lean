import SpeUtils.Ring
import SpeUtils.Messages
import Mathlib.Logic.Function.Basic

open speutils.ring speutils.messages

namespace speutils.fifo

/-- Bytes in one task slot. -/
def TASK_SIZE : Nat := 128

/-- The first word of an ack slot that holds no acknowledgement. -/
def ACK_CLEAR : BitVec 32 := 0xc1ee7000#32

/-- The 32-bit words of one task slot. -/
abbrev Task := Fin 32 → BitVec 32

/-- `struct ack_s`. -/
structure ack_s where
  task_id : BitVec 32
  retval : BitVec 32
  callback : BitVec 64
  deriving DecidableEq, Repr

/-- `struct atomic_s` without its padding. `count` carries a ring index. -/
structure atomic_s where
  count : Nat
  state : Nat
  deriving DecidableEq, Repr

/-- `struct fifo_s` together with the memory behind its three addresses:
`task_fifo` is addressed by 32-bit word, `ack_fifo` by 16-byte entry. `active`
and `id` are read by no function modelled here. -/
structure fifo_s where
  task_fifo : Nat → BitVec 32
  ack_fifo : Nat → ack_s
  atomic : atomic_s
  max_entries : Nat

/-- The words of one task slot as a DMA transfer of `TASK_SIZE` bytes sees them. -/
def fifo_s.task (fifo : fifo_s) (slot : Nat) : Task :=
  fun word => fifo.task_fifo (slot * (TASK_SIZE / 4) + word)

/-- `allocate_fifo`. The two byte areas come from `memalign` and hold arbitrary
content; only the first word of each ack entry is cleared. -/
def allocate_fifo (task : Nat → BitVec 32) (ack : Nat → ack_s) (entries : Nat) : fifo_s where
  task_fifo := task
  ack_fifo := (List.range entries).foldl
    (fun ack i => Function.update ack i { ack i with task_id := ACK_CLEAR }) ack
  atomic := { count := 0, state := 0 }
  max_entries := entries

/-- The columns of `struct host_fifo_s` that belong to one SPE. `entry_p` is the
word offset of the open slot in `task_fifo`. -/
structure HostSpe where
  ringCTX : ring_context_s
  fifos : fifo_s
  entry_p : Nat
  entry_count : Nat
  isKicked : Bool

namespace HostSpe

/-- The column that `fifoInit` sets up for a ring of `entries` slots. -/
def init (task : Nat → BitVec 32) (ack : Nat → ack_s) (entries : Nat) : HostSpe where
  ringCTX := .init entries
  fifos := allocate_fifo task ack entries
  entry_p := 0
  entry_count := 0
  isKicked := true

/-- `entry_p[spe][index] = value`. -/
def write (host : HostSpe) (index : Nat) (value : BitVec 32) : HostSpe :=
  { host with fifos := { host.fifos with
      task_fifo := Function.update host.fifos.task_fifo (host.entry_p + index) value } }

/-- `entry_p[spe][entry_count[spe]] = value; entry_count[spe]++`, as `fifoBegin`
and `fifoRegisterProgram` do at fixed indices. -/
def put (host : HostSpe) (index : Nat) (value : BitVec 32) : HostSpe :=
  { host.write index value with entry_count := host.entry_count + 1 }

/-- Opening the slot at the ring's front: the assignments that `fifoBegin` and
`fifoRegisterProgram` share. -/
def openFront (host : HostSpe) : HostSpe :=
  { host with
    isKicked := false
    entry_count := 0
    entry_p := ringGetFront host.ringCTX * (TASK_SIZE / 4) }

/-- `fifoBegin` once `selectfifo` has returned this SPE. -/
def fifoBegin (host : HostSpe) (command handle : BitVec 32) : HostSpe :=
  let host := if !host.isKicked then { host with ringCTX := ringIncFront host.ringCTX } else host
  (host.openFront.put 0 command).put 1 handle

def fifoAdd (host : HostSpe) (arg : BitVec 32) : HostSpe :=
  if host.entry_count + 1 ≠ TASK_SIZE / 4 then
    { host.write host.entry_count arg with entry_count := host.entry_count + 1 }
  else host

/-- `send_front`: the state word is set, then the ring's front is stored as the
count. A failed store-conditional repeats the same two stores. -/
def send_front (host : HostSpe) : HostSpe :=
  let message := ringGetFront host.ringCTX
  let atomic := host.fifos.atomic
  let atomic := if atomic.state ≠ 1 then { atomic with state := 1 } else atomic
  { host with fifos := { host.fifos with atomic := { atomic with count := message } } }

/-- What `fifoKick` does after the count is published. -/
def closeFront (host : HostSpe) : HostSpe :=
  { host with isKicked := true, ringCTX := ringIncFront host.ringCTX }

def fifoKick (host : HostSpe) : HostSpe := host.send_front.closeFront

def fifoNoop (host : HostSpe) : HostSpe := (host.fifoBegin NOOP 0x1ee7C0DE#32).fifoKick

def fifo_addition (host : HostSpe) (adds : BitVec 32) : HostSpe :=
  let host := host.fifoBegin ADD 0x1ee7C0DE#32
  let host := host.fifoAdd adds
  let host := host.fifoAdd 0x01#32
  let host := host.fifoAdd 0x02#32
  host.fifoKick

/-- The loop body of `fifoRegisterProgram`: the slot at the front is opened
without `selectfifo` and without a look at `isKicked`. -/
def fifoRegisterProgram (host : HostSpe) (addr : BitVec 64) (size : BitVec 32) : HostSpe :=
  let host := host.openFront
  let host := host.put 0 REGISTER_PROGRAM
  let host := host.put 1 size
  let host := host.put 2 ((addr >>> 32).setWidth 32)
  let host := host.put 3 (addr.setWidth 32)
  host.fifoKick

/-- The test of the inner loop of `fifothread`. -/
def ackReady (host : HostSpe) : Bool :=
  (host.fifos.ack_fifo (ringGetBack host.ringCTX)).task_id != ACK_CLEAR

/-- The body of the inner loop of `fifothread`. -/
def reclaim (host : HostSpe) : HostSpe :=
  let back := ringGetBack host.ringCTX
  { host with
    fifos := { host.fifos with
      ack_fifo := Function.update host.fifos.ack_fifo back
        { host.fifos.ack_fifo back with task_id := ACK_CLEAR } }
    ringCTX := ringIncBack host.ringCTX }

end HostSpe

end speutils.fifo
