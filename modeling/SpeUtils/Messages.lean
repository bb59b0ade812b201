import Mathlib.Data.Nat.Notation

namespace speutils.messages

/-! The command words of `messages.h`. -/

def NOOP : BitVec 32 := 0x1337C0DE#32
def ADD : BitVec 32 := 0xC0DE0ADD#32
def STOP : BitVec 32 := 0xCAFEBABE#32
def INVALID : BitVec 32 := 0xDEADBEEF#32
def SLEEP : BitVec 32 := 0x51EE4555#32
def REGISTER_PROGRAM : BitVec 32 := 0x73215737#32
def UNREGISTER_PROGRAM : BitVec 32 := 0x77777777#32

/-- The stop code by which an SPU announces a mailbox message. -/
def READ_MBOX : BitVec 32 := 1999#32

/-- Every word that `messages.h` gives a meaning as a command. -/
def builtin : List (BitVec 32) :=
  [NOOP, ADD, STOP, INVALID, SLEEP, REGISTER_PROGRAM, UNREGISTER_PROGRAM]

end speutils.messages
