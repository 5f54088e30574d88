import PlatformKnife.Lib.Bytes
import PlatformKnife.Lib.CInt
import PlatformKnife.Lib.Exec

namespace Sparse

open CInt

-- `DIV_ROUND_UP`, `ALIGN` and `ALIGN_DOWN` for operands of type `unsigned int`.

def divRoundUp (x y : Nat) : Nat :=
  u32 (x + y - 1) / y

def align (x y : Nat) : Nat :=
  u32 (y * divRoundUp x y)

def alignDown (x y : Nat) : Nat :=
  y * (x / y)

inductive Errno
  | einval
  | enomem
  deriving DecidableEq

-- The ways in which a call can end without a result.
inductive Stop
  | fault (f : Fault)
  | errno (e : Errno)
  deriving DecidableEq

abbrev Exec := Except Stop

def Exec.ofFault : Except Fault α → Exec α
  | .ok a => .ok a
  | .error f => .error (.fault f)

-- What the library needs from the system. Allocations of list nodes and output files are taken to
-- succeed, as are `write`, `lseek` and `ftruncate` on the output. A mapped file is as long as the chunks
-- which refer to it.
structure Env where
  mem : Nat → UInt8
  open_ : String → Option Int
  contents : Int → Option (Nat → UInt8)
  calloc : Int → Bool
  calloc_neg : ∀ n < 0, calloc n = false

-- A system without files, and with memory for any buffer.
def Env.withoutFiles : Env where
  mem _ := 0
  open_ _ := none
  contents _ := none
  calloc n := 0 ≤ n
  calloc_neg := by simp

-- `mmap` refuses a length of 0, and a negative `int` turns into a `size_t` that no address space can hold.
def Env.mmap (env : Env) (fd length : Int) (offset : Nat) : Option (Nat → UInt8) :=
  if 0 < length then (env.contents fd).map fun c i => c (offset + i) else none

-- The i-th byte of a buffer that was filled with 32 bit values.
def fillByte (val : UInt32) (i : Nat) : UInt8 :=
  (val >>> (8 * UInt32.ofNat (i % 4))).toUInt8

end Sparse
