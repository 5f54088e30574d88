import PlatformKnife.Lib.Exec
import PlatformKnife.Lib.Slice

namespace Adb

open Slice

-- How a call can end without a result. One that waits for the other end needs another thread.
inductive Stop
  | fault (f : Fault)
  | blocked
  deriving DecidableEq

abbrev Exec := Except Stop

def fault (f : Fault) : Exec α :=
  .error (.fault f)

def assert (p : Prop) [Decidable p] : Exec Unit :=
  if p then .ok () else fault .assertFailed

def bipBufferSize : Nat := 4096

-- `struct BipBufferRec_` without its lock and what is only printed. Events are flags.
structure BipBuffer where
  aStart : Int
  aEnd : Int
  bEnd : Int
  closed : Bool
  canWrite : Bool
  evtWrite : Bool
  canRead : Bool
  evtRead : Bool
  buff : List UInt8
  buff_length : buff.length = bipBufferSize

namespace BipBuffer

-- The bytes of a new buffer are whatever its memory holds.
def bipBufferInit (buff : List UInt8) (h : buff.length = bipBufferSize) : BipBuffer where
  aStart := 0
  aEnd := 0
  bEnd := 0
  closed := false
  canWrite := true
  evtWrite := true
  canRead := false
  evtRead := false
  buff := buff
  buff_length := h

section

variable (bip : BipBuffer)

-- `memcpy( bip->buff + off, src, n )`
def memcpyTo (off : Int) (src : List UInt8) (n : Int) : Exec BipBuffer :=
  if 0 ≤ off ∧ 0 ≤ n ∧ off + n ≤ (bipBufferSize : Int) ∧ n ≤ src.length then
    .ok { bip with
      buff := overwrite bip.buff off.toNat (src.take n.toNat)
      buff_length := by rw [overwrite_length, bip.buff_length] }
  else
    fault .outOfBounds

-- `memcpy( dst, bip->buff + off, n )`
def memcpyFrom (off n : Int) : Exec (List UInt8) :=
  if 0 ≤ off ∧ 0 ≤ n ∧ off + n ≤ (bipBufferSize : Int) then
    .ok (slice bip.buff off.toNat (off + n).toNat)
  else
    fault .outOfBounds

-- The code of `bip_buffer_write` behind the label `Exit`.
def exitWrite (count : Int) : Exec (BipBuffer × Int) := do
  assert (count > 0)
  if !bip.canRead then
    return ({ bip with canRead := true, evtRead := true }, count)
  else
    return (bip, count)

-- The part of `bip_buffer_write` that fills region B.
def writeB (src : List UInt8) (count : Int) : Exec (BipBuffer × Int) := do
  let len : Int := src.length
  if len = 0 then
    exitWrite bip count
  else
    assert (bip.aStart - bip.bEnd > 0)
    let avail := min (bip.aStart - bip.bEnd) len
    let bip ← bip.memcpyTo bip.bEnd src avail
    let bip := { bip with bEnd := bip.bEnd + avail }
    if bip.bEnd = bip.aStart then
      exitWrite { bip with canWrite := false, evtWrite := false } (count + avail)
    else
      exitWrite bip (count + avail)

-- The result is the number of bytes taken, or -1 on a closed buffer.
def bipBufferWrite (src : List UInt8) : Exec (BipBuffer × Int) := do
  let len : Int := src.length
  if len ≤ 0 then
    return (bip, 0)
  else if !bip.canWrite then
    if bip.closed then return (bip, -1) else .error .blocked
  else if (bipBufferSize : Int) - bip.aEnd > 0 then
    let avail := min ((bipBufferSize : Int) - bip.aEnd) len
    let bip ← bip.memcpyTo bip.aEnd src avail
    let bip := { bip with aEnd := bip.aEnd + avail }
    if bip.aEnd = (bipBufferSize : Int) ∧ bip.aStart = 0 then
      exitWrite { bip with canWrite := false, evtWrite := false } avail
    else
      bip.writeB (src.drop avail.toNat) avail
  else
    bip.writeB src 0

-- The code of `bip_buffer_read` behind the label `Exit`.
def exitRead (dst : List UInt8) (count : Int) : Exec (BipBuffer × List UInt8 × Int) := do
  assert (count > 0)
  if !bip.canWrite then
    return ({ bip with canWrite := true, evtWrite := true }, dst, count)
  else
    return (bip, dst, count)

-- The part of `bip_buffer_read` behind the end of region A.
def readB (dst : List UInt8) (len count : Int) : Exec (BipBuffer × List UInt8 × Int) := do
  let bip := { bip with aStart := 0, aEnd := bip.bEnd, bEnd := 0 }
  if bip.aEnd > 0 then
    let avail := min bip.aEnd len
    let bytes ← bip.memcpyFrom 0 avail
    let bip := { bip with aStart := bip.aStart + avail }
    if bip.aStart < bip.aEnd then
      exitRead bip (dst ++ bytes) (count + avail)
    else
      exitRead { bip with aStart := 0, aEnd := 0, canRead := false, evtRead := false }
        (dst ++ bytes) (count + avail)
  else
    exitRead { bip with canRead := false, evtRead := false } dst count

-- The result is what was stored and the value returned.
def bipBufferRead (len : Int) : Exec (BipBuffer × List UInt8 × Int) := do
  if len ≤ 0 then
    return (bip, [], 0)
  else if !bip.canRead then
    if bip.closed then return (bip, [], -1) else .error .blocked
  else
    assert (bip.aEnd - bip.aStart > 0)
    let avail := min (bip.aEnd - bip.aStart) len
    let dst ← bip.memcpyFrom bip.aStart avail
    let bip := { bip with aStart := bip.aStart + avail }
    if bip.aStart < bip.aEnd then
      exitRead bip dst avail
    else
      bip.readB dst (len - avail) avail

-- The bytes in the buffer, in the order of reading.
def content : List UInt8 :=
  slice bip.buff bip.aStart.toNat bip.aEnd.toNat ++ slice bip.buff 0 bip.bEnd.toNat

end

-- A call on the buffer. The length of a write is the length of its source.
inductive Call
  | write (src : List UInt8)
  | read (len : Int)
  deriving DecidableEq

-- A buffer with the bytes that were accepted and returned so far.
structure Trace where
  bip : BipBuffer
  accepted : List UInt8
  delivered : List UInt8

namespace Trace

def start (bip : BipBuffer) : Trace where
  bip := bip
  accepted := []
  delivered := []

def step (t : Trace) : Call → Exec Trace
  | .write src => do
    let (bip, count) ← t.bip.bipBufferWrite src
    return { t with bip, accepted := t.accepted ++ src.take count.toNat }
  | .read len => do
    let (bip, dst, count) ← t.bip.bipBufferRead len
    return { t with bip, delivered := t.delivered ++ dst.take count.toNat }

def run (t : Trace) (calls : List Call) : Exec Trace :=
  calls.foldlM step t

-- What is to hold between any two calls.
structure Fifo (t : Trace) : Prop where
  order : t.accepted = t.delivered ++ t.bip.content
  start : 0 ≤ t.bip.aStart
  regionA : t.bip.aStart ≤ t.bip.aEnd
  size : t.bip.aEnd ≤ bipBufferSize
  regionB : t.bip.bEnd ≤ t.bip.aStart
  wrapped : t.bip.bEnd > 0 → t.bip.aEnd = bipBufferSize
  canRead : t.bip.canRead ↔ t.bip.content ≠ []
  canWrite : t.bip.canWrite ↔ t.bip.content.length ≠ bipBufferSize

end Trace

end BipBuffer

end Adb
