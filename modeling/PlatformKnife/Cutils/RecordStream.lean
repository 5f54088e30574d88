import PlatformKnife.Lib.Bytes
import PlatformKnife.Lib.Slice

namespace RecordStream

open Bytes Slice

def HEADER_SIZE : Nat :=
  4

structure Stream where
  maxRecordLen : Nat
  buffer : List UInt8
  unconsumed : Nat
  readEnd : Nat

-- A failed assertion, an access outside of the buffer, and a `read` for no bytes at all.
inductive Fault
  | assertFailed
  | outside
  | emptyRead

inductive Outcome
  | record (data : List UInt8)
  | again
  | failed
  | endOfStream

-- The buffer is not initialised.
def recordStreamNew (maxRecordLen : Nat) (fresh : Nat → UInt8) : Except Fault Stream :=
  if maxRecordLen ≤ 0xffff then
    .ok ⟨maxRecordLen, (List.range (maxRecordLen + HEADER_SIZE)).map fresh, 0, 0⟩
  else .error .assertFailed

-- The bytes between two positions, all of which have to be in the buffer.
def readBetween (buffer : List UInt8) (i j : Nat) : Except Fault (List UInt8) :=
  if j ≤ buffer.length then .ok ((buffer.drop i).take (j - i)) else .error .outside

def getEndOfRecord (buffer : List UInt8) (begin end_ : Nat) : Except Fault (Option Nat) := do
  if end_ < begin + HEADER_SIZE then return none
  let len := fromBe (← readBetween buffer begin (begin + HEADER_SIZE))
  if end_ < begin + HEADER_SIZE + len then return none
  return some (begin + HEADER_SIZE + len)

def getNextRecord (rs : Stream) : Except Fault (Option (List UInt8) × Stream) := do
  match ← getEndOfRecord rs.buffer rs.unconsumed rs.readEnd with
  | none => return (none, rs)
  | some end_ =>
    let data ← readBetween rs.buffer (rs.unconsumed + HEADER_SIZE) end_
    return (some data, { rs with unconsumed := end_ })

-- The remainder is moved to the beginning of the buffer.
def compact (rs : Stream) : Except Fault Stream := do
  if rs.unconsumed = 0 then return rs
  let rest ← readBetween rs.buffer rs.unconsumed rs.readEnd
  return { rs with buffer := overwrite rs.buffer 0 rest, unconsumed := 0, readEnd := rest.length }

-- What follows on a `read`, which fails or gives at most `count + 1` bytes of the input.
def afterRead (rs : Stream) (input : List UInt8) :
    Option Nat → Except Fault (Outcome × Stream × List UInt8)
  | none => return (.failed, rs, input)
  | some count => do
    let data := input.take (min (count + 1) (rs.buffer.length - rs.readEnd))
    if data = [] then return (.endOfStream, rs, input)
    let rs := { rs with
      buffer  := overwrite rs.buffer rs.readEnd data
      readEnd := rs.readEnd + data.length }
    let (record, rs) ← getNextRecord rs
    return (record.elim .again .record, rs, input.drop data.length)

def recordStreamGetNext (rs : Stream) (input : List UInt8) (read : Option Nat) :
    Except Fault (Outcome × Stream × List UInt8) := do
  let (record, rs) ← getNextRecord rs
  if let some data := record then return (.record data, rs, input)
  if rs.unconsumed = 0 ∧ rs.readEnd = rs.buffer.length then throw .assertFailed
  let rs ← compact rs
  if rs.buffer.length ≤ rs.readEnd then throw .emptyRead
  afterRead rs input read

-- One call for each element, with what its `read` does, if any.
def calls : List (Option Nat) → Stream → List UInt8 → Except Fault (List Outcome)
  | [], _, _ => return []
  | read :: reads, rs, input => do
    let (outcome, rs, input) ← recordStreamGetNext rs input read
    return outcome :: (← calls reads rs input)

end RecordStream
