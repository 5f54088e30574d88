import PlatformKnife.Lib.CInt
import PlatformKnife.Lib.File
import PlatformKnife.Lib.Slice

namespace Cutils

open CInt Slice

-- What `realloc` gives: whether there is memory of a size, and its new part.
structure Realloc where
  gives : Nat → Bool
  fresh : Nat → UInt8
  lt    : gives n → n < 2 ^ 63

-- The length of the buffer is `allocSize`, and `sizep` is what the pointer points to.
structure MemStream where
  buf    : List UInt8
  sizep  : Nat
  eof    : Nat
  offset : Nat
  saved  : UInt8

inductive Whence
  | set
  | cur
  | end_

namespace MemStream

inductive Fault
  | outside
  | assertFailed

def kInitialSize : Nat :=
  1024

def opened : MemStream where
  buf    := []
  sizep  := 0
  eof    := 0
  offset := 0
  saved  := 0

def store (buf : List UInt8) (i : Nat) (d : List UInt8) : Except Fault (List UInt8) :=
  if i + d.length ≤ buf.length then .ok (overwrite buf i d) else .error .outside

def load (buf : List UInt8) (i : Nat) : Except Fault UInt8 :=
  if h : i < buf.length then .ok buf[i] else .error .outside

def newSize (allocSize neededSize : Nat) : Nat :=
  max (if allocSize = 0 then kInitialSize else allocSize + allocSize / 2) neededSize

-- There is no result if there is no memory.
def ensureCapacity (mem : Realloc) (s : MemStream) (writeSize : Nat) : Option MemStream :=
  let neededSize := s.offset + writeSize + 1
  let newSize    := newSize s.buf.length neededSize
  if neededSize ≤ s.buf.length then some s
  else if mem.gives newSize then
    some { s with buf := s.buf ++ (List.range (newSize - s.buf.length)).map mem.fresh }
  else none

section

variable (s : MemStream)

-- The gap is filled if the offset was moved behind the end.
def fillGap : Except Fault (List UInt8) :=
  if s.eof < s.offset then store s.buf s.eof (List.replicate (s.offset - s.eof) 0) else .ok s.buf

-- A zero is put into the written area, and what was there is saved.
def stomp : Except Fault MemStream := do
  let saved ← load s.buf s.offset
  let buf ← store s.buf s.offset [0]
  return { s with buf, saved, sizep := s.offset }

def restore : Except Fault (List UInt8) :=
  if s.offset < s.eof then store s.buf s.offset [s.saved] else .ok s.buf

def copyData (data : List UInt8) : Except Fault MemStream := do
  let buf ← fillGap s
  let buf ← store buf s.offset data
  return { s with buf, offset := s.offset + data.length }

end

def writeMemstream (mem : Realloc) (s : MemStream) (data : List UInt8) :
    Except Fault (Int × MemStream) := do
  match ensureCapacity mem s data.length with
  | none => return (-1, s)
  | some s =>
    let s ← copyData s data
    if s.eof < s.offset then
      if s.buf.length ≤ s.offset then throw .assertFailed
      let buf ← store s.buf s.offset [0]
      return (data.length, { s with buf, eof := s.offset, sizep := s.offset })
    else return (data.length, ← stomp s)

-- The sum is one of unsigned numbers, which is converted back.
def newPosn (s : MemStream) (offset : Int64) : Whence → Int
  | .set  => offset.toInt
  | .cur  => toI64 (u64 (toU64 offset.toInt + s.offset))
  | .end_ => toI64 (u64 (toU64 offset.toInt + s.eof))

def seekMemstream (s : MemStream) (offset : Int64) (whence : Whence) :
    Except Fault (Int × MemStream) := do
  let newPosn := s.newPosn offset whence
  if newPosn < 0 then return (-1, s)
  let s := { s with buf := ← restore s, offset := newPosn.toNat }
  if s.offset < s.eof then return (newPosn, ← stomp s)
  else return (newPosn, { s with sizep := s.eof })

end MemStream

end Cutils
