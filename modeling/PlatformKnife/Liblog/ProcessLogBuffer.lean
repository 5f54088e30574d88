import PlatformKnife.Lib.CInt
import PlatformKnife.Lib.Slice

namespace Liblog

open CInt Slice

-- The size of `struct logger_entry`.
def loggerEntrySize : Nat := 20

-- A record from the log, with its bytes in memory. The header of newer versions says where the payload
-- starts.
structure LoggerEntry where
  len : Nat
  hdrSize : Nat
  pid : Int
  tid : Int
  sec : Int
  nsec : Int
  mem : List UInt8
  len_lt : len < 2 ^ 16
  inside : (if hdrSize ≠ 0 then hdrSize else loggerEntrySize) + len ≤ mem.length

def LoggerEntry.msg (buf : LoggerEntry) : Nat :=
  if buf.hdrSize ≠ 0 then buf.hdrSize else loggerEntrySize

def LoggerEntry.payload (buf : LoggerEntry) : List UInt8 :=
  slice buf.mem buf.msg (buf.msg + buf.len)

-- The strings are positions in the memory, or bytes.
structure AndroidLogEntry (σ : Type) where
  tvSec : Int
  tvNsec : Int
  priority : UInt8
  pid : Int
  tid : Int
  tag : σ
  messageLen : Nat
  message : σ

-- The loop over the payload from `i` on, with `msgStart` and `msgEnd` as results.
def scanMessage : Nat → Option Nat → List UInt8 → Option Nat × Option Nat
  | _, msgStart, [] => (msgStart, none)
  | i, msgStart, b :: l =>
    if b = 0 then
      match msgStart with
      | none => scanMessage (i + 1) (some (i + 1)) l
      | some msgStart => (some msgStart, some i)
    else
      scanMessage (i + 1) msgStart l

-- `android_log_processLogBuffer`, with the entry and the memory when the result is 0.
def processLogBuffer (buf : LoggerEntry) : Option (AndroidLogEntry Nat × List UInt8) :=
  if buf.len < 3 then
    none
  else
    let entry (msgStart msgEnd : Nat) (mem : List UInt8) : AndroidLogEntry Nat := {
      tvSec := buf.sec
      tvNsec := buf.nsec
      pid := buf.pid
      tid := buf.tid
      priority := mem.getD buf.msg 0
      tag := buf.msg + 1
      message := buf.msg + msgStart
      messageLen := toU64 (msgEnd - msgStart)
    }
    match scanMessage 1 none (buf.payload.drop 1) with
    | (none, _) => none
    | (some msgStart, some msgEnd) => some (entry msgStart msgEnd buf.mem, buf.mem)
    | (some msgStart, none) =>
      -- The message is not terminated.
      let msgEnd := buf.len - 1
      let mem    := overwrite buf.mem (buf.msg + msgEnd) [0]
      some (entry msgStart msgEnd mem, mem)

end Liblog
