import PlatformKnife.Adb.Sync.Service
import PlatformKnife.Lib.Printf

namespace Adb.Sync

open Bytes CInt CString Fallible
open FsConfig (slash)
open Printf (printInt)

-- The calls that change the local file system.
inductive LocalCall
  | unlink (path : List UInt8)
  | mkdir (path : List UInt8)
  | creat (path : List UInt8)
  | write (path bytes : List UInt8)
  | setTimeAndMode (path : List UInt8) (time mode : Nat)
  deriving DecidableEq

-- The machine of the client. Whether a call succeeds can depend on all before it.
structure Host where
  reply    : List LocalCall → LocalCall → Bool
  reads    : List UInt8 → Option (List ReadResult)
  readlink : List UInt8 → Option (List UInt8)

-- An entry of a directory, as the device lists it.
structure Dent where
  mode : Nat
  size : Nat
  time : Nat
  name : List UInt8
  deriving DecidableEq

-- What comes from the device: an entry that was handed on, and the number of bytes behind a message that
-- were stored in a buffer.
inductive Heard
  | dent (d : Dent)
  | stored (n : Nat)
  deriving DecidableEq

-- The client: what it can still read, what it has written, how many more writes the device takes (`none`:
-- no limit), the calls it has made, what it was told, and whether its `read` serves a count above
-- `SSIZE_MAX`.
structure Client where
  input  : List UInt8
  output : List UInt8
  device : Option Nat
  calls  : List LocalCall
  heard  : List Heard
  huge   : Bool
  deriving DecidableEq

abbrev Talk := Fallible Client

namespace Client

def readx (n : Nat) : Talk (List UInt8) := fun c =>
  if n ≤ c.input.length then (some (c.input.take n), { c with input := c.input.drop n })
  else (none, { c with input := [] })

def writex (bytes : List UInt8) : Talk Unit := fun c =>
  match c.device with
  | none => (some (), { c with output := c.output ++ bytes })
  | some (n + 1) => (some (), { c with output := c.output ++ bytes, device := some n })
  | some 0 => (none, c)

def hear (h : Heard) : Talk Unit :=
  modify fun c => { c with heard := c.heard ++ [h] }

def ssizeMax : Nat := 2 ^ 63 - 1

-- `readx` into a buffer, with a length from the device that is an `int`. As a `size_t` a negative one is
-- above `SSIZE_MAX`.
def readInto (len : Int) : Talk (List UInt8) := do
  let c ← get
  if ssizeMax < toU64 len ∧ ¬c.huge then
    fail
  else
    hear (.stored (min (toU64 len) c.input.length))
    readx (toU64 len)

def call (host : Host) (f : LocalCall) : Talk Bool := fun c =>
  (some (host.reply c.calls f), { c with calls := c.calls ++ [f] })

end Client

open Client

-- The loop of `write_data_file` over the results of `read`, up to an error.
def writeChunks : List ReadResult → Talk Unit
  | [] => pure ()
  | .error _ :: _ => pure ()
  | .ok bytes :: res => do
    writex (Header.encode ⟨idData, bytes.length⟩ ++ bytes)
    writeChunks res

def writeDataFile (host : Host) (path : List UInt8) : Talk Unit :=
  match host.reads path with
  | none => fail
  | some res => writeChunks res

def writeDataLink (host : Host) (path : List UInt8) : Talk Unit :=
  match host.readlink path with
  | none => fail
  | some target => do
    let bytes := target.take (syncDataMax - 1) ++ [0]
    writex (Header.encode ⟨idData, bytes.length⟩ ++ bytes)

-- The status that ends a SEND request.
def readStatus : Talk Unit := do
  let msg := Header.decode (← Client.readx 8)
  if msg.id = idOkay then
    pure ()
  else if msg.id = idFail then
    let _ ← readInto (min (i32 msg.size) 256)
    fail
  else
    fail

-- The argument of a SEND request.
def sendName (rpath : List UInt8) (mode : Nat) : List UInt8 :=
  rpath ++ comma :: printInt (i32 mode)

-- The results of writing the data are not looked at.
def syncSend (host : Host) (lpath rpath : List UInt8) (mtime mode : Nat) : Talk Unit := do
  if rpath.length > 1024 then
    fail
  else
    let tmp := comma :: printInt (i32 mode)
    writex (Header.encode ⟨idSend, rpath.length + tmp.length⟩)
    writex rpath
    writex tmp
    if sIsreg mode then
      ignore (writeDataFile host lpath)
    else if sIslnk mode then
      ignore (writeDataLink host lpath)
    else
      fail
    writex (Header.encode ⟨idDone, mtime⟩)
    readStatus

end Adb.Sync
