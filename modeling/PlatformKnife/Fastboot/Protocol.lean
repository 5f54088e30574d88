import PlatformKnife.Lib.CString
import PlatformKnife.Lib.Fallible
import PlatformKnife.Sparse.SparseFile

namespace Fastboot

open Bytes CInt CString Fallible
open Sparse (Env SparseFile OutputFileOps)

-- What a device sends in one packet.
structure Packet where
  bytes : List UInt8
  length_le : bytes.length ≤ 64
  deriving DecidableEq

-- What goes over the connection: commands, the results of reading a status, and data.
inductive Event
  | command (bytes : List UInt8)
  | status (r : Option Packet)
  | data (bytes : List UInt8)
  deriving DecidableEq

-- The reasons that `ERROR` is set to, without the texts of the system.
inductive Error
  | statusReadFailed
  | statusMalformed (n : Nat)
  | remote (msg : List UInt8)
  | remoteFailure
  | dataSizeTooLarge
  | unknownStatusCode
  | commandTooLarge
  | commandWriteFailed
  | dataTransferFailure
  | shortTransfer
  | usbBufNotEmpty
  | tooMuchLeft
  deriving DecidableEq

-- The connection to a device, with the packets that it is going to send, the results of the writes, and
-- the static variables of the protocol.
structure Usb where
  responses : List Packet
  accepts : List Event → Nat → Int
  log : List Event
  closed : Bool
  usbBuf : List UInt8
  response : List UInt8
  error : Option Error
  fault : Option Fault

abbrev Link := Fallible Usb

def usbClose : Link Unit :=
  modify fun u => { u with closed := true }

def setError (e : Error) : Link Unit :=
  modify fun u => { u with error := some e }

-- A failure after which the connection is not used any more.
def abandon (e : Error) : Link α := do
  setError e
  usbClose
  fail

-- `usb_read` with a buffer for a packet.
def usbRead : Link (Option Packet) := fun u =>
  if u.closed then (some none, u)
  else match u.responses with
    | [] => (some none, { u with log := u.log ++ [.status none] })
    | p :: responses => (some (some p), { u with responses, log := u.log ++ [.status (some p)] })

def usbWrite (e : Event) (len : Nat) : Link Int := fun u =>
  if u.closed then (some (-1), u)
  else (some (u.accepts u.log len), { u with log := u.log ++ [e] })

def info : List UInt8 := ofString "INFO"
def okay : List UInt8 := ofString "OKAY"
def failed : List UInt8 := ofString "FAIL"
def data : List UInt8 := ofString "DATA"

-- The first bytes of a packet.
def Packet.tag (p : Packet) : List UInt8 :=
  p.bytes.take 4

-- The string behind the tag.
def Packet.msg (p : Packet) : List UInt8 :=
  ofBuffer (p.bytes.drop 4)

-- The number in a DATA packet, as an `unsigned`.
def Packet.dsize (p : Packet) : Nat :=
  u32 (strtoul (2 ^ 64 - 1) 16 p.msg).fst

-- A response to a command which announces up to `size` bytes. The value is 0 for OKAY and the number of
-- bytes that the device is ready for, as an `int`, for DATA.
def checkStatus (size : Nat) (p : Packet) : Link Int := do
  if p.tag = okay then
    modify fun u => { u with response := p.msg }
    pure 0
  else if p.tag = failed then
    setError (if p.bytes.length > 4 then .remote p.msg else .remoteFailure)
    fail
  else if p.tag = data ∧ size > 0 then
    if p.dsize > size then abandon .dataSizeTooLarge else pure (toI32 p.dsize)
  else
    abandon .unknownStatusCode

-- The loop of `check_response`. Each round takes one of the packets.
def checkResponseLoop (size : Nat) : Nat → Link Int
  | 0 => fail
  | fuel + 1 => do
    match ← usbRead with
    | none => abandon .statusReadFailed
    | some p =>
      if p.bytes.length < 4 then
        abandon (.statusMalformed p.bytes.length)
      else if p.tag = info then
        checkResponseLoop size fuel
      else
        checkStatus size p

def checkResponse (size : Nat) : Link Int := do
  let u ← get
  checkResponseLoop size (u.responses.length + 1)

def commandStart (cmd : List UInt8) (size : Nat) : Link Int := do
  modify fun u => { u with response := [] }
  if cmd.length > 64 then
    setError .commandTooLarge
    fail
  else if (← usbWrite (.command cmd) cmd.length) ≠ cmd.length then
    abandon .commandWriteFailed
  else
    checkResponse size

-- The size is handed on as an `int`. Nothing is written when that is negative, and the result is not the
-- size.
def commandData (ptr : Nat → UInt8) (size : Nat) : Link Int := do
  if toI32 size < 0 then
    abandon .dataTransferFailure
  else
    let r ← usbWrite (.data (ofPtr ptr size)) size
    if r < 0 then
      abandon .dataTransferFailure
    else if r ≠ size then
      abandon .shortTransfer
    else
      pure r

def commandEnd : Link Int := do
  let r ← checkResponse 0
  if r < 0 then fail else pure 0

def commandSend (cmd : List UInt8) (ptr : Nat → UInt8) (size : Nat) : Link Int := do
  if size = 0 then
    fail
  else
    let r ← commandStart cmd size
    if r < 0 then
      fail
    else
      let _ ← commandData ptr size
      let _ ← commandEnd
      pure size

def download (size : Nat) : List UInt8 :=
  ofString "download:" ++ hex8 size

def fbDownloadData (ptr : Nat → UInt8) (size : Nat) : Link Unit := do
  let _ ← commandSend (download size) ptr size

def usbBufSize : Nat := 1024

-- The data is collected in `usb_buf`. A negative length is a huge one for `memcpy`.

def copyToBuf (ptr : Nat → UInt8) (n : Nat) : Link Unit :=
  modify fun u => { u with usbBuf := u.usbBuf ++ ofPtr ptr n }

-- The part of `fb_download_data_sparse_write` that fills the buffer.
def fillBuf (ptr : Nat → UInt8) (len : Int) : Link Nat := do
  let u ← get
  if u.usbBuf = [] then
    pure 0
  else if len < 0 then
    modify fun u => { u with fault := some .outOfBounds }
    fail
  else
    copyToBuf ptr (min (usbBufSize - u.usbBuf.length) len.toNat)
    pure (min (usbBufSize - u.usbBuf.length) len.toNat)

-- The part that writes a full buffer.
def writeFullBuf : Link Unit := do
  let u ← get
  if u.usbBuf.length = usbBufSize then
    let _ ← commandData (toPtr u.usbBuf) usbBufSize
    modify fun u => { u with usbBuf := [] }
  else
    pure ()

def roundDown (a b : Nat) : Nat :=
  a - a % b

section

variable (ptr : Nat → UInt8)

-- The part that writes whole buffers from the data itself, with what it has taken.
def writeWhole (len : Nat) : Link Nat := do
  let u ← get
  if len > usbBufSize then
    if u.usbBuf ≠ [] then
      setError .usbBufNotEmpty
      fail
    else
      let _ ← commandData ptr (roundDown len usbBufSize)
      pure (roundDown len usbBufSize)
  else
    pure 0

-- The rest is kept for later.
def keepRest (len : Nat) : Link Unit := do
  if len > 0 then
    if len > usbBufSize then
      setError .tooMuchLeft
      fail
    else
      modify fun u => { u with usbBuf := ofPtr ptr len }
  else
    pure ()

def fbDownloadDataSparseWrite (len : Int) : Link Unit := do
  let n ← fillBuf ptr len
  writeFullBuf
  let m ← writeWhole (fun i => ptr (n + i)) (len.toNat - n)
  keepRest (fun i => ptr (n + m + i)) (len.toNat - n - m)

end

def fbDownloadDataSparseFlush : Link Unit := do
  let u ← get
  if u.usbBuf.length > 0 then
    let _ ← commandData (toPtr u.usbBuf) u.usbBuf.length
    modify fun u => { u with usbBuf := [] }
  else
    pure ()

-- The connection as an output of libsparse. A hole in the raw format is written from a null pointer.
instance : OutputFileOps Usb where
  write u ptr len :=
    let (r, u) := fbDownloadDataSparseWrite ptr len u
    (u, r.isSome)
  skip u _ := ({ u with fault := some .outOfBounds }, false)
  pad u _  := (u, false)

-- `sparse_file_callback`, which with an empty `usb_buf` only fails before any write.
def sparseFileCallback (env : Env) (s : SparseFile) : Link Unit := fun u =>
  match s.writeTo env u true false with
  | .error _ => (none, u)
  | .ok u => (some (), u)

-- The result of the flush is not looked at.
def fbDownloadDataSparse (env : Env) (s : SparseFile) : Link Int :=
  match s.fileLen env true false with
  | .error _ => fail
  | .ok len  => do
    if toI32 (toU32 len) ≤ 0 then
      fail
    else
      let r ← commandStart (download (toU32 len)) (toU32 len)
      if r < 0 then
        fail
      else
        sparseFileCallback env s
        ignore fbDownloadDataSparseFlush
        commandEnd

end Fastboot
