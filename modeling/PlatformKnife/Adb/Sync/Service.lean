import PlatformKnife.Adb.Sync.Protocol
import PlatformKnife.FsConfig
import PlatformKnife.Lib.Fallible

namespace Adb.Sync

open Bytes CInt CString Fallible
open FsConfig (slash)

-- `struct stat`, as far as it is sent.
structure Stat where
  mode  : Nat
  size  : Nat
  mtime : Nat
  deriving DecidableEq

-- The calls that change the file system or open something in it.
inductive FsCall
  | openNew (path : List UInt8) (mode : Nat)
  | openOld (path : List UInt8) (mode : Nat)
  | openRead (path : List UInt8)
  | mkdir (path : List UInt8) (mode : Nat)
  | chown (path : List UInt8) (uid gid : Nat)
  | fchown (fd uid gid : Nat)
  | fchmod (fd mode : Nat)
  | write (fd : Nat) (bytes : List UInt8)
  | close (fd : Nat)
  | unlink (path : List UInt8)
  | symlink (target path : List UInt8)
  | restorecon (path : List UInt8)
  | utime (path : List UInt8) (time : Nat)
  deriving DecidableEq

-- What an uninterrupted `read` returns: some bytes, or an error.
abbrev ReadResult := Except Nat (List UInt8)

-- The device of the service. What a call returns can depend on all before it, and so can what the buffer
-- of the service still holds from some position on.
structure Env where
  reply : List FsCall → FsCall → Except Nat Nat
  lstat : List FsCall → List UInt8 → Option Stat
  readdir : List FsCall → List UInt8 → Option (List (List UInt8))
  reads : List FsCall → Nat → List ReadResult
  strerror : Nat → List UInt8
  storageFull : List FsCall → Bool
  stale : List FsCall → Nat → List UInt8
  tables : FsConfig.Tables
  ulongMax : Nat
  ulongMax_ge : 2 ^ 32 - 1 ≤ ulongMax

def enoent : Nat := 2
def eexist : Nat := 17
def enospc : Nat := 28

-- The messages of the service.
inductive Reply
  | stat (st : Stat)
  | dent (st : Stat) (name : List UInt8)
  | dentDone
  | data (bytes : List UInt8)
  | done
  | okay
  | fail (reason : List UInt8)
  deriving DecidableEq

def Reply.isStatus : Reply → Bool
  | okay => true
  | fail _ => true
  | _ => false

-- The service: what it can still read, what it has sent, how many more messages the client takes (`none`:
-- no limit), and the calls it has made.
structure Service where
  input  : List UInt8
  output : List Reply
  client : Option Nat
  errno  : Nat
  calls  : List FsCall
  deriving DecidableEq

abbrev Serve := Fallible Service

-- `readx` on the connection. When the client is gone, the rest is lost.
def readx (n : Nat) : Serve (List UInt8) := fun s =>
  if n ≤ s.input.length then (some (s.input.take n), { s with input := s.input.drop n })
  else (none, { s with input := [] })

-- `writex` of a message. A client that is gone does not come back.
def send (r : Reply) : Serve Unit := fun s =>
  match s.client with
  | none => (some (), { s with output := s.output ++ [r] })
  | some (n + 1) => (some (), { s with output := s.output ++ [r], client := some n })
  | some 0 => (none, s)

-- A call that returns -1 sets `errno`.
def call (env : Env) (c : FsCall) : Serve (Option Nat) := fun s =>
  match env.reply s.calls c with
  | .ok n => (some (some n), { s with calls := s.calls ++ [c] })
  | .error e => (some none, { s with calls := s.calls ++ [c], errno := e })

def failMessage (reason : List UInt8) : Serve Unit :=
  send (.fail reason)

def failErrno (env : Env) : Serve Unit := do
  let s ← get
  failMessage (env.strerror s.errno)

-- `uid_t` and `gid_t` of value -1
def noId : Nat := 2 ^ 32 - 1

def isOnSystem (name : List UInt8) : Bool :=
  startsWith "/system/" name

def isOnVendor (name : List UInt8) : Bool :=
  startsWith "/vendor/" name

-- The owner, group and mode in the tables, for a path on a system partition.
def configured (env : Env) (name path : List UInt8) (dir : Bool) (mode : Nat) : Nat × Nat × Nat :=
  if isOnSystem name || isOnVendor name then FsConfig.fsConfig env.tables path dir mode
  else (noId, noId, mode)

-- The loop of `mkdirs` behind the part `front` of the path. Owner, group and mode are those of the last
-- directory on a partition of the system.
def mkdirsLoop (env : Env) (ids : Nat × Nat × Nat) (front : List UInt8) : List UInt8 → Serve Bool
  | [] => pure true
  | c :: l =>
    if c = slash then do
      let (uid, gid, mode) :=
        if isOnSystem front || isOnVendor front then
          FsConfig.fsConfig env.tables front true ids.2.2
        else ids
      let r ← call env (.mkdir front mode)
      let s ← get
      if r.isNone && s.errno ≠ eexist then
        pure false
      else if r.isSome then do
        let r ← call env (.chown front uid gid)
        if r.isNone then
          pure false
        else do
          let _ ← call env (.restorecon front)
          mkdirsLoop env (uid, gid, mode) (front ++ [c]) l
      else
        mkdirsLoop env (uid, gid, mode) (front ++ [c]) l
    else
      mkdirsLoop env ids (front ++ [c]) l

-- Whether the directories of a path exist in the end.
def mkdirs (env : Env) : List UInt8 → Serve Bool
  | [] => pure false
  | c :: path =>
    if c = slash then mkdirsLoop env (noId, noId, 0o775) [c] path else pure false

def doStat (env : Env) (path : List UInt8) : Serve Unit := do
  let s ← get
  match env.lstat s.calls path with
  | none => send (.stat ⟨0, 0, 0⟩)
  | some st => send (.stat ⟨u32 st.mode, u32 st.size, u32 st.mtime⟩)

-- The loop of `do_list` over the names in a directory.
def listNames (env : Env) (path : List UInt8) : List (List UInt8) → Serve Unit
  | [] => pure ()
  | name :: names => do
    let s ← get
    if name.length > 256 then
      listNames env path names
    else
      match env.lstat s.calls (path ++ slash :: name) with
      | none => listNames env path names
      | some st => do
        send (.dent ⟨u32 st.mode, u32 st.size, u32 st.mtime⟩ name)
        listNames env path names

def doList (env : Env) (path : List UInt8) : Serve Unit := do
  let s ← get
  match env.readdir s.calls path with
  | none => pure ()
  | some names => listNames env path names
  send .dentDone

def closeFile (env : Env) (fd : Nat) : Serve Unit := do
  let _ ← call env (.close fd)

-- The loop of `do_recv` over the results of `read`. The file ends where they end.
def sendFile (env : Env) (fd : Nat) : List ReadResult → Serve Unit
  | [] => do
    closeFile env fd
    send .done
  | .error e :: _ => do
    modify fun s => { s with errno := e }
    onFail (failErrno env) (closeFile env fd)
    closeFile env fd
  | .ok bytes :: results => do
    onFail (send (.data bytes)) (closeFile env fd)
    sendFile env fd results

section

variable (env : Env)

def doRecv (path : List UInt8) : Serve Unit := do
  match ← call env (.openRead path) with
  | none => failErrno env
  | some fd =>
    let s ← get
    sendFile env fd (env.reads s.calls fd)

-- The first two attempts of `handle_send_file` to open a file, the second one after a missing directory
-- was made.
def openNewFile (path : List UInt8) (mode : Nat) : Serve (Option Nat) := do
  let fd ← call env (.openNew path mode)
  let s ← get
  if fd.isNone && s.errno = enoent then
    if ← mkdirs env path then
      call env (.openNew path mode)
    else do
      failErrno env
      pure none
  else
    pure fd

-- All attempts to open a file, the last one for an existing file.
def openFile (path : List UInt8) (mode : Nat) : Serve (Option Nat) := do
  let fd ← openNewFile env path mode
  let s ← get
  if fd.isNone && s.errno = eexist then
    call env (.openOld path mode)
  else
    pure fd

-- Owner and mode are set before anything is written.
def prepareFile (uid gid mode : Nat) : Option Nat → Serve Unit
  | none => failErrno env
  | some fd => do
    let r ← call env (.fchown fd uid gid)
    if r.isNone then
      ignore (failErrno env)
      modify fun s => { s with errno := 0 }
    let _ ← call env (.fchmod fd mode)

-- The code of `handle_send_file` behind the label `fail`.
def abandonFile (path : List UInt8) (doUnlink : Bool) (fd : Option Nat) : Serve Unit := do
  match fd with
  | none => pure ()
  | some fd => closeFile env fd
  if doUnlink then
    let _ ← call env (.unlink path)

-- `writex` on a file. Nothing is called to write nothing.
def writexFile (fd : Nat) (bytes : List UInt8) : Serve (Option Nat) :=
  if bytes = [] then pure (some 0) else call env (.write fd bytes)

def writeFile (path : List UInt8) (doUnlink : Bool) (bytes : List UInt8) :
    Option Nat → Serve (Option Nat)
  | none => pure none
  | some fd => do
    match ← writexFile env fd bytes with
    | some _ => pure (some fd)
    | none =>
      let s ← get
      closeFile env fd
      if doUnlink then
        let _ ← call env (.unlink path)
      modify fun s' => { s' with errno := s.errno }
      failErrno env
      pure none

end

-- The loop of `handle_send_file` over the data messages, with the file if it is still open and the time
-- in the last message. Each round takes at least the bytes of a header.
def receiveData (env : Env) (path : List UInt8) (doUnlink : Bool) :
    Nat → Option Nat → Serve (Option Nat × Nat)
  | 0, _ => fail
  | fuel + 1, fd => do
    let giveUp := abandonFile env path doUnlink fd
    let msg := Header.decode (← onFail (readx 8) giveUp)
    if msg.id = idDone then
      pure (fd, msg.size)
    else if msg.id ≠ idData then
      ignore (failMessage (ofString "invalid data message"))
      onFail fail giveUp
    else if msg.size > syncDataMax then
      ignore (failMessage (ofString "oversize data message"))
      onFail fail giveUp
    else
      let bytes ← onFail (readx msg.size) giveUp
      let fd ← writeFile env path doUnlink bytes fd
      receiveData env path doUnlink fuel fd

-- What `handle_send_file` does after the last data message.
def finishFile (env : Env) (path : List UInt8) (timestamp : Nat) : Option Nat → Serve Unit
  | none => pure ()
  | some fd => do
    closeFile env fd
    let _ ← call env (.restorecon path)
    let _ ← call env (.utime path timestamp)
    send .okay

def handleSendFile (env : Env) (path : List UInt8) (uid gid mode : Nat) (doUnlink : Bool) :
    Serve Unit := do
  let fd ← openFile env path mode
  prepareFile env uid gid mode fd
  let s ← get
  let (fd, timestamp) ← receiveData env path doUnlink (s.input.length + 1) fd
  finishFile env path timestamp fd

def handleSendLink (env : Env) (path : List UInt8) : Serve Unit := do
  let msg := Header.decode (← readx 8)
  if msg.id ≠ idData then
    failMessage (ofString "invalid data message: expected ID_DATA")
    fail
  else if msg.size > syncDataMax then
    failMessage (ofString "oversize data message")
    fail
  else
    let bytes ← readx msg.size
    let s ← get
    -- Nothing ends the string, which goes on with what the buffer held before.
    let target := ofBuffer (bytes ++ env.stale s.calls msg.size)
    let r ← call env (.symlink target path)
    let s ← get
    let r ←
      if r.isNone && s.errno = enoent then
        if ← mkdirs env path then
          call env (.symlink target path)
        else do
          failErrno env
          fail
      else
        pure r
    if r.isNone then
      failErrno env
      fail
    else
      let msg := Header.decode (← readx 8)
      if msg.id = idDone then
        send .okay
      else
        failMessage (ofString "invalid data message: expected ID_DONE")
        fail

-- The path, the mode and whether it is a symbolic link, from the argument of a SEND request. There is a
-- default for a mode that cannot be read.
structure Target where
  path   : List UInt8
  mode   : Nat
  isLink : Bool
  valid  : Bool
  deriving DecidableEq

def comma : UInt8 := 44

def target (env : Env) (name : List UInt8) : Target :=
  match splitLast comma name with
  | none => ⟨name, 0o644, false, false⟩
  | some (path, digits) =>
    let (n, range) := strtoul env.ulongMax 0 digits
    let mode := u32 n
    if range then ⟨path, 0o644, false, false⟩
    else ⟨path, mode % 0o1000, sIslnk mode, true⟩

-- The permissions of the user are copied to the group and to the others.
def copyPermissions (mode : Nat) : Nat :=
  let mode := mode ||| (mode >>> 3 &&& 0o070)
  mode ||| (mode >>> 3 &&& 0o007)

-- A file that is not regular is not deleted before it is copied.
def deletes (env : Env) (calls : List FsCall) (path : List UInt8) : Bool :=
  match env.lstat calls path with
  | none => true
  | some st => sIsreg st.mode || sIslnk st.mode

def removeOld (env : Env) (t : Target) : Serve Bool := do
  let s ← get
  if !t.valid then
    pure true
  else if deletes env s.calls t.path then
    let _ ← call env (.unlink t.path)
    pure true
  else
    pure false

def doSend (env : Env) (name : List UInt8) : Serve Unit := do
  let s ← get
  if env.storageFull s.calls then
    modify fun s => { s with errno := enospc }
    ignore (failErrno env)
    fail
  else
    let t := target env name
    let doUnlink ← removeOld env t
    if t.isLink then
      handleSendLink env t.path
    else
      let (uid, gid, mode) :=
        configured env t.path (FsConfig.skipSlash t.path) false (copyPermissions t.mode)
      handleSendFile env t.path uid gid mode doUnlink

-- A request and its argument, a string up to the first zero.
def readRequest : Serve (Nat × List UInt8) := do
  let req := Header.decode (← onFail (readx 8) (failMessage (ofString "command read failure")))
  if req.size > 1024 then
    onFail fail (failMessage (ofString "invalid namelen"))
  else
    let name ← onFail (readx req.size) (failMessage (ofString "filename read failure"))
    pure (req.id, ofBuffer name)

-- One round of `file_sync_service`, which ends with the first that fails.
def serveRequest (env : Env) : Serve Unit := do
  let (id, name) ← readRequest
  if id = idStat then doStat env name
  else if id = idList then doList env name
  else if id = idSend then doSend env name
  else if id = idRecv then doRecv env name
  else if id = idQuit then fail
  else do
    failMessage (ofString "unknown command")
    fail

end Adb.Sync
