import PlatformKnife.Adb.Sync.Client

namespace Adb.Sync

open Bytes CInt CString Fallible Client
open FsConfig (slash)

-- The fields of `dent` in `syncmsg`: id, mode, size, time and length of the name.
def word (msg : List UInt8) (i : Nat) : Nat :=
  fromLe ((msg.drop (4 * i)).take 4)

-- Bytes whose number the device sends, with a limit, compared as `int`.
def readCounted (limit n : Nat) : Talk (List UInt8) :=
  if toI32 n > limit then fail else readInto (toI32 n)

-- The loop of `sync_ls`. Each round takes at least the twenty bytes of a message.
def listEntries : Nat → List Dent → Talk (List Dent)
  | 0, _ => fail
  | fuel + 1, dents => do
    let msg ← Client.readx 20
    if word msg 0 = idDone then
      pure dents
    else if word msg 0 ≠ idDent then
      fail
    else
      let buf ← readCounted 256 (word msg 4)
      hear (.dent ⟨word msg 1, word msg 2, word msg 3, ofBuffer buf⟩)
      listEntries fuel (dents ++ [⟨word msg 1, word msg 2, word msg 3, ofBuffer buf⟩])

-- The entries in the order in which the callback gets them.
def syncLs (path : List UInt8) : Talk (List Dent) := do
  if path.length > 1024 then
    fail
  else
    writex (Header.encode ⟨idList, path.length⟩)
    writex path
    let c ← get
    listEntries (c.input.length + 1) []

structure CopyInfo where
  src  : List UInt8
  dst  : List UInt8
  time : Nat
  mode : Nat
  size : Nat
  flag : Bool
  deriving DecidableEq

def mkcopyinfo (spath dpath name : List UInt8) (isdir : Bool) : CopyInfo where
  src  := spath ++ name ++ (if isdir then [slash] else [])
  dst  := dpath ++ name ++ (if isdir then [slash] else [])
  time := 0
  mode := 0
  size := 0
  flag := false

def dot : UInt8 := 46

-- The names of a directory itself and of the one above it.
def isDots (name : List UInt8) : Bool :=
  name = [dot] || name = [dot, dot]

-- The callback puts an entry at the front of the files or of the directories.
def syncLsBuildListCb (rpath lpath : List UInt8) (lists : List CopyInfo × List CopyInfo) (d : Dent) :
    List CopyInfo × List CopyInfo :=
  if sIsdir d.mode then
    if isDots d.name then lists
    else (lists.fst, mkcopyinfo rpath lpath d.name true :: lists.snd)
  else if sIsreg d.mode || sIslnk d.mode then
    ({ mkcopyinfo rpath lpath d.name false with
      time := d.time, mode := d.mode, size := d.size } :: lists.fst, lists.snd)
  else
    lists

-- A directory takes some bytes of the device, so there are only so many.
def remoteBuildList : Nat → List CopyInfo → List UInt8 → List UInt8 → Talk (List CopyInfo)
  | 0, _, _, _ => fail
  | fuel + 1, filelist, rpath, lpath => do
    let dents ← syncLs rpath
    let (filelist, dirlist) := dents.foldl (syncLsBuildListCb rpath lpath) (filelist, [])
    dirlist.foldlM (fun filelist ci => remoteBuildList fuel filelist ci.src ci.dst) filelist

-- The client's loop of `mkdirs`. A directory that is there is no failure.
def Client.mkdirsLoop (host : Host) (front : List UInt8) : List UInt8 → Talk Unit
  | [] => pure ()
  | c :: l =>
    if c = slash then do
      if ← Client.call host (.mkdir front) then
        mkdirsLoop host (front ++ [c]) l
      else
        pure ()
    else
      mkdirsLoop host (front ++ [c]) l

def Client.mkdirs (host : Host) : List UInt8 → Talk Unit
  | [] => pure ()
  | c :: path => mkdirsLoop host [c] path

-- The part of `sync_recv` behind `remote_error`. It is no failure of the client.
def remoteError (host : Host) (lpath : List UInt8) (msg : Header) : Talk Unit := do
  let _ ← Client.call host (.unlink lpath)
  if msg.id = idFail then
    let _ ← readInto (min (toI32 msg.size) 256)
  else
    pure ()

-- `writex` on a local file. Nothing is called to write nothing.
def writeLocal (host : Host) (lpath bytes : List UInt8) : Talk Bool :=
  if bytes = [] then pure true else Client.call host (.write lpath bytes)

-- The loop of `sync_recv` over the messages of the device.
def receiveFile (host : Host) (lpath : List UInt8) : Nat → Header → Talk Unit
  | 0, _ => fail
  | fuel + 1, msg => do
    if msg.id = idDone then
      pure ()
    else if msg.id ≠ idData then
      remoteError host lpath msg
    else
      let buffer ← readCounted syncDataMax msg.size
      if ← writeLocal host lpath buffer then
        let msg ← Client.readx 8
        receiveFile host lpath fuel (Header.decode msg)
      else
        fail

-- What `sync_recv` does with the first message. Only a good one creates the file.
def receive (host : Host) (lpath : List UInt8) (msg : Header) : Talk Unit := do
  if msg.id = idData ∨ msg.id = idDone then
    let _ ← Client.call host (.unlink lpath)
    Client.mkdirs host lpath
    if ← Client.call host (.creat lpath) then
      let c ← get
      receiveFile host lpath (c.input.length + 1) msg
    else
      fail
  else
    remoteError host lpath msg

-- The block of `sync_recv` that asks for the size of the file, which is only printed.
def sizeRequest (rpath : List UInt8) : Talk Unit := do
  writex (Header.encode ⟨idStat, rpath.length⟩)
  writex rpath
  let msg ← Client.readx 16
  if word msg 0 ≠ idStat then fail else pure ()

def syncRecv (host : Host) (rpath lpath : List UInt8) (showProgress : Bool) : Talk Unit := do
  if rpath.length > 1024 then
    fail
  else
    (if showProgress then sizeRequest rpath else pure ())
    writex (Header.encode ⟨idRecv, rpath.length⟩)
    writex rpath
    receive host lpath (Header.decode (← Client.readx 8))

def withSlash (path : List UInt8) : List UInt8 :=
  if path.getLast? = some slash then path else path ++ [slash]

-- The loop of `copy_remote_dir_local` over the files.
def pullFiles (host : Host) (copyAttrs : Bool) : List CopyInfo → Talk Unit
  | [] => pure ()
  | ci :: filelist => do
    if ci.flag then
      pullFiles host copyAttrs filelist
    else
      syncRecv host ci.src ci.dst false
      if copyAttrs then
        if ← Client.call host (.setTimeAndMode ci.dst ci.time ci.mode) then
          pullFiles host copyAttrs filelist
        else
          fail
      else
        pullFiles host copyAttrs filelist

def copyRemoteDirLocal (host : Host) (rpath lpath : List UInt8) (copyAttrs : Bool) : Talk Unit := do
  if rpath = [] ∨ lpath = [] then
    fail
  else
    let c ← get
    let filelist ← remoteBuildList (c.input.length + 1) [] (withSlash rpath) (withSlash lpath)
    pullFiles host copyAttrs filelist

end Adb.Sync
