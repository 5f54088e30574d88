import PlatformKnife.Adb.Sync.Pull
import PlatformKnife.Lib.DirTree

namespace Adb.Sync

open Bytes CInt CString Fallible Client
open DirTree (Entries)
open FsConfig (slash)

def pathMax : Nat := 4096

-- What `lstat` says about anything but a directory.
structure FileStat where
  mode   : Nat
  mtime  : Nat
  size   : Nat
  notDir : sIsdir mode = false

-- The directory entries of the host, `.` and `..` included.
abbrev Files := Entries FileStat Unit

-- Which calls fail: `opendir`, and the first and the second `lstat` on an entry.
structure Failures where
  opendir : List UInt8 → Bool
  lstat : List UInt8 → Bool
  lstatAgain : List UInt8 → Bool

-- The directories on the list of `local_build_list`, with their entries.
abbrev Dirlist := List (CopyInfo × Files)

section

variable (failures : Failures)

-- The loop of `local_build_list` for an entry that is not a directory.
def buildFile (lpath rpath name : List UInt8) (st : FileStat)
    (dirlist : Dirlist) : Fallible (List CopyInfo) Dirlist := do
  let ci := mkcopyinfo lpath rpath name false
  if failures.lstatAgain ci.src then
    fail
  else if !sIsreg st.mode && !sIslnk st.mode then
    pure dirlist
  else
    modify ({ ci with time := u32 st.mtime, mode := u32 st.mode, size := u32 st.size } :: ·)
    pure dirlist

-- What the loop of `local_build_list` does with an entry after the first `lstat`.
def buildNode (lpath rpath name : List UInt8) (dirlist : Dirlist) :
    DirTree FileStat Unit → Fallible (List CopyInfo) Dirlist
  | .dir _ sub => pure ((mkcopyinfo lpath rpath name true, sub) :: dirlist)
  | .leaf st => buildFile failures lpath rpath name st dirlist

-- The loop of `local_build_list` over the entries that `readdir` returns.
def buildEntry (lpath rpath : List UInt8) (dirlist : Dirlist)
    (e : List UInt8 × DirTree FileStat Unit) : Fallible (List CopyInfo) Dirlist :=
  if isDots e.fst then
    pure dirlist
  else if lpath.length + e.fst.length + 1 > pathMax then
    pure dirlist
  else if failures.lstat (lpath ++ e.fst) then
    pure dirlist
  else
    buildNode failures lpath rpath e.fst dirlist e.snd

end

-- The results for the directories in a directory are not looked at.
def localBuildList (failures : Failures) :
    Nat → List UInt8 → List UInt8 → Files → Fallible (List CopyInfo) Unit
  | 0, _, _, _ => fail
  | fuel + 1, lpath, rpath, entries => do
    if failures.opendir lpath then
      fail
    else
      let dirlist ← entries.foldlM (buildEntry failures lpath rpath) []
      dirlist.forM fun (ci, sub) => ignore (localBuildList failures fuel ci.src ci.dst sub)

def syncStartReadtime (path : List UInt8) : Talk Unit := do
  writex (Header.encode ⟨idStat, path.length⟩)
  writex path

-- A file is marked when the device has it with this size and time. For links its time may be later.
def upToDate (ci : CopyInfo) (mode size timestamp : Nat) : Bool :=
  size = ci.size && (sIsreg (ci.mode &&& mode) && timestamp = ci.time ||
    sIslnk (ci.mode &&& mode) && timestamp ≥ ci.time)

def syncFinishReadtime (ci : CopyInfo) : Talk CopyInfo := do
  let msg ← Client.readx 16
  if word msg 0 ≠ idStat then
    fail
  else if upToDate ci (word msg 1) (word msg 2) (word msg 3) then
    pure { ci with flag := true }
  else
    pure ci

def finishReadtimes : List CopyInfo → Talk (List CopyInfo)
  | [] => pure []
  | ci :: filelist => do
    let ci ← syncFinishReadtime ci
    let filelist ← finishReadtimes filelist
    pure (ci :: filelist)

def checkTimestamps (checktimestamps : Bool) (filelist : List CopyInfo) : Talk (List CopyInfo) :=
  if checktimestamps then do
    filelist.forM fun ci => syncStartReadtime ci.dst
    finishReadtimes filelist
  else
    pure filelist

-- The files that were pushed and skipped. The code only counts them.
structure Report where
  pushed  : List CopyInfo
  skipped : List CopyInfo
  deriving DecidableEq

-- The loop of `copy_local_dir_remote` over the files.
def pushFiles (host : Host) (listonly : Bool) : List CopyInfo → Report → Talk Report
  | [], report => pure report
  | ci :: filelist, report => do
    if ci.flag then
      pushFiles host listonly filelist { report with skipped := report.skipped ++ [ci] }
    else if listonly then
      pushFiles host listonly filelist { report with pushed := report.pushed ++ [ci] }
    else
      syncSend host ci.src ci.dst ci.time ci.mode
      pushFiles host listonly filelist { report with pushed := report.pushed ++ [ci] }

-- The rest of `copy_local_dir_remote`, with the list of the files.
def pushList (host : Host) (checktimestamps listonly : Bool) (filelist : List CopyInfo) :
    Talk Report := do
  let filelist ← checkTimestamps checktimestamps filelist
  pushFiles host listonly filelist ⟨[], []⟩

def copyLocalDirRemote (failures : Failures) (root : Files) (host : Host) (lpath rpath : List UInt8)
    (checktimestamps listonly : Bool) : Talk Report :=
  if lpath = [] ∨ rpath = [] then
    fail
  else
    match localBuildList failures (DirTree.entriesDepth root + 1) (withSlash lpath) (withSlash rpath)
        root [] with
    | (none, _) => fail
    | (some _, filelist) => pushList host checktimestamps listonly filelist

end Adb.Sync
