import PlatformKnife.Ext4.Allocate
import PlatformKnife.Ext4.Buffer
import PlatformKnife.Lib.Packing

namespace Ext4

open CInt

-- The fields of `struct dentry` that `make_directory` reads, the name without terminator.
structure Dentry where
  filename : List UInt8
  fileType : UInt8
  deriving DecidableEq

-- `struct ext4_dir_entry_2`. The length of the name is that of the list.
structure DirEntry where
  inode : Nat
  recLen : Nat
  fileType : UInt8
  name : List UInt8
  deriving DecidableEq

-- `EXT4_ALIGN(x, 4)`.
def ext4Align4 (x : Nat) : Nat :=
  4 * ((x + 4 - 1) / 4)

def dentryLen (nameLen : Nat) : Nat :=
  8 + ext4Align4 nameLen

def dentrySizeStep (info : FsInfo) (len : Nat) (d : Dentry) : Nat :=
  let dentryLen := u32 (dentryLen d.filename.length)
  if info.blockSize < u32 (len % info.blockSize + dentryLen) then
    u32 (len + (info.blockSize - len % info.blockSize) + dentryLen)
  else
    u32 (len + dentryLen)

def dentrySize (info : FsInfo) (dentries : List Dentry) : Nat :=
  dentries.foldl (dentrySizeStep info) 24

-- The buffer of a directory, with the position up to which it is filled and the last entry's.
structure DirData where
  data   : List UInt8
  offset : Nat
  prev   : Option Nat
  deriving DecidableEq

def DirData.zero (len : Nat) : DirData where
  data   := List.replicate len 0
  offset := 0
  prev   := none

def addRecLen (data : List UInt8) (i n : Nat) : Exec (List UInt8) :=
  storeBytes data (i + 4) (Bytes.le 2 (Bytes.fromLe (Slice.slice data (i + 4) (i + 6)) + n))

def DirEntry.stored (e : DirEntry) : List UInt8 :=
  Bytes.le 4 e.inode ++ Bytes.le 2 e.recLen ++ [UInt8.ofNat e.name.length, e.fileType] ++ e.name

section

variable (info : FsInfo) (dir : DirData)

-- The step that pads the previous entry when the new one does not fit behind it.
def padPrev (endBlock : Nat) : Exec DirData :=
  match dir.prev with
  | none      => criticalError "no prev"
  | some prev => do
    let data ← addRecLen dir.data prev (subU32 (u32 (endBlock * info.blockSize)) dir.offset)
    return { dir with data, offset := u32 (endBlock * info.blockSize) }

-- The part of `add_dentry` for an entry that would cross into the next block.
def makeRoom (recLen : Nat) : Exec DirData :=
  let startBlock := dir.offset / info.blockSize
  let endBlock   := u32 (dir.offset + recLen - 1) / info.blockSize
  if startBlock ≠ endBlock then padPrev info dir endBlock else .ok dir

-- The pointer that the function returns is kept as `prev`.
def addDentry (inode : Nat) (name : List UInt8) (fileType : UInt8) : Exec DirData := do
  let nameLen := name.length % 256
  let recLen  := u16 (dentryLen nameLen)
  let dir ← makeRoom info dir recLen
  let entry : DirEntry := { inode, recLen, fileType, name := name.take nameLen }
  let data ← storeBytes dir.data dir.offset entry.stored
  return { data, offset := u32 (dir.offset + recLen), prev := some dir.offset }

end

def bytesToString (l : List UInt8) : String :=
  String.ofList (l.map fun b => Char.ofNat b.toNat)

def internalError (d : Dentry) (offset len : Nat) : Exec α :=
  criticalError (s!"internal error: dentry for {bytesToString d.filename} ends at {i32 offset}, "
    ++ s!"past {i32 len}\n")

-- The loop of `make_directory`, which collects the positions of the inode numbers, filled in later. The
-- test for a null pointer that follows cannot succeed.
def addDentries (info : FsInfo) (len entries : Nat) :
    Nat → List Dentry → DirData → Exec (DirData × List Nat)
  | _, [], dir => .ok (dir, [])
  | i, d :: ds, dir => do
    let dir ← addDentry info dir 0 d.filename d.fileType
    if len < dir.offset ∨ (dir.offset = len ∧ i ≠ entries - 1) then
      internalError d dir.offset len
    let (dir', inodes) ← addDentries info len entries (i + 1) ds dir
    return (dir', dir.prev.toList ++ inodes)

def ext4FtDir : UInt8 :=
  2

def ext4RootIno : Nat :=
  2

def sIfDir : Nat :=
  0x4000

-- What the calls of `make_directory` give: the number from `allocate_inode`, whether `get_inode` and
-- `inode_allocate_data_extents` return a pointer (never for length zero), and the flags of the inode.
structure DirAllocation where
  inodeNum : Nat
  hasInode : Bool
  hasData : Bool
  iFlags : Nat
  inodeNum_lt : inodeNum < 2 ^ 32 := by decide

-- The new directory, with the fields of its inode that are set. `offset` is that variable after the last
-- entry.
structure Directory where
  inodeNum : Nat
  iMode : Nat
  iLinksCount : Nat
  iFlags : Nat
  data : List UInt8
  inodes : List Nat
  offset : Nat
  deriving DecidableEq

def dot : List UInt8 :=
  [46]

-- The part of `make_directory` that fills the buffer.
def fillDirectory (info : FsInfo) (inodeNum dirInodeNum len : Nat) (dentries : List Dentry) :
    Exec (List UInt8 × List Nat × Nat) := do
  let dir ← addDentry info (.zero len) inodeNum dot ext4FtDir
  let dir ← addDentry info dir dirInodeNum (dot ++ dot) ext4FtDir
  let (dir, inodes) ← addDentries info len dentries.length 0 dentries dir
  match dir.prev with
  | none => fault .nullDereference
  | some prev => do
    let data ← addRecLen dir.data prev (subU32 len dir.offset)
    return (data, inodes, dir.offset)

-- The size of the buffer: `blocks * info.block_size`.
def directoryLen (info : FsInfo) (dentries : List Dentry) : Nat :=
  u32 (u32 (dentrySize info dentries + info.blockSize - 1) / info.blockSize * info.blockSize)

-- The number of the new directory, and that of its parent.

def newInode (a : DirAllocation) (dirInodeNum : Nat) : Nat :=
  if dirInodeNum ≠ 0 then a.inodeNum else ext4RootIno

def parentInode (dirInodeNum : Nat) : Nat :=
  if dirInodeNum ≠ 0 then dirInodeNum else ext4RootIno

-- The result is `none` for `EXT4_ALLOCATE_FAILED`. The count by `add_directory` is left out.
def makeDirectory (force : Bool) (info : FsInfo) (defaultIFlags : Nat) (a : DirAllocation)
    (dirInodeNum : Nat) (dentries : List Dentry) (dirs : Nat) : Exec (Option Directory) := do
  if info.blockSize = 0 then
    fault .divideByZero
  let len := directoryLen info dentries
  let inodeNum := newInode a dirInodeNum
  if inodeNum = ext4AllocateFailed then
    error force "failed to allocate inode\n"
    return none
  if !a.hasInode then
    error force s!"failed to get inode {inodeNum}"
    return none
  if len = 0 ∨ !a.hasData then
    error force s!"failed to allocate {len} extents"
    return none
  let (data, inodes, offset) ← fillDirectory info inodeNum (parentInode dirInodeNum) len dentries
  return some {
    inodeNum
    iMode := sIfDir
    iLinksCount := u16 (dirs + 2)
    iFlags := a.iFlags ||| defaultIFlags
    data
    inodes
    offset
  }

section Walk

-- The entry at the start of a part of the data.
def DirEntry.read (rest : List UInt8) : Option DirEntry :=
  match rest.drop 6 with
  | nameLen :: fileType :: names =>
    if nameLen.toNat ≤ names.length then
      some {
        inode  := Bytes.fromLe (rest.take 4)
        recLen := Bytes.fromLe (Slice.slice rest 4 6)
        name   := names.take nameLen.toNat
        fileType
      }
    else
      none
  | _ => none

-- The walk over a directory by `rec_len`, with the position of each entry. It fails when an entry is not
-- in the data or has no length.
def walkFrom : Nat → Nat → List UInt8 → Option (List (Nat × DirEntry))
  | 0, _, rest => if rest = [] then some [] else none
  | fuel + 1, pos, rest =>
    if rest = [] then
      some []
    else do
      let e ← DirEntry.read rest
      if e.recLen = 0 ∨ rest.length < e.recLen then
        none
      else
        let recs ← walkFrom fuel (pos + e.recLen) (rest.drop e.recLen)
        return (pos, e) :: recs

def walkDir (data : List UInt8) : Option (List (Nat × DirEntry)) :=
  walkFrom data.length 0 data

-- The entries that a directory holds, without the lengths.
def directoryEntries (inodeNum dirInodeNum : Nat) (dentries : List Dentry) :
    List (Nat × UInt8 × List UInt8) :=
  (inodeNum, ext4FtDir, dot) :: (dirInodeNum, ext4FtDir, dot ++ dot)
    :: dentries.map fun d => (0, d.fileType, d.filename)

-- An entry as it may be found at position `pos` in blocks of `b` bytes.
structure DirEntry.WellPlaced (b pos : Nat) (e : DirEntry) : Prop where
  recLen_pos : 0 < e.recLen
  dvd_recLen : 4 ∣ e.recLen
  name_le    : 8 + e.name.length ≤ e.recLen
  same_block : pos / b = (pos + e.recLen - 1) / b

-- The walk visits these entries, and the lengths in each block add up to its size.
def Decodes (b : Nat) (entries : List (Nat × UInt8 × List UInt8)) (data : List UInt8) : Prop :=
  ∃ recs ∈ walkDir data,
    recs.map (fun r => (r.snd.inode, r.snd.fileType, r.snd.name)) = entries ∧
    (∀ r ∈ recs, r.snd.WellPlaced b r.fst) ∧
    b ∣ data.length ∧
    ∀ k < data.length / b, ((recs.filter fun r => r.fst / b = k).map fun r => r.snd.recLen).sum = b

end Walk

-- The allocations of a call succeed.
def DirAllocation.Succeeds (a : DirAllocation) (dirInodeNum : Nat) : Prop :=
  newInode a dirInodeNum ≠ ext4AllocateFailed ∧ a.hasInode ∧ a.hasData

instance : Decidable (DirAllocation.Succeeds a dirInodeNum) :=
  inferInstanceAs (Decidable (_ ∧ _ ∧ _))

-- The result of a call: a directory that can be read, with as much space as `dentry_size` says, or a
-- failed allocation.
def DirectoryMade (info : FsInfo) (a : DirAllocation) (dirInodeNum : Nat) (dentries : List Dentry) :
    Exec (Option Directory) → Prop
  | .ok (some d) =>
    d.offset = dentrySize info dentries ∧
    Decodes info.blockSize
      (directoryEntries (newInode a dirInodeNum) (parentInode dirInodeNum) dentries) d.data
  | .ok none => ¬a.Succeeds dirInodeNum
  | .error (.longjmp msg) =>
    ¬a.Succeeds dirInodeNum ∧
    msg ∈ ["failed to allocate inode\n", s!"failed to get inode {newInode a dirInodeNum}",
      s!"failed to allocate {directoryLen info dentries} extents"]
  | .error (.fault _) => False

end Ext4
