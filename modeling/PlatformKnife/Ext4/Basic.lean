import PlatformKnife.Lib.Bitmap
import PlatformKnife.Lib.CInt
import PlatformKnife.Lib.Exec

namespace Ext4

open CInt

-- How a call can end without a result. `error` and `critical_error` print their text and jump back to the
-- start.
inductive Stop
  | fault (f : Fault)
  | longjmp (msg : String)
  deriving DecidableEq

abbrev Exec := Except Stop

def fault (f : Fault) : Exec α :=
  .error (.fault f)

def criticalError (msg : String) : Exec α :=
  .error (.longjmp msg)

-- With the option `-f`, errors are only printed.
def error (force : Bool) (msg : String) : Exec Unit :=
  if force then .ok () else .error (.longjmp msg)

-- `struct fs_info`, with the ranges of the types. A length that is not positive is a request, which
-- `make_ext4fs_internal` replaces by the length of the filesystem.
structure FsInfo where
  len : Nat
  blockSize : Nat
  blocksPerGroup : Nat
  inodesPerGroup : Nat
  inodeSize : Nat
  featRoCompat : Nat
  bgDescReserveBlocks : Nat
  len_lt : len < 2 ^ 63 := by decide
  blockSize_lt : blockSize < 2 ^ 32 := by decide
  blocksPerGroup_lt : blocksPerGroup < 2 ^ 32 := by decide
  inodesPerGroup_lt : inodesPerGroup < 2 ^ 32 := by decide
  inodeSize_lt : inodeSize < 2 ^ 32 := by decide
  featRoCompat_lt : featRoCompat < 2 ^ 16 := by decide
  bgDescReserveBlocks_lt : bgDescReserveBlocks < 2 ^ 32 := by decide

-- The bounds of the fields as one check, for an `fs_info` given by its numbers.
def FsInfo.inRange
    (len blockSize blocksPerGroup inodesPerGroup inodeSize featRoCompat bgDescReserveBlocks : Nat) : Bool :=
  len < 2 ^ 63 && blockSize < 2 ^ 32 && blocksPerGroup < 2 ^ 32 && inodesPerGroup < 2 ^ 32 &&
  inodeSize < 2 ^ 32 && featRoCompat < 2 ^ 16 && bgDescReserveBlocks < 2 ^ 32

theorem FsInfo.inRange_iff
    {len blockSize blocksPerGroup inodesPerGroup inodeSize featRoCompat bgDescReserveBlocks : Nat} :
    inRange len blockSize blocksPerGroup inodesPerGroup inodeSize featRoCompat bgDescReserveBlocks = true ↔
      len < 2 ^ 63 ∧ blockSize < 2 ^ 32 ∧ blocksPerGroup < 2 ^ 32 ∧ inodesPerGroup < 2 ^ 32 ∧
      inodeSize < 2 ^ 32 ∧ featRoCompat < 2 ^ 16 ∧ bgDescReserveBlocks < 2 ^ 32 := by
  simp only [inRange, Bool.and_eq_true, decide_eq_true_eq, and_assoc]

def FsInfo.ofNats
    (len blockSize blocksPerGroup inodesPerGroup inodeSize featRoCompat bgDescReserveBlocks : Nat)
    (h : inRange len blockSize blocksPerGroup inodesPerGroup inodeSize featRoCompat
      bgDescReserveBlocks = true) : FsInfo where
  len := len
  blockSize := blockSize
  blocksPerGroup := blocksPerGroup
  inodesPerGroup := inodesPerGroup
  inodeSize := inodeSize
  featRoCompat := featRoCompat
  bgDescReserveBlocks := bgDescReserveBlocks
  len_lt := (inRange_iff.mp h).left
  blockSize_lt := (inRange_iff.mp h).right.left
  blocksPerGroup_lt := (inRange_iff.mp h).right.right.left
  inodesPerGroup_lt := (inRange_iff.mp h).right.right.right.left
  inodeSize_lt := (inRange_iff.mp h).right.right.right.right.left
  featRoCompat_lt := (inRange_iff.mp h).right.right.right.right.right.left
  bgDescReserveBlocks_lt := (inRange_iff.mp h).right.right.right.right.right.right

-- `struct fs_aux_info`, without its buffers.
structure FsAuxInfo where
  firstDataBlock : Nat
  lenBlocks : Nat
  inodeTableBlocks : Nat
  groups : Nat
  bgDescBlocks : Nat
  blocksPerInd : Nat
  deriving DecidableEq

structure ExtentHeader where
  ehMagic : Nat
  ehEntries : Nat
  ehMax : Nat
  ehDepth : Nat
  ehGeneration : Nat
  deriving DecidableEq

structure Extent where
  eeBlock : Nat
  eeLen : Nat
  eeStartHi : Nat
  eeStartLo : Nat
  deriving DecidableEq

structure ExtentIdx where
  eiBlock  : Nat
  eiLeafLo : Nat
  eiLeafHi : Nat
  eiUnused : Nat
  deriving DecidableEq

-- The buffers that are handed to libsparse. It keeps the pointer, so a buffer counts with what it holds
-- in the end.
inductive Data
  | bitmaps (bg : Nat)
  | inodeTable (bg : Nat)
  | backupSb (bg : Nat)
  | bgDesc
  | sb
  | dindBlock (data : List Nat)
  | indBlock (data : List Nat)
  | extents (hdr : ExtentHeader) (extents : List Extent)
  | file (filename : String) (offset : Nat)
  deriving DecidableEq

-- A call of `sparse_file_add_data` or `sparse_file_add_file`. The length is in bytes.
structure Queued where
  block : Nat
  len   : Nat
  data  : Data
  deriving DecidableEq

-- The loop divides by `b` at least, so that `a` rounds are enough.
def isPowerOfLoop : Nat → Int → Int → Bool
  | 0, a, b => a = b
  | fuel + 1, a, b =>
    if a > b then
      if a % b ≠ 0 then false else isPowerOfLoop fuel (a / b) b
    else
      a = b

def isPowerOf (a b : Int) : Bool :=
  isPowerOfLoop a.toNat a b

def ext4FeatureRoCompatSparseSuper : Nat :=
  0x0001

def ext4BgHasSuperBlock (info : FsInfo) (bg : Int) : Bool :=
  if info.featRoCompat &&& ext4FeatureRoCompatSparseSuper = 0 then
    true
  else if bg = 0 || bg = 1 then
    true
  else
    isPowerOf bg 3 || isPowerOf bg 5 || isPowerOf bg 7

-- `sizeof(struct ext2_group_desc)`.
def sizeofGroupDesc : Nat :=
  32

-- The number of blocks that `init_bg` reserves at the start of a group.
def headerBlocks (info : FsInfo) (aux : FsAuxInfo) (i : Nat) : Nat :=
  if ext4BgHasSuperBlock info (i32 i) then
    u32 (2 + aux.inodeTableBlocks + (1 + aux.bgDescBlocks + info.bgDescReserveBlocks))
  else
    u32 (2 + aux.inodeTableBlocks)

-- The step that gives up a last group too short for its header.
def trimLastGroup (info : FsInfo) (aux : FsAuxInfo) : FsAuxInfo :=
  let lastGroupSize  := aux.lenBlocks % info.blocksPerGroup
  let lastHeaderSize := headerBlocks info aux (subU32 aux.groups 1)
  if 0 < lastGroupSize && lastGroupSize < lastHeaderSize then
    { aux with
      groups    := subU32 aux.groups 1
      lenBlocks := aux.lenBlocks - lastGroupSize }
  else
    aux

-- Its buffers are taken to be there. `size_t` has 64 bits.
def ext4CreateFsAuxInfo (info : FsInfo) : Exec FsAuxInfo := do
  if info.blockSize = 0 || info.blocksPerGroup = 0 then
    fault .divideByZero
  let firstDataBlock := if info.blockSize > 1024 then 0 else 1
  let lenBlocks := info.len / info.blockSize
  let inodeTable := u32 (info.inodesPerGroup * info.inodeSize)
  let groups := u32 (u64 (u64 (lenBlocks + (2 ^ 64 - firstDataBlock))
                          + info.blocksPerGroup - 1) / info.blocksPerGroup)
  return trimLastGroup info {
    firstDataBlock
    lenBlocks
    inodeTableBlocks := u32 (inodeTable + info.blockSize - 1) / info.blockSize
    groups
    bgDescBlocks := u32 ((groups * sizeofGroupDesc + info.blockSize - 1) / info.blockSize)
    blocksPerInd := info.blockSize / 4
  }

end Ext4
