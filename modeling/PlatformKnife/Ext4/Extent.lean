import PlatformKnife.Ext4.Allocate

namespace Ext4

open CInt

-- The parts of `struct ext4_inode` that hold the extents. `i_block` starts with the header, then come
-- extents or, for depth 1, an index entry.
structure Inode where
  hdr : ExtentHeader
  extents : List Extent
  idx : Option ExtentIdx
  iSizeLo : Nat
  iSizeHigh : Nat
  iBlocksLo : Nat
  iBlocksHigh : Nat
  deriving DecidableEq

-- The groups, and the calls to libsparse so far.
structure Fs where
  bgs   : List BlockGroupInfo
  queue : List Queued
  deriving DecidableEq

def ext4ExtMagic : Nat :=
  0xf30a

-- `sizeof(struct ext4_extent_header)` and `sizeof(struct ext4_extent)`.

def sizeofExtentHeader : Nat :=
  12

def sizeofExtent : Nat :=
  12

-- The loop that writes an extent for each region from `iter` on. The room is that of the buffer after the
-- header.
def writeExtents : Nat → Nat → Nat → List Region → Exec (List Extent)
  | _, _, _, [] => .ok []
  | room, fileBlock, partialIter, reg :: regs => do
    if room < sizeofExtent then
      fault .outOfBounds
    let regionLen := subU32 reg.len partialIter
    let extents ← writeExtents (room - sizeofExtent) (u32 (fileBlock + regionLen)) 0 regs
    return { eeBlock := fileBlock, eeLen := u16 regionLen, eeStartHi := 0, eeStartLo := reg.block }
      :: extents

-- `DIV_ROUND_UP(len, info.block_size)` for the 64 bit length of a file.
def blockLen (info : FsInfo) (len : Nat) : Nat :=
  u32 (u64 (len + info.blockSize - 1) / info.blockSize)

-- The room of `i_block` after the header.
def iBlockRoom : Nat :=
  60 - sizeofExtentHeader

def leafMax (info : FsInfo) : Nat :=
  u16 (u64 (info.blockSize + (2 ^ 64 - sizeofExtentHeader)) / sizeofExtent)

-- The extents are stored in the inode or in a block of their own. The number of regions is that from
-- before the spare block was taken away.

def writeInodeExtents (allocationLen : Nat) (list : RegionList) :
    Exec (ExtentHeader × List Extent) := do
  let extents ← writeExtents iBlockRoom 0 list.partialIter list.rest
  return ({ ehMagic := ext4ExtMagic, ehEntries := u16 allocationLen, ehMax := 3, ehDepth := 0,
            ehGeneration := 0 }, extents)

def writeLeafExtents (info : FsInfo) (allocationLen : Nat) (list : RegionList) :
    Exec (ExtentHeader × List Extent) := do
  if info.blockSize < sizeofExtentHeader then
    fault .outOfBounds
  let extents ← writeExtents (info.blockSize - sizeofExtentHeader) 0 list.partialIter list.rest
  return ({ ehMagic := ext4ExtMagic, ehEntries := u16 allocationLen, ehMax := leafMax info,
            ehDepth := 0, ehGeneration := 0 }, extents)

def extentIndexHeader : ExtentHeader where
  ehMagic := ext4ExtMagic
  ehEntries := 1
  ehMax := 3
  ehDepth := 1
  ehGeneration := 0

-- The buffer of an extent block as it comes from `calloc`.
def zeroExtents : Data :=
  .extents { ehMagic := 0, ehEntries := 0, ehMax := 0, ehDepth := 0, ehGeneration := 0 } []

-- The spare block is given back, or becomes the extent block.
def takeSpare (bgs : List BlockGroupInfo) (alloc : BlockAllocation) (allocationLen : Nat) :
    Exec (List BlockGroupInfo × BlockAllocation × Nat) := do
  if allocationLen ≤ 3 then
    let (bgs, list) ← reduceAllocation 1 bgs alloc.list 1
    return (bgs, { alloc with list }, 0)
  else
    let (alloc, _) ← reserveOobBlocks alloc 1
    return (bgs, alloc, alloc.oobList.getBlock 0)

-- The fields of the inode besides the extents.
def inodeOf (info : FsInfo) (len blockLen : Nat) (hdr : ExtentHeader) (extents : List Extent)
    (idx : Option ExtentIdx) : Inode :=
  let blocks := blockLen * info.blockSize / 512
  { hdr, extents, idx
    iSizeLo := u32 len
    iSizeHigh := len / 2 ^ 32
    iBlocksLo := u32 blocks
    iBlocksHigh := u16 (blocks / 2 ^ 32) }

def doInodeAllocateExtents (force : Bool) (info : FsInfo) (fs : Fs) (len : Nat) :
    Exec (Fs × Option (Inode × BlockAllocation)) := do
  let blockLen := blockLen info len
  let (bgs, alloc) ← allocateBlocks force fs.bgs (u32 (blockLen + 1))
  match alloc with
  | none =>
    error force s!"Failed to allocate {u32 (blockLen + 1)} blocks\n"
    return ({ fs with bgs }, none)
  | some alloc =>
    let allocationLen := alloc.list.regions.length
    let (bgs, alloc, extentBlock) ← takeSpare bgs alloc allocationLen
    if extentBlock = 0 then
      let (hdr, extents) ← writeInodeExtents allocationLen alloc.list
      return ({ fs with bgs },
        some (inodeOf info len blockLen hdr extents none, { alloc with list := alloc.list.rewind }))
    else if i32 (info.blockSize - 1) < allocationLen then
      error force s!"File size {len} is too big to fit in a single extent block\n"
      return ({ bgs, queue := fs.queue ++ [⟨extentBlock, info.blockSize, zeroExtents⟩] }, none)
    else
      let (hdr, extents) ← writeLeafExtents info allocationLen alloc.list
      let idx : ExtentIdx := { eiBlock := 0, eiLeafLo := extentBlock, eiLeafHi := 0, eiUnused := 0 }
      return ({ bgs, queue := fs.queue ++ [⟨extentBlock, info.blockSize, .extents hdr extents⟩] },
        some (inodeOf info len (u32 (blockLen + 1)) extentIndexHeader [] (some idx),
          { alloc with list := alloc.list.rewind }))

-- The loop of `extent_create_backing_file`.
def backingFile (info : FsInfo) (filename : String) : List Region → Nat → Nat → Nat →
    Exec (List Queued)
  | _, _, _, 0 => .ok []
  | [], _, _, _ + 1 => fault .nullDereference
  | reg :: regs, partialIter, offset, backingLen + 1 => do
    let regionLen := subU32 reg.len partialIter
    let len := min (u32 (regionLen * info.blockSize)) (backingLen + 1)
    let queued ← backingFile info filename regs 0 (offset + len) (backingLen + 1 - len)
    return ⟨reg.block, len, .file filename offset⟩ :: queued

def extentCreateBackingFile (info : FsInfo) (list : RegionList) (backingLen : Nat)
    (filename : String) : Exec (List Queued) :=
  backingFile info filename list.rest list.partialIter 0 backingLen

def inodeAllocateFileExtents (force : Bool) (info : FsInfo) (fs : Fs) (len : Nat)
    (filename : String) : Exec (Fs × Option (Inode × BlockAllocation)) := do
  let (fs, res) ← doInodeAllocateExtents force info fs len
  match res with
  | none =>
    error force s!"failed to allocate extents for {len} bytes"
    return (fs, none)
  | some (inode, alloc) =>
    let queued ← extentCreateBackingFile info alloc.list len filename
    return ({ fs with queue := fs.queue ++ queued }, some (inode, alloc))

end Ext4
