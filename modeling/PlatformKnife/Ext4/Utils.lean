import PlatformKnife.Ext4.Extent

namespace Ext4

open CInt

-- `struct ext2_group_desc`, without the fields that are only set by `ext4_update_free`.
structure GroupDesc where
  bgBlockBitmap : Nat
  bgInodeBitmap : Nat
  bgInodeTable : Nat
  bgFreeBlocksCount : Nat
  bgFreeInodesCount : Nat
  bgUsedDirsCount : Nat
  deriving DecidableEq

-- The bytes of `struct ext4_super_block` up to the last field that is set, and all of them.

def sizeofFilledSb : Nat :=
  384

def sizeofSb : Nat :=
  1024

section

variable (info : FsInfo) (aux : FsAuxInfo)

def groupStartBlock (i : Nat) : Nat :=
  u32 (aux.firstDataBlock + i * info.blocksPerGroup)

-- The copy of the superblock and the descriptors, for a group that has them. `ext4_queue_sb` queues the
-- superblock.
def queuedSuper (i : Nat) : List Queued :=
  if ext4BgHasSuperBlock info (i32 i) then
    (if i ≠ 0 then [⟨groupStartBlock info aux i, info.blockSize, .backupSb i⟩] else [])
      ++ [⟨u32 (groupStartBlock info aux i + 1), u32 (aux.bgDescBlocks * info.blockSize), .bgDesc⟩]
  else
    []

def groupDesc (i : Nat) : GroupDesc :=
  let headerSize := if ext4BgHasSuperBlock info (i32 i) then
      u32 (1 + aux.bgDescBlocks + info.bgDescReserveBlocks)
    else
      0
  { bgBlockBitmap := u32 (groupStartBlock info aux i + headerSize)
    bgInodeBitmap := u32 (groupStartBlock info aux i + headerSize + 1)
    bgInodeTable := u32 (groupStartBlock info aux i + headerSize + 2)
    bgFreeBlocksCount := u16 info.blocksPerGroup
    bgFreeInodesCount := u16 info.inodesPerGroup
    bgUsedDirsCount := 0 }

-- The descriptors are an array of `bg_desc_blocks` blocks.
def fillInGroup (i : Nat) : Exec (List Queued × GroupDesc) :=
  if (i + 1) * sizeofGroupDesc ≤ info.blockSize * aux.bgDescBlocks then
    .ok (queuedSuper info aux i, groupDesc info aux i)
  else
    fault .outOfBounds

-- `ext4_fill_in_sb`, without the contents of the superblock. Its buffer has the size of a block.
def ext4FillInSb : Exec (List Queued × List GroupDesc) := do
  if info.blockSize < sizeofFilledSb then
    fault .outOfBounds
  let groups ← (List.range aux.groups).mapM (fillInGroup info aux)
  return (groups.flatMap Prod.fst, groups.map Prod.snd)

end

def ext4QueueSb (info : FsInfo) : Exec (List Queued) :=
  if info.blockSize > 1024 then
    if info.blockSize < 1024 + sizeofSb then
      fault .outOfBounds
    else
      .ok [⟨0, info.blockSize, .sb⟩]
  else
    .ok [⟨1, sizeofSb, .sb⟩]

def allocateBgInodeTable (info : FsInfo) (aux : FsAuxInfo) (i : Nat) (bg : BlockGroupInfo) :
    BlockGroupInfo × List Queued :=
  if bg.inodeTable then
    (bg, [])
  else
    ({ bg with inodeTable := true },
      [⟨u32 (bg.firstBlock + 2 + superBlocks info aux bg), u32 (aux.inodeTableBlocks * info.blockSize),
        .inodeTable i⟩])

-- `get_inode`, without the pointer into the table that it returns.
def getInode (info : FsInfo) (aux : FsAuxInfo) (bgs : List BlockGroupInfo) (inode : Nat) :
    Exec (List BlockGroupInfo × List Queued) := do
  if info.inodesPerGroup = 0 then
    fault .divideByZero
  let i := i32 (subU32 inode 1 / info.inodesPerGroup)
  if i < 0 then
    fault .outOfBounds
  let bg ← getBg bgs i.toNat
  let (bg, queued) := allocateBgInodeTable info aux i.toNat bg
  return (bgs.set i.toNat bg, queued)

def ext4ResizeIno : Nat :=
  7

def ext4NdirBlocks : Nat :=
  12

def appendRegion (alloc : BlockAllocation) (block len bg : Nat) : Exec BlockAllocation := do
  let list ← alloc.list.append { block, len, bg }
  return { alloc with list }

-- The result is an `int` that is taken as `u32`.
def blockAllocationLen (alloc : BlockAllocation) : Nat :=
  u32 (alloc.list.regions.map Region.len).sum

-- A store to an array of `u32`.
def storeU32 (xs : List Nat) (i n : Nat) : Exec (List Nat) :=
  if i < xs.length then .ok (xs.set i n) else fault .outOfBounds

section

variable (info : FsInfo) (aux : FsAuxInfo)

-- The variable `r` of `inode_attach_resize`, as it is used in unsigned sums and products.
def resizeIndex (i : Nat) : Nat :=
  let r := i32 (subU32 i aux.bgDescBlocks % info.bgDescReserveBlocks)
  if r < 0 then u32 (toU32 r + info.bgDescReserveBlocks) else toU32 r

-- A round of the inner loop of `inode_attach_resize`, and one of the outer loop.

def attachIndirect (list : RegionList) (r : Nat) (ind : List Nat) (j : Nat) : Exec (List Nat) :=
  storeU32 ind (subU32 (u32 (r * aux.blocksPerInd + j)) 1)
    (list.getBlock (u32 (j * info.bgDescReserveBlocks + r)))

def attachReserved (list : RegionList) (superblocks : Nat)
    (data : List Nat × List Nat) (i : Nat) : Exec (List Nat × List Nat) := do
  let r := resizeIndex info aux i
  let dind ← storeU32 data.1 i (list.getBlock r)
  let ind ← (List.range' 1 (superblocks - 1)).foldlM (attachIndirect info aux list r) data.2
  return (dind, ind)

end

-- The fields of the resize inode. `iBlock` is the entry at `EXT4_DIND_BLOCK`.
structure ResizeInode where
  iBlock : Nat
  iBlocksLo : Nat
  iBlocksHigh : Nat
  iSizeLo : Nat
  iSizeHigh : Nat
  deriving DecidableEq

-- What `append_oob_allocation` returns is not looked at.
def inodeAttachResize (force : Bool) (info : FsInfo) (aux : FsAuxInfo) (bgs : List BlockGroupInfo)
    (alloc : BlockAllocation) : Exec (List BlockGroupInfo × List Queued × ResizeInode) := do
  if info.bgDescReserveBlocks = 0 then
    fault .divideByZero
  let blockLen := blockAllocationLen alloc
  let superblocks := blockLen / info.bgDescReserveBlocks
  if blockLen % info.bgDescReserveBlocks ≠ 0 then
    criticalError s!"reserved blocks not a multiple of {info.bgDescReserveBlocks}"
  let (bgs, alloc, _) ← appendOobAllocation force bgs alloc 1
  let dindBlock := alloc.oobList.getBlock 0
  let (dind, ind) ← (List.range info.bgDescReserveBlocks).foldlM
    (attachReserved info aux alloc.list superblocks)
    (List.replicate (info.blockSize / 4) 0,
      List.replicate (info.blockSize * info.bgDescReserveBlocks / 4) 0)
  let lastBlock := subU32 (u32 (ext4NdirBlocks + aux.blocksPerInd
    + aux.blocksPerInd * (info.bgDescReserveBlocks - 1) + superblocks)) 2
  let blocks := u64 ((blockLen + 1) * info.blockSize) / 512
  let size := lastBlock * info.blockSize
  return (bgs,
    [⟨dindBlock, info.blockSize, .dindBlock dind⟩,
     ⟨alloc.list.getBlock 0, u32 (info.blockSize * info.bgDescReserveBlocks), .indBlock ind⟩],
    { iBlock := dindBlock
      iBlocksLo := u32 blocks
      iBlocksHigh := u16 (blocks / 2 ^ 32)
      iSizeLo := u32 size
      iSizeHigh := u32 (size / 2 ^ 32) })

-- The length is a signed 64 bit number, counts have 32 bits, products with `sizeof` 64.
def computeBgDescReserveBlocks (info : FsInfo) : Exec Nat := do
  if info.blockSize = 0 || info.blocksPerGroup = 0 then
    fault .divideByZero
  let blocks := u32 ((info.len + info.blockSize - 1) / info.blockSize)
  let blockGroups := u32 (blocks + info.blocksPerGroup - 1) / info.blocksPerGroup
  let bgDescBlocks := u32 ((blockGroups * sizeofGroupDesc + info.blockSize - 1) / info.blockSize)
  let allBlocks := u32 ((u32 (blockGroups * 1024) * sizeofGroupDesc + info.blockSize - 1)
                        / info.blockSize)
  return min (subU32 allBlocks bgDescBlocks) (info.blockSize / 4)

-- The reserved blocks of the groups that have a superblock.
def appendReserved (info : FsInfo) (aux : FsAuxInfo) (alloc : BlockAllocation) (i : Nat) :
    Exec BlockAllocation :=
  if ext4BgHasSuperBlock info (i32 i) then
    appendRegion alloc (u32 (groupStartBlock info aux i + 1 + aux.bgDescBlocks))
      info.bgDescReserveBlocks i
  else
    .ok alloc

def ext4CreateResizeInode (force : Bool) (info : FsInfo) (aux : FsAuxInfo)
    (bgs : List BlockGroupInfo) : Exec (List BlockGroupInfo × List Queued × ResizeInode) := do
  let (bgs, table) ← getInode info aux bgs ext4ResizeIno
  let alloc ← (List.range aux.groups).foldlM (appendReserved info aux) createAllocation
  let (bgs, queued, inode) ← inodeAttachResize force info aux bgs alloc
  return (bgs, table ++ queued, inode)

end Ext4
