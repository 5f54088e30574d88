import PlatformKnife.Ext4.Extent

namespace Ext4

open CInt

-- A layout as `ext4_create_fs_aux_info` computes it, in which each group has room for its header.
structure Layout where
  info : FsInfo
  aux : FsAuxInfo
  created : ext4CreateFsAuxInfo info = .ok aux
  fits : ∀ i < aux.groups,
    2 + aux.inodeTableBlocks
      + (if ext4BgHasSuperBlock info (i32 i) then 1 + aux.bgDescBlocks + info.bgDescReserveBlocks else 0)
      ≤ min info.blocksPerGroup (aux.lenBlocks - (aux.firstDataBlock + i * info.blocksPerGroup))

namespace Layout

variable (l : Layout)

-- The first block of a group, the number of its blocks on the device, and the length of its header.

def first (i : Nat) : Nat :=
  l.aux.firstDataBlock + i * l.info.blocksPerGroup

def groupLen (i : Nat) : Nat :=
  min l.info.blocksPerGroup (l.aux.lenBlocks - l.first i)

def superLen (i : Nat) : Nat :=
  if ext4BgHasSuperBlock l.info (i32 i) then 1 + l.aux.bgDescBlocks + l.info.bgDescReserveBlocks
  else 0

def headerLen (i : Nat) : Nat :=
  2 + l.aux.inodeTableBlocks + l.superLen i

-- A block bitmap has a bit for each block of its group, and the block numbers fit into 32 bits, with room
-- for the sums that are computed with them.
structure Addressable : Prop where
  bitmap : l.info.blocksPerGroup ≤ 8 * l.info.blockSize
  blocks : l.aux.firstDataBlock + l.aux.groups * l.info.blocksPerGroup + 8 < 2 ^ 32

end Layout

def Region.blocks (reg : Region) : List Nat :=
  List.range' reg.block reg.len

def RegionList.blocks (l : RegionList) : List Nat :=
  l.regions.flatMap Region.blocks

def BlockAllocation.blocks (alloc : BlockAllocation) : List Nat :=
  alloc.list.blocks ++ alloc.oobList.blocks

-- A state of the allocator, with the blocks of each allocation handed out.
structure Allocated where
  fs   : Fs
  live : List (List Nat)

-- The states that are reached by calls which succeed.
inductive Reachable (force : Bool) (l : Layout) : Allocated → Prop
  | init : blockAllocatorInit force l.info l.aux = .ok bgs → Reachable force l ⟨⟨bgs, queue⟩, []⟩
  | allocateBlock :
    Reachable force l s →
    allocateBlock force s.fs.bgs = .ok (bgs, block) →
    block ≠ ext4AllocateFailed →
    Reachable force l ⟨{ s.fs with bgs }, [block] :: s.live⟩
  | allocateBlocks :
    Reachable force l s →
    allocateBlocks force s.fs.bgs len = .ok (bgs, some alloc) →
    Reachable force l ⟨{ s.fs with bgs }, alloc.blocks :: s.live⟩
  | doInodeAllocateExtents :
    Reachable force l s →
    doInodeAllocateExtents force l.info s.fs len = .ok (fs, some (inode, alloc)) →
    Reachable force l ⟨fs, alloc.blocks :: s.live⟩

-- The bits of the block bitmap of a group.
def BlockGroupInfo.blockBits (info : FsInfo) (bg : BlockGroupInfo) : List Bool :=
  (List.range (8 * info.blockSize)).map (Bitmap.bit bg.bitmaps)

-- What the counters of a group say about its bitmap.
structure Counted (l : Layout) (i : Nat) (bg : BlockGroupInfo) : Prop where
  bits : (bg.blockBits l.info).take l.info.blocksPerGroup =
    List.replicate bg.firstFreeBlock true
      ++ List.replicate (l.groupLen i - bg.firstFreeBlock) false
      ++ List.replicate (l.info.blocksPerGroup - max bg.firstFreeBlock (l.groupLen i)) true
  freeBlocks : bg.freeBlocks =
    ((bg.blockBits l.info).take l.info.blocksPerGroup).count false

-- The accounting of the allocator.
structure Accounted (l : Layout) (s : Allocated) : Prop where
  length  : s.fs.bgs.length = l.aux.groups
  counted : ∀ i bg, s.fs.bgs[i]? = some bg → Counted l i bg
  nodup   : s.live.flatten.Nodup
  headers : ∀ block ∈ s.live.flatten, ∀ i < l.aux.groups,
    ¬(l.first i ≤ block ∧ block < l.first i + l.headerLen i)

end Ext4
