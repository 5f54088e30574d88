import PlatformKnife.Ext4.Run
import PlatformKnife.Ext4.Utils

namespace Ext4

open CInt

-- The blocks that a call of libsparse covers.
def Queued.blocks (info : FsInfo) (q : Queued) : List Nat :=
  List.range' q.block ((q.len + info.blockSize - 1) / info.blockSize)

-- A state of `make_ext4fs_internal` from `ext4_fill_in_sb` on. The regions are those of the layout. What
-- is queued for allocated blocks is in `fs`.
structure Image where
  fs : Fs
  regions : List Queued
  live : List (List Nat)
  bgDesc : List GroupDesc
  resized : Bool := false
  queuedSb : Bool := false

def BlockAllocation.toLive (alloc : Option BlockAllocation) : List (List Nat) :=
  (alloc.map BlockAllocation.blocks).toList

-- The states that are reached. The resize inode is created once, in states with the condition, and the
-- superblock is queued once.
inductive Built (force : Bool) (l : Layout) (cond : Image → Prop) : Image → Prop
  | init :
    blockAllocatorInit force l.info l.aux = .ok bgs →
    ext4FillInSb l.info l.aux = .ok (queued, bgDesc) →
    Built force l cond {
      fs := ⟨bgs, []⟩
      regions := (List.range l.aux.groups).map (queuedBitmaps l.info l.aux) ++ queued
      live := []
      bgDesc
    }
  | getInode :
    Built force l cond s →
    getInode l.info l.aux s.fs.bgs inode = .ok (bgs, queued) →
    Built force l cond { s with fs.bgs := bgs, regions := s.regions ++ queued }
  | ext4CreateResizeInode :
    Built force l cond s →
    cond s →
    s.resized = false →
    ext4CreateResizeInode force l.info l.aux s.fs.bgs = .ok (bgs, queued, inode) →
    Built force l cond { s with fs.bgs := bgs, regions := s.regions ++ queued, resized := true }
  | allocateBlock :
    Built force l cond s →
    allocateBlock force s.fs.bgs = .ok (bgs, block) →
    Built force l cond { s with
      fs.bgs := bgs
      live   := if block = ext4AllocateFailed then s.live else [block] :: s.live }
  | allocateBlocks :
    Built force l cond s →
    allocateBlocks force s.fs.bgs len = .ok (bgs, alloc) →
    Built force l cond { s with fs.bgs := bgs, live := BlockAllocation.toLive alloc ++ s.live }
  | doInodeAllocateExtents :
    Built force l cond s →
    doInodeAllocateExtents force l.info s.fs len = .ok (fs, res) →
    Built force l cond { s with fs, live := BlockAllocation.toLive (res.map Prod.snd) ++ s.live }
  | ext4QueueSb :
    Built force l cond s →
    s.queuedSb = false →
    ext4QueueSb l.info = .ok queued →
    Built force l cond { s with regions := s.regions ++ queued, queuedSb := true }

-- The superblock fits into a block of its own, and sizes in bytes do not wrap.
structure Layout.Proper (l : Layout) : Prop where
  addressable  : l.Addressable
  groups_pos   : 0 < l.aux.groups
  blockSize_ge : 1024 ≤ l.info.blockSize
  blockSize_lt : l.info.blockSize < 2 ^ 31

-- There is a block left for the resize inode, unless errors are fatal.
def Image.Resizable (force : Bool) (s : Image) : Prop :=
  force = false ∨ ∃ bg ∈ s.fs.bgs, 0 < bg.freeBlocks

-- The regions overlap neither each other nor an allocation.
structure Separate (l : Layout) (s : Image) : Prop where
  nodup  : (s.regions.flatMap (Queued.blocks l.info) ++ s.live.flatten).Nodup
  inside : ∀ block ∈ s.regions.flatMap (Queued.blocks l.info) ++ s.live.flatten,
    block < l.aux.lenBlocks

-- The descriptor of a group points to the bitmaps and the inode table that were queued for it. The second
-- block of the bitmaps is the inode bitmap.
structure Described (l : Layout) (s : Image) (i : Nat) (desc : GroupDesc) : Prop where
  queued : ∃ q ∈ s.regions, q.data = .bitmaps i
  blockBitmap : ∀ q ∈ s.regions, q.data = .bitmaps i →
    q.block = desc.bgBlockBitmap ∧ q.len = 2 * l.info.blockSize
  inodeBitmap : desc.bgInodeBitmap = desc.bgBlockBitmap + 1
  inodeTable : ∀ q ∈ s.regions, q.data = .inodeTable i → q.block = desc.bgInodeTable

structure Consistent (l : Layout) (s : Image) : Prop where
  separate  : Separate l s
  described : s.bgDesc.length = l.aux.groups ∧
    ∀ i desc, s.bgDesc[i]? = some desc → Described l s i desc

end Ext4
