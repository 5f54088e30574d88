import PlatformKnife.Ext4.Run

namespace Ext4

open CInt

namespace Extent

def start (e : Extent) : Nat :=
  e.eeStartHi * 2 ^ 32 + e.eeStartLo

def blocks (e : Extent) : List Nat :=
  List.range' e.start e.eeLen

-- The part of a file for an extent, as handed to libsparse.
def queued (info : FsInfo) (len : Nat) (filename : String) (e : Extent) : Queued where
  block := e.start
  len   := min (e.eeLen * info.blockSize) (len - e.eeBlock * info.blockSize)
  data  := .file filename (e.eeBlock * info.blockSize)

end Extent

-- Extents for consecutive blocks of a file.
def Contiguous : Nat → List Extent → Prop
  | _, [] => True
  | block, e :: es => e.eeBlock = block ∧ Contiguous (block + e.eeLen) es

def fileBlocks (info : FsInfo) (len : Nat) : Nat :=
  (len + info.blockSize - 1) / info.blockSize

-- The node with the extents of an inode, and what is handed to libsparse for it.
inductive Node (info : FsInfo) (inode : Inode) : ExtentHeader → List Extent → List Queued → Prop
  | inode : inode.idx = none → Node info inode inode.hdr inode.extents []
  | leaf  : inode.idx = some idx → inode.hdr = extentIndexHeader → idx.eiBlock = 0 →
    Node info inode hdr extents
      [⟨idx.eiLeafHi * 2 ^ 32 + idx.eiLeafLo, info.blockSize, .extents hdr extents⟩]

-- The extents of an inode map a file to blocks of an allocation.
structure Maps (info : FsInfo) (queue queue' : List Queued) (len : Nat) (filename : String)
    (inode : Inode) (alloc : BlockAllocation) (hdr : ExtentHeader) (extents : List Extent) :
    Prop where
  node : ∃ leaf, Node info inode hdr extents leaf ∧
    queue' = queue ++ leaf ++ extents.map (Extent.queued info len filename)
  depth : hdr.ehDepth = 0
  entries : hdr.ehEntries = extents.length
  max : hdr.ehEntries ≤ hdr.ehMax
  contiguous : Contiguous 0 extents
  sum : (extents.map Extent.eeLen).sum = fileBlocks info len
  nodup : (extents.flatMap Extent.blocks).Nodup
  owned : ∀ block ∈ extents.flatMap Extent.blocks, block ∈ alloc.list.blocks

-- The file is mapped when its extents are allocated.
def MapsFile (force : Bool) (info : FsInfo) (fs : Fs) (len : Nat) (filename : String) : Prop :=
  ∃ fs' inode alloc hdr extents,
    inodeAllocateFileExtents force info fs len filename = .ok (fs', some (inode, alloc)) ∧
    Maps info fs.queue fs'.queue len filename inode alloc hdr extents

-- A call that ends with an error or returns `NULL`.
def Fails (r : Exec (Fs × Option α)) : Prop :=
  (∃ msg, r = .error (.longjmp msg)) ∨ ∃ fs, r = .ok (fs, none)

-- The longest region for an extent whose size in bytes has 32 bits.
def maxRegion (info : FsInfo) : Nat :=
  min (2 ^ 16 - 1) ((2 ^ 32 - 1) / info.blockSize)

-- The extents that fit into a block after the header, as far as `eh_max` tells.
def leafCapacity (info : FsInfo) : Nat :=
  u16 ((info.blockSize - sizeofExtentHeader) / sizeofExtent)

-- The free counts with which a file is mapped. One spare block is asked for.
structure Mappable (info : FsInfo) (free : List Nat) (len : Nat) : Prop where
  blocks_lt : fileBlocks info len + 1 < 2 ^ 32
  -- Otherwise the spare block is all of the first region.
  spare : ∃ f ∈ free, 2 ≤ f
  -- The extents fit into the inode, or into one block.
  regions : ∃ fs : List Nat, fs.Subperm free ∧ fs.length ≤ max 3 (leafCapacity info) ∧
    fileBlocks info len + 1 ≤ fs.sum
  -- The spare block is taken from the first region, which may be longer by it.
  first_le : fileBlocks info len + 1 ≤ maxRegion info + 1 ∨ ∀ f ∈ free, f ≤ maxRegion info + 1
  second_le : 2 ≤ free.countP (maxRegion info + 1 ≤ ·) →
    fileBlocks info len + 1 < 2 * (maxRegion info + 1)

end Ext4
