import PlatformKnife.Ext4.Image
import PlatformKnife.Lib.Runs
import PlatformKnife.Lib.Slice

-- `ext2simg` queues the parts of a filesystem that are in use.
namespace Ext4

open CInt

def bitmapGetBit (bitmap : List UInt8) (bit : Nat) : Exec Bool :=
  match bitmap[bit / 8]? with
  | none => fault .outOfBounds
  | some byte => .ok ((byte &&& 1 <<< UInt8.ofNat (bit % 8)) != 0)

-- The call of `sparse_file_add_file` for some blocks, with an `unsigned int` size.
def addFile (info : FsInfo) (filename : String) (startBlock lenBlocks : Nat) : Queued where
  block := startBlock
  len   := u32 (info.blockSize * lenBlocks)
  data  := .file filename (info.blockSize * startBlock)

-- The seek and the read for the bitmap of a group.
def readBlockBitmap (image : List UInt8) (info : FsInfo) (bgDesc : List GroupDesc) (i : Nat) :
    Exec (List UInt8) :=
  match bgDesc[i]? with
  | none => fault .outOfBounds
  | some desc =>
    let bitmap := Slice.slice image (info.blockSize * desc.bgBlockBitmap)
      (info.blockSize * desc.bgBlockBitmap + info.blockSize)
    if bitmap.length = info.blockSize
    then .ok bitmap
    else criticalError s!"failed to read all of block group bitmap {i}"

namespace BuildSparseExt

-- The variable is negative while no run of blocks is open.
structure State where
  startContiguousBlock : Int
  queued : List Queued

section

variable (info : FsInfo) (filename : String) (firstBlock : Nat)

-- The call at the end of the run, given by the number of a block in its group.
def State.close (s : State) (block : Nat) : List Queued :=
  let start := toU32 s.startContiguousBlock
  s.queued ++ [addFile info filename (u32 (firstBlock + start)) (subU32 block start)]

def scanBlock (bitmap : List UInt8) (s : State) (block : Nat) : Exec State := do
  let used ← bitmapGetBit bitmap block
  if s.startContiguousBlock ≥ 0 then
    if !used then
      return { startContiguousBlock := -1, queued := s.close info filename firstBlock block }
    else
      return s
  else
    if used then
      return { s with startContiguousBlock := toI32 block }
    else
      return s

def scanGroup (lastBlock : Nat) (bitmap : List UInt8) (queued : List Queued) : Exec (List Queued) := do
  let s ← (List.range lastBlock).foldlM (scanBlock info filename firstBlock bitmap) ⟨-1, queued⟩
  if s.startContiguousBlock ≥ 0 then
    return s.close info filename firstBlock lastBlock
  else
    return s.queued

end

def firstBlock (info : FsInfo) (aux : FsAuxInfo) (i : Nat) : Nat :=
  u32 (aux.firstDataBlock + u32 (i * info.blocksPerGroup))

-- The difference has 64 bits, as `len_blocks` does.
def lastBlock (info : FsInfo) (aux : FsAuxInfo) (i : Nat) : Nat :=
  u32 (min info.blocksPerGroup (u64 (aux.lenBlocks + (2 ^ 64 - firstBlock info aux i))))

end BuildSparseExt

open BuildSparseExt in
def buildSparseExt (image : List UInt8) (filename : String) (info : FsInfo) (aux : FsAuxInfo)
    (bgDesc : List GroupDesc) : Exec (List Queued) :=
  let queued := if aux.firstDataBlock > 0 then [addFile info filename 0 aux.firstDataBlock] else []
  (List.range aux.groups).foldlM (fun queued i => do
    let bitmap ← readBlockBitmap image info bgDesc i
    scanGroup info filename (firstBlock info aux i) (lastBlock info aux i) bitmap queued) queued

-- What is asked of the calls.

def bitSet (bitmap : List UInt8) (k : Nat) : Bool :=
  (bitmap.getD (k / 8) 0).toNat.testBit (k % 8)

-- A block of a group with its bit set. The last group can be short.
def Used (info : FsInfo) (aux : FsAuxInfo) (bitmaps : Nat → List UInt8) (b : Nat) : Prop :=
  b < aux.lenBlocks ∧ ∃ i < aux.groups, ∃ k < info.blocksPerGroup,
    b = aux.firstDataBlock + i * info.blocksPerGroup + k ∧ bitSet (bitmaps i) k = true

structure CopiesUsed (filename : String) (info : FsInfo) (aux : FsAuxInfo) (bitmaps : Nat → List UInt8)
    (queued : List Queued) : Prop where
  disjoint : queued.Pairwise fun q q' => List.Disjoint (q.blocks info) (q'.blocks info)
  offset   : ∀ q ∈ queued, q.data = .file filename (info.blockSize * q.block)
  union    : ∀ b, (∃ q ∈ queued, b ∈ q.blocks info) ↔ b < aux.firstDataBlock ∨ Used info aux bitmaps b

def ext4MaxBlockSize : Nat :=
  65536

-- A filesystem in which each group and the bitmap of a group has a block. The other bounds are those of
-- the types.
structure BitmapGeometry (info : FsInfo) (aux : FsAuxInfo) : Prop where
  blockSize_pos : 0 < info.blockSize
  blockSize_le : info.blockSize ≤ ext4MaxBlockSize
  blocksPerGroup_le : info.blocksPerGroup ≤ 8 * info.blockSize
  lt_lenBlocks : ∀ i < aux.groups, aux.firstDataBlock + i * info.blocksPerGroup < aux.lenBlocks
  firstDataBlock_lt : aux.firstDataBlock < 2 ^ 32
  lenBlocks_lt : aux.lenBlocks < 2 ^ 64

-- The number of blocks up to the last one that is in a group.
def blocksInGroups (info : FsInfo) (aux : FsAuxInfo) : Nat :=
  min aux.lenBlocks (aux.firstDataBlock + aux.groups * info.blocksPerGroup)

-- The number of blocks of a group.
def groupBlocks (info : FsInfo) (aux : FsAuxInfo) (i : Nat) : Nat :=
  min info.blocksPerGroup (aux.lenBlocks - (aux.firstDataBlock + i * info.blocksPerGroup))

-- No run of blocks has 2^32 bytes or more.
structure RunsFit (info : FsInfo) (aux : FsAuxInfo) (bitmaps : Nat → List UInt8) : Prop where
  first : info.blockSize * aux.firstDataBlock < 2 ^ 32
  group : ∀ i < aux.groups, ∀ a b, Runs.IsRun (bitSet (bitmaps i)) (groupBlocks info aux i) a b →
    info.blockSize * (b - a) < 2 ^ 32

end Ext4
