import PlatformKnife.Ext4.Buffer
import PlatformKnife.Ext4.Mapping

-- The walk of `ext4fixup` over the extents of a directory.
namespace Ext4

open CInt

-- What is read for a block of the device, if it can be read.
abbrev Disk := Nat → Option (List UInt8)

def maxExt4BlockSize : Nat :=
  4096

-- `read_block`, into a buffer of `MAX_EXT4_BLOCK_SIZE` bytes.
def readBlock (disk : Disk) (blockNum : Nat) : Exec (List UInt8) :=
  match disk blockNum with
  | none       => criticalError s!"failed to read block {blockNum}\n"
  | some block => if block.length ≤ maxExt4BlockSize then .ok block else fault .outOfBounds

-- A field of `n` bytes, in the byte order of the host.
def field (s : List UInt8) (i n : Nat) : Nat :=
  Bytes.fromLe (Slice.slice s i (i + n))

-- The header of a node and the entries after it.

def headerOf (node : List UInt8) : Exec ExtentHeader := do
  let s ← bytesAt node 0 sizeofExtentHeader
  return {
    ehMagic := field s 0 2
    ehEntries := field s 2 2
    ehMax := field s 4 2
    ehDepth := field s 6 2
    ehGeneration := field s 8 4
  }

def extentOf (node : List UInt8) (i : Nat) : Exec Extent := do
  let s ← bytesAt node (sizeofExtentHeader + i * sizeofExtent) sizeofExtent
  return {
    eeBlock := field s 0 4
    eeLen := field s 4 2
    eeStartHi := field s 6 2
    eeStartLo := field s 8 4
  }

def extentIdxOf (node : List UInt8) (i : Nat) : Exec ExtentIdx := do
  let s ← bytesAt node (sizeofExtentHeader + i * sizeofExtent) sizeofExtent
  return {
    eiBlock  := field s 0 4
    eiLeafLo := field s 4 4
    eiLeafHi := field s 8 2
    eiUnused := field s 10 2
  }

-- `hi << 32 | lo`, for a `lo` of 32 bits.
def ExtentIdx.fsBlockNum (idx : ExtentIdx) : Nat :=
  idx.eiLeafHi * 2 ^ 32 + idx.eiLeafLo

def setBlock (blockList : List Nat) (i fsBlock : Nat) : Exec (List Nat) :=
  if i < blockList.length then .ok (blockList.set i fsBlock) else fault .outOfBounds

-- The blocks of one extent.
def setExtent (extent : Extent) (blockList : List Nat) : Exec (List Nat) :=
  (List.range extent.eeLen).foldlM (fun blockList j =>
    setBlock blockList (u32 (extent.eeBlock + j)) (extent.start + j)) blockList

def getExtentEnts (node : List UInt8) (blockList : List Nat) : Exec (List Nat) := do
  let hdr ← headerOf node
  if hdr.ehDepth ≠ 0 then
    criticalError "get_extent_ents called with eh_depth != 0\n"
  (List.range hdr.ehEntries).foldlM (fun blockList i => do
    let extent ← extentOf node i
    setExtent extent blockList) blockList

-- The first argument is how deep the stack is. The loop does not move on from the first entry.
def getExtentIdx (disk : Disk) : Nat → List UInt8 → List Nat → Exec (List Nat)
  | 0, _, _ => fault .outOfBounds
  | stack + 1, node, blockList => do
    let hdr ← headerOf node
    if hdr.ehDepth = 0 then
      criticalError "get_extent_idx called with eh_depth == 0\n"
    (List.range hdr.ehEntries).foldlM (fun blockList _ => do
      let extentIdx ← extentIdxOf node 0
      let block ← readBlock disk extentIdx.fsBlockNum
      let tmpHdr ← headerOf block
      if tmpHdr.ehDepth = 0 then
        getExtentEnts block blockList
      else
        getExtentIdx disk stack block blockList) blockList

-- The format `%4.4x`.
def hex4 (n : Nat) : String :=
  String.ofList ((Nat.toDigits 16 n).leftpad 4 '0')

-- The node is `i_block` of the inode.
def getBlockListExtents (disk : Disk) (stack : Nat) (node : List UInt8) (blockList : List Nat) :
    Exec (List Nat) := do
  let hdr ← headerOf node
  if hdr.ehMagic ≠ ext4ExtMagic then
    criticalError s!"extent header has unexpected magic value 0x{hex4 hdr.ehMagic}\n"
  if hdr.ehDepth = 0 then
    getExtentEnts node blockList
  else
    getExtentIdx disk stack node blockList

-- An extent of a file has `eeLen` blocks from `eeBlock` on. A length above 2^15, which marks an unwritten
-- extent, is not looked at: the blocks of a directory are written.
def Extent.Covers (e : Extent) (b : Nat) : Prop :=
  e.eeBlock ≤ b ∧ b < e.eeBlock + e.eeLen

-- The block that a leaf of a tree of extents assigns to a block of the file.
inductive Assigns (disk : Disk) : List UInt8 → Nat → Nat → Prop
  | leaf : headerOf node = .ok hdr → hdr.ehDepth = 0 → i < hdr.ehEntries → extentOf node i = .ok e →
    e.Covers b → Assigns disk node b (e.start + (b - e.eeBlock))
  | index : headerOf node = .ok hdr → hdr.ehDepth ≠ 0 → i < hdr.ehEntries →
    extentIdxOf node i = .ok idx → disk idx.fsBlockNum = some child → Assigns disk child b fsBlock →
    Assigns disk node b fsBlock

-- The blocks of a walk that only takes the first entry of each index.
inductive Visits (disk : Disk) : List UInt8 → Nat → Prop
  | leaf : headerOf node = .ok hdr → hdr.ehDepth = 0 → i < hdr.ehEntries → extentOf node i = .ok e →
    e.Covers b → Visits disk node b
  | index : headerOf node = .ok hdr → hdr.ehDepth ≠ 0 → extentIdxOf node 0 = .ok idx →
    disk idx.fsBlockNum = some child → Visits disk child b → Visits disk node b

-- A tree of extents of a depth, for the blocks of a file in a range. Extents of a leaf and subtrees of an
-- index are in the order of the blocks, and no subtree is empty.
inductive WellFormed (disk : Disk) : Nat → Nat → Nat → List UInt8 → Prop
  | leaf (e : Nat → Extent) :
    headerOf node = .ok hdr → hdr.ehMagic = ext4ExtMagic → hdr.ehDepth = 0 →
    (∀ i < hdr.ehEntries, extentOf node i = .ok (e i) ∧ 0 < (e i).eeLen ∧ lo ≤ (e i).eeBlock ∧
      (e i).eeBlock + (e i).eeLen ≤ hi) →
    (∀ i j, i < j → j < hdr.ehEntries → (e i).eeBlock + (e i).eeLen ≤ (e j).eeBlock) →
    WellFormed disk 0 lo hi node
  | index (idx : Nat → ExtentIdx) (child : Nat → List UInt8) (childHdr : Nat → ExtentHeader)
    (bound : Nat → Nat) :
    headerOf node = .ok hdr → hdr.ehMagic = ext4ExtMagic → hdr.ehDepth = d + 1 → 0 < hdr.ehEntries →
    (∀ i < hdr.ehEntries, extentIdxOf node i = .ok (idx i) ∧
      disk (idx i).fsBlockNum = some (child i) ∧ (child i).length ≤ maxExt4BlockSize ∧
      headerOf (child i) = .ok (childHdr i) ∧ 0 < (childHdr i).ehEntries) →
    (∀ i < hdr.ehEntries, lo ≤ (idx i).eiBlock ∧ bound i ≤ hi) →
    (∀ i j, i < j → j < hdr.ehEntries → bound i ≤ (idx j).eiBlock) →
    (∀ i < hdr.ehEntries, WellFormed disk d (idx i).eiBlock (bound i) (child i)) →
    WellFormed disk (d + 1) lo hi node

-- Each index has a single entry.
inductive SingleEntries (disk : Disk) : List UInt8 → Prop
  | leaf : headerOf node = .ok hdr → hdr.ehDepth = 0 → SingleEntries disk node
  | index : headerOf node = .ok hdr → hdr.ehDepth ≠ 0 → hdr.ehEntries = 1 →
    extentIdxOf node 0 = .ok idx → disk idx.fsBlockNum = some child → SingleEntries disk child →
    SingleEntries disk node

end Ext4
