import PlatformKnife.Ext4.Allocate

namespace Ext4

open CInt

-- The block groups cover the blocks of the filesystem, and each has room for its header.
structure Geometry (force : Bool) (info : FsInfo) (aux : FsAuxInfo) : Prop where
  lt_lenBlocks : aux.firstDataBlock + (aux.groups - 1) * info.blocksPerGroup < aux.lenBlocks
  lenBlocks_le : aux.lenBlocks ≤ aux.firstDataBlock + aux.groups * info.blocksPerGroup
  header_le : ∀ i < aux.groups, headerBlocks info aux i ≤ min info.blocksPerGroup
    (aux.lenBlocks - (aux.firstDataBlock + i * info.blocksPerGroup))
  reserves : ∀ i < aux.groups, ∃ bg bg',
    reserveHeader force (freshBg info aux i) = .ok (bg, true) ∧
    reserveOverrun force info aux bg = .ok (bg', true)

namespace FsInfo

variable (info : FsInfo)

-- A filesystem has blocks before its groups, whole groups, and a tail.

def blocks : Nat :=
  info.len / info.blockSize

def firstBlock : Nat :=
  if info.blockSize > 1024 then 0 else 1

def wholeGroups : Nat :=
  (info.blocks - info.firstBlock) / info.blocksPerGroup

def tail : Nat :=
  (info.blocks - info.firstBlock) % info.blocksPerGroup

def allGroups : Nat :=
  if info.tail = 0 then info.wholeGroups else info.wholeGroups + 1

-- The parts of the header of a group.

def inodeTableBlocks : Nat :=
  u32 (u32 (info.inodesPerGroup * info.inodeSize) + info.blockSize - 1) / info.blockSize

def bgDescBlocks : Nat :=
  u32 ((u32 info.allGroups * sizeofGroupDesc + info.blockSize - 1) / info.blockSize)

def header (i : Nat) : Nat :=
  if ext4BgHasSuperBlock info (i32 i) then
    u32 (2 + info.inodeTableBlocks + (1 + info.bgDescBlocks + info.bgDescReserveBlocks))
  else
    u32 (2 + info.inodeTableBlocks)

-- Whether the last group is given up. The size that is compared counts the blocks before the first group,
-- too.
def Trimmed : Prop :=
  0 < info.blocks % info.blocksPerGroup ∧
  info.blocks % info.blocksPerGroup < info.header (u32 (info.allGroups - 1))

instance : Decidable info.Trimmed :=
  inferInstanceAs <| Decidable (_ ∧ _)

def remainingGroups : Nat :=
  if info.Trimmed then info.allGroups - 1 else info.allGroups

def remainingBlocks : Nat :=
  if info.Trimmed then info.blocks - info.blocks % info.blocksPerGroup else info.blocks

-- The size of the last group that remains.
def lastSize : Nat :=
  if info.Trimmed then info.blocksPerGroup - info.firstBlock
  else if info.tail = 0 then info.blocksPerGroup
  else info.tail

-- The filesystems for which the geometry is right. Where only the tail of a group is there, its bitmap
-- needs room for the missing blocks, as those are marked.
structure Regular : Prop where
  nonempty : info.firstBlock < info.blocks
  remaining_lt : info.remainingGroups < 2 ^ 32
  tail_ne : info.blockSize ≤ 1024 → info.Trimmed → info.tail ≠ 0
  header_le : ∀ i < info.remainingGroups, info.header i ≤ info.blocksPerGroup
  header_fits : ∀ i < info.remainingGroups,
    info.header i ≤ 16 * info.blockSize ∧ info.header i + 8 < 2 ^ 32
  last_le : info.header (info.remainingGroups - 1) ≤ info.lastSize
  bitmap_fits : info.lastSize < info.blocksPerGroup →
    info.firstBlock + info.remainingGroups * info.blocksPerGroup < 2 ^ 32 →
    info.blocksPerGroup ≤ 16 * info.blockSize

end FsInfo
end Ext4
