import PlatformKnife.Ext4.Basic

namespace Ext4

open CInt

-- `struct block_group_info`. The block bitmap is the first half of `bitmaps`, the inode bitmap the
-- second. Of the inode table it only matters whether it was allocated.
structure BlockGroupInfo where
  firstBlock : Nat
  headerBlocks : Nat
  hasSuperblock : Bool
  bitmaps : List (BitVec 8)
  inodeTable : Bool
  freeBlocks : Nat
  firstFreeBlock : Nat
  deriving DecidableEq

-- The bitmap functions reach into the array with a plain index.
def bitmapSetBit (bitmap : List (BitVec 8)) (bit : Nat) : Exec (List (BitVec 8) × Bool) :=
  if bit / 8 < bitmap.length then
    if Bitmap.bit bitmap bit then .ok (bitmap, true) else .ok (Bitmap.setBit bitmap bit, false)
  else
    fault .outOfBounds

def bitmapSet8Bits (bitmap : List (BitVec 8)) (bit : Nat) : Exec (List (BitVec 8) × Bool) :=
  if bit / 8 < bitmap.length then
    .ok (Bitmap.setByte bitmap bit, bitmap.getD (bit / 8) 0 ≠ 0)
  else
    fault .outOfBounds

-- The variables of the loops of `reserve_blocks`.
structure Marking where
  bitmap : List (BitVec 8)
  i : Nat
  block : Nat
  deriving DecidableEq

-- The loops of `reserve_blocks` differ in their condition, in what they set at once and in how far this
-- is. The result is false where a bit was set.
def markLoop (cond : Nat → Nat → Bool)
    (set : List (BitVec 8) → Nat → Exec (List (BitVec 8) × Bool)) (width : Nat) :
    Nat → Marking → Exec (Marking × Bool)
  | 0, m => .ok (m, true)
  | fuel + 1, m =>
    if cond m.i m.block then do
      let (bitmap, taken) ← set m.bitmap m.block
      if taken then
        return ({ m with bitmap }, false)
      markLoop cond set width fuel
        { bitmap, i := u32 (m.i + width), block := u32 (m.block + width) }
    else
      .ok (m, true)

def reserveHead (num : Nat) : Nat → Marking → Exec (Marking × Bool) :=
  markLoop (fun i block => i < num && block % 8 ≠ 0) bitmapSetBit 1

-- The bound of this loop is `num & ~7`.
def reserveBytes (num : Nat) : Nat → Marking → Exec (Marking × Bool) :=
  markLoop (fun i _ => u32 (i + 8) ≤ 8 * (num / 8)) bitmapSet8Bits 8

def reserveTail (num : Nat) : Nat → Marking → Exec (Marking × Bool) :=
  markLoop (fun i _ => i < num) bitmapSetBit 1

-- The loops one after the other. Each of them makes at most `num` rounds.
def reserveBits (bitmap : List (BitVec 8)) (start num : Nat) :
    Exec (List (BitVec 8) × Bool) := do
  let (m, ok) ← reserveHead num num { bitmap, i := 0, block := start }
  if !ok then
    return (m.bitmap, false)
  let (m, ok) ← reserveBytes num num m
  if !ok then
    return (m.bitmap, false)
  let (m, ok) ← reserveTail num num m
  return (m.bitmap, ok)

-- The result is whether the call returns 0.
def reserveBlocks (force : Bool) (bg : BlockGroupInfo) (start num : Nat) :
    Exec (BlockGroupInfo × Bool) := do
  if num > bg.freeBlocks then
    return (bg, false)
  let (bitmaps, ok) ← reserveBits bg.bitmaps start num
  if !ok then
    error force "attempted to reserve already reserved block"
    return ({ bg with bitmaps }, false)
  return ({ bg with
    bitmaps
    freeBlocks := bg.freeBlocks - num
    firstFreeBlock := if start = bg.firstFreeBlock then u32 (start + num) else bg.firstFreeBlock
  }, true)

def freeBits : Nat → List (BitVec 8) → Nat → Exec (List (BitVec 8))
  | 0, bitmap, _ => .ok bitmap
  | num + 1, bitmap, block =>
    if block / 8 < bitmap.length then
      freeBits num (Bitmap.clearBit bitmap block) (subU32 block 1)
    else
      fault .outOfBounds

def freeBlocks (bg : BlockGroupInfo) (numBlocks : Nat) : Exec BlockGroupInfo := do
  let bitmaps ← freeBits numBlocks bg.bitmaps (subU32 bg.firstFreeBlock 1)
  return { bg with
    bitmaps
    freeBlocks := u32 (bg.freeBlocks + numBlocks)
    firstFreeBlock := subU32 bg.firstFreeBlock numBlocks }

-- The part of `init_bg` before its calls of `reserve_blocks`.
def freshBg (info : FsInfo) (aux : FsAuxInfo) (i : Nat) : BlockGroupInfo where
  firstBlock := u32 (aux.firstDataBlock + i * info.blocksPerGroup)
  headerBlocks := headerBlocks info aux i
  hasSuperblock := ext4BgHasSuperBlock info (i32 i)
  bitmaps := List.replicate (2 * info.blockSize) 0#8
  inodeTable := false
  freeBlocks := info.blocksPerGroup
  firstFreeBlock := 0

-- The two calls of `reserve_blocks` in `init_bg`.

def reserveHeader (force : Bool) (bg : BlockGroupInfo) : Exec (BlockGroupInfo × Bool) :=
  reserveBlocks force bg bg.firstFreeBlock bg.headerBlocks

def reserveOverrun (force : Bool) (info : FsInfo) (aux : FsAuxInfo) (bg : BlockGroupInfo) :
    Exec (BlockGroupInfo × Bool) :=
  let end_ := u32 (bg.firstBlock + info.blocksPerGroup)
  if end_ > aux.lenBlocks then
    let overrun := end_ - aux.lenBlocks
    reserveBlocks force bg (subU32 info.blocksPerGroup overrun) overrun
  else
    .ok (bg, true)

def initBg (force : Bool) (info : FsInfo) (aux : FsAuxInfo) (i : Nat) : Exec BlockGroupInfo := do
  let (bg, ok) ← reserveHeader force (freshBg info aux i)
  if !ok then
    error force s!"failed to reserve {bg.headerBlocks} blocks in block group {i}\n"
  let (bg, _) ← reserveOverrun force info aux bg
  return bg

-- The number of blocks before the bitmaps of a group.
def superBlocks (info : FsInfo) (aux : FsAuxInfo) (bg : BlockGroupInfo) : Nat :=
  if bg.hasSuperblock then 1 + aux.bgDescBlocks + info.bgDescReserveBlocks else 0

-- What `init_bg` hands to libsparse.
def queuedBitmaps (info : FsInfo) (aux : FsAuxInfo) (i : Nat) : Queued where
  block := u32 ((freshBg info aux i).firstBlock + superBlocks info aux (freshBg info aux i))
  len   := u32 (2 * info.blockSize)
  data  := .bitmaps i

def blockAllocatorInit (force : Bool) (info : FsInfo) (aux : FsAuxInfo) :
    Exec (List BlockGroupInfo) :=
  (List.range aux.groups).mapM (initBg force info aux)

def ext4AllocateFailed : Nat :=
  2 ^ 32 - 1

def getBg (bgs : List BlockGroupInfo) (i : Nat) : Exec BlockGroupInfo :=
  match bgs[i]? with
  | some bg => .ok bg
  | none => fault .outOfBounds

-- The result is the number of the first block.
def ext4AllocateBlocksFromBlockGroup (force : Bool) (bgs : List BlockGroupInfo) (len bgNum : Nat) :
    Exec (List BlockGroupInfo × Nat) := do
  let bg ← getBg bgs bgNum
  if bg.freeBlocks < len then
    return (bgs, ext4AllocateFailed)
  let (bg', ok) ← reserveBlocks force bg bg.firstFreeBlock len
  if !ok then
    error force s!"failed to reserve {len} blocks in block group {bgNum}\n"
    return (bgs.set bgNum bg', ext4AllocateFailed)
  return (bgs.set bgNum bg', u32 (bg.firstBlock + bg.firstFreeBlock))

def allocateBlockFrom (force : Bool) : Nat → Nat → List BlockGroupInfo →
    Exec (List BlockGroupInfo × Nat)
  | 0, _, bgs => .ok (bgs, ext4AllocateFailed)
  | n + 1, i, bgs => do
    let (bgs, block) ← ext4AllocateBlocksFromBlockGroup force bgs 1 i
    if block ≠ ext4AllocateFailed then
      return (bgs, block)
    allocateBlockFrom force n (i + 1) bgs

def allocateBlock (force : Bool) (bgs : List BlockGroupInfo) : Exec (List BlockGroupInfo × Nat) :=
  allocateBlockFrom force bgs.length 0 bgs

structure Region where
  block : Nat
  len   : Nat
  bg    : Nat
  deriving DecidableEq

-- The search of `ext4_allocate_best_fit_partial`, with `found_bg` and `found_bg_len`.
def findBestFit (len : Nat) : List BlockGroupInfo → Nat → Nat × Nat → Nat × Nat
  | [], _, found => found
  | bg :: bgs, i, (foundBg, foundLen) =>
    let bgLen := bg.freeBlocks
    if (len ≤ bgLen ∧ (foundLen = 0 ∨ bgLen < foundLen)) ∨ (len > foundLen ∧ bgLen > foundLen) then
      findBestFit len bgs (i + 1) (i, bgLen)
    else
      findBestFit len bgs (i + 1) (foundBg, foundLen)

def ext4AllocateBestFitPartial (force : Bool) (bgs : List BlockGroupInfo) (len : Nat) :
    Exec (List BlockGroupInfo × Option Region) := do
  let (foundBg, foundLen) := findBestFit len bgs 0 (0, 0)
  if foundLen = 0 then
    error force s!"failed to allocate {len} blocks, out of space?"
    return (bgs, none)
  let allocateLen := min len foundLen
  let (bgs, block) ← ext4AllocateBlocksFromBlockGroup force bgs allocateLen foundBg
  if block = ext4AllocateFailed then
    error force s!"failed to allocate {allocateLen} blocks in block group {foundBg}"
    return (bgs, none)
  return (bgs, some { block, len := allocateLen, bg := foundBg })

-- Each region has a block at least, so `len` rounds are enough. The empty list is `NULL`.
def bestFitLoop (force : Bool) : Nat → List BlockGroupInfo → Nat → List Region →
    Exec (List BlockGroupInfo × List Region)
  | 0, bgs, _, regs => .ok (bgs, regs)
  | fuel + 1, bgs, len, regs =>
    if len > 0 then do
      let (bgs, reg) ← ext4AllocateBestFitPartial force bgs len
      match reg with
      | none => return (bgs, [])
      | some reg => bestFitLoop force fuel bgs (len - reg.len) (regs ++ [reg])
    else
      .ok (bgs, regs)

def ext4AllocateBestFit (force : Bool) (bgs : List BlockGroupInfo) (len : Nat) :
    Exec (List BlockGroupInfo × List Region) :=
  bestFitLoop force len bgs len []

-- `struct region_list`, as the chain from `first` on. `last` and `iter` are positions in it. A position
-- past its end is a region that was freed.
structure RegionList where
  regions : List Region := []
  last : Option Nat := none
  iter : Option Nat := none
  partialIter : Nat := 0
  deriving DecidableEq

structure BlockAllocation where
  list    : RegionList := {}
  oobList : RegionList := {}
  deriving DecidableEq

def createAllocation : BlockAllocation := {}

-- `last` is left at the first region, however many there are.
def allocateBlocks (force : Bool) (bgs : List BlockGroupInfo) (len : Nat) :
    Exec (List BlockGroupInfo × Option BlockAllocation) := do
  let (bgs, regs) ← ext4AllocateBestFit force bgs len
  if regs.isEmpty then
    return (bgs, none)
  return (bgs, some { list := { regions := regs, last := some 0, iter := some 0 } })

namespace RegionList

-- What happens to a pointer to a later region of the chain.
def shiftDown (pos : Nat) : Option Nat → Option Nat :=
  Option.map fun k => if pos < k then k - 1 else k

def shiftUp (pos : Nat) : Option Nat → Option Nat :=
  Option.map fun k => if pos < k then k + 1 else k

def remove (l : RegionList) (pos : Nat) : RegionList :=
  { l with
    regions := l.regions.eraseIdx pos
    last    := if l.last = some pos then (if pos = 0 then none else some (pos - 1))
               else shiftDown pos l.last
    iter    := shiftDown pos l.iter }

-- `region_list_append`, which links the region to `last`.
def append (l : RegionList) (reg : Region) : Exec RegionList :=
  if l.regions.isEmpty then
    .ok { regions := [reg], last := some 0, iter := some 0 }
  else
    match l.last with
    | none => fault .nullDereference
    | some last =>
      if last < l.regions.length then
        .ok { l with regions := l.regions.take (last + 1) ++ [reg], last := some (last + 1) }
      else
        fault .useAfterFree

-- The rest of the chain from `iter` on.
def rest (l : RegionList) : List Region :=
  match l.iter with
  | none => []
  | some k => l.regions.drop k

-- The loop of `get_block` and of `get_oob_block`.
def blockAt : List Region → Nat → Nat
  | [], _ => ext4AllocateFailed
  | reg :: regs, block =>
    if block < reg.len then u32 (reg.block + block) else blockAt regs (block - reg.len)

def getBlock (l : RegionList) (block : Nat) : Nat :=
  blockAt l.rest (u32 (block + l.partialIter))

def rewind (l : RegionList) : RegionList :=
  { l with
    iter := if l.regions.isEmpty then none else some 0
    partialIter := 0 }

-- The search of `do_split_allocation`: the regions passed, and what is left of `len`.
def skip : List Region → Nat → Nat × Nat
  | [], len => (0, len)
  | reg :: regs, len =>
    if len ≥ reg.len then
      let (n, len) := skip regs (len - reg.len)
      (n + 1, len)
    else
      (0, len)

-- `do_split_allocation`. The result is the position of the region that it returns.
def doSplitAllocation (l : RegionList) (len : Nat) : RegionList × Option Nat :=
  match l.iter with
  | none => (l, none)
  | some k =>
    let (n, len) := skip (l.regions.drop k) len
    let pos := k + n
    match l.regions[pos]? with
    | none => (l, none)
    | some reg =>
      if len > 0 then
        let new := { reg with block := u32 (reg.block + len), len := reg.len - len }
        ({ l with
          regions := l.regions.take pos ++ { reg with len } :: new :: l.regions.drop (pos + 1)
          last    := shiftUp pos l.last
          iter    := some (pos + 1) }, some k)
      else
        (l, some pos)

def splitAllocation (l : RegionList) (len : Nat) : RegionList × Option Nat :=
  let l := (doSplitAllocation l l.partialIter).1
  let (l, middle) := doSplitAllocation l len
  ({ l with partialIter := 0 }, middle)

-- The loop of `reserve_oob_blocks`. The next region takes the position of the moved one.
def moveOob : Nat → RegionList → RegionList → Nat → Exec (RegionList × RegionList)
  | 0, l, oobList, _ => .ok (l, oobList)
  | fuel + 1, l, oobList, oob =>
    match l.regions[oob]? with
    | none => .ok (l, oobList)
    | some reg =>
      if l.iter = some oob then
        .ok (l, oobList)
      else do
        let oobList ← oobList.append reg
        moveOob fuel (l.remove oob) oobList oob

end RegionList

-- The result is whether the call returns 0.
def reserveOobBlocks (alloc : BlockAllocation) (blocks : Nat) : Exec (BlockAllocation × Bool) := do
  let (list, oob) := alloc.list.splitAllocation blocks
  match oob with
  | none => return ({ alloc with list }, false)
  | some oob =>
    let (list, oobList) ← RegionList.moveOob list.regions.length list alloc.oobList oob
    return ({ list, oobList }, true)

def modifyBg (bgs : List BlockGroupInfo) (i : Nat) (f : BlockGroupInfo → Exec BlockGroupInfo) :
    Exec (List BlockGroupInfo) := do
  let bg ← getBg bgs i
  return bgs.set i (← f bg)

-- `reduce_allocation`, on the main list of an allocation.
def reduceAllocation : Nat → List BlockGroupInfo → RegionList → Nat →
    Exec (List BlockGroupInfo × RegionList)
  | 0, bgs, l, _ => .ok (bgs, l)
  | fuel + 1, bgs, l, len =>
    if len = 0 then
      .ok (bgs, l)
    else
      match l.last with
      | none => fault .nullDereference
      | some last =>
        match l.regions[last]? with
        | none => fault .useAfterFree
        | some lastReg =>
          if lastReg.len > len then do
            let bgs ← modifyBg bgs lastReg.bg (freeBlocks · len)
            return (bgs,
              { l with regions := l.regions.set last { lastReg with len := lastReg.len - len } })
          else do
            let bgs ← modifyBg bgs lastReg.bg (freeBlocks · lastReg.len)
            -- Without a region before it, the whole list is dropped. Otherwise `last` stays where
            -- it is.
            let l := if last = 0 then {} else { l with regions := l.regions.take last }
            reduceAllocation fuel bgs l (len - lastReg.len)

-- The loop ends after one round, as `region_list_append` clears its pointer.
def appendOobAllocation (force : Bool) (bgs : List BlockGroupInfo) (alloc : BlockAllocation)
    (len : Nat) : Exec (List BlockGroupInfo × BlockAllocation × Bool) := do
  let (bgs, regs) ← ext4AllocateBestFit force bgs len
  match regs with
  | [] =>
    error force s!"failed to allocate {len} blocks"
    return (bgs, alloc, false)
  | reg :: _ =>
    let oobList ← alloc.oobList.append reg
    return (bgs, { alloc with oobList }, true)

end Ext4
