import PlatformKnife.Ext4.Run
import PlatformKnife.Lib.LinkedPath

-- The lists of regions as they are in memory. Both links of a region matter, unlike for an allocation
-- with its cursor at the start of a region.
namespace Ext4

open CInt LinkedPath

structure RegionNode extends Region where
  next : Option Nat := none
  prev : Option Nat := none
  deriving DecidableEq

-- The regions by their addresses. The next one that is allocated has the address `size`.
structure Heap where
  node : Nat → RegionNode
  size : Nat

namespace Heap

variable (h : Heap)

include h

def set (i : Nat) (node : RegionNode) : Heap :=
  { h with node := Function.update h.node i node }

def setNext (i : Nat) (next : Option Nat) : Heap :=
  h.set i { h.node i with next }

def setPrev (i : Nat) (prev : Option Nat) : Heap :=
  h.set i { h.node i with prev }

-- The writes through a pointer that may be null.

def setNext? (reg next : Option Nat) : Heap :=
  match reg with
  | none => h
  | some i => h.setNext i next

def setPrev? (reg prev : Option Nat) : Heap :=
  match reg with
  | none => h
  | some i => h.setPrev i prev

-- The regions that a loop over `next` meets. It would not end in a circle.
def chain (reg : Option Nat) : List Nat :=
  walk RegionNode.next h.node h.size reg

def regions (reg : Option Nat) : List Region :=
  (h.chain reg).map fun i => (h.node i).toRegion

-- A region is split. The region after it still has its link back to `reg`.
def cut (reg len : Nat) : Heap :=
  let old := h.node reg
  let new := {
    bg    := old.bg
    block := u32 (old.block + len)
    len   := old.len - len
    next  := old.next
    prev  := some reg
  }
  let h' := { h with size := h.size + 1 }.set h.size new
  h'.set reg { old with next := some h.size, len }

end Heap

structure ListRef where
  first : Option Nat := none
  last : Option Nat := none
  iter : Option Nat := none
  partialIter : Nat := 0
  deriving DecidableEq

def regionListRemove (h : Heap) (list : ListRef) (reg : Nat) : Heap × ListRef :=
  let h := h.setNext? (h.node reg).prev (h.node reg).next
  let h := h.setPrev? (h.node reg).next (h.node reg).prev
  let list := {
    list with
    first := if list.first = some reg then (h.node reg).next else list.first
    last  := if list.last = some reg then (h.node reg).prev else list.last
  }
  (h.set reg { h.node reg with next := none, prev := none }, list)

def regionListAppend (h : Heap) (list : ListRef) (reg : Nat) : Exec (Heap × ListRef) :=
  match list.first with
  | none =>
    .ok (h.set reg { h.node reg with next := none, prev := none },
      { first := some reg, last := some reg, iter := some reg })
  | some _ =>
    match list.last with
    | none => fault .nullDereference
    | some last =>
      let h := h.setNext last (some reg)
      .ok (h.set reg { h.node reg with next := none, prev := some last }, { list with last := some reg })

-- `struct block_allocation`, with the memory that its lists are in.
structure LinkedAllocation where
  heap    : Heap
  list    : ListRef := {}
  oobList : ListRef := {}

namespace LinkedAllocation

def getBlock (a : LinkedAllocation) (block : Nat) : Nat :=
  RegionList.blockAt (a.heap.regions a.list.iter) (u32 (block + a.list.partialIter))

-- The result is the region that the call returns.
def doSplitAllocation (h : Heap) (list : ListRef) (len : Nat) : Heap × ListRef × Option Nat :=
  let (n, len) := RegionList.skip (h.regions list.iter) len
  match (h.chain list.iter)[n]? with
  | none => (h, list, none)
  | some reg =>
    if len > 0 then
      (h.cut reg len, { list with iter := some h.size }, list.iter)
    else
      (h, list, some reg)

def splitAllocation (h : Heap) (list : ListRef) (len : Nat) : Heap × ListRef × Option Nat :=
  let (h, list, _) := doSplitAllocation h list list.partialIter
  let (h, list, middle) := doSplitAllocation h list len
  (h, { list with partialIter := 0 }, middle)

-- The loop of `reserve_oob_blocks`.
def moveOob : Nat → LinkedAllocation → Option Nat → Exec LinkedAllocation
  | 0, a, _ => .ok a
  | fuel + 1, a, oob =>
    match oob with
    | none => .ok a
    | some oob =>
      if a.list.iter = some oob then
        .ok a
      else do
        let next := (a.heap.node oob).next
        let (heap, list) := regionListRemove a.heap a.list oob
        let (heap, oobList) ← regionListAppend heap a.oobList oob
        moveOob fuel { heap, list, oobList } next

-- The result is whether the call returns 0.
def reserveOobBlocks (a : LinkedAllocation) (blocks : Int) : Exec (LinkedAllocation × Bool) := do
  let (heap, list, oob) := splitAllocation a.heap a.list (toU32 blocks)
  match oob with
  | none => return ({ a with heap, list }, false)
  | some oob => return (← moveOob heap.size { a with heap, list } (some oob), true)

end LinkedAllocation

-- The loop of `advance_list_ptr` from `iter` on: `partial_iter` after it, and whether it returns 0. The
-- pointer `iter` is not written.
def advanceFrom : List Region → Nat → Int → Nat × Bool
  | [], partialIter, blocks => (partialIter, blocks ≤ 0)
  | reg :: regs, partialIter, blocks =>
    if blocks > 0 then
      if reg.len > u32 (partialIter + toU32 blocks) then
        (u32 (partialIter + toU32 blocks), true)
      else
        advanceFrom regs 0 (i32 (blocks - subU32 reg.len partialIter))
    else
      (partialIter, true)

def advanceListPtr (h : Heap) (list : ListRef) (blocks : Int) : ListRef × Bool :=
  let (partialIter, ok) := advanceFrom (h.regions list.iter) list.partialIter blocks
  ({ list with partialIter }, ok)

namespace LinkedAllocation

-- The result is whether the call returns 0.
def advanceBlocks (a : LinkedAllocation) (blocks : Int) : LinkedAllocation × Bool :=
  let (list, ok) := advanceListPtr a.heap a.list blocks
  ({ a with list }, ok)

end LinkedAllocation

-- The blocks of regions, and how many they are.

def regionBlocks (regs : List Region) : List Nat :=
  regs.flatMap Region.blocks

def lenSum (regs : List Region) : Nat :=
  (regs.map Region.len).sum

namespace Heap

def regionsOf (h : Heap) (ids : List Nat) : List Region :=
  ids.map fun i => (h.node i).toRegion

def blocksOf (h : Heap) (ids : List Nat) : List Nat :=
  regionBlocks (h.regionsOf ids)

def blocks (h : Heap) (reg : Option Nat) : List Nat :=
  regionBlocks (h.regions reg)

-- The addresses of regions that were allocated.
structure Valid (h : Heap) (ids : List Nat) : Prop where
  nodup : ids.Nodup
  lt    : ∀ i ∈ ids, i < h.size

end Heap

-- A block allocation, by the addresses of the regions of its two lists: each region has some blocks,
-- those of the main list are distinct block numbers, and the cursor is on one or at the end. Only the
-- region of the cursor has to be linked back, as a split breaks the link of the region behind it. The
-- field `last` of the main list can be anything, as `allocate_blocks` does not set it properly.
structure Proper (a : LinkedAllocation) (main oob : List Nat) : Prop where
  list : Path RegionNode.next a.heap.node a.list.first main none
  oobs : Path RegionNode.next a.heap.node a.oobList.first oob none
  last : a.oobList.last = oob.getLast?
  valid : a.heap.Valid (main ++ oob)
  pos : ∀ i ∈ main, 0 < (a.heap.node i).len
  nodup : (a.heap.blocksOf main).Nodup
  numbers : ∀ block ∈ a.heap.blocksOf main, block < ext4AllocateFailed
  cursor : ∀ i, a.list.iter = some i → ∃ behind ks, main = behind ++ i :: ks ∧
    (a.heap.node i).prev = behind.getLast? ∧ a.list.partialIter < (a.heap.node i).len

namespace LinkedAllocation

-- The blocks of the main list, those from the cursor on and in front of it, and those of the other list.

def blocks (a : LinkedAllocation) : List Nat :=
  a.heap.blocks a.list.first

variable (a : LinkedAllocation)

def ahead : List Nat :=
  (a.heap.blocks a.list.iter).drop a.list.partialIter

def behind : List Nat :=
  a.blocks.take (a.blocks.length - a.ahead.length)

def oobBlocks : List Nat :=
  a.heap.blocks a.oobList.first

-- The next blocks and the one after them lie in the region of the cursor.
def StaysInRegion (n : Nat) : Prop :=
  ∀ reg, (a.heap.regions a.list.iter).head? = some reg → a.list.partialIter + n < reg.len

-- The next blocks end where a region ends.
def EndsRegion (n : Nat) : Prop :=
  ∃ k, lenSum ((a.heap.regions a.list.iter).take k) = a.list.partialIter + n

end LinkedAllocation

-- What advancing the cursor is for.
def AdvanceLaw (a : LinkedAllocation) (n : Nat) : Prop :=
  ∀ a', a.advanceBlocks n = (a', true) → ∀ i, a'.getBlock i = a.getBlock (n + i)

-- The next blocks are appended to the other list, and the main list keeps the rest.
structure ReservesNext (a : LinkedAllocation) (n : Nat) (a' : LinkedAllocation) : Prop where
  oob    : a'.oobBlocks = a.oobBlocks ++ (List.range n).map a.getBlock
  blocks : a'.blocks = a.behind ++ a.ahead.drop n
  cursor : a'.ahead = a.ahead.drop n

def ReserveLaw (a : LinkedAllocation) (n : Nat) : Prop :=
  ∀ a', a.reserveOobBlocks n = .ok (a', true) → ReservesNext a n a'

end Ext4
