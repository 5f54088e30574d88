import PlatformKnife.Sparse.Basic

namespace Sparse

open CInt

inductive BackedBlockType
  | data
  | file
  | fd
  | fill
  deriving DecidableEq

-- A string on the heap. Strings at one address are one string.
structure CString where
  addr : Nat
  text : String
  deriving DecidableEq

-- The part of a `backed_block` that depends on its type.
inductive Source
  | data (data : Nat)
  | file (filename : CString) (offset : Nat)
  | fd (fd : Int) (offset : Nat)
  | fill (val : UInt32)
  deriving DecidableEq

namespace Source

def type : Source → BackedBlockType
  | data .. => .data
  | file .. => .file
  | fd .. => .fd
  | fill .. => .fill

-- The source of what follows the first `n` bytes.
def advance (n : Nat) : Source → Source
  | data ptr => data (ptr + n)
  | file name off => file name (off + n)
  | fd fd' off => fd fd' (off + n)
  | fill val => fill val

end Source

@[ext]
structure BackedBlock where
  addr : Nat
  block : Nat
  len : Nat
  source : Source
  block_lt : block < 2 ^ 32
  len_lt : len < 2 ^ 32
  deriving DecidableEq

namespace BackedBlock

-- A block whose numbers are given as the `unsigned int`s of the source.
def ofUInts (addr : Nat) (block len : UInt32) (source : Source) : BackedBlock where
  addr := addr
  block := block.toNat
  len := len.toNat
  source := source
  block_lt := block.toNat_lt
  len_lt := len.toNat_lt

end BackedBlock

-- Nodes are identified by their address. None is handed out twice, so a freed node is not mistaken for a
-- linked one.
structure BackedBlockList where
  dataBlocks : List BackedBlock
  lastUsed : Option Nat
  blockSize : Nat
  fresh : Nat
  blockSize_lt : blockSize < 2 ^ 32

namespace BackedBlockList

def ofUInts (dataBlocks : List BackedBlock) (lastUsed : Option Nat) (blockSize : UInt32) (fresh : Nat) :
    BackedBlockList where
  dataBlocks := dataBlocks
  lastUsed := lastUsed
  blockSize := blockSize.toNat
  fresh := fresh
  blockSize_lt := blockSize.toNat_lt

def new (blockSize : Nat) : BackedBlockList where
  dataBlocks := []
  lastUsed := none
  blockSize := u32 blockSize
  fresh := 0
  blockSize_lt := u32_lt _

end BackedBlockList

-- The `switch` in `merge_bb`.
def compatible (a b : BackedBlock) : Bool :=
  match a.source, b.source with
  | .fill v, .fill w => v = w
  | .file n off, .file m off' => n = m ∧ off + a.len = off'
  | .fd f off, .fd g off' => f = g ∧ off + a.len = off'
  | _, _ => false

def BackedBlock.absorb (a b : BackedBlock) : BackedBlock :=
  { a with len := u32 (a.len + b.len), len_lt := u32_lt _ }

-- There is a result if `b` was merged into `a`, and hence freed.
def mergeBb (blockSize : Nat) (a b : BackedBlock) : Except Fault (Option BackedBlock) :=
  if b.block ≤ a.block then
    .error .assertFailed
  else if a.source.type ≠ b.source.type then
    .ok none
  else if blockSize = 0 then
    .error .divideByZero
  else if u32 (a.block + a.len / blockSize) ≠ b.block then
    .ok none
  else if compatible a b then
    .ok (some (a.absorb b))
  else
    .ok none

-- The loop of `queue_bb`. The list is split at `bb`.
def seek (newBb : BackedBlock) (pre : List BackedBlock) (bb : BackedBlock) :
    List BackedBlock → List BackedBlock × BackedBlock × List BackedBlock
  | [] => (pre, bb, [])
  | next :: post =>
    if next.block < newBb.block
    then seek newBb (pre ++ [bb]) next post
    else (pre, bb, next :: post)

-- Dereferences a pointer to a list node.
def locate (addr : Nat) :
    List BackedBlock → Option (List BackedBlock × BackedBlock × List BackedBlock)
  | [] => none
  | bb :: l =>
    if bb.addr = addr
    then some ([], bb, l)
    else (locate addr l).map fun (pre, bb', post) => (bb :: pre, bb', post)

-- The merge of `new_bb` with `new_bb->next`.
def mergeNext (blockSize : Nat) (newBb : BackedBlock) :
    List BackedBlock → Except Fault (BackedBlock × List BackedBlock)
  | [] => .ok (newBb, [])
  | next :: post =>
    match mergeBb blockSize newBb next with
    | .error f => .error f
    | .ok none => .ok (newBb, next :: post)
    | .ok (some newBb) => .ok (newBb, post)

-- Links `new_bb` in behind `bb`, and tries both merges.
def linkBb (blockSize : Nat) (pre : List BackedBlock) (bb newBb : BackedBlock)
    (post : List BackedBlock) : Except Fault (List BackedBlock) :=
  match mergeNext blockSize newBb post with
  | .error f => .error f
  | .ok (newBb, post) =>
    match mergeBb blockSize bb newBb with
    | .error f => .error f
    | .ok none => .ok (pre ++ bb :: newBb :: post)
    | .ok (some bb) => .ok (pre ++ bb :: post)

namespace BackedBlockList

variable (bbl : BackedBlockList)

-- The node from which `queue_bb` starts its search.
def searchStart (newBb head : BackedBlock) (tail : List BackedBlock) :
    Except Fault (List BackedBlock × BackedBlock × List BackedBlock) :=
  match bbl.lastUsed with
  | none => .ok ([], head, tail)
  | some addr =>
    match locate addr (head :: tail) with
    | none => .error .useAfterFree
    | some (pre, bb, post) =>
      if bb.block < newBb.block
      then .ok (pre, bb, post)
      else .ok ([], head, tail)

def queueBb (newBb : BackedBlock) : Except Fault BackedBlockList :=
  match bbl.dataBlocks with
  | [] => .ok { bbl with dataBlocks := [newBb] }
  | head :: tail =>
    if newBb.block < head.block then
      .ok { bbl with dataBlocks := newBb :: head :: tail }
    else
      match bbl.searchStart newBb head tail with
      | .error f => .error f
      | .ok (pre, bb, post) =>
        let (pre, bb, post) := seek newBb pre bb post
        match linkBb bbl.blockSize pre bb newBb post with
        | .error f => .error f
        | .ok l => .ok { bbl with dataBlocks := l, lastUsed := some newBb.addr }

-- The node that is allocated for a call. The arguments are converted to `unsigned int`.
def alloc (source : Source) (len block : Nat) : BackedBlock where
  addr := bbl.fresh
  block := u32 block
  len := u32 len
  source := source
  block_lt := u32_lt _
  len_lt := u32_lt _

def add (source : Source) (len block : Nat) : Except Fault BackedBlockList :=
  queueBb { bbl with fresh := bbl.fresh + 1 } (bbl.alloc source len block)

def addFill (val : UInt32) (len block : Nat) : Except Fault BackedBlockList :=
  bbl.add (.fill val) len block

def addData (data len block : Nat) : Except Fault BackedBlockList :=
  bbl.add (.data data) len block

-- The name of the file is duplicated, at an address of its own.
def addFile (filename : String) (offset len block : Nat) : Except Fault BackedBlockList :=
  bbl.add (.file ⟨bbl.fresh, filename⟩ offset) len block

def addFd (fd : Int) (offset len block : Nat) : Except Fault BackedBlockList :=
  bbl.add (.fd fd offset) len block

end BackedBlockList

-- The two pieces into which `backed_block_split` cuts a chunk of more than `maxLen` bytes.

def BackedBlock.front (bb : BackedBlock) (maxLen : Nat) (h : maxLen < bb.len) : BackedBlock :=
  { bb with len := maxLen, len_lt := h.trans bb.len_lt }

def BackedBlock.back (bb : BackedBlock) (blockSize addr maxLen : Nat) : BackedBlock where
  addr := addr
  block := u32 (bb.block + maxLen / blockSize)
  len := bb.len - maxLen
  source := bb.source.advance maxLen
  block_lt := u32_lt _
  len_lt := (Nat.sub_le ..).trans_lt bb.len_lt

namespace BackedBlockList

def split (bbl : BackedBlockList) (addr maxLen : Nat) : BackedBlockList :=
  match locate addr bbl.dataBlocks with
  | none => bbl
  | some (pre, bb, post) =>
    let maxLen := alignDown maxLen bbl.blockSize
    if h : maxLen < bb.len then
      let newBb := bb.back bbl.blockSize bbl.fresh maxLen
      { bbl with dataBlocks := pre ++ bb.front maxLen h :: newBb :: post, fresh := bbl.fresh + 1 }
    else
      bbl

-- The nodes up to and including the one at `addr`, and those behind it.
def takeThrough (addr : Nat) : List BackedBlock → List BackedBlock × List BackedBlock
  | [] => ([], [])
  | bb :: l =>
    if bb.addr = addr
    then ([bb], l)
    else (bb :: (takeThrough addr l).1, (takeThrough addr l).2)

-- The loop of `backed_block_list_move` over the nodes of `to`.
def splice (block : Nat) (seg : List BackedBlock) : List BackedBlock → List BackedBlock
  | [] => seg
  | [bb] => bb :: seg
  | bb :: bb' :: l =>
    if block < bb'.block
    then bb :: (seg ++ bb' :: l)
    else bb :: splice block seg (bb' :: l)

-- Moves nodes from one list to another, without a `start` from the head on, without a `stop` up to the
-- last one.
def move (src dst : BackedBlockList) (start stop : Option Nat) :
    BackedBlockList × BackedBlockList :=
  let (pre, l) := match start with
    | none => ([], src.dataBlocks)
    | some addr => src.dataBlocks.span (·.addr ≠ addr)
  let (seg, post) := match stop with
    | none => (l, [])
    | some addr => takeThrough addr l
  match seg with
  | [] => (src, dst)
  | bb :: _ => (
    { src with dataBlocks := pre ++ post, lastUsed := none },
    { dst with
      dataBlocks := splice bb.block seg dst.dataBlocks
      lastUsed := none
      fresh := max src.fresh dst.fresh
    }
  )

end BackedBlockList
end Sparse
