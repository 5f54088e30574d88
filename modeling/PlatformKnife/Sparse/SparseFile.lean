import PlatformKnife.Sparse.OutputFile

namespace Sparse

open CInt Bytes BackedBlockList

-- The block size of a sparse file is the one of its list of blocks.
structure SparseFile where
  len : Nat
  backedBlockList : BackedBlockList

namespace SparseFile

abbrev blockSize (s : SparseFile) : Nat :=
  s.backedBlockList.blockSize

abbrev dataBlocks (s : SparseFile) : List BackedBlock :=
  s.backedBlockList.dataBlocks

def new (blockSize len : Nat) : SparseFile where
  len := len
  backedBlockList := .new blockSize

def addData (s : SparseFile) (data len block : Nat) : Except Fault SparseFile :=
  (s.backedBlockList.addData data len block).map ({ s with backedBlockList := · })

def addFill (s : SparseFile) (fillVal : UInt32) (len block : Nat) : Except Fault SparseFile :=
  (s.backedBlockList.addFill fillVal len block).map ({ s with backedBlockList := · })

def addFile (s : SparseFile) (filename : String) (fileOffset len block : Nat) :
    Except Fault SparseFile :=
  (s.backedBlockList.addFile filename fileOffset len block).map ({ s with backedBlockList := · })

def addFd (s : SparseFile) (fd : Int) (fileOffset len block : Nat) : Except Fault SparseFile :=
  (s.backedBlockList.addFd fd fileOffset len block).map ({ s with backedBlockList := · })

-- The value of `last_block` after a block.
def nextBlock (blockSize : Nat) (bb : BackedBlock) : Nat :=
  u32 (bb.block + divRoundUp bb.len blockSize)

-- The loop of `sparse_count_chunks`.
def countBlocks (blockSize : Nat) : (lastBlock : Nat) → List BackedBlock → Nat × Nat
  | lastBlock, [] => (0, lastBlock)
  | lastBlock, bb :: l =>
    let (chunks, last) := countBlocks blockSize (nextBlock blockSize bb) l
    (if lastBlock < bb.block then chunks + 2 else chunks + 1, last)

def countChunks (s : SparseFile) : Nat :=
  let (chunks, lastBlock) := countBlocks s.blockSize 0 s.dataBlocks
  if lastBlock < (s.len + s.blockSize - 1) / s.blockSize then chunks + 1 else chunks

section Write

variable [OutputFileOps σ]

-- The result for a single block is not looked at, but what was written stays.
def writeBlock (env : Env) (out : OutputFile σ) (bb : BackedBlock) : OutputFile σ × Bool :=
  match bb.source with
  | .data ptr => out.writeDataChunk bb.len fun i => env.mem (ptr + i)
  | .file filename offset => out.writeFileChunk env bb.len filename.text offset
  | .fd fd offset => out.writeFdChunk env bb.len fd offset
  | .fill val => out.writeFillChunk bb.len val

def writeBlocks (env : Env) (blockSize : Nat) (out : OutputFile σ) :
    (lastBlock : Nat) → List BackedBlock → OutputFile σ × Nat
  | lastBlock, [] => (out, lastBlock)
  | lastBlock, bb :: l =>
    let out :=
      if lastBlock < bb.block
      then (out.writeSkipChunk ((bb.block - lastBlock) * blockSize)).1
      else out
    writeBlocks env blockSize (writeBlock env out bb).1 (nextBlock blockSize bb) l

def writeAllBlocks (env : Env) (s : SparseFile) (out : OutputFile σ) :
    Except Fault (OutputFile σ) :=
  let (out, lastBlock) := writeBlocks env s.blockSize out 0 s.dataBlocks
  if s.len < lastBlock * s.blockSize then
    .error .assertFailed
  else if 0 < s.len - lastBlock * s.blockSize then
    .ok (out.writeSkipChunk (s.len - lastBlock * s.blockSize)).1
  else
    .ok out

-- The common part of `sparse_file_write`, `sparse_file_callback` and `sparse_file_len`.
def writeTo (env : Env) (s : SparseFile) (sink : σ) (sparse crc : Bool) : Exec σ :=
  if s.blockSize = 0 then
    .error (.fault .divideByZero)
  else
    match OutputFile.init env sink s.blockSize s.len sparse s.countChunks crc with
    | none => .error (.errno .enomem)
    | some out =>
      match writeAllBlocks env s out with
      | .error f => .error (.fault f)
      | .ok out  => .ok out.close.1.sink

end Write

def write (env : Env) (s : SparseFile) (fd : File) (sparse crc : Bool) : Exec File :=
  s.writeTo env fd sparse crc

-- `sparse_file_len`, which is the final `count` of its callback.
def fileLen (env : Env) (s : SparseFile) (sparse crc : Bool) : Exec Int :=
  match s.writeTo env (⟨0⟩ : OutCounter) sparse crc with
  | .error e => .error e
  | .ok out  => .ok out.count

-- The bytes that a chunk takes in a file of the sparse format.
def chunkCount (env : Env) (blockSize len : Nat) (bb : BackedBlock) : Int :=
  let out : OutputFile OutCounter :=
    { sink := ⟨0⟩, crc32 := 0, sparse := true, useCrc := false, blockSize, len }
  (writeBlock env out bb).1.sink.count

-- Where the loop of `move_chunks_up_to_len` ends: the current block (`NULL` if all of them fit), the last
-- block to be moved, and the length that is passed to `backed_block_split`.
structure Cut where
  bb : Option BackedBlock
  lastBb : Option Nat
  splitLen : Option Nat

def cut (env : Env) (blockSize imageLen len : Nat) :
    (fileLen : Int) → (lastBb : Option Nat) → List BackedBlock → Cut
  | _, lastBb, [] => ⟨none, lastBb, none⟩
  | fileLen, lastBb, bb :: l =>
    let count := chunkCount env blockSize imageLen bb
    if fileLen + count > len then
      if lastBb = none ∨ len - fileLen > (len / 8 : Nat)
      then ⟨some bb, some bb.addr, some (toU32 (len - fileLen))⟩
      else ⟨some bb, lastBb, none⟩
    else
      cut env blockSize imageLen len (fileLen + count) (some bb.addr) l

-- Splits the block at which the loop ended.
def splitAt (bbl : BackedBlockList) (c : Cut) : BackedBlockList :=
  match c.bb, c.splitLen with
  | some bb, some n => bbl.split bb.addr n
  | _, _ => bbl

def overhead : Nat := 80

-- Moves the leading chunks of one file to another. The flag tells a returned block from `NULL`.
def moveChunksUpToLen (env : Env) (src dst : SparseFile) (len : Nat) :
    Bool × SparseFile × SparseFile :=
  if env.calloc (i32 dst.blockSize) then
    let len := toU32 (len - overhead)
    let start := src.dataBlocks.head?.map (·.addr)
    let c := cut env dst.blockSize dst.len len 0 none src.dataBlocks
    let (list, list') := (splitAt src.backedBlockList c).move dst.backedBlockList start c.lastBb
    (c.bb.isSome, { src with backedBlockList := list }, { dst with backedBlockList := list' })
  else
    (false, src, dst)

structure Resparse where
  count : Nat
  in_   : SparseFile
  tmp   : SparseFile
  out   : List SparseFile

-- The body of the loop of `sparse_file_resparse`.
def resparseRound (env : Env) (maxLen : Nat) (outCount : Int) (r : Resparse) : Bool × Resparse :=
  let (more, in_, s) := moveChunksUpToLen env r.in_ (new r.in_.blockSize r.in_.len) maxLen
  if r.count < outCount then
    (more, { r with count := r.count + 1, in_, out := r.out ++ [s] })
  else
    let (_, tmp) := s.backedBlockList.move r.tmp.backedBlockList none none
    (more, { r with count := r.count + 1, in_, tmp := { r.tmp with backedBlockList := tmp } })

def resparseLoop (env : Env) (maxLen : Nat) (outCount : Int) :
    (fuel : Nat) → Resparse → Option Resparse
  | 0, _ => none
  | fuel + 1, r =>
    let (more, r) := resparseRound env maxLen outCount r
    if more then resparseLoop env maxLen outCount fuel r else some r

-- The result of a call which returns after at most `fuel` rounds: the returned count, what is left in
-- `in_s`, and the files that were stored to `out_s`.
def resparse (env : Env) (fuel : Nat) (in_ : SparseFile) (maxLen : Nat) (outCount : Int) :
    Option (Nat × SparseFile × List SparseFile) :=
  match resparseLoop env maxLen outCount fuel ⟨0, in_, new in_.blockSize in_.len, []⟩ with
  | none => none
  | some r =>
    let (_, list) := r.tmp.backedBlockList.move r.in_.backedBlockList none none
    some (r.count, { r.in_ with backedBlockList := list }, r.out)

end SparseFile
end Sparse
