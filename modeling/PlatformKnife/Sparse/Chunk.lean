import PlatformKnife.Sparse.BlockMap

-- The sparse format itself: a header, and chunks which each stand for a number of blocks.

namespace Sparse

open Bytes CInt OutputFile

inductive Chunk
  | raw (data : List UInt8)
  | fill (val : UInt32) (blocks : Nat)
  | skip (blocks : Nat)
  | crc32 (crc : UInt32)
  deriving DecidableEq

namespace Chunk

def type : Chunk → Nat
  | raw .. => CHUNK_TYPE_RAW
  | fill .. => CHUNK_TYPE_FILL
  | skip .. => CHUNK_TYPE_DONT_CARE
  | crc32 .. => CHUNK_TYPE_CRC32

def size (blockSize : Nat) : Chunk → Nat
  | raw data => data.length / blockSize
  | fill _ blocks => blocks
  | skip blocks => blocks
  | crc32 _ => 0

def payload : Chunk → List UInt8
  | raw data => data
  | fill val _ => le 4 val.toNat
  | skip _ => []
  | crc32 crc => le 4 crc.toNat

def header (blockSize : Nat) (c : Chunk) : ChunkHeader where
  chunkType := c.type
  reserved1 := 0
  chunkSz   := c.size blockSize
  totalSz   := CHUNK_HEADER_LEN + c.payload.length

def encode (blockSize : Nat) (c : Chunk) : List UInt8 :=
  (c.header blockSize).encode ++ c.payload

def expand (blockSize : Nat) : Chunk → List UInt8
  | raw data => data
  | fill val blocks => ofPtr (fillByte val) (blocks * blockSize)
  | skip blocks => List.replicate (blocks * blockSize) 0
  | crc32 _ => []

def parse (blockSize : Nat) (d : List UInt8) : Option (Chunk × List UInt8) :=
  let h := ChunkHeader.decode d
  let d := d.drop CHUNK_HEADER_LEN
  if h.chunkType = CHUNK_TYPE_RAW then
    some (raw (d.take (h.chunkSz * blockSize)), d.drop (h.chunkSz * blockSize))
  else if h.chunkType = CHUNK_TYPE_FILL then
    some (fill (UInt32.ofNat (fromLe (d.take 4))) h.chunkSz, d.drop 4)
  else if h.chunkType = CHUNK_TYPE_DONT_CARE then
    some (skip h.chunkSz, d)
  else if h.chunkType = CHUNK_TYPE_CRC32 then
    some (crc32 (UInt32.ofNat (fromLe (d.take 4))), d.drop 4)
  else
    none

def parseAll (blockSize : Nat) : (fuel : Nat) → List UInt8 → Option (List Chunk)
  | _, [] => some []
  | 0, _ :: _ => none
  | fuel + 1, b :: d =>
    match parse blockSize (b :: d) with
    | none => none
    | some (c, d) => (parseAll blockSize fuel d).map (c :: ·)

def expandAll (blockSize : Nat) : Nat → List UInt8 → Option (List UInt8)
  | 0, _ => some []
  | n + 1, d =>
    match parse blockSize d with
    | none => none
    | some (c, d) => (expandAll blockSize n d).map (c.expand blockSize ++ ·)

end Chunk

-- The header that is written in front of the chunks.
def fileHeader (blockSize blocks chunks : Nat) : SparseHeader where
  magic := SPARSE_HEADER_MAGIC
  majorVersion := SPARSE_HEADER_MAJOR_VER
  minorVersion := SPARSE_HEADER_MINOR_VER
  fileHdrSz := SPARSE_HEADER_LEN
  chunkHdrSz := CHUNK_HEADER_LEN
  blkSz := blockSize
  totalBlks := blocks
  totalChunks := chunks
  imageChecksum := 0

def expandFile (d : List UInt8) : Option (List UInt8) :=
  let h := SparseHeader.decode d
  if h.Valid then Chunk.expandAll h.blkSz h.totalChunks (d.drop h.fileHdrSz) else none

-- The file has as many chunks as its header says, with as many blocks.
def Consistent (d : List UInt8) : Prop :=
  let h := SparseHeader.decode d
  ∃ cs, Chunk.parseAll h.blkSz d.length (d.drop h.fileHdrSz) = some cs ∧
    cs.length = h.totalChunks ∧ (cs.map (·.size h.blkSz)).sum = h.totalBlks

def encodeFile (blockSize blocks chunks : Nat) (cs : List Chunk) : List UInt8 :=
  (fileHeader blockSize blocks chunks).encode ++ cs.flatMap (·.encode blockSize)

-- The first `len` bytes of a buffer, padded with zeros to a multiple of the block size.
def padded (blockSize : Nat) (data : Nat → UInt8) (len : Nat) : List UInt8 :=
  ofPtr data len ++ List.replicate (blockSize * ((len + blockSize - 1) / blockSize) - len) 0

-- The chunk that a block of a file is written as.
def BackedBlock.chunk (env : Env) (blockSize : Nat) (bb : BackedBlock) : Chunk :=
  match bb.source with
  | .fill val => .fill val (bb.blocks blockSize)
  | source => .raw (padded blockSize (source.ptr env) bb.len)

-- The chunks that a list is written as, with skips where blocks are not adjacent.
def chunksFrom (env : Env) (blockSize : Nat) : (lastBlock : Nat) → List BackedBlock → List Chunk
  | _, [] => []
  | lastBlock, bb :: l =>
    (if lastBlock < bb.block then [.skip (bb.block - lastBlock)] else []) ++
      bb.chunk env blockSize :: chunksFrom env blockSize (SparseFile.nextBlock blockSize bb) l

def lastBlock (blockSize : Nat) : (last : Nat) → List BackedBlock → Nat
  | last, [] => last
  | _, bb :: l => lastBlock blockSize (SparseFile.nextBlock blockSize bb) l

def tailLen (blockSize len : Nat) (l : List BackedBlock) : Nat :=
  len - lastBlock blockSize 0 l * blockSize

namespace SparseFile

-- The chunks that a file is written as. A skip at the end is refused without whole blocks.
def chunks (env : Env) (s : SparseFile) : List Chunk :=
  let tail := tailLen s.blockSize s.len s.dataBlocks
  chunksFrom env s.blockSize 0 s.dataBlocks ++
    if 0 < tail ∧ tail % s.blockSize = 0 then [.skip (tail / s.blockSize)] else []

end SparseFile

-- What the writer adds to its checksum: one block of a fill, nothing of a skip.
def Chunk.written (blockSize : Nat) : Chunk → List UInt8
  | raw data => data
  | fill val _ => (List.replicate (blockSize / 4) (le 4 val.toNat)).flatten
  | skip _ => []
  | crc32 _ => []

end Sparse
