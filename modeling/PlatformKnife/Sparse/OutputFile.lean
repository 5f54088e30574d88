import PlatformKnife.Lib.File
import PlatformKnife.Sparse.BackedBlock
import PlatformKnife.Sparse.Crc32
import PlatformKnife.Sparse.Format

namespace Sparse

open CInt Bytes

-- The operations on the sink of an output file. The flag is unset for a negative result.
class OutputFileOps (σ : Type) where
  write : σ → (Nat → UInt8) → Int → σ × Bool
  skip  : σ → Int → σ × Bool
  pad   : σ → Int → σ × Bool

-- `file_write` hands its `int` to `write`, which refuses a negative length.
def fileWrite (f : File) (data : Nat → UInt8) (len : Int) : File × Bool :=
  if len < 0 then (f, false) else (f.write (ofPtr data len.toNat), true)

def fileSkip (f : File) (cnt : Int) : File × Bool :=
  if f.pos + cnt < 0 then (f, false) else (f.seekSet (f.pos + cnt).toNat, true)

def filePad (f : File) (len : Int) : File × Bool :=
  if len < 0 then (f, false) else (f.truncate len.toNat, true)

instance : OutputFileOps File where
  write := fileWrite
  skip  := fileSkip
  pad   := filePad

-- The callback output of which only the `count` of `out_counter_write` is kept.
structure OutCounter where
  count : Int
  deriving DecidableEq

def outCounterWrite (o : OutCounter) (len : Int) : OutCounter :=
  ⟨o.count + len⟩

def INT_MAX : Nat := 2 ^ 31 - 1

-- The loop of `callback_file_skip`, at most `fuel` times.
def callbackFileSkip (o : OutCounter) : (fuel off : Nat) → OutCounter
  | 0, _ => o
  | fuel + 1, off =>
    if off = 0 then o else callbackFileSkip (outCounterWrite o (min off INT_MAX)) fuel (off - INT_MAX)

instance : OutputFileOps OutCounter where
  write o _ len := (outCounterWrite o len, true)
  skip o off := (callbackFileSkip o off.toNat off.toNat, true)
  pad o _ := (o, false)

structure OutputFile (σ : Type) where
  sink : σ
  crc32 : UInt32
  sparse : Bool
  useCrc : Bool
  blockSize : Nat
  len : Nat

namespace OutputFile

variable [OutputFileOps σ]

def write (out : OutputFile σ) (data : Nat → UInt8) (len : Int) : OutputFile σ × Bool :=
  let (sink, ok) := OutputFileOps.write out.sink data len
  ({ out with sink }, ok)

def skip (out : OutputFile σ) (cnt : Int) : OutputFile σ × Bool :=
  let (sink, ok) := OutputFileOps.skip out.sink cnt
  ({ out with sink }, ok)

def pad (out : OutputFile σ) (len : Int) : OutputFile σ × Bool :=
  let (sink, ok) := OutputFileOps.pad out.sink len
  ({ out with sink }, ok)

def writeBytes (out : OutputFile σ) (d : List UInt8) : OutputFile σ × Bool :=
  out.write (toPtr d) d.length

-- Continues after a call unless it returned a negative value.
def andThen (r : OutputFile σ × Bool) (k : OutputFile σ → OutputFile σ × Bool) :
    OutputFile σ × Bool :=
  if r.2 then k r.1 else r

-- Updates the running checksum if one is kept.
def addCrc (out : OutputFile σ) (d : List UInt8) : OutputFile σ :=
  { out with crc32 := if out.useCrc then sparseCrc32 out.crc32 d else out.crc32 }

def zeroBuf : Nat → UInt8 :=
  fun _ => 0

-- `fill_buf` is allocated with zeros and has the fill value in each of its whole words.
def fillBuf (blockSize : Nat) (val : UInt32) : Nat → UInt8 :=
  fun i => if i < 4 * (blockSize / 4) then fillByte val i else 0

def writeSparseSkipChunk (out : OutputFile σ) (skipLen : Nat) : OutputFile σ × Bool :=
  if skipLen % out.blockSize ≠ 0 then
    (out, false)
  else
    let header : ChunkHeader := {
      chunkType := CHUNK_TYPE_DONT_CARE
      reserved1 := 0
      chunkSz   := skipLen / out.blockSize
      totalSz   := CHUNK_HEADER_LEN
    }
    out.writeBytes header.encode

-- The loop which adds a fill value to the checksum.
def addFillCrc (out : OutputFile σ) (val : UInt32) : (count : Nat) → OutputFile σ
  | 0 => out
  | count + 1 => (out.addCrc (le 4 val.toNat)).addFillCrc val count

def writeSparseFillChunk (out : OutputFile σ) (len : Nat) (val : UInt32) : OutputFile σ × Bool :=
  let rndUpLen := i32 (align len out.blockSize)
  let header : ChunkHeader := {
    chunkType := CHUNK_TYPE_FILL
    reserved1 := 0
    chunkSz   := toU32 rndUpLen / out.blockSize
    totalSz   := CHUNK_HEADER_LEN + 4
  }
  andThen (out.writeBytes header.encode) fun out =>
  andThen (out.writeBytes (le 4 val.toNat)) fun out =>
  (out.addFillCrc val (out.blockSize / 4), true)

def writeSparseDataChunk (out : OutputFile σ) (len : Nat) (data : Nat → UInt8) :
    OutputFile σ × Bool :=
  let rndUpLen := i32 (align len out.blockSize)
  let zeroLen := i32 (rndUpLen - len)
  let header : ChunkHeader := {
    chunkType := CHUNK_TYPE_RAW
    reserved1 := 0
    chunkSz   := toU32 rndUpLen / out.blockSize
    totalSz   := toU32 (CHUNK_HEADER_LEN + rndUpLen)
  }
  andThen (out.writeBytes header.encode) fun out =>
  andThen (out.write data (i32 len)) fun out =>
  andThen (if zeroLen ≠ 0 then out.write zeroBuf zeroLen else (out, true)) fun out =>
  ((out.addCrc (ofPtr data len)).addCrc (ofPtr zeroBuf zeroLen.toNat), true)

def writeSparseEndChunk (out : OutputFile σ) : OutputFile σ × Bool :=
  if out.useCrc then
    let header : ChunkHeader := {
      chunkType := CHUNK_TYPE_CRC32
      reserved1 := 0
      chunkSz   := 0
      totalSz   := CHUNK_HEADER_LEN + 4
    }
    andThen (out.writeBytes header.encode) fun out =>
    -- The result of the second write is not looked at.
    ((out.writeBytes (le 4 out.crc32.toNat)).1, true)
  else
    (out, true)

def writeNormalDataChunk (out : OutputFile σ) (len : Nat) (data : Nat → UInt8) :
    OutputFile σ × Bool :=
  let rndUpLen := align len out.blockSize
  andThen (out.write data (i32 len)) fun out =>
  if len < rndUpLen then out.skip (rndUpLen - len : Nat) else (out, true)

-- The loop of `write_normal_fill_chunk`, at most `fuel` times.
def writeFillBlocks (out : OutputFile σ) (val : UInt32) : (fuel len : Nat) → OutputFile σ × Bool
  | 0, _ => (out, true)
  | fuel + 1, len =>
    if len = 0 then
      (out, true)
    else
      let writeLen := min len out.blockSize
      andThen (out.write (fillBuf out.blockSize val) (i32 writeLen)) fun out =>
      out.writeFillBlocks val fuel (len - writeLen)

section

variable (out : OutputFile σ)

def writeNormalFillChunk (len : Nat) (val : UInt32) : OutputFile σ × Bool :=
  out.writeFillBlocks val len len

def writeNormalSkipChunk (len : Nat) : OutputFile σ × Bool :=
  out.skip len

def writeNormalEndChunk : OutputFile σ × Bool :=
  out.pad out.len

-- The functions of `sparse_ops` that were set when the output file was opened.

def writeDataChunk (len : Nat) (data : Nat → UInt8) : OutputFile σ × Bool :=
  if out.sparse then out.writeSparseDataChunk len data else out.writeNormalDataChunk len data

def writeFillChunk (len : Nat) (val : UInt32) : OutputFile σ × Bool :=
  if out.sparse then out.writeSparseFillChunk len val else out.writeNormalFillChunk len val

def writeSkipChunk (len : Nat) : OutputFile σ × Bool :=
  if out.sparse then out.writeSparseSkipChunk len else out.writeNormalSkipChunk len

def close : OutputFile σ × Bool :=
  if out.sparse then out.writeSparseEndChunk else out.writeNormalEndChunk

end

def writeFdChunk (env : Env) (out : OutputFile σ) (len : Nat) (fd : Int) (offset : Nat) :
    OutputFile σ × Bool :=
  let alignedOffset := alignDown offset 4096
  let alignedDiff := offset - alignedOffset
  let bufferSize := i32 (len + alignedDiff : Nat)
  (env.mmap fd bufferSize alignedOffset).elim (out, false) fun data =>
  out.writeDataChunk len fun i => data (alignedDiff + i)

def writeFileChunk (env : Env) (out : OutputFile σ) (len : Nat) (file : String) (offset : Nat) :
    OutputFile σ × Bool :=
  match env.open_ file with
  | none => (out, false)
  | some fileFd => out.writeFdChunk env len fileFd offset

-- `output_file_init` for the given sink. There is no result if a buffer can not be allocated. `calloc`
-- gets the block size as an `int`.
def init (env : Env) (sink : σ) (blockSize len : Nat) (sparse : Bool) (chunks : Nat) (crc : Bool) :
    Option (OutputFile σ) :=
  if env.calloc (i32 blockSize) then
    let out : OutputFile σ := { sink, crc32 := 0, sparse, useCrc := crc, blockSize, len }
    let header : SparseHeader := {
      magic := SPARSE_HEADER_MAGIC
      majorVersion := SPARSE_HEADER_MAJOR_VER
      minorVersion := SPARSE_HEADER_MINOR_VER
      fileHdrSz := SPARSE_HEADER_LEN
      chunkHdrSz := CHUNK_HEADER_LEN
      blkSz := blockSize
      totalBlks := len / blockSize
      totalChunks := if crc then chunks + 1 else chunks
      imageChecksum := 0
    }
    if sparse then
      let (out, ok) := out.writeBytes header.encode
      if ok then some out else none
    else
      some out
  else
    none

end OutputFile
end Sparse
