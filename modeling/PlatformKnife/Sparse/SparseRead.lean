import PlatformKnife.Sparse.SparseFile

namespace Sparse

open CInt Bytes

def COPY_BUF_SIZE : Nat := 1024 * 1024

-- The state of `sparse_file_read_sparse` between chunks, without a checksum for a `crc_ptr` of `NULL`.
structure ReadState where
  file : File
  backedBlockList : BackedBlockList
  curBlock : Nat
  crc32 : Option UInt32

def readAll (f : File) (n : Nat) : Exec (List UInt8 × File) :=
  match f.read n with
  | none => .error (.errno .einval)
  | some r => .ok r

-- The loop of `process_raw_chunk`, at most `fuel` times.
def crcRaw : (fuel len : Nat) → File → UInt32 → Exec (File × UInt32)
  | 0, _, f, crc => .ok (f, crc)
  | fuel + 1, len, f, crc =>
    if len = 0 then
      .ok (f, crc)
    else
      match readAll f (min len COPY_BUF_SIZE) with
      | .error e => .error e
      | .ok (buf, f) => crcRaw fuel (len - min len COPY_BUF_SIZE) f (sparseCrc32 crc buf)

-- The loops of `process_fill_chunk` and `process_skip_chunk`, at most `fuel` times.
def crcCopyBuf (copybuf : Nat → UInt8) : (fuel len : Nat) → UInt32 → UInt32
  | 0, _, crc => crc
  | fuel + 1, len, crc =>
    if len = 0 then
      crc
    else
      let chunk := min len COPY_BUF_SIZE
      crcCopyBuf copybuf fuel (len - chunk) (sparseCrc32 crc (ofPtr copybuf chunk))

namespace ReadState

abbrev blockSize (st : ReadState) : Nat :=
  st.backedBlockList.blockSize

section

variable (st : ReadState)

def processRawChunk (fd : Int) (chunkSize offset blocks block : Nat) : Exec ReadState :=
  let len := u32 (blocks * st.blockSize)
  if st.blockSize = 0 then
    .error (.fault .divideByZero)
  else if chunkSize % st.blockSize ≠ 0 then
    .error (.errno .einval)
  else if chunkSize / st.blockSize ≠ blocks then
    .error (.errno .einval)
  else
    match st.backedBlockList.addFd fd offset len block with
    | .error f => .error (.fault f)
    | .ok bbl  =>
      match st.crc32 with
      | none => .ok { st with file := st.file.seekCur len, backedBlockList := bbl }
      | some crc =>
        match crcRaw len len st.file crc with
        | .error e => .error e
        | .ok (file, crc) => .ok { st with file, backedBlockList := bbl, crc32 := some crc }

def processFillChunk (chunkSize blocks block : Nat) : Exec ReadState :=
  let len := blocks * st.blockSize
  if 2 ^ 63 ≤ len then
    .error (.fault .signedOverflow)
  else if chunkSize ≠ 4 then
    .error (.errno .einval)
  else
    match readAll st.file 4 with
    | .error e => .error e
    | .ok (d, file) =>
      let fillVal := UInt32.ofNat (fromLe d)
      -- The length is passed on as an `unsigned int`.
      match st.backedBlockList.addFill fillVal len block with
      | .error f => .error (.fault f)
      | .ok bbl  =>
        let crc32 := st.crc32.map fun crc => crcCopyBuf (fillByte fillVal) len len crc
        .ok { st with file, backedBlockList := bbl, crc32 }

def processSkipChunk (chunkSize blocks : Nat) : Exec ReadState :=
  if chunkSize ≠ 0 then
    .error (.errno .einval)
  else
    match st.crc32 with
    | none => .ok st
    | some crc =>
      let len := blocks * st.blockSize
      if 2 ^ 63 ≤ len
      then .error (.fault .signedOverflow)
      else .ok { st with crc32 := some (crcCopyBuf (fun _ => 0) len len crc) }

def processCrc32Chunk (chunkSize : Nat) (crc32 : UInt32) : Exec ReadState :=
  if chunkSize ≠ 4 then
    .error (.errno .einval)
  else
    match readAll st.file 4 with
    | .error e => .error e
    | .ok (d, file) =>
      if UInt32.ofNat (fromLe d) ≠ crc32
      then .error (.errno .einval)
      else .ok { st with file }

-- The number of blocks is returned as an `int`, negative ones as an error.
def advance (chunkSz : Nat) : Exec ReadState :=
  if i32 chunkSz < 0
  then .error (.errno .einval)
  else .ok { st with curBlock := u32 (st.curBlock + chunkSz) }

def processChunk (fd : Int) (offset chunkHdrSz : Nat) (h : ChunkHeader) : Exec ReadState :=
  let chunkDataSize := toU32 (h.totalSz - chunkHdrSz)
  if h.chunkType = CHUNK_TYPE_RAW then
    match st.processRawChunk fd chunkDataSize offset h.chunkSz st.curBlock with
    | .error e => .error e
    | .ok st => st.advance h.chunkSz
  else if h.chunkType = CHUNK_TYPE_FILL then
    match st.processFillChunk chunkDataSize h.chunkSz st.curBlock with
    | .error e => .error e
    | .ok st => st.advance h.chunkSz
  else if h.chunkType = CHUNK_TYPE_DONT_CARE then
    match st.processSkipChunk chunkDataSize h.chunkSz with
    | .error e => .error e
    | .ok st => st.advance h.chunkSz
  else if h.chunkType = CHUNK_TYPE_CRC32 then
    match st.crc32 with
    | none => .error (.fault .nullDereference)
    | some crc => st.processCrc32Chunk chunkDataSize crc
  else
    -- An unknown chunk is reported, but not refused.
    .ok st

-- One round of `sparse_file_read_sparse`: the header of a chunk, then the chunk.
def readChunk (fd : Int) (hdr : SparseHeader) : Exec (ChunkHeader × ReadState) :=
  match readAll st.file CHUNK_HEADER_LEN with
  | .error e => .error e
  | .ok (d, file) =>
    let file := file.seekCur (hdr.chunkHdrSz - CHUNK_HEADER_LEN)
    let h := ChunkHeader.decode d
    match { st with file }.processChunk fd file.pos hdr.chunkHdrSz h with
    | .error e => .error e
    | .ok st => .ok (h, st)

end

def readChunks (st : ReadState) (fd : Int) (hdr : SparseHeader) : (n : Nat) → Exec ReadState
  | 0 => .ok st
  | n + 1 =>
    match st.readChunk fd hdr with
    | .error e => .error e
    | .ok (_, st) => st.readChunks fd hdr n

end ReadState

-- The checks that are made of a header.
def SparseHeader.Valid (h : SparseHeader) : Prop :=
  h.magic = SPARSE_HEADER_MAGIC ∧ h.majorVersion = SPARSE_HEADER_MAJOR_VER ∧
    SPARSE_HEADER_LEN ≤ h.fileHdrSz ∧ CHUNK_HEADER_LEN ≤ h.chunkHdrSz

instance (h : SparseHeader) : Decidable h.Valid :=
  inferInstanceAs (Decidable (_ ∧ _ ∧ _ ∧ _))

namespace SparseFile

-- The state in which `sparse_file_read_sparse` enters its loop.
def readStart (s : SparseFile) (file : File) (hdr : SparseHeader) (crc : Bool) : ReadState where
  file := file.seekCur (hdr.fileHdrSz - SPARSE_HEADER_LEN)
  backedBlockList := s.backedBlockList
  curBlock := 0
  crc32 := if crc then some 0 else none

def readSparse (s : SparseFile) (fd : Int) (file : File) (crc : Bool) : Exec SparseFile :=
  match readAll file SPARSE_HEADER_LEN with
  | .error e => .error e
  | .ok (d, file) =>
    let hdr := SparseHeader.decode d
    if hdr.Valid then
      match (s.readStart file hdr crc).readChunks fd hdr hdr.totalChunks with
      | .error e => .error e
      | .ok st =>
        if hdr.totalBlks ≠ st.curBlock
        then .error (.errno .einval)
        else .ok { s with backedBlockList := st.backedBlockList }
    else
      .error (.errno .einval)

def word (buf : List UInt8) (i : Nat) : UInt32 :=
  UInt32.ofNat (fromLe ((buf.drop (4 * i)).take 4))

-- Whether all words of a whole block are equal to the first one.
def sparseBlock (blockSize : Nat) (buf : List UInt8) : Bool :=
  (List.range (blockSize / 4)).all fun i => word buf 0 = word buf i

-- The loop of `sparse_file_read_normal`, at most `fuel` times.
def readBlocks (fd : Int) : (fuel remain offset block : Nat) → File → BackedBlockList →
    Exec BackedBlockList
  | 0, _, _, _, _, bbl => .ok bbl
  | fuel + 1, remain, offset, block, f, bbl =>
    if remain = 0 then
      .ok bbl
    else
      let toRead := min remain bbl.blockSize
      match readAll f toRead with
      | .error e => .error e
      | .ok (buf, f) =>
        -- The first word is read even from a buffer which is smaller than that.
        if toRead = bbl.blockSize ∧ bbl.blockSize < 4 then
          .error (.fault .outOfBounds)
        else
          let r :=
            if toRead = bbl.blockSize ∧ sparseBlock bbl.blockSize buf
            then bbl.addFill (word buf 0) toRead block
            else bbl.addFd fd offset toRead block
          match r with
          | .error f => .error (.fault f)
          | .ok bbl  =>
            readBlocks fd fuel (remain - toRead) (offset + toRead) (u32 (block + 1)) f bbl

def readNormal (s : SparseFile) (fd : Int) (file : File) : Exec SparseFile :=
  match readBlocks fd s.len s.len 0 0 file s.backedBlockList with
  | .error e => .error e
  | .ok bbl  => .ok { s with backedBlockList := bbl }

def read (s : SparseFile) (fd : Int) (file : File) (sparse crc : Bool) : Exec SparseFile :=
  if crc ∧ ¬sparse then
    .error (.errno .einval)
  else if sparse then
    s.readSparse fd file crc
  else
    s.readNormal fd file

-- `sparse_file_import` of a file with the given contents.
def import_ (fd : Int) (bytes : List UInt8) (crc : Bool) : Exec SparseFile :=
  match readAll ⟨bytes, 0⟩ SPARSE_HEADER_LEN with
  | .error e => .error e
  | .ok (d, file) =>
    let hdr := SparseHeader.decode d
    if hdr.Valid then
      if 2 ^ 63 ≤ hdr.totalBlks * hdr.blkSz
      then .error (.fault .signedOverflow)
      else (new hdr.blkSz (hdr.totalBlks * hdr.blkSz)).read fd (file.seekSet 0) true crc
    else
      .error (.errno .einval)

end SparseFile
end Sparse
