import PlatformKnife.Sparse.Theorems.Chunk
import PlatformKnife.Sparse.Theorems.Crc32

-- Writing a file in the sparse format appends the encodings of its chunks.

namespace Sparse

open Bytes CInt OutputFile SparseFile List Chunk

variable {env : Env} {bb : BackedBlock} {l : List BackedBlock} {s : SparseFile}
variable {bs len n : Nat} {data : Nat → UInt8} {val : UInt32} {d : List UInt8} {c : Chunk} {cs : List Chunk}
variable {out : OutputFile File}

theorem padded_length (hb : 0 < bs) : (padded bs data len).length = bs * ((len + bs - 1) / bs) := by
  have := le_mul_ceil (n := len) hb
  simp only [padded, length_append, ofPtr_length, length_replicate]
  omega

namespace OutputFile

-- The output is written behind everything that has been written before.
def AtEnd (out : OutputFile File) : Prop :=
  out.sink.pos = out.sink.bytes.length

def append (out : OutputFile File) (d : List UInt8) : OutputFile File :=
  { out with sink := ⟨out.sink.bytes ++ d, (out.sink.bytes ++ d).length⟩ }

theorem append_atEnd : (out.append d).AtEnd :=
  rfl

@[simp]
theorem append_append (d₁ d₂ : List UInt8) : (out.append d₁).append d₂ = out.append (d₁ ++ d₂) := by
  simp only [append, append_assoc]

theorem append_sink : (out.append d).sink = ⟨out.sink.bytes ++ d, (out.sink.bytes ++ d).length⟩ :=
  rfl

theorem append_nil (h : out.AtEnd) : out.append [] = out := by
  obtain ⟨⟨bytes, pos⟩, _⟩ := out
  simp_all [append, AtEnd]

theorem write_eq (h : out.AtEnd) (n : Nat) : out.write data n = (out.append (ofPtr data n), true) := by
  have hw : out.sink.write (ofPtr data n) = (out.append (ofPtr data n)).sink := by
    ext1
    · exact File.write_bytes_of_end h
    · simpa [append, AtEnd] using h
  simp only [write, OutputFileOps.write, fileWrite, if_neg (Int.not_lt.mpr (Int.natCast_nonneg n)),
    Int.toNat_natCast, hw]
  rfl

theorem writeBytes_eq (h : out.AtEnd) : out.writeBytes d = (out.append d, true) := by
  rw [writeBytes, write_eq h, ofPtr_toPtr]

def put (out : OutputFile File) (cs : List Chunk) : OutputFile File :=
  (out.append (cs.flatMap (·.encode out.blockSize))).addCrc (cs.flatMap (·.written out.blockSize))

theorem put_atEnd : (out.put cs).AtEnd :=
  rfl

@[simp]
theorem put_blockSize : (out.put cs).blockSize = out.blockSize :=
  rfl

theorem put_bytes : (out.put cs).sink.bytes = out.sink.bytes ++ cs.flatMap (·.encode out.blockSize) :=
  rfl

theorem put_crc32 : (out.put cs).crc32 =
    if out.useCrc then sparseCrc32 out.crc32 (cs.flatMap (·.written out.blockSize)) else out.crc32 :=
  rfl

@[simp]
theorem put_useCrc : (out.put cs).useCrc = out.useCrc :=
  rfl

@[simp]
theorem addCrc_addCrc (d₁ d₂ : List UInt8) : (out.addCrc d₁).addCrc d₂ = out.addCrc (d₁ ++ d₂) := by
  simp only [addCrc, sparseCrc32_append]
  split <;> rfl

theorem addCrc_nil : out.addCrc [] = out := by
  simp [addCrc]

@[simp]
theorem put_put (cs₁ cs₂ : List Chunk) : (out.put cs₁).put cs₂ = out.put (cs₁ ++ cs₂) := by
  simp only [put, flatMap_append, ← append_append, ← addCrc_addCrc]
  rfl

theorem put_nil (h : out.AtEnd) : out.put [] = out := by
  rw [put, flatMap_nil, flatMap_nil, append_nil h, addCrc_nil]

theorem put_singleton :
    out.put [c] = (out.append (c.encode out.blockSize)).addCrc (c.written out.blockSize) := by
  simp only [put, flatMap_singleton]

theorem addFillCrc_eq (n : Nat) :
    out.addFillCrc val n = out.addCrc (replicate n (le 4 val.toNat)).flatten := by
  induction n generalizing out
  case zero => exact addCrc_nil.symm
  case succ n hi => rw [addFillCrc, hi, addCrc_addCrc, replicate_succ, flatten_cons]

theorem ofPtr_zeroBuf (n : Nat) : ofPtr zeroBuf n = replicate n 0 := by
  rw [ofPtr, eq_replicate_iff]
  simp [zeroBuf]

variable (h : out.AtEnd)

include h

theorem writeSparseSkipChunk_eq (hd : n % out.blockSize = 0) :
    out.writeSparseSkipChunk n = (out.put [.skip (n / out.blockSize)], true) := by
  rw [writeSparseSkipChunk, if_neg (not_not.mpr hd)]
  dsimp only
  rw [writeBytes_eq h, put_singleton, written, addCrc_nil, encode, payload, List.append_nil]
  rfl

theorem writeZeros_eq (n : Nat) :
    (if (n : Int) ≠ 0 then out.write zeroBuf n else (out, true)) =
      (out.append (ofPtr zeroBuf n), true) := by
  split
  case isTrue => exact write_eq h n
  case isFalse h₀ =>
    have : n = 0 := by omega
    rw [this, ofPtr_zero, append_nil h]

variable (hb : 0 < out.blockSize)

include hb

theorem writeSparseFillChunk_eq (hl : len + out.blockSize ≤ 2 ^ 32) :
    out.writeSparseFillChunk len val =
      (out.put [.fill val ((len + out.blockSize - 1) / out.blockSize)], true) := by
  have hs : u32 (align len out.blockSize) / out.blockSize = (len + out.blockSize - 1) / out.blockSize := by
    rw [align_eq hb hl, u32_of_lt ((mul_ceil_lt hb).trans_le hl), Nat.mul_div_cancel_left _ hb]
  simp only [writeSparseFillChunk, toU32_i32, hs, writeBytes_eq h, andThen, if_true,
    writeBytes_eq append_atEnd, append_append, addFillCrc_eq, put_singleton]
  rfl

theorem writeSparseDataChunk_eq (hl : len < 2 ^ 31) (hbs : out.blockSize < 2 ^ 31) :
    out.writeSparseDataChunk len data = (out.put [.raw (padded out.blockSize data len)], true) := by
  have hlt := mul_ceil_lt (n := len) hb
  have hle := le_mul_ceil (n := len) hb
  have ha := align_eq (n := len) hb (by omega)
  have hz : i32 (i32 (align len out.blockSize) - len) =
      (out.blockSize * ((len + out.blockSize - 1) / out.blockSize) - len : Nat) := by
    rw [i32_i32_sub, ha, i32_of_mem] <;> omega
  have hs : u32 (align len out.blockSize) / out.blockSize = (len + out.blockSize - 1) / out.blockSize := by
    rw [ha, u32_of_lt (by omega), Nat.mul_div_cancel_left _ hb]
  have hp : (padded out.blockSize data len).length =
      out.blockSize * ((len + out.blockSize - 1) / out.blockSize) := padded_length hb
  have ht : le 4 (toU32 (CHUNK_HEADER_LEN + i32 (align len out.blockSize))) =
      le 4 (CHUNK_HEADER_LEN + (padded out.blockSize data len).length) := by
    rw [toU32_add_i32, ha, hp]
    exact le_mod 4 _
  have hh : ChunkHeader.encode {
        chunkType := CHUNK_TYPE_RAW
        reserved1 := 0
        chunkSz   := toU32 (i32 (align len out.blockSize)) / out.blockSize
        totalSz   := toU32 (CHUNK_HEADER_LEN + i32 (align len out.blockSize))
      } = ((raw (padded out.blockSize data len)).header out.blockSize).encode := by
    simp only [ChunkHeader.encode, ht, toU32_i32, hs, header, type, size,
      payload, hp, Nat.mul_div_cancel_left _ hb]
  simp only [writeSparseDataChunk, hh, writeBytes_eq h, andThen, if_true, i32_of_lt hl, hz]
  rw [write_eq append_atEnd]
  simp only [if_true]
  rw [writeZeros_eq append_atEnd]
  simp only [if_true, append_append, Int.toNat_natCast, addCrc_addCrc, ofPtr_zeroBuf]
  simp only [put_singleton, encode, payload, written, padded, append_assoc]

end OutputFile

-- A block that is written as a chunk.
structure Writable (env : Env) (bs : Nat) (bb : BackedBlock) : Prop where
  readable : Readable env bb
  len_le   : bb.len + bs ≤ 2 ^ 32
  len_lt   : ¬bb.source.IsFill → bb.len < 2 ^ 31

instance : Decidable (Writable env bs bb) :=
  decidable_of_iff (Readable env bb ∧ bb.len + bs ≤ 2 ^ 32 ∧ (¬bb.source.IsFill → bb.len < 2 ^ 31))
    ⟨fun ⟨h₁, h₂, h₃⟩ => ⟨h₁, h₂, h₃⟩, fun ⟨h₁, h₂, h₃⟩ => ⟨h₁, h₂, h₃⟩⟩

theorem BackedBlock.chunk_of_not_isFill (h : ¬bb.source.IsFill) :
    bb.chunk env bs = .raw (padded bs (bb.source.ptr env) bb.len) := by
  unfold chunk
  cases hs : bb.source <;> simp_all [Source.IsFill]

theorem BackedBlock.chunk_of_fill (h : bb.source = .fill val) :
    bb.chunk env bs = .fill val (bb.blocks bs) := by
  simp only [chunk, h]

section List

variable (h : out.AtEnd) (hs : out.sparse) (hb : 0 < out.blockSize)
variable (hbs : out.blockSize < 2 ^ 31)

include h hs hb hbs

theorem writeBlock_eq (hw : Writable env out.blockSize bb) :
    (writeBlock env out bb).1 = out.put [bb.chunk env out.blockSize] := by
  by_cases hf : bb.source.IsFill
  case pos =>
    cases hf' : bb.source <;> simp only [hf', Source.IsFill] at hf
    rw [writeBlock_of_fill hf', writeFillChunk, if_pos hs, writeSparseFillChunk_eq h hb hw.len_le,
      BackedBlock.chunk_of_fill hf', BackedBlock.blocks]
  rw [writeBlock_of_readable hf hw.readable, writeDataChunk, if_pos hs,
    writeSparseDataChunk_eq h hb (hw.len_lt hf) hbs, BackedBlock.chunk_of_not_isFill hf]

theorem writeBlocks_eq (hw : ∀ bb ∈ l, Writable env out.blockSize bb) (last : Nat) :
    writeBlocks env out.blockSize out last l =
      (out.put (chunksFrom env out.blockSize last l), lastBlock out.blockSize last l) := by
  induction l generalizing out last
  case nil => rw [writeBlocks, chunksFrom, put_nil h, lastBlock]
  case cons bb l hi =>
    simp only [forall_mem_cons] at hw
    have hskip : (if last < bb.block
        then (out.writeSkipChunk ((bb.block - last) * out.blockSize)).1 else out) =
        out.put (if last < bb.block then [.skip (bb.block - last)] else []) := by
      split
      case isFalse => rw [put_nil h]
      case isTrue  =>
        rw [writeSkipChunk, if_pos hs, writeSparseSkipChunk_eq h (Nat.mul_mod_left ..),
          Nat.mul_div_cancel _ hb]
    rw [writeBlocks, hskip, writeBlock_eq put_atEnd hs hb hbs hw.left, put_put]
    exact (hi put_atEnd hs hb hbs hw.right _).trans (by rw [put_put]; simp [chunksFrom, lastBlock])

end List

section File

theorem writeBlocks_snd [OutputFileOps σ] (out : OutputFile σ) (last : Nat) :
    (writeBlocks env bs out last l).2 = lastBlock bs last l := by
  induction l generalizing out last
  case nil => rfl
  case cons bb l hi => exact hi _ _

theorem countBlocks_eq (env : Env) (last : Nat) :
    countBlocks bs last l = ((chunksFrom env bs last l).length, lastBlock bs last l) := by
  induction l generalizing last
  case nil => rfl
  case cons bb l hi =>
    simp only [countBlocks, hi, chunksFrom, lastBlock, length_append, length_cons]
    split <;> simp
    omega

theorem writeAllBlocks_eq (h : out.AtEnd) (hs : out.sparse) (ho : out.blockSize = s.blockSize)
    (hb : 0 < s.blockSize) (hbs : s.blockSize < 2 ^ 31)
    (hw : ∀ bb ∈ s.dataBlocks, Writable env s.blockSize bb)
    (hl : lastBlock s.blockSize 0 s.dataBlocks * s.blockSize ≤ s.len) :
    writeAllBlocks env s out = .ok (out.put (s.chunks env)) := by
  rw [← ho] at hb hbs hw
  have hwb := writeBlocks_eq h hs hb hbs hw 0
  rw [ho] at hwb
  have ht : s.len - lastBlock s.blockSize 0 s.dataBlocks * s.blockSize =
    tailLen s.blockSize s.len s.dataBlocks := rfl
  simp only [writeAllBlocks, hwb, if_neg (not_lt.mpr hl), chunks, ht]
  generalize tailLen s.blockSize s.len s.dataBlocks = tail
  split
  case isFalse h₀ => rw [if_neg (fun h => h₀ h.left), List.append_nil]
  case isTrue h₀  =>
    rw [writeSkipChunk, if_pos (by exact hs)]
    by_cases hm : tail % s.blockSize = 0
    case pos =>
      rw [writeSparseSkipChunk_eq put_atEnd (by rwa [put_blockSize, ho]), put_put, put_blockSize, ho,
        if_pos ⟨h₀, hm⟩]
    rw [writeSparseSkipChunk, put_blockSize, ho, if_pos hm, if_neg (fun h => hm h.right), List.append_nil]

-- The chunk that ends a file with a checksum.
def crcChunk (bs : Nat) (crc : Bool) (cs : List Chunk) : List Chunk :=
  if crc then [.crc32 (sparseCrc32 0 (cs.flatMap (·.written bs)))] else []

def SparseFile.bytes (env : Env) (s : SparseFile) (crc : Bool) : List UInt8 :=
  encodeFile s.blockSize (s.len / s.blockSize) (if crc then s.countChunks + 1 else s.countChunks)
    (s.chunks env ++ crcChunk s.blockSize crc (s.chunks env))

-- The output file in which the header has been written.
structure Opened (out : OutputFile File) (bs len chunks : Nat) (crc : Bool) : Prop where
  atEnd : out.AtEnd
  bytes : out.sink.bytes = (fileHeader bs (len / bs) (if crc then chunks + 1 else chunks)).encode
  crc32 : out.crc32 = 0
  sparse : out.sparse = true
  useCrc : out.useCrc = crc
  blockSize : out.blockSize = bs

theorem init_eq (hc : env.calloc (i32 bs)) (chunks : Nat) (crc : Bool) :
    OutputFile.init env File.empty bs len true chunks crc = some (OutputFile.append {
      sink := File.empty, crc32 := 0, sparse := true, useCrc := crc, blockSize := bs, len }
      (fileHeader bs (len / bs) (if crc then chunks + 1 else chunks)).encode) := by
  simp only [OutputFile.init, hc, if_true]
  rw [writeBytes_eq (by rfl)]
  rfl

theorem write_eq_assertFailed (hb : 0 < s.blockSize) (hc : env.calloc (i32 s.blockSize))
    (hl : s.len < lastBlock s.blockSize 0 s.dataBlocks * s.blockSize) (crc : Bool) :
    s.write env File.empty true crc = .error (.fault .assertFailed) := by
  have ha (out : OutputFile File) : writeAllBlocks env s out = .error .assertFailed := by
    simp only [writeAllBlocks, writeBlocks_snd, if_pos hl]
  simp only [SparseFile.write, writeTo, if_neg hb.ne', init_eq hc, ha]

theorem init_opened (hc : env.calloc (i32 bs)) (len chunks : Nat) (crc : Bool) :
    ∃ out, OutputFile.init env File.empty bs len true chunks crc = some out ∧
      Opened out bs len chunks crc :=
  ⟨_, init_eq hc chunks crc, append_atEnd, nil_append _, rfl, rfl, rfl, rfl⟩

theorem close_eq (h : out.AtEnd) (hs : out.sparse) :
    out.close.1 = out.append ((if out.useCrc then [crc32 out.crc32] else []).flatMap
      (·.encode out.blockSize)) := by
  rw [close, if_pos hs, writeSparseEndChunk]
  split
  case isFalse => rw [flatMap_nil, append_nil h]
  simp only [writeBytes_eq h, andThen, if_true, writeBytes_eq append_atEnd, append_append,
    flatMap_singleton]
  rfl

theorem close_put_sink (hs : out.sparse) :
    let crc := if out.useCrc
      then [crc32 (sparseCrc32 out.crc32 (cs.flatMap (·.written out.blockSize)))] else []
    let bytes := out.sink.bytes ++ (cs ++ crc).flatMap (·.encode out.blockSize)
    (out.put cs).close.1.sink = ⟨bytes, bytes.length⟩ := by
  intro crc bytes
  have hcrc : (if (out.put cs).useCrc then [crc32 (out.put cs).crc32] else []) = crc := by
    simp only [crc, put_useCrc, put_crc32]
    split <;> rfl
  rw [close_eq put_atEnd hs, append_sink, hcrc, put_bytes, put_blockSize]
  simp only [bytes, flatMap_append, append_assoc]

theorem write_sparse (hc : env.calloc (i32 s.blockSize)) (hb : 0 < s.blockSize)
    (hw : ∀ bb ∈ s.dataBlocks, Writable env s.blockSize bb)
    (hl : lastBlock s.blockSize 0 s.dataBlocks * s.blockSize ≤ s.len) (crc : Bool) :
    s.write env File.empty true crc = .ok ⟨s.bytes env crc, (s.bytes env crc).length⟩ := by
  have hbs := blockSize_lt_of_calloc hc s.backedBlockList.blockSize_lt
  obtain ⟨out, hi, ho⟩ := init_opened hc s.len s.countChunks crc
  have hwa := writeAllBlocks_eq ho.atEnd ho.sparse ho.blockSize hb hbs hw hl
  simp only [SparseFile.write, writeTo, if_neg hb.ne', hi, hwa]
  rw [close_put_sink ho.sparse, ho.bytes, ho.crc32, ho.useCrc, ho.blockSize, SparseFile.bytes,
    encodeFile, crcChunk]

end File

end Sparse
