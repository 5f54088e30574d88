import PlatformKnife.Sparse.Chunk
import PlatformKnife.Sparse.Theorems.ChunkCount

namespace Sparse

open Bytes CInt List

variable {bs blocks chunks n : Nat} {c : Chunk} {cs : List Chunk} {r : List UInt8}

theorem ChunkHeader.decode_encode (h : ChunkHeader) (r : List UInt8) :
    decode (h.encode ++ r) = {
      chunkType := h.chunkType % 2 ^ 16
      reserved1 := h.reserved1 % 2 ^ 16
      chunkSz   := u32 h.chunkSz
      totalSz   := u32 h.totalSz
    } := by
  simp only [decode, encode, append_assoc]
  simp [drop_append, fromLe_le, drop_of_length_le, u32]

theorem SparseHeader.decode_encode (h : SparseHeader) (r : List UInt8) :
    decode (h.encode ++ r) = {
      magic := u32 h.magic
      majorVersion := h.majorVersion % 2 ^ 16
      minorVersion := h.minorVersion % 2 ^ 16
      fileHdrSz := h.fileHdrSz % 2 ^ 16
      chunkHdrSz := h.chunkHdrSz % 2 ^ 16
      blkSz := u32 h.blkSz
      totalBlks := u32 h.totalBlks
      totalChunks := u32 h.totalChunks
      imageChecksum := u32 h.imageChecksum
    } := by
  simp only [decode, encode, append_assoc]
  simp [drop_append, fromLe_le, drop_of_length_le, u32]

theorem fileHeader_decode (hb : bs < 2 ^ 32) (r : List UInt8) :
    SparseHeader.decode ((fileHeader bs blocks chunks).encode ++ r) =
      fileHeader bs (u32 blocks) (u32 chunks) := by
  rw [SparseHeader.decode_encode]
  simp only [fileHeader, u32_of_lt hb]
  rfl

theorem fileHeader_blkSz : (fileHeader bs blocks chunks).blkSz = bs :=
  rfl

theorem fileHeader_totalBlks : (fileHeader bs blocks chunks).totalBlks = blocks :=
  rfl

theorem fileHeader_totalChunks : (fileHeader bs blocks chunks).totalChunks = chunks :=
  rfl

theorem fileHeader_valid : (fileHeader bs blocks chunks).Valid := by
  simp [SparseHeader.Valid, fileHeader]

namespace Chunk

-- A chunk that can be written: raw data of whole blocks, and sizes that fit into their fields.
structure Valid (bs : Nat) (c : Chunk) : Prop where
  size_lt : c.size bs < 2 ^ 32
  whole   : ∀ d, c = raw d → c.size bs * bs = d.length
  len_lt  : ∀ d, c = raw d → d.length < 2 ^ 32

@[simp]
theorem size_skip : (skip n).size bs = n :=
  rfl

theorem type_mod (c : Chunk) : c.type % 2 ^ 16 = c.type := by
  cases c <;> rfl

def readHeader (bs : Nat) (c : Chunk) : ChunkHeader where
  chunkType := c.type
  reserved1 := 0
  chunkSz   := u32 (c.size bs)
  totalSz   := u32 (CHUNK_HEADER_LEN + c.payload.length)

theorem header_decode (c : Chunk) (r : List UInt8) :
    ChunkHeader.decode ((c.header bs).encode ++ r) = c.readHeader bs := by
  rw [ChunkHeader.decode_encode]
  simp only [header, type_mod]
  rfl

theorem encode_length (c : Chunk) : (c.encode bs).length = CHUNK_HEADER_LEN + c.payload.length := by
  rw [encode, length_append, ChunkHeader.encode_length]
  rfl

theorem drop_header (c : Chunk) (r : List UInt8) :
    (c.encode bs ++ r).drop CHUNK_HEADER_LEN = c.payload ++ r := by
  rw [encode, append_assoc]
  exact drop_left' (ChunkHeader.encode_length _)

theorem fromLe_le_toNat (v : UInt32) : UInt32.ofNat (fromLe (le 4 v.toNat)) = v := by
  have : v.toNat % 256 ^ 4 = v.toNat := Nat.mod_eq_of_lt v.toNat_lt
  rw [fromLe_le, this, UInt32.ofNat_toNat]

theorem parse_encode (h : c.Valid bs) (r : List UInt8) : parse bs (c.encode bs ++ r) = some (c, r) := by
  have hd : ChunkHeader.decode (c.encode bs ++ r) = c.readHeader bs := by
    rw [encode, append_assoc, header_decode]
  simp only [parse, hd, readHeader, drop_header, u32_of_lt h.size_lt]
  cases c <;> simp only [type, payload, CHUNK_TYPE_RAW, CHUNK_TYPE_FILL, CHUNK_TYPE_DONT_CARE,
    CHUNK_TYPE_CRC32]
  case raw d => simp [h.whole d rfl]
  case fill v n => simp [take_left', drop_left', fromLe_le_toNat, size]
  case skip => simp [size]
  case crc32 v => simp [take_left', drop_left', fromLe_le_toNat]

theorem expandAll_encode (h : ∀ c ∈ cs, c.Valid bs) (r : List UInt8) :
    expandAll bs cs.length (cs.flatMap (·.encode bs) ++ r) = some (cs.flatMap (·.expand bs)) := by
  induction cs
  case nil => rfl
  case cons c cs hi =>
    simp only [forall_mem_cons] at h
    rw [flatMap_cons, append_assoc, length_cons, expandAll, parse_encode h.left]
    simp only [hi h.right, Option.map_some, flatMap_cons]

theorem parseAll_encode (h : ∀ c ∈ cs, c.Valid bs) (hf : (cs.flatMap (·.encode bs)).length ≤ n) :
    parseAll bs n (cs.flatMap (·.encode bs)) = some cs := by
  induction cs generalizing n
  case nil => cases n <;> rfl
  case cons c cs hi =>
    simp only [forall_mem_cons] at h
    rw [flatMap_cons] at hf ⊢
    have hl : (c.encode bs).length = CHUNK_HEADER_LEN + c.payload.length := encode_length c
    rw [CHUNK_HEADER_LEN] at hl
    rw [length_append] at hf
    obtain ⟨n, rfl⟩ := Nat.exists_eq_succ_of_ne_zero (show n ≠ 0 by omega)
    rcases he : c.encode bs ++ cs.flatMap (·.encode bs) with _ | ⟨b, d⟩
    · have := congrArg length he; simp [hl] at this
    rw [parseAll, ← he, parse_encode h.left]
    dsimp only
    rw [hi h.right (by omega), Option.map_some]

end Chunk

theorem encodeFile_decode (hb : bs < 2 ^ 32) :
    SparseHeader.decode (encodeFile bs blocks n cs) = fileHeader bs (u32 blocks) (u32 n) :=
  fileHeader_decode hb _

theorem encodeFile_drop : (encodeFile bs blocks n cs).drop SPARSE_HEADER_LEN = cs.flatMap (·.encode bs) :=
  drop_left' (SparseHeader.encode_length _)

theorem consistent_encodeFile_iff (hb : bs < 2 ^ 32) (h : ∀ c ∈ cs, c.Valid bs) :
    Consistent (encodeFile bs blocks n cs) ↔
      cs.length = u32 n ∧ (cs.map (·.size bs)).sum = u32 blocks := by
  have hp : Chunk.parseAll bs (encodeFile bs blocks n cs).length (cs.flatMap (·.encode bs)) = some cs :=
    Chunk.parseAll_encode h (by rw [encodeFile, length_append]; omega)
  have hd : (encodeFile bs blocks n cs).drop (fileHeader bs (u32 blocks) (u32 n)).fileHdrSz =
      cs.flatMap (·.encode bs) := encodeFile_drop
  simp only [Consistent, encodeFile_decode hb, hd, fileHeader_blkSz, hp, fileHeader_totalChunks,
    fileHeader_totalBlks, Option.some.injEq, exists_eq_left']

theorem expandFile_encodeFile (hb : bs < 2 ^ 32) (hc : cs.length < 2 ^ 32) (h : ∀ c ∈ cs, c.Valid bs) :
    expandFile (encodeFile bs blocks cs.length cs) = some (cs.flatMap (·.expand bs)) := by
  have hd : (encodeFile bs blocks cs.length cs).drop SPARSE_HEADER_LEN =
      cs.flatMap (·.encode bs) ++ [] := by
    rw [encodeFile_drop, append_nil]
  have he : SparseHeader.decode (encodeFile bs blocks cs.length cs) =
      fileHeader bs (u32 blocks) cs.length := by
    rw [encodeFile_decode hb, u32_of_lt hc]
  simp only [expandFile, he, if_pos fileHeader_valid]
  rw [← Chunk.expandAll_encode h [], ← hd]
  rfl

end Sparse
