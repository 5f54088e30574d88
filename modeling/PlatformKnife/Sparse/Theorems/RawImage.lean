import PlatformKnife.Sparse.Theorems.Header

-- A file that is written as a raw image and in the sparse format.

namespace Sparse

open Bytes CInt SparseFile OutputFile List Chunk

variable {env : Env} {s : SparseFile} {bb : BackedBlock} {l : List BackedBlock}
variable {bs len n total last : Nat} {data : Nat → UInt8} {val : UInt32}

section Write

theorem ofPtr_fillBuf (v : UInt32) (hw : 4 ∣ bs) : ofPtr (fillBuf bs v) bs = ofPtr (fillByte v) bs := by
  refine ofPtr_congr fun i hi => ?_
  rw [fillBuf, if_pos (by rwa [Nat.mul_div_cancel' hw])]

variable {out : OutputFile File} {d : List UInt8}

-- The raw image that has been written up to the current position.
structure OutputFile.Shows (out : OutputFile File) (bs len : Nat) (d : List UInt8) : Prop where
  sink : out.sink.Shows d
  sparse : out.sparse = false
  blockSize : out.blockSize = bs
  len : out.len = len

namespace OutputFile.Shows

variable (h : out.Shows bs len d)

include h

theorem write (data : Nat → UInt8) (n : Nat) :
    (out.write data n).2 ∧ (out.write data n).1.Shows bs len (d ++ ofPtr data n) := by
  have hw : fileWrite out.sink data n = (out.sink.write (ofPtr data n), true) := by
    rw [fileWrite, if_neg (by omega), Int.toNat_natCast]
  simp only [OutputFile.write, OutputFileOps.write, hw, true_and]
  exact ⟨h.sink.write _, h.sparse, h.blockSize, h.len⟩

theorem skip (n : Nat) : (out.skip n).2 ∧ (out.skip n).1.Shows bs len (d ++ replicate n 0) := by
  have hs : fileSkip out.sink n = (out.sink.seekCur n, true) := by
    rw [fileSkip, if_neg (by omega)]
    rfl
  simp only [OutputFile.skip, OutputFileOps.skip, hs, true_and]
  exact ⟨h.sink.seekCur _, h.sparse, h.blockSize, h.len⟩

theorem writeNormalDataChunk (hb : 0 < bs) (hl : n < 2 ^ 31) (hn : n + bs ≤ 2 ^ 32) (data : Nat → UInt8) :
    (out.writeNormalDataChunk n data).1.Shows bs len (d ++ padded bs data n) := by
  have ha : align n out.blockSize = bs * ((n + bs - 1) / bs) := by
    rw [h.blockSize, align, divRoundUp_eq (by omega), u32_of_lt]
    have := mul_ceil_lt (n := n) hb
    omega
  obtain ⟨hw, hs⟩ := h.write data n
  simp only [OutputFile.writeNormalDataChunk, i32_of_lt hl, andThen, hw, if_true, ha, padded,
    ← append_assoc]
  split
  case isTrue  => exact (hs.skip _).right
  case isFalse hlt =>
    rw [Nat.sub_eq_zero_of_le (not_lt.mp hlt), List.replicate_zero, List.append_nil]
    exact hs

variable (hb : 0 < bs) (hbs : bs < 2 ^ 31)

include hb hbs

theorem writeFillBlocks (val : UInt32) (h₄ : 4 ∣ bs) (hf : n ≤ fuel) :
    (out.writeFillBlocks val fuel (n * bs)).1.Shows bs len (d ++ ofPtr (fillByte val) (n * bs)) := by
  induction n generalizing out d fuel
  case zero =>
    have : out.writeFillBlocks val fuel (0 * bs) = (out, true) := by
      rw [zero_mul]
      cases fuel <;> rfl
    rw [this]
    simpa using h
  case succ n hi =>
    obtain _ | fuel := fuel
    · omega
    have hm : min ((n + 1) * bs) bs = bs := by
      rw [Nat.succ_mul]
      omega
    obtain ⟨hw, hs⟩ := h.write (fillBuf bs val) bs
    have hi := hi hs (Nat.le_of_succ_le_succ hf)
    have hbytes : ofPtr (fillByte val) ((n + 1) * bs)
        = ofPtr (fillBuf bs val) bs ++ ofPtr (fillByte val) (n * bs) := by
      rw [Nat.succ_mul, add_comm, ofPtr_add, ofPtr_fillBuf val h₄]
      simp only [fillByte_add h₄]
    rw [OutputFile.writeFillBlocks, if_neg (Nat.mul_pos (by omega) hb).ne']
    simp only [h.blockSize, hm, i32_of_lt hbs, andThen, hw, if_true]
    rw [hbytes, Nat.succ_mul, Nat.add_sub_cancel, ← append_assoc]
    exact hi

theorem writeBlock (hw : Writable env bs bb) (hf : bb.source.IsFill → bs ∣ bb.len ∧ 4 ∣ bs) :
    (SparseFile.writeBlock env out bb).1.Shows bs len (d ++ (bb.chunk env bs).expand bs) := by
  have hns : ¬out.sparse := by simp [h.sparse]
  by_cases hfill : bb.source.IsFill
  case neg =>
    rw [writeBlock_of_readable hfill hw.readable, writeDataChunk, if_neg hns,
      BackedBlock.chunk_of_not_isFill hfill]
    exact h.writeNormalDataChunk hb (hw.len_lt hfill) hw.len_le _
  obtain ⟨⟨k, hk⟩, hw⟩ := hf hfill
  have hk : bb.len = k * bs := hk.trans (mul_comm ..)
  cases hs : bb.source <;> simp only [hs, Source.IsFill] at hfill
  rw [writeBlock_of_fill hs, writeFillChunk, if_neg hns, BackedBlock.chunk_of_fill hs, expand,
    BackedBlock.blocks_eq_of_len_eq hb hk, writeNormalFillChunk, hk]
  exact h.writeFillBlocks hb hbs _ hw (Nat.le_mul_of_pos_right _ hb)

theorem writeBlocks (hw : ∀ bb ∈ l, Writable env bs bb)
    (hf : ∀ bb ∈ l, bb.source.IsFill → bs ∣ bb.len ∧ 4 ∣ bs) (last : Nat) :
    (SparseFile.writeBlocks env bs out last l).1.Shows bs len
      (d ++ (chunksFrom env bs last l).flatMap (·.expand bs)) := by
  induction l generalizing out d last
  case nil => simpa [SparseFile.writeBlocks, chunksFrom] using h
  case cons bb l hi =>
    simp only [forall_mem_cons] at hw hf
    have hskip : (if last < bb.block
        then (out.writeSkipChunk ((bb.block - last) * bs)).1 else out).Shows bs len
        (d ++ (if last < bb.block then [Chunk.skip (bb.block - last)] else []).flatMap
          (·.expand bs)) := by
      split
      case isTrue  =>
        rw [writeSkipChunk, if_neg (by simp [h.sparse]), flatMap_singleton]
        exact (h.skip _).right
      case isFalse => simpa using h
    have hbb := hskip.writeBlock hb hbs hw.left hf.left
    have hi := hi hbb hw.right hf.right (nextBlock bs bb)
    rw [chunksFrom, flatMap_append, flatMap_cons]
    simpa only [SparseFile.writeBlocks, append_assoc] using hi

end OutputFile.Shows

end Write

section Image

theorem Chunk.expand_length {c : Chunk} (h : c.Valid bs) (hc : ∀ crc, c ≠ .crc32 crc) :
    (c.expand bs).length = c.size bs * bs := by
  cases c
  case raw d => exact (h.whole d rfl).symm
  case fill val n => simp [expand, size]
  case skip n => simp [expand]
  case crc32 crc => exact absurd rfl (hc crc)

theorem flatMap_expand_length {cs : List Chunk} (h : ∀ c ∈ cs, c.Valid bs ∧ ∀ crc, c ≠ .crc32 crc) :
    (cs.flatMap (·.expand bs)).length = (cs.map (·.size bs)).sum * bs := by
  induction cs
  case nil => simp
  case cons c cs hi =>
    simp only [forall_mem_cons] at h
    rw [flatMap_cons, length_append, expand_length h.left.left h.left.right, hi h.right,
      map_cons, sum_cons, add_mul]

namespace SparseFile

-- The raw image is the one that the file in the sparse format stands for.
def SameImage (env : Env) (s : SparseFile) : Prop :=
  ∃ f g, s.write env .empty false false = .ok f ∧ s.write env .empty true false = .ok g ∧
    expandFile g.bytes = some f.bytes

-- An image of whole blocks that can be counted, with fills of whole blocks and words.
structure Expandable (s : SparseFile) : Prop where
  whole  : s.blockSize ∣ s.len
  ends   : ∀ bb ∈ s.dataBlocks, bb.endBlock s.blockSize ≤ s.len / s.blockSize
  blocks : s.len / s.blockSize < 2 ^ 32
  count  : s.dataBlocks.length +
             (holes s.blockSize (s.len / s.blockSize) 0 s.dataBlocks).length < 2 ^ 32
  fills  : ∀ bb ∈ s.dataBlocks, bb.source.IsFill → s.blockSize ∣ bb.len ∧ 4 ∣ s.blockSize

section Whole

variable (h : s.Encodable env) (he : s.Expandable)

include he

theorem Expandable.len_eq : s.len = s.len / s.blockSize * s.blockSize :=
  (Nat.div_mul_cancel he.whole).symm

theorem Expandable.endOf_le : endOf s.blockSize 0 s.dataBlocks ≤ u32 (s.len / s.blockSize) := by
  rw [u32_of_lt he.blocks]
  exact Sparse.endOf_le he.ends (Nat.zero_le _)

include h

theorem Expandable.tail_eq : s.len - lastBlock s.blockSize 0 s.dataBlocks * s.blockSize =
    (s.len / s.blockSize - endOf s.blockSize 0 s.dataBlocks) * s.blockSize := by
  rw [lastBlock_eq h.writable (by decide), u32_of_lt (he.endOf_le.trans_lt (u32_lt _)), Nat.sub_mul,
    ← he.len_eq]

theorem Expandable.flatMap_expand :
    (chunksTo env s.blockSize (s.len / s.blockSize) 0 s.dataBlocks).flatMap (·.expand s.blockSize) =
      (chunksFrom env s.blockSize 0 s.dataBlocks).flatMap (·.expand s.blockSize) ++
        replicate (s.len - lastBlock s.blockSize 0 s.dataBlocks * s.blockSize) 0 := by
  rw [he.tail_eq h, chunksTo, flatMap_append]
  congr 1
  split
  case isTrue =>
    rw [flatMap_singleton, expand, u32_of_lt ((Nat.sub_le ..).trans_lt he.blocks)]
  case isFalse hlt =>
    rw [Nat.sub_eq_zero_of_le (not_lt.mp hlt), zero_mul]
    rfl

theorem write_raw :
    ∃ f, s.write env .empty false false = .ok f ∧
      f.bytes = (chunksTo env s.blockSize (s.len / s.blockSize) 0 s.dataBlocks).flatMap
        (·.expand s.blockSize) := by
  have hbs := blockSize_lt_of_calloc h.calloc s.backedBlockList.blockSize_lt
  have hl := lastBlock_mul_le_of_endOf_le h he.len_eq he.endOf_le
  let out : OutputFile File := {
    sink := File.empty, crc32 := 0, sparse := false, useCrc := false, blockSize := s.blockSize, len := s.len }
  have hinit : OutputFile.init env File.empty s.blockSize s.len false s.countChunks false = some out := by
    rw [OutputFile.init, if_pos h.calloc]
    rfl
  have hout : out.Shows s.blockSize s.len [] := ⟨File.shows_empty, rfl, rfl, rfl⟩
  have hblocks := hout.writeBlocks h.pos hbs h.writable he.fills 0
  obtain ⟨out', hw, hs⟩ : ∃ out', writeAllBlocks env s out = .ok out' ∧ out'.Shows s.blockSize s.len
      ((chunksTo env s.blockSize (s.len / s.blockSize) 0 s.dataBlocks).flatMap
        (·.expand s.blockSize)) := by
    rw [he.flatMap_expand h]
    simp only [writeAllBlocks, writeBlocks_snd, if_neg (not_lt.mpr hl)]
    split
    case isFalse ht =>
      rw [Nat.eq_zero_of_not_pos ht, List.replicate_zero, List.append_nil]
      exact ⟨_, rfl, hblocks⟩
    rw [writeSkipChunk, if_neg (by simp [hblocks.sparse])]
    exact ⟨_, rfl, (hblocks.skip _).right⟩
  refine ⟨out'.close.1.sink, ?_, ?_⟩
  · simp only [SparseFile.write, writeTo, if_neg h.pos.ne', hinit, hw]
  · have hpos : out'.sink.pos = s.len := by
      rw [hs.sink.pos_eq, flatMap_expand_length fun c hc => chunksTo_valid h hc,
        chunksTo_size_sum h he.endOf_le, u32_of_lt he.blocks, ← he.len_eq]
    have hclose : out'.close.1.sink = out'.sink.truncate s.len := by
      rw [close, if_neg (by simp [hs.sparse]), writeNormalEndChunk, hs.len]
      rfl
    rw [hclose, File.truncate]
    exact hpos ▸ hs.sink.resize_eq

theorem sameImage : s.SameImage env := by
  have hl := lastBlock_mul_le_of_endOf_le h he.len_eq he.endOf_le
  obtain ⟨f, hf, hbytes⟩ := write_raw h he
  refine ⟨f, _, hf, write_sparse h.calloc h.pos h.writable hl false, ?_⟩
  have hn : (chunksTo env s.blockSize (s.len / s.blockSize) 0 s.dataBlocks).length < 2 ^ 32 := by
    rw [chunksTo_length h.writable h.chained]
    exact he.count
  rw [hbytes, bytes_eq_encodeFile h he.len_eq he.endOf_le]
  exact expandFile_encodeFile s.backedBlockList.blockSize_lt hn
    fun c hc => (chunksTo_valid h hc).left

end Whole

def fillThenData (fillLen : UInt32) : SparseFile where
  len := 8
  backedBlockList :=
    .ofUInts [.ofUInts 0 0 fillLen (.fill 0x07070707), .ofUInts 1 1 4 (.data 0)] (some 1) 4 2

theorem sameImage_fillThenData : (fillThenData 4).SameImage .withoutFiles := by
  refine sameImage ⟨?_, ?_, ?_, ⟨?_, ?_⟩, ?_⟩ ⟨?_, ?_, ?_, ?_, ?_⟩
  all_goals decide

-- A fill of two bytes is not padded in the raw image, so the data follows at once.
theorem not_sameImage_fillThenData :
    (fillThenData 2).Encodable .withoutFiles ∧ (fillThenData 2).blockSize ∣ (fillThenData 2).len ∧
      ¬(fillThenData 2).SameImage .withoutFiles := by
  have he : (fillThenData 2).Encodable .withoutFiles := by
    refine ⟨?_, ?_, ?_, ⟨?_, ?_⟩, ?_⟩
    all_goals decide
  refine ⟨he, by decide, ?_⟩
  rintro ⟨f, g, hf, hg, hi⟩
  obtain ⟨_, rfl⟩ := (write_isOk_iff he g).mp hg
  cases hf
  revert hi
  decide +kernel

end SparseFile

end Image

end Sparse
