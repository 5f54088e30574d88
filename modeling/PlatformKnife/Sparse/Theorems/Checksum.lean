import PlatformKnife.Sparse.Theorems.Header

-- The checksums that are kept while a file is written and read.

namespace Sparse

open Bytes CInt SparseFile OutputFile List Chunk

variable {env : Env} {s : SparseFile} {l : List BackedBlock} {bs last total : Nat} {fd : Int}

section Fill

theorem le_eq_fillByte (v : UInt32) : le 4 v.toNat = ofPtr (fillByte v) 4 := by
  have h (i : Nat) (hi : i < 4) : UInt8.ofNat (v.toNat / 256 ^ i) = fillByte v i := by
    apply UInt8.toNat.inj
    have : (8 * UInt32.ofNat (i % 4)).toNat % 32 = 8 * i := by interval_cases i <;> rfl
    simp only [fillByte, UInt32.toNat_toUInt8, UInt32.toNat_shiftRight, this, Nat.shiftRight_eq_div_pow,
      Nat.pow_mul, UInt8.toNat_ofNat']
  have h₀ := h 0 (by decide)
  have h₁ := h 1 (by decide)
  have h₂ := h 2 (by decide)
  have h₃ := h 3 (by decide)
  simp only [le, ofPtr, range, range.loop, map_cons, map_nil, ← h₀, ← h₁, ← h₂,
    ← h₃, Nat.div_div_eq_div_mul]
  norm_num

theorem flatten_replicate_le (v : UInt32) (n : Nat) :
    (replicate n (le 4 v.toNat)).flatten = ofPtr (fillByte v) (4 * n) := by
  induction n
  case zero => rfl
  case succ n hi =>
    rw [replicate_succ, flatten_cons, hi, Nat.mul_succ, add_comm, ofPtr_add, le_eq_fillByte]
    simp only [fillByte_add (dvd_refl 4)]

-- The checksum of the writer has the first block of a fill.
theorem Chunk.written_fill (hb : 4 ∣ bs) (v : UInt32) : (fill v 1).written bs = (fill v 1).expand bs := by
  rw [written, expand, flatten_replicate_le, Nat.mul_div_cancel' hb, one_mul]

end Fill

section File

theorem chunksTo_eq_map (hw : ∀ bb ∈ l, Writable env bs bb) (h : Chained bs last l)
    (hh : holes bs total last l = []) :
    chunksTo env bs total last l = l.map (·.chunk env bs) := by
  induction l generalizing last
  case nil =>
    have hl : ¬last < total := fun hl => by simp [holes, hl] at hh
    rw [chunksTo, endOf, if_neg hl]
    rfl
  case cons bb l hi =>
    simp only [forall_mem_cons] at hw
    rw [holes, append_eq_nil_iff] at hh
    have hl : ¬last < bb.block := fun hl => by simp [hl] at hh
    rw [chunksTo_cons hw.left h, if_neg hl, hi hw.right h.right hh.right]
    rfl

end File

namespace SparseFile

-- The file is accepted, and it ends with the checksum of its image.
def CrcOk (env : Env) (fd : Int) (s : SparseFile) : Prop :=
  ∃ f img s', s.write env .empty true true = .ok f ∧ expandFile f.bytes = some img ∧
    f.bytes.drop (f.bytes.length - 4) = le 4 (sparseCrc32 0 img).toNat ∧
    import_ fd f.bytes true = .ok s'

-- The checksums agree without holes, if each fill is a single block of whole words.
structure Summable (s : SparseFile) : Prop where
  full  : holes s.blockSize (s.len / s.blockSize) 0 s.dataBlocks = []
  fills : ∀ bb ∈ s.dataBlocks, bb.source.IsFill → bb.blocks s.blockSize = 1 ∧ 4 ∣ s.blockSize
  count : s.dataBlocks.length + 1 < 2 ^ 32

end SparseFile

theorem SparseFile.Summable.written (env : Env) (hs : s.Summable) :
    ∀ c ∈ s.dataBlocks.map (·.chunk env s.blockSize), c.written s.blockSize = c.expand s.blockSize := by
  intro c hc
  obtain ⟨bb, hbb, rfl⟩ := mem_map.mp hc
  by_cases hf : bb.source.IsFill
  case neg =>
    rw [BackedBlock.chunk_of_not_isFill hf]
    rfl
  obtain ⟨h₁, h₄⟩ := hs.fills bb hbb hf
  cases hsrc : bb.source <;> simp only [hsrc, Source.IsFill] at hf
  rw [BackedBlock.chunk_of_fill hsrc, h₁]
  exact written_fill h₄ _

theorem encodeFile_drop_crc32 (cs : List Chunk) (v : UInt32) :
    (encodeFile bs blocks n (cs ++ [.crc32 v])).drop
      ((encodeFile bs blocks n (cs ++ [.crc32 v])).length - 4) = le 4 v.toNat := by
  obtain ⟨d, hd⟩ : ∃ d, encodeFile bs blocks n (cs ++ [.crc32 v]) = d ++ le 4 v.toNat := by
    rw [encodeFile, flatMap_append, flatMap_singleton, encode, payload, ← append_assoc, ← append_assoc]
    exact ⟨_, rfl⟩
  rw [hd, length_append, le_length, Nat.add_sub_cancel, drop_left]

theorem expandFile_encodeFile_crc32 (hb : bs < 2 ^ 32) (hc : cs.length + 1 < 2 ^ 32)
    (h : ∀ c ∈ cs, c.Valid bs) (v : UInt32) :
    expandFile (encodeFile bs blocks (cs.length + 1) (cs ++ [.crc32 v])) =
      some (cs.flatMap (·.expand bs)) := by
  have hl : (cs ++ [crc32 v]).length = cs.length + 1 := by simp
  have hv : ∀ c ∈ cs ++ [crc32 v], c.Valid bs := by
    simp only [mem_append, mem_singleton]
    rintro c (hc | rfl)
    case inl => exact h c hc
    case inr => exact ⟨(by decide : 0 < 2 ^ 32), by simp, by simp⟩
  rw [← hl, expandFile_encodeFile hb (hl ▸ hc) hv, List.flatMap_append, List.flatMap_singleton,
    expand, List.append_nil]

theorem crcOk (h : s.Encodable env) (hi : s.Importable) (hs : s.Summable) (fd : Int) :
    s.CrcOk env fd := by
  have hbs := s.backedBlockList.blockSize_lt
  have hl := lastBlock_mul_le_of_endOf_le h hi.len_eq hi.endOf_le
  have hmap := chunksTo_eq_map h.writable h.chained hs.full
  have hwritten := flatMap_congr (hs.written env)
  have hbytes := bytes_eq_encodeFile_crc32 h hi.len_eq hi.endOf_le true
  rw [hmap, crcChunk, hwritten] at hbytes
  have hvalid (c : Chunk) (hc : c ∈ s.dataBlocks.map (·.chunk env s.blockSize)) : c.Valid s.blockSize :=
    (chunksTo_valid h (hmap ▸ hc)).left
  have hcrc : sparseCrc32 0 ((chunksTo env s.blockSize (s.len / s.blockSize) 0 s.dataBlocks).flatMap
      (·.written s.blockSize)) = _ := congrArg _ (by rw [hmap, hwritten, ← hmap])
  refine ⟨_, (s.dataBlocks.map (·.chunk env s.blockSize)).flatMap (·.expand s.blockSize), _,
    write_sparse h.calloc h.pos h.writable hl true, ?expand, ?sum,
    (import_bytes_iff h hi.len_eq hi.endOf_le true (by rw [hs.full]; exact hs.count)).mpr
      ⟨hi.blocks, hi.holes, fun _ => hcrc, _, run_callsFrom h hi.apart, rfl⟩⟩
  all_goals dsimp only
  case expand =>
    rw [hbytes]
    exact expandFile_encodeFile_crc32 hbs (by simpa using hs.count) hvalid _
  case sum =>
    rw [hbytes]
    exact encodeFile_drop_crc32 _ _

-- A chunk of data, and a fill of a single block behind it.
def dataThenFill : SparseFile where
  len := 12
  backedBlockList := .ofUInts [.ofUInts 0 0 5 (.data 0), .ofUInts 1 2 4 (.fill 7)] (some 1) 4 2

theorem crcOk_dataThenFill : dataThenFill.CrcOk .withoutFiles 0 := by
  refine crcOk ⟨?_, ?_, ?_, ⟨?_, ?_⟩, ?_⟩ ⟨?_, ?_, ?_, ?_, ?_, ?_⟩ ⟨?_, ?_, ?_⟩ 0
  all_goals decide

-- The block behind the data is not added to the checksum of the writer.
theorem not_crcOk_dataAtStart :
    (dataAtStart 12 5).Encodable .withoutFiles ∧ (dataAtStart 12 5).Importable ∧
      ¬(dataAtStart 12 5).CrcOk .withoutFiles 0 := by
  have he : (dataAtStart 12 5).Encodable .withoutFiles := by
    refine ⟨?_, ?_, ?_, ⟨?_, ?_⟩, ?_⟩
    all_goals decide
  have hi : (dataAtStart 12 5).Importable := by
    refine ⟨?_, ?_, ?_, ?_, ?_, ?_⟩
    all_goals decide
  refine ⟨he, hi, ?_⟩
  rintro ⟨f, img, s', hf, _, _, hs⟩
  have hl := lastBlock_mul_le_of_endOf_le he hi.len_eq hi.endOf_le
  rw [write_sparse he.calloc he.pos he.writable hl] at hf
  cases hf
  obtain ⟨_, _, hcrc, _⟩ := (import_bytes_iff he hi.len_eq hi.endOf_le true (by decide)).mp hs
  replace hcrc := hcrc rfl
  revert hcrc
  decide +kernel

end Sparse
