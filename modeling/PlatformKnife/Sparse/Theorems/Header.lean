import PlatformKnife.Sparse.Theorems.Imported

-- Whether the header of a file agrees with the chunks behind it.

namespace Sparse

open Bytes CInt SparseFile List

variable {env : Env} {s : SparseFile} {fd : Int}

namespace SparseFile

-- No assertion fails, the header agrees with the chunks, and the file is accepted.
def HeaderOk (env : Env) (fd : Int) (s : SparseFile) : Prop :=
  ∃ f, s.write env .empty true false = .ok f ∧ Consistent f.bytes ∧
    ∃ s', import_ fd f.bytes false = .ok s'

-- An image of whole blocks, whose chunks lie within the blocks that its header can count, and in which
-- all numbers fit into their fields. Two fills with the same value only meet at the end of the list.
structure Importable (s : SparseFile) : Prop where
  whole  : s.blockSize ∣ s.len
  ends   : ∀ bb ∈ s.dataBlocks, bb.endBlock s.blockSize ≤ u32 (s.len / s.blockSize)
  count  : s.dataBlocks.length +
             (holes s.blockSize (s.len / s.blockSize) 0 s.dataBlocks).length < 2 ^ 32
  blocks : ∀ bb ∈ s.dataBlocks, bb.blocks s.blockSize < 2 ^ 31
  holes  : ∀ n ∈ holes s.blockSize (s.len / s.blockSize) 0 s.dataBlocks, n < 2 ^ 31
  apart  : FillsApart s.blockSize s.dataBlocks

theorem Importable.len_eq (h : s.Importable) : s.len = s.len / s.blockSize * s.blockSize :=
  (Nat.div_mul_cancel h.whole).symm

theorem Importable.endOf_le (h : s.Importable) :
    endOf s.blockSize 0 s.dataBlocks ≤ u32 (s.len / s.blockSize) :=
  Sparse.endOf_le h.ends (Nat.zero_le _)

end SparseFile

section Write

variable (h : s.Encodable env)

include h

theorem lastBlock_mul_le_of_endOf_le (hw : s.len = total * s.blockSize)
    (he : endOf s.blockSize 0 s.dataBlocks ≤ u32 total) :
    lastBlock s.blockSize 0 s.dataBlocks * s.blockSize ≤ s.len := by
  rw [lastBlock_eq h.writable (by decide), hw]
  exact Nat.mul_le_mul_right _ ((u32_le _).trans (he.trans (u32_le _)))

theorem write_isOk_iff (f : File) : s.write env .empty true false = .ok f ↔
    lastBlock s.blockSize 0 s.dataBlocks * s.blockSize ≤ s.len ∧
      f = ⟨s.bytes env false, (s.bytes env false).length⟩ := by
  by_cases hl : lastBlock s.blockSize 0 s.dataBlocks * s.blockSize ≤ s.len
  case pos => simp [write_sparse h.calloc h.pos h.writable hl, hl, eq_comm]
  case neg => simp [write_eq_assertFailed h.pos h.calloc (not_le.mp hl), hl]

theorem exists_chunks : ∃ cs : List Chunk,
    s.bytes env false = encodeFile s.blockSize (s.len / s.blockSize) s.countChunks cs ∧
    (∀ c ∈ cs, c.Valid s.blockSize) ∧ cs.length = (s.chunks env).length ∧
    endOf s.blockSize 0 s.dataBlocks ≤ (cs.map (·.size s.blockSize)).sum := by
  have hsum := chunksFrom_size_sum h.pos h.writable h.chained
  have hv (c) (hc : c ∈ chunksFrom env s.blockSize 0 s.dataBlocks) : c.Valid s.blockSize := by
    have hc : c ∈ chunksTo env s.blockSize 0 0 s.dataBlocks := by simpa [chunksTo] using hc
    exact (chunksTo_valid h hc).left
  simp only [SparseFile.bytes, crcChunk, Bool.false_eq_true, if_false, append_nil, encodeFile, chunks]
  generalize tailLen s.blockSize s.len s.dataBlocks = tail
  by_cases ht : 0 < tail ∧ tail % s.blockSize = 0
  case neg =>
    refine ⟨chunksFrom env s.blockSize 0 s.dataBlocks, ?_, hv, ?_, by omega⟩
    case refine_1 => rw [if_neg ht, append_nil]
    case refine_2 => rw [if_neg ht, append_nil]
  refine ⟨chunksFrom env s.blockSize 0 s.dataBlocks ++ [.skip (u32 (tail / s.blockSize))], ?_, ?_, ?_, ?_⟩
  case refine_1 =>
    rw [if_pos ht, flatMap_append, flatMap_append, flatMap_singleton, flatMap_singleton, encode_skip]
  case refine_2 =>
    simp only [mem_append, mem_singleton]
    rintro c (hc | rfl)
    case inl => exact hv c hc
    case inr => exact ⟨u32_lt _, by simp, by simp⟩
  case refine_3 => rw [if_pos ht, length_append, length_append]; rfl
  case refine_4 => rw [map_append, sum_append]; omega

omit h in
theorem countChunks_of_not_dvd (hb : 0 < s.blockSize) (hd : ¬s.blockSize ∣ s.len)
    (hl : lastBlock s.blockSize 0 s.dataBlocks * s.blockSize ≤ s.len) :
    s.countChunks = (s.chunks env).length + 1 := by
  have hlt : lastBlock s.blockSize 0 s.dataBlocks < (s.len + s.blockSize - 1) / s.blockSize := by
    have hne : lastBlock s.blockSize 0 s.dataBlocks * s.blockSize ≠ s.len :=
      fun he => hd ⟨_, (mul_comm ..).trans he |>.symm⟩
    rw [Nat.lt_iff_add_one_le, Nat.le_div_iff_mul_le hb, Nat.succ_mul]
    omega
  have ht : ¬tailLen s.blockSize s.len s.dataBlocks % s.blockSize = 0 := by
    intro ht
    apply hd
    rw [← Nat.sub_add_cancel hl]
    exact (Nat.dvd_add_right (Nat.dvd_of_mod_eq_zero ht)).mpr (Nat.dvd_mul_left ..)
  simp only [countChunks, countBlocks_eq env, if_pos hlt, chunks]
  rw [if_neg (fun h => ht h.right), append_nil]

end Write

theorem count_ne : n ≠ u32 (n + 1) := by
  simp only [u32]
  omega

theorem headerOk_iff (h : s.Encodable env) (fd : Int) : s.HeaderOk env fd ↔ s.Importable := by
  have hbs := s.backedBlockList.blockSize_lt
  constructor
  case mp =>
    rintro ⟨f, hf, hc, s', hi⟩
    obtain ⟨hl, rfl⟩ := (write_isOk_iff h f).mp hf
    dsimp only at hc hi
    obtain ⟨hwhole, hend⟩ : s.blockSize ∣ s.len ∧
        endOf s.blockSize 0 s.dataBlocks ≤ u32 (s.len / s.blockSize) := by
      obtain ⟨cs, he, hv, hn, hsum⟩ := exists_chunks h
      rw [he, consistent_encodeFile_iff hbs hv, hn] at hc
      refine ⟨?_, hc.right ▸ hsum⟩
      by_contra hd
      rw [countChunks_of_not_dvd h.pos hd hl] at hc
      exact count_ne hc.left
    have hlen : s.len = s.len / s.blockSize * s.blockSize := (Nat.div_mul_cancel hwhole).symm
    have hcount : s.dataBlocks.length +
        (holes s.blockSize (s.len / s.blockSize) 0 s.dataBlocks).length < 2 ^ 32 := by
      rw [bytes_eq_encodeFile h hlen hend,
        consistent_encodeFile_iff hbs (fun c hc => (chunksTo_valid h hc).left)] at hc
      rw [← chunksTo_length h.writable h.chained]
      exact u32_eq_iff.mp hc.left.symm
    obtain ⟨hblocks, hholes, _, bbl, hrun, _⟩ := (import_bytes_iff h hlen hend false hcount).mp hi
    refine ⟨hwhole, fun bb hbb => (h.chained.le_endOf.right bb hbb).trans hend, hcount, hblocks,
      hholes, ?_⟩
    by_contra ha
    rw [run_callsFrom_eq_error h ha] at hrun
    cases hrun
  case mpr =>
    intro hi
    have hl := lastBlock_mul_le_of_endOf_le h hi.len_eq hi.endOf_le
    refine ⟨_, (write_isOk_iff h _).mpr ⟨hl, rfl⟩, ?_, ?_⟩
    case refine_1 =>
      have hc := hi.count
      rw [← chunksTo_length h.writable h.chained] at hc
      dsimp only
      rw [bytes_eq_encodeFile h hi.len_eq hi.endOf_le,
        consistent_encodeFile_iff hbs (fun c hc => (chunksTo_valid h hc).left), u32_of_lt hc]
      exact ⟨rfl, chunksTo_size_sum h hi.endOf_le⟩
    case refine_2 =>
      exact ⟨_, (import_bytes_iff h hi.len_eq hi.endOf_le false hi.count).mpr
        ⟨hi.blocks, hi.holes, nofun, _, run_callsFrom h hi.apart, rfl⟩⟩

def dataAtStart (imageLen : Nat) (dataLen : UInt32) : SparseFile where
  len := imageLen
  backedBlockList := .ofUInts [.ofUInts 0 0 dataLen (.data 0)] none 4 1

theorem headerOk_dataAtStart : (dataAtStart 12 5).HeaderOk .withoutFiles 0 := by
  refine (headerOk_iff ⟨?_, ?_, ?_, ⟨?_, ?_⟩, ?_⟩ 0).mpr ⟨?_, ?_, ?_, ?_, ?_, ?_⟩
  all_goals decide

-- The last block is not whole. The chunk in it is counted as two blocks, so that the space behind it is
-- negative.
theorem not_headerOk_dataAtStart :
    (dataAtStart 5 5).Encodable .withoutFiles ∧
      (∀ bb ∈ (dataAtStart 5 5).dataBlocks, bb.block * 4 + bb.len ≤ 5) ∧
      ¬(dataAtStart 5 5).HeaderOk .withoutFiles 0 := by
  refine ⟨⟨?_, ?_, ?_, ⟨?_, ?_⟩, ?_⟩, ?_, ?_⟩
  case refine_8 =>
    rintro ⟨f, hw, _⟩
    rw [write_eq_assertFailed (by decide) (by decide) (by decide)] at hw
    cases hw
  all_goals decide

end Sparse
