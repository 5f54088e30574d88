import PlatformKnife.Sparse.Theorems.BlockMap

namespace Sparse

open CInt Bytes SparseFile OutputFile BackedBlock Option Nat

variable {env : Env} {bb : BackedBlock} {bs n m len offset imageLen : Nat} {fd : Int} {val : UInt32}

section Arith

theorem divRoundUp_eq (h : n + bs ≤ 2 ^ 32) : divRoundUp n bs = (n + bs - 1) / bs := by
  rw [divRoundUp, u32_of_lt (by omega)]

theorem mul_ceil_lt (hb : 0 < bs) : bs * ((n + bs - 1) / bs) < n + bs := by
  have := mul_div_le (n + bs - 1) bs
  omega

theorem le_mul_ceil (hb : 0 < bs) : n ≤ bs * ((n + bs - 1) / bs) := by
  have := lt_mul_div_succ (n + bs - 1) hb
  rw [mul_succ] at this
  omega

theorem align_eq (hb : 0 < bs) (h : n + bs ≤ 2 ^ 32) : align n bs = bs * ((n + bs - 1) / bs) := by
  rw [align, divRoundUp_eq h, u32_of_lt]
  exact (mul_ceil_lt hb).trans_le h

theorem lt_alignDown_add (hb : 0 < bs) : n < alignDown n bs + bs := by
  rw [alignDown, ← mul_succ]
  exact lt_mul_div_succ n hb

theorem alignDown_eq_zero (h : n < bs) : alignDown n bs = 0 := by
  rw [alignDown, div_eq_of_lt h, mul_zero]

theorem alignDown_pos (hb : 0 < bs) (h : bs ≤ n) : bs ≤ alignDown n bs := by
  have := lt_alignDown_add (n := n) hb
  rw [alignDown]
  exact Nat.le_mul_of_pos_right bs (Nat.div_pos h hb)

end Arith

def dataCount (bs len : Nat) : Int :=
  12 + i32 len + i32 (i32 (align len bs) - len)

def Mapped (env : Env) (fd : Int) (offset len : Nat) : Prop :=
  env.contents fd ≠ none ∧ 0 < i32 (len + offset % 4096 : Nat)

instance : Decidable (Mapped env fd offset len) :=
  inferInstanceAs (Decidable (_ ∧ _))

-- A chunk is not skipped because of a file that can not be mapped.
def Readable (env : Env) (bb : BackedBlock) : Prop :=
  match bb.source with
  | .data _ => True
  | .fill _ => True
  | .fd fd offset => Mapped env fd offset bb.len
  | .file name offset => ∃ fd ∈ env.open_ name.text, Mapped env fd offset bb.len

instance : Decidable (Readable env bb) := by
  unfold Readable
  split <;> infer_instance

theorem sub_alignDown_eq_mod : n - alignDown n m = n % m := by
  have := div_add_mod n m
  rw [alignDown]
  omega

section

variable [OutputFileOps σ] {out : OutputFile σ}

theorem writeFdChunk_of_mapped (h : env.contents fd = some c) (hm : 0 < i32 (len + offset % 4096 : Nat)) :
    out.writeFdChunk env len fd offset = out.writeDataChunk len fun i => c (offset + i) := by
  have hd i : alignDown offset 4096 + (offset % 4096 + i) = offset + i := by
    rw [← add_assoc, alignDown, div_add_mod]
  rw [← sub_alignDown_eq_mod] at hm hd
  simp only [writeFdChunk, Env.mmap, if_pos hm, h, map_some, elim_some, hd]

theorem writeFdChunk_of_not_mapped (h : ¬Mapped env fd offset len) :
    out.writeFdChunk env len fd offset = (out, false) := by
  have hn : env.mmap fd (i32 (len + offset % 4096 : Nat)) (alignDown offset 4096) = none := by
    rw [Env.mmap]
    split
    case isTrue hm =>
      have hc : env.contents fd = none := by_contra fun hc => h ⟨hc, hm⟩
      rw [hc, map_none]
    case isFalse => rfl
  rw [← sub_alignDown_eq_mod] at hn
  simp only [writeFdChunk, hn, elim_none]

def Source.IsFill : Source → Prop
  | .fill _ => True
  | _ => False

instance (s : Source) : Decidable s.IsFill := by
  cases s <;> unfold Source.IsFill <;> infer_instance

theorem writeBlock_of_readable (hf : ¬bb.source.IsFill) (hr : Readable env bb) :
    writeBlock env out bb = out.writeDataChunk bb.len (bb.source.ptr env) := by
  unfold Readable at hr
  unfold writeBlock
  split <;> rename_i hs <;> simp only [hs, Source.IsFill, not_true_eq_false] at hf hr
  · rw [hs]; rfl
  · obtain ⟨fd, hfd, hc, hm⟩ := hr
    obtain ⟨c, hc⟩ := ne_none_iff_exists'.mp hc
    simp only [mem_def] at hfd
    simp only [writeFileChunk, hfd, writeFdChunk_of_mapped hc hm, hs, Source.ptr, bind_some, hc, getD_some]
  · obtain ⟨hc, hm⟩ := hr
    obtain ⟨c, hc⟩ := ne_none_iff_exists'.mp hc
    simp only [writeFdChunk_of_mapped hc hm, hs, Source.ptr, hc, getD_some]

theorem writeBlock_of_not_readable (hr : ¬Readable env bb) : writeBlock env out bb = (out, false) := by
  unfold Readable at hr
  unfold writeBlock
  split <;> rename_i hs <;> simp only [hs, not_true_eq_false] at hr
  case h_2 name _ =>
    unfold writeFileChunk
    split
    · rfl
    case h_2 fd hfd => exact writeFdChunk_of_not_mapped fun hm => hr ⟨fd, hfd, hm⟩
  · exact writeFdChunk_of_not_mapped hr

theorem writeBlock_of_fill (h : bb.source = .fill val) :
    writeBlock env out bb = out.writeFillChunk bb.len val := by
  simp [writeBlock, h]

end

section Counter

@[simp]
theorem counter_write (out : OutputFile OutCounter) (data : Nat → UInt8) (len : Int) :
    out.write data len = ({ out with sink := ⟨out.sink.count + len⟩ }, true) :=
  rfl

theorem ChunkHeader.encode_length (h : ChunkHeader) : h.encode.length = 12 := by
  simp [encode]

theorem SparseHeader.encode_length (h : SparseHeader) : h.encode.length = 28 := by
  simp [encode]

theorem counter_writeSparseDataChunk (out : OutputFile OutCounter) (hc : out.useCrc = false) :
    out.writeSparseDataChunk len data =
      ({ out with sink := ⟨out.sink.count + dataCount out.blockSize len⟩ }, true) := by
  simp only [writeSparseDataChunk, writeBytes, andThen, counter_write, ChunkHeader.encode_length,
    if_true, dataCount]
  split <;> simp_all [addCrc]
  case isTrue  => omega
  case isFalse => omega

theorem addCrc_of_not_useCrc (out : OutputFile σ) (d : List UInt8) (hc : out.useCrc = false) :
    out.addCrc d = out := by
  cases out
  simp_all [addCrc]

theorem addFillCrc_of_not_useCrc (out : OutputFile σ) (hc : out.useCrc = false) :
    out.addFillCrc val n = out := by
  induction n
  case zero => rfl
  case succ n hi => rw [addFillCrc, addCrc_of_not_useCrc _ _ hc, hi]

theorem counter_writeSparseFillChunk (out : OutputFile OutCounter) (hc : out.useCrc = false) :
    out.writeSparseFillChunk len val = ({ out with sink := ⟨out.sink.count + 16⟩ }, true) := by
  simp only [writeSparseFillChunk, writeBytes, andThen, counter_write, ChunkHeader.encode_length,
    if_true, le_length, cast_ofNat]
  rw [addFillCrc_of_not_useCrc _ (by exact hc), Int.add_assoc]
  rfl

end Counter

theorem chunkCount_eq : chunkCount env bs imageLen bb =
    if Readable env bb then if bb.source.IsFill then 16 else dataCount bs bb.len else 0 := by
  dsimp only [chunkCount]
  split
  case isTrue hr =>
    split
    case isTrue hf =>
      cases hs : bb.source <;> simp only [hs, Source.IsFill] at hf
      rw [writeBlock_of_fill hs, writeFillChunk, if_pos rfl, counter_writeSparseFillChunk _ rfl]
      rfl
    case isFalse hf =>
      rw [writeBlock_of_readable hf hr, writeDataChunk, if_pos rfl, counter_writeSparseDataChunk _ rfl]
      simp
  case isFalse hr => rw [writeBlock_of_not_readable hr]

section Size

variable (hb : 0 < bs) (hbs : bs < 2 ^ 31)

theorem blockSize_lt_of_calloc (h : env.calloc (i32 bs)) (hlt : bs < 2 ^ 32) : bs < 2 ^ 31 := by
  refine lt_of_i32_nonneg hlt <| Int.not_lt.mp fun hn => ?_
  rw [env.calloc_neg _ hn] at h
  contradiction

include hb hbs

theorem dataCount_of_lt (h : n < 2 ^ 31) : dataCount bs n = 12 + (bs * ((n + bs - 1) / bs) : Nat) := by
  have h₁ := mul_ceil_lt (n := n) hb
  have h₂ := le_mul_ceil (n := n) hb
  rw [dataCount, align_eq hb (by omega), i32_of_lt h, i32_i32_sub, i32_of_mem] <;> omega

end Size

end Sparse
