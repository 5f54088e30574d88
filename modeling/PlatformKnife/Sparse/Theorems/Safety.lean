import PlatformKnife.Sparse.Theorems.ReadStep

-- Whether an arbitrary file can be imported without a fault.

namespace Sparse

open CInt Bytes BackedBlockList

variable {st st' : ReadState} {fd : Int} {hdr : SparseHeader} {d : List UInt8} {crc : Bool} {n : Nat}

namespace ReadState

-- An accepted chunk that stands for blocks starts before the end of the image.
def StartsBelow (fd : Int) (hdr : SparseHeader) (st : ReadState) : Prop :=
  ∀ c st', st.readChunk fd hdr = .ok (c, st') → c.HasBlocks → st.curBlock < hdr.totalBlks

-- The same in terms of the state before the step: what the next chunk needs is there, its block can be
-- queued, and if its sizes are right the current block is below the end.
structure StepOk (fd : Int) (hdr : SparseHeader) (st : ReadState) : Prop where
  noFault : CHUNK_HEADER_LEN ≤ st.file.rest.length → st.NoFault fd hdr
  below   : CHUNK_HEADER_LEN ≤ st.file.rest.length → st.header.HasBlocks → st.Reads hdr →
              st.curBlock < hdr.totalBlks

theorem stepOk_iff (hs : st.backedBlockList.Sorted) :
    (∀ f, st.readChunk fd hdr ≠ .error (.fault f)) ∧ st.StartsBelow fd hdr ↔ st.StepOk fd hdr := by
  by_cases hl : CHUNK_HEADER_LEN ≤ st.file.rest.length
  case neg =>
    simp only [StartsBelow, readChunk_eof hl]
    exact ⟨fun _ => ⟨fun h => absurd h hl, fun h => absurd h hl⟩, fun _ => ⟨by simp, by simp⟩⟩
  have ho := @readChunk_outcome st fd hdr hs hl
  simp only [StartsBelow]
  generalize st.readChunk fd hdr = r at ho
  cases ho
  case fault f hn => exact ⟨fun h => absurd rfl (h.left f), fun h => absurd (h.noFault hl) hn⟩
  case refused e hn hr =>
    exact ⟨fun _ => ⟨fun _ => hn, fun _ hb h => absurd h (hr hb)⟩, fun _ => ⟨by simp, by simp⟩⟩
  case read st' hn hr hq =>
    constructor
    case mp  => exact fun h => ⟨fun _ => hn, fun _ hb _ => h.right _ _ rfl hb⟩
    case mpr =>
      intro h
      refine ⟨by simp, ?_⟩
      rintro _ _ ⟨⟩ hb
      exact h.below hl hb (hr hb)

theorem readChunks_safe_iff (hs : st.backedBlockList.Sorted) :
    (∀ f, st.readChunks fd hdr n ≠ .error (.fault f)) ∧ st.Along (StartsBelow fd hdr) fd hdr n ↔
      st.Along (StepOk fd hdr) fd hdr n := by
  induction n generalizing st
  case zero => simp [readChunks, Along]
  case succ n hi =>
    rw [Along, Along, ← stepOk_iff hs, readChunks]
    cases hc : st.readChunk fd hdr
    case error e => simp
    case ok r =>
      obtain ⟨c, st'⟩ := r
      have hi := hi (readChunk_sorted hs hc).left
      simp only [Except.ok.injEq, Prod.mk.injEq, and_imp, ne_eq, reduceCtorEq, not_false_eq_true,
        implies_true, true_and] at hi ⊢
      rw [and_left_comm]
      refine and_congr_right fun _ => ?_
      constructor
      case mp =>
        rintro ⟨hf, ha⟩ _ _ rfl rfl
        exact hi.mp ⟨hf, ha _ _ rfl rfl⟩
      case mpr =>
        intro ha
        obtain ⟨hf, ha⟩ := hi.mpr (ha _ _ rfl rfl)
        refine ⟨hf, ?_⟩
        rintro _ _ rfl rfl
        exact ha

end ReadState

section Import

-- The file as which the contents of a file are imported.
def imported (d : List UInt8) : SparseFile :=
  .new (fileHdr d).blkSz ((fileHdr d).totalBlks * (fileHdr d).blkSz)

theorem import_eq : SparseFile.import_ fd d crc =
    if SPARSE_HEADER_LEN ≤ d.length ∧ (fileHdr d).Valid then
      if 2 ^ 63 ≤ (fileHdr d).totalBlks * (fileHdr d).blkSz
      then .error (.fault .signedOverflow)
      else (imported d).readSparse fd ⟨d, 0⟩ crc
    else
      .error (.errno .einval) := by
  have hrest : File.rest ⟨d, 0⟩ = d := rfl
  have hread (s : SparseFile) (f : File) : s.read fd f true crc = s.readSparse fd f crc := by
    simp [SparseFile.read]
  simp only [SparseFile.import_, readAll_eq, hrest]
  by_cases hl : SPARSE_HEADER_LEN ≤ d.length
  case neg => simp [hl]
  simp only [hl, true_and, if_true, hread]
  rfl

-- The import ends without a fault, and accepted chunks start before the end.
def SafeImport (fd : Int) (d : List UInt8) (crc : Bool) : Prop :=
  (∀ f, SparseFile.import_ fd d crc ≠ .error (.fault f)) ∧
    (SPARSE_HEADER_LEN ≤ d.length ∧ (fileHdr d).Valid →
      (fileStart (imported d) d crc).Along (ReadState.StartsBelow fd (fileHdr d)) fd (fileHdr d)
        (fileHdr d).totalChunks)

theorem safeImport_iff (fd : Int) (d : List UInt8) (crc : Bool) : SafeImport fd d crc ↔
    (SPARSE_HEADER_LEN ≤ d.length ∧ (fileHdr d).Valid →
      (fileHdr d).totalBlks * (fileHdr d).blkSz < 2 ^ 63 ∧
      (fileStart (imported d) d crc).Along (ReadState.StepOk fd (fileHdr d)) fd (fileHdr d)
        (fileHdr d).totalChunks) := by
  rw [SafeImport, import_eq]
  by_cases hv : SPARSE_HEADER_LEN ≤ d.length ∧ (fileHdr d).Valid
  case neg => simp [hv]
  have hs : (fileStart (imported d) d crc).backedBlockList.Sorted := .nil
  have hiff := @ReadState.readChunks_safe_iff _ fd (fileHdr d) (fileHdr d).totalChunks hs
  rw [forall_prop_of_true hv, forall_prop_of_true hv, if_pos hv]
  by_cases hb : 2 ^ 63 ≤ (fileHdr d).totalBlks * (fileHdr d).blkSz
  case pos =>
    rw [if_pos hb]
    exact ⟨fun h => absurd rfl (h.left _), fun h => absurd hb (not_le.mpr h.left)⟩
  rw [if_neg hb, ← hiff, iff_true_intro (not_le.mp hb), true_and, readSparse_eq, if_pos hv]
  refine and_congr_left fun _ => forall_congr' fun f => not_congr ?_
  cases (fileStart (imported d) d crc).readChunks fd (fileHdr d) (fileHdr d).totalChunks
  case error e => simp
  case ok st => dsimp only; split <;> simp

-- A raw chunk with a block size of zero is divided by it, and a checksum is compared even if none is kept.
theorem not_safeImport_zero_block_size :
    SparseFile.import_ 0 (encodeFile 0 0 1 [.raw []]) false = .error (.fault .divideByZero) ∧
    SparseFile.import_ 0 (encodeFile 4 0 1 [.crc32 0]) false = .error (.fault .nullDereference) ∧
    ¬SafeImport 0 (encodeFile 0 0 1 [.raw []]) false ∧
    ¬SafeImport 0 (encodeFile 4 0 1 [.crc32 0]) false :=
  ⟨rfl, rfl, fun h => h.left _ rfl, fun h => h.left _ rfl⟩

end Import

end Sparse
