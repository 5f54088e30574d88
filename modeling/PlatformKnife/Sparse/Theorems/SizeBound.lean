import PlatformKnife.Sparse.Chunk
import PlatformKnife.Sparse.Run
import PlatformKnife.Sparse.Theorems.Resparse
import PlatformKnife.Sparse.Theorems.Sinks

-- The length of a file in the sparse format, and how far resparsing keeps to its limit.

namespace Sparse

open CInt BackedBlock OutputFile SparseFile List

variable {env : Env} {bb : BackedBlock} {l : List BackedBlock} {s : SparseFile}
variable {bs last imageLen : Nat}

def counted (env : Env) (bs imageLen : Nat) (l : List BackedBlock) : Int :=
  (l.map (chunkCount env bs imageLen)).sum

section Counter

variable {out : OutputFile OutCounter} (hs : out.sparse) (hc : out.useCrc = false)

def OutputFile.count (out : OutputFile OutCounter) (n : Int) : OutputFile OutCounter :=
  { out with sink := ⟨out.sink.count + n⟩ }

include hs

include hc

end Counter

section Gaps

variable {l₁ l₂ : List BackedBlock}

end Gaps

section Split

variable (hb : 0 < bs)

include hb

variable (hbs : bs < 2 ^ 31)

include hbs

end Split

section Rounds

variable {r r' : Resparse} {maxLen : Nat} {outCount : Int}

section

variable (hmax : maxLen < 2 ^ 32)

include hmax

end

-- Five blocks of zeros, with a hole in front of each and one behind the last.
def fillsWithGaps : SparseFile where
  len := 44
  backedBlockList := .ofUInts [.ofUInts 0 1 4 (.fill 0), .ofUInts 1 3 4 (.fill 0), .ofUInts 2 5 4 (.fill 0),
    .ofUInts 3 7 4 (.fill 0), .ofUInts 4 9 4 (.fill 0)] (some 4) 4 5

end Rounds

-- A file that is written from its start on, and the counter.
theorem parallel_outCounter : Parallel (fun _ : File => False)
    fun f (o : OutCounter) => f.pos = f.bytes.length ∧ o.count = f.bytes.length where
  write {f o} data {n} hn _ hr := by
    refine .inr ?_
    simp [OutputFileOps.write, fileWrite, not_lt.mpr hn, hr, outCounterWrite,
      File.write_bytes_of_end hr.1, hn]
  stays := nofun

-- The length that is announced for a file is the number of bytes that are written.
theorem write_of_fileLen (hf : ∀ bb ∈ s.dataBlocks, ChunkFits s.blockSize bb)
    (h : s.fileLen env true crc = .ok n) :
    ∃ f, s.write env .empty true crc = .ok f ∧ (f.bytes.length : Int) = n := by
  rw [fileLen] at h
  split at h
  · contradiction
  case h_2 o ho =>
    cases h
    obtain ⟨f, hw, hr⟩ := writeTo_beside parallel_outCounter (s := File.empty) ⟨rfl, rfl⟩ hf
      (fun d _ => congrArg Prod.snd (if_neg (not_lt.mpr d.length.cast_nonneg))) ho
    exact ⟨f, hw, (hr.resolve_left id).2.symm⟩

theorem write_of_fileLen_fillsWithGaps :
    ∃ f, fillsWithGaps.write .withoutFiles .empty true true = .ok f ∧ (f.bytes.length : Int) = 196 :=
  write_of_fileLen
    (by simp [fillsWithGaps, dataBlocks, ChunkFits, BackedBlockList.ofUInts, BackedBlock.ofUInts])
    (by decide +kernel)

end Sparse
