import PlatformKnife.Sparse.Theorems.Reader
import PlatformKnife.Sparse.Theorems.Partition

-- What is read back from a file that was written in the sparse format.

namespace Sparse

open Bytes CInt SparseFile List Nat Chunk BackedBlock BackedBlockList

variable {env : Env} {bb : BackedBlock} {l : List BackedBlock} {bs last pos cur total : Nat} {fd : Int}
variable {s : SparseFile}

-- The sizes of the gaps between the chunks and behind them up to block `total`. Only the last may not fit.
def holes (bs total : Nat) : (last : Nat) → List BackedBlock → List Nat
  | last, [] => if last < total then [u32 (total - last)] else []
  | last, bb :: l => (if last < bb.block then [bb.block - last] else []) ++
    holes bs total (bb.endBlock bs) l

def endOf (bs : Nat) : (last : Nat) → List BackedBlock → Nat
  | last, [] => last
  | _, bb :: l => endOf bs (bb.endBlock bs) l

-- Each chunk starts behind the previous one, and the first one not in front of `last`.
def Chained (bs : Nat) : (last : Nat) → List BackedBlock → Prop
  | _, [] => True
  | last, bb :: l => last ≤ bb.block ∧ Chained bs (bb.endBlock bs) l

theorem Separated.chained (h : Separated bs l) (hl : ∀ bb ∈ l.head?, last ≤ bb.block) :
    Chained bs last l := by
  induction l generalizing last
  case nil => trivial
  case cons bb l hi =>
    obtain ⟨hp, hm⟩ := h
    rw [pairwise_cons] at hp
    refine ⟨hl bb rfl, hi ⟨hp.right, fun b hb => hm b (.tail _ hb)⟩ fun b hb => ?_⟩
    exact hp.left b (mem_of_mem_head? hb)

section Chunk

variable (hb : 0 < bs)

include hb

theorem BackedBlock.chunk_size (bb : BackedBlock) : (bb.chunk env bs).size bs = bb.blocks bs := by
  by_cases hf : bb.source.IsFill
  case neg =>
    rw [chunk_of_not_isFill hf, Chunk.size, padded_length hb, Nat.mul_div_cancel_left _ hb, blocks]
  cases hs : bb.source <;> simp only [hs, Source.IsFill] at hf
  rw [chunk_of_fill hs, Chunk.size]

theorem Writable.blocks_lt (h : Writable env bs bb) : bb.blocks bs < 2 ^ 32 := by
  have := h.len_le
  rw [blocks, Nat.div_lt_iff_lt_mul hb]
  have := Nat.le_mul_of_pos_right (2 ^ 32) hb
  omega

omit hb in
theorem Writable.nextBlock_eq (h : Writable env bs bb) : nextBlock bs bb = u32 (bb.endBlock bs) := by
  have := h.len_le
  rw [nextBlock, divRoundUp_eq (by omega)]
  rfl

theorem Writable.chunk_valid (h : Writable env bs bb) : (bb.chunk env bs).Valid bs := by
  have hs : (bb.chunk env bs).size bs = bb.blocks bs := bb.chunk_size hb
  have hd (d : List UInt8) (he : bb.chunk env bs = .raw d) :
      bb.blocks bs * bs = d.length ∧ d.length < 2 ^ 32 := by
    have hf : ¬bb.source.IsFill := by
      intro hf
      cases hs : bb.source <;> simp only [hs, Source.IsFill] at hf
      simp [chunk_of_fill hs] at he
    rw [chunk_of_not_isFill hf, raw.injEq] at he
    have hl := mul_ceil_lt (n := bb.len) hb
    have := h.len_le
    rw [← he, padded_length hb]
    exact ⟨mul_comm .., by omega⟩
  constructor
  case size_lt => rw [hs]; exact h.blocks_lt hb
  case whole => intro d he; rw [hs]; exact (hd d he).left
  case len_lt => intro d he; exact (hd d he).right

end Chunk

section List

def chunksTo (env : Env) (bs total last : Nat) (l : List BackedBlock) : List Chunk :=
  chunksFrom env bs last l ++
    if endOf bs last l < total then [.skip (u32 (total - endOf bs last l))] else []

-- The position in the image is only ever reduced behind the last chunk.
theorem chunksFrom_cons (hw : Writable env bs bb) (h : Chained bs last (bb :: l)) :
    chunksFrom env bs last (bb :: l) =
      (if last < bb.block then [.skip (bb.block - last)] else []) ++
        bb.chunk env bs :: chunksFrom env bs (bb.endBlock bs) l := by
  rw [chunksFrom, hw.nextBlock_eq]
  cases l
  case nil => rfl
  case cons b l => rw [u32_of_lt (h.right.left.trans_lt b.block_lt)]

theorem chunksFrom_size_sum (hb : 0 < bs) (hw : ∀ bb ∈ l, Writable env bs bb) (h : Chained bs last l) :
    last + ((chunksFrom env bs last l).map (·.size bs)).sum = endOf bs last l := by
  induction l generalizing last
  case nil => rfl
  case cons bb l hi =>
    simp only [forall_mem_cons] at hw
    have hs : (bb.chunk env bs).size bs = bb.blocks bs := bb.chunk_size hb
    have hi := hi hw.right h.right
    have hl := h.left
    rw [chunksFrom_cons hw.left h, endOf, ← hi, endBlock]
    split
    case isTrue  =>
      simp only [map_append, map_cons, map_nil, sum_append_nat, sum_cons, sum_nil, hs, size_skip]
      omega
    simp only [nil_append, map_cons, sum_cons, hs]
    omega

theorem lastBlock_eq (hw : ∀ bb ∈ l, Writable env bs bb) (hl : last < 2 ^ 32) :
    lastBlock bs last l = u32 (endOf bs last l) := by
  induction l generalizing last
  case nil => exact (u32_of_lt hl).symm
  case cons bb l hi =>
    simp only [forall_mem_cons] at hw
    rw [lastBlock, endOf, hw.left.nextBlock_eq, hi hw.right (u32_lt _)]
    cases l
    case nil  => exact u32_u32 _
    case cons => rfl

theorem chunksTo_cons (hw : Writable env bs bb) (h : Chained bs last (bb :: l)) :
    chunksTo env bs total last (bb :: l) =
      (if last < bb.block then [.skip (bb.block - last)] else []) ++
        bb.chunk env bs :: chunksTo env bs total (bb.endBlock bs) l := by
  rw [chunksTo, chunksFrom_cons hw h, append_assoc, cons_append]
  rfl

theorem chunksTo_length (hw : ∀ bb ∈ l, Writable env bs bb) (h : Chained bs last l) :
    (chunksTo env bs total last l).length = l.length + (holes bs total last l).length := by
  induction l generalizing last
  case nil => by_cases hl : last < total <;> simp [chunksTo, chunksFrom, holes, endOf, hl]
  case cons bb l hi =>
    simp only [forall_mem_cons] at hw
    rw [chunksTo_cons hw.left h, holes, length_append, length_cons, hi hw.right h.right]
    split <;> simp <;> omega

theorem mem_chunksTo (hw : ∀ bb ∈ l, Writable env bs bb) (h : Chained bs last l)
    (hc : c ∈ chunksTo env bs total last l) :
    (∃ n < 2 ^ 32, c = .skip n) ∨ ∃ bb ∈ l, c = bb.chunk env bs := by
  induction l generalizing last
  case nil =>
    simp only [chunksTo, chunksFrom, nil_append] at hc
    split at hc
    case isTrue  => exact .inl ⟨_, u32_lt _, mem_singleton.mp hc⟩
    case isFalse => simp at hc
  case cons bb l hi =>
    simp only [forall_mem_cons] at hw
    rw [chunksTo_cons hw.left h, mem_append, mem_cons] at hc
    rcases hc with hc | rfl | hc
    case inl =>
      split at hc
      case isTrue  => exact .inl ⟨_, (sub_le ..).trans_lt bb.block_lt, mem_singleton.mp hc⟩
      case isFalse => simp at hc
    case inr.inl => exact .inr ⟨bb, by simp, rfl⟩
    case inr.inr =>
      rcases hi hw.right h.right hc with hn | ⟨b, hb, he⟩
      case inl => exact .inl hn
      case inr => exact .inr ⟨b, .tail _ hb, he⟩

theorem forall_mem_chunksTo {p : Nat → Prop} (hb : 0 < bs) (hw : ∀ bb ∈ l, Writable env bs bb)
    (h : Chained bs last l) : (∀ c ∈ chunksTo env bs total last l, p (c.size bs)) ↔
      (∀ bb ∈ l, p (bb.blocks bs)) ∧ ∀ n ∈ holes bs total last l, p n := by
  induction l generalizing last
  case nil => by_cases hl : last < total <;> simp [chunksTo, chunksFrom, holes, endOf, hl]
  case cons bb l hi =>
    simp only [forall_mem_cons] at hw
    have hs : (bb.chunk env bs).size bs = bb.blocks bs := bb.chunk_size hb
    have hi := hi hw.right h.right
    rw [chunksTo_cons hw.left h, holes]
    simp only [mem_append, mem_cons, or_imp, forall_and, forall_eq, hs, hi]
    split <;> simp <;> tauto

end List

section Calls

def BackedBlock.readCall (fd : Int) (bs pos : Nat) (bb : BackedBlock) : Call :=
  match bb.source with
  | .fill val => .addFill val (.ofNat (bb.blocks bs * bs)) (.ofNat bb.block)
  | _ => .addFd fd (pos + CHUNK_HEADER_LEN) (.ofNat (bb.blocks bs * bs)) (.ofNat bb.block)

-- The position of the chunk of a block, behind the one of a gap in front of it.
def chunkPos (pos last : Nat) (bb : BackedBlock) : Nat :=
  pos + if last < bb.block then CHUNK_HEADER_LEN else 0

def callsFrom (env : Env) (fd : Int) (bs : Nat) : (pos last : Nat) → List BackedBlock → List Call
  | _, _, [] => []
  | pos, last, bb :: l =>
    bb.readCall fd bs (chunkPos pos last bb) ::
      callsFrom env fd bs (chunkPos pos last bb + ((bb.chunk env bs).encode bs).length)
        (bb.endBlock bs) l

theorem BackedBlock.call_chunk (hb : 0 < bs) (bb : BackedBlock) (pos : Nat) :
    (bb.chunk env bs).call fd bs pos bb.block = some (bb.readCall fd bs pos) := by
  by_cases hf : bb.source.IsFill
  case pos =>
    cases hs : bb.source <;> simp only [hs, Source.IsFill] at hf
    rw [chunk_of_fill hs, call, readCall, hs]
  have hl : (padded bs (bb.source.ptr env) bb.len).length = bb.blocks bs * bs := by
    rw [padded_length hb, mul_comm, blocks]
  rw [chunk_of_not_isFill hf, call, hl]
  unfold readCall
  split
  case h_1 hs => exact absurd (by rw [hs]; trivial) hf
  · rfl

theorem readCalls_skip (n : Nat) (cs : List Chunk) :
    readCalls fd bs pos cur (.skip n :: cs) =
      readCalls fd bs (pos + CHUNK_HEADER_LEN) (u32 (cur + n)) cs := by
  rw [readCalls, call, encode_length]
  rfl

theorem readCalls_chunksTo (hb : 0 < bs) (hw : ∀ bb ∈ l, Writable env bs bb) (h : Chained bs last l)
    (hc : l ≠ [] → cur = last) :
    readCalls fd bs pos cur (chunksTo env bs total last l) = callsFrom env fd bs pos last l := by
  induction l generalizing pos cur last
  case nil =>
    rw [chunksTo, chunksFrom, callsFrom, nil_append]
    split
    case isTrue  => rw [readCalls_skip, readCalls]
    case isFalse => rfl
  case cons bb l hi =>
    simp only [forall_mem_cons] at hw
    obtain rfl := hc (by simp)
    have hs : (bb.chunk env bs).size bs = bb.blocks bs := bb.chunk_size hb
    have hn : l ≠ [] → u32 (bb.block + bb.blocks bs) = bb.endBlock bs := by
      intro hl
      cases l
      case nil => contradiction
      case cons b l => exact u32_of_lt (h.right.left.trans_lt b.block_lt)
    have hi := @hi _ (chunkPos pos cur bb + ((bb.chunk env bs).encode bs).length) _ hw.right h.right hn
    have hstep : readCalls fd bs (chunkPos pos cur bb) bb.block
        (bb.chunk env bs :: chunksTo env bs total (bb.endBlock bs) l) =
        callsFrom env fd bs pos cur (bb :: l) := by
      rw [readCalls, bb.call_chunk hb, hs, hi, callsFrom]
      rfl
    rw [chunksTo_cons hw.left h, ← hstep, chunkPos]
    split
    case isTrue hlt =>
      rw [singleton_append, readCalls_skip, add_sub_of_le hlt.le, u32_of_lt bb.block_lt]
    case isFalse hlt =>
      have : cur = bb.block := le_antisymm h.left (not_lt.mp hlt)
      rw [nil_append, this]
      rfl

theorem BackedBlock.readCall_block (bb : BackedBlock) (pos : Nat) :
    (bb.readCall fd bs pos).block = bb.block := by
  unfold readCall
  split <;> exact mod_eq_of_lt bb.block_lt

theorem BackedBlock.readCall_len (h : bb.blocks bs * bs < 2 ^ 32) (pos : Nat) :
    (bb.readCall fd bs pos).len = bb.blocks bs * bs := by
  unfold readCall
  split <;> exact mod_eq_of_lt h

theorem Writable.blocks_mul_lt (hb : 0 < bs) (h : Writable env bs bb) : bb.blocks bs * bs < 2 ^ 32 := by
  have := mul_ceil_lt (n := bb.len) hb
  have := h.len_le
  rw [mul_comm, blocks]
  omega

theorem callsFrom_block : (callsFrom env fd bs pos last l).map (·.block) = l.map (·.block) := by
  induction l generalizing pos last
  case nil => rfl
  case cons bb l hi => rw [callsFrom, map_cons, hi, bb.readCall_block, map_cons]

theorem callsFrom_ascending (h : l.Pairwise (·.block < ·.block)) :
    Ascending (callsFrom env fd bs pos last l) := by
  rw [Ascending, ← pairwise_map, callsFrom_block, pairwise_map]
  exact h

theorem callsFrom_dropLast :
    (callsFrom env fd bs pos last l).dropLast = callsFrom env fd bs pos last l.dropLast := by
  induction l generalizing pos last
  case nil => rfl
  case cons bb l hi =>
    cases l
    case nil => rfl
    case cons b l => exact congrArg (_ :: ·) hi

-- Two chunks that are filled with one value, the second right behind the first.
def FillsMeet (bs : Nat) (a b : BackedBlock) : Prop :=
  a.endBlock bs = b.block ∧ a.source = b.source ∧ a.source.IsFill

instance (a b : BackedBlock) : Decidable (FillsMeet bs a b) :=
  inferInstanceAs (Decidable (_ ∧ _ ∧ _))

-- The data of two chunks is never contiguous, as there is a header in between.
theorem readCall_merges_iff (fd : Int) (hb : 0 < bs)
    (ha : a.blocks bs * bs < 2 ^ 32) (hl : a.endBlock bs ≤ b.block)
    (hp : ¬a.source.IsFill → p + a.blocks bs * bs < q) (i j : Nat) :
    Merges bs ((a.readCall fd bs p).node i) ((b.readCall fd bs q).node j) ↔ FillsMeet bs a b := by
  have hu : u32 (a.block + a.blocks bs * bs / bs) = a.endBlock bs := by
    rw [Nat.mul_div_cancel _ hb]
    exact u32_of_lt (hl.trans_lt b.block_lt)
  have hc : compatible ((a.readCall fd bs p).node i) ((b.readCall fd bs q).node j) ↔
      a.source = b.source ∧ a.source.IsFill := by
    have hl : (a.readCall fd bs p).len = a.blocks bs * bs := readCall_len ha p
    cases ha' : a.source <;> cases hb' : b.source <;>
      simp_all [readCall, Call.node, Call.source, compatible, Source.IsFill] <;> omega
  rw [FillsMeet, ← hc, Merges, Call.node, Call.node]
  simp only [readCall_block, readCall_len ha, hu]

theorem BackedBlock.encode_chunk_length (hb : 0 < bs) (h : ¬bb.source.IsFill) :
    ((bb.chunk env bs).encode bs).length = CHUNK_HEADER_LEN + bb.blocks bs * bs := by
  rw [encode_length, chunk_of_not_isFill h, payload, padded_length hb, mul_comm bs]
  rfl

theorem chunkPos_lt (env : Env) (pos last : Nat) (b : BackedBlock) (hb : 0 < bs)
    (hf : ¬a.source.IsFill) : chunkPos pos last a + a.blocks bs * bs <
      chunkPos (chunkPos pos last a + ((a.chunk env bs).encode bs).length) (a.endBlock bs) b := by
  rw [encode_chunk_length hb hf]
  simp only [chunkPos, CHUNK_HEADER_LEN]
  omega

theorem apart_callsFrom_iff (hb : 0 < bs) (hw : ∀ bb ∈ l, Writable env bs bb) (h : Chained bs last l) :
    Apart bs (nodes (callsFrom env fd bs pos last l)) ↔ l.IsChain fun a b => ¬FillsMeet bs a b := by
  have h (addr : Nat → Nat) : Apart bs ((callsFrom env fd bs pos last l).mapIdx
      fun i c => c.node (addr i)) ↔ l.IsChain fun a b => ¬FillsMeet bs a b := by
    induction l generalizing pos last addr
    case nil => simp [callsFrom, Apart]
    case cons a l hi =>
      obtain _ | ⟨b, l⟩ := l
      · simp [callsFrom, Apart]
      simp only [forall_mem_cons] at hw
      have hi := @hi _ (chunkPos pos last a + ((a.chunk env bs).encode bs).length)
        (by simpa using hw.right) h.right (addr <| · + 1)
      have hm := readCall_merges_iff fd hb (hw.left.blocks_mul_lt hb) h.right.left
        (chunkPos_lt env pos last b hb) (addr 0) (addr 1)
      rw [isChain_cons_cons, ← hi, ← hm]
      simp only [Apart, callsFrom, mapIdx_cons, isChain_cons_cons]
  exact h id

end Calls

section File

theorem endOf_le (h : ∀ bb ∈ l, bb.endBlock bs ≤ n) (hl : last ≤ n) : endOf bs last l ≤ n := by
  induction l generalizing last
  case nil => exact hl
  case cons bb l hi =>
    simp only [forall_mem_cons] at h
    exact hi h.right h.left

theorem Chained.le_endOf (h : Chained bs last l) :
    last ≤ endOf bs last l ∧ ∀ bb ∈ l, bb.endBlock bs ≤ endOf bs last l := by
  induction l generalizing last
  case nil => simp [endOf]
  case cons bb l hi =>
    obtain ⟨h₁, h₂⟩ := hi h.right
    have : last ≤ bb.endBlock bs := h.left.trans bb.le_endBlock
    simp only [forall_mem_cons, endOf]
    exact ⟨this.trans h₁, h₁, h₂⟩

-- A file whose chunks are sorted, do not overlap and can be written.
structure SparseFile.Encodable (env : Env) (s : SparseFile) : Prop where
  calloc : env.calloc (i32 s.blockSize)
  pos : 0 < s.blockSize
  writable : ∀ bb ∈ s.dataBlocks, Writable env s.blockSize bb
  separated : Separated s.blockSize s.dataBlocks
  sorted : s.dataBlocks.Pairwise (·.block < ·.block)

theorem SparseFile.Encodable.chained (h : s.Encodable env) : Chained s.blockSize 0 s.dataBlocks :=
  h.separated.chained (by simp)

theorem encode_skip (n : Nat) : (skip (u32 n)).encode bs = (skip n).encode bs := by
  have : le 4 (u32 n) = le 4 n := le_mod 4 n
  simp only [encode, header, ChunkHeader.encode, size_skip, this]
  rfl

-- No chunk is filled with the value of the one in front of it, up to the last one.
def FillsApart (bs : Nat) (l : List BackedBlock) : Prop :=
  l.dropLast.IsChain fun a b => ¬FillsMeet bs a b

instance (l : List BackedBlock) : Decidable (FillsApart bs l) :=
  inferInstanceAs (Decidable (List.IsChain ..))

theorem Chained.dropLast (h : Chained bs last l) : Chained bs last l.dropLast := by
  induction l generalizing last
  case nil => trivial
  case cons bb l hi =>
    cases l
    case nil  => trivial
    case cons => exact ⟨h.left, hi h.right⟩

section Run

variable (h : s.Encodable env)

include h

theorem SparseFile.Encodable.apart_iff :
    Apart s.blockSize (nodes (callsFrom env fd s.blockSize pos 0 s.dataBlocks).dropLast) ↔
      FillsApart s.blockSize s.dataBlocks := by
  rw [callsFrom_dropLast, FillsApart]
  exact apart_callsFrom_iff h.pos (fun bb hb => h.writable bb (mem_of_mem_dropLast hb)) h.chained.dropLast

theorem run_callsFrom (ha : FillsApart s.blockSize s.dataBlocks) :
    (BackedBlockList.new s.blockSize).run (callsFrom env fd s.blockSize pos 0 s.dataBlocks) =
      .ok (appendedLast s.blockSize (callsFrom env fd s.blockSize pos 0 s.dataBlocks)) :=
  run_appendedLast h.pos s.backedBlockList.blockSize_lt (callsFrom_ascending h.sorted) (h.apart_iff.mpr ha)

-- Fills that meet are merged again, and the chunk behind them is added with a pointer to a freed node.
theorem run_callsFrom_eq_error (ha : ¬FillsApart s.blockSize s.dataBlocks) :
    (BackedBlockList.new s.blockSize).run (callsFrom env fd s.blockSize pos 0 s.dataBlocks) =
      .error .useAfterFree :=
  run_eq_error h.pos s.backedBlockList.blockSize_lt (callsFrom_ascending h.sorted) (h.apart_iff.not.mpr ha)

end Run

section Whole

variable (h : s.Encodable env) (hw : s.len = total * s.blockSize)
variable (he : endOf s.blockSize 0 s.dataBlocks ≤ u32 total)

include h hw he

theorem chunks_eq_chunksTo :
    (s.chunks env).flatMap (·.encode s.blockSize) =
      (chunksTo env s.blockSize total 0 s.dataBlocks).flatMap (·.encode s.blockSize) ∧
    s.countChunks = (chunksTo env s.blockSize total 0 s.dataBlocks).length := by
  have hb := h.pos
  have hl : lastBlock s.blockSize 0 s.dataBlocks = endOf s.blockSize 0 s.dataBlocks := by
    rw [lastBlock_eq h.writable (by decide), u32_of_lt (he.trans_lt (u32_lt _))]
  have ht : tailLen s.blockSize s.len s.dataBlocks =
      (total - endOf s.blockSize 0 s.dataBlocks) * s.blockSize := by
    rw [tailLen, hl, hw, Nat.sub_mul]
  have hc : (s.len + s.blockSize - 1) / s.blockSize = total := by
    rw [hw, Nat.add_sub_assoc hb, mul_comm, mul_add_div hb, div_eq_of_lt (by omega), add_zero]
  have hcount : s.countChunks = (chunksTo env s.blockSize total 0 s.dataBlocks).length := by
    simp only [countChunks, countBlocks_eq env, hl, hc, chunksTo, length_append]
    split <;> rfl
  refine ⟨?_, hcount⟩
  rw [chunks, chunksTo, ht]
  generalize endOf s.blockSize 0 s.dataBlocks = e
  by_cases hlt : e < total
  case neg =>
    rw [if_neg hlt, if_neg (by simp [Nat.sub_eq_zero_of_le (not_lt.mp hlt)])]
  rw [if_pos hlt, if_pos ⟨Nat.mul_pos (by omega) hb, mul_mod_left ..⟩, Nat.mul_div_cancel _ hb]
  simp only [flatMap_append, flatMap_singleton, encode_skip]

theorem bytes_eq_encodeFile_crc32 (crc : Bool) :
    s.bytes env crc = encodeFile s.blockSize total
      ((chunksTo env s.blockSize total 0 s.dataBlocks).length + crc.toNat)
      (chunksTo env s.blockSize total 0 s.dataBlocks ++
        crcChunk s.blockSize crc (chunksTo env s.blockSize total 0 s.dataBlocks)) := by
  obtain ⟨hf, hc⟩ := chunks_eq_chunksTo h hw he
  have ht : s.len / s.blockSize = total := by rw [hw, Nat.mul_div_cancel _ h.pos]
  -- A skip does not change the checksum, however many blocks it has.
  have hwritten : (s.chunks env).flatMap (·.written s.blockSize) =
      (chunksTo env s.blockSize total 0 s.dataBlocks).flatMap (·.written s.blockSize) := by
    rw [chunks, chunksTo, flatMap_append, flatMap_append]
    congr 1
    split <;> split <;> rfl
  cases crc <;> simp [SparseFile.bytes, crcChunk, hc, ht, hwritten, encodeFile, flatMap_append, hf]

theorem bytes_eq_encodeFile :
    s.bytes env false = encodeFile s.blockSize total (chunksTo env s.blockSize total 0 s.dataBlocks).length
      (chunksTo env s.blockSize total 0 s.dataBlocks) := by
  rw [bytes_eq_encodeFile_crc32 h hw he, crcChunk, if_neg (by decide), append_nil]
  rfl

omit hw in
theorem chunksTo_size_sum :
    ((chunksTo env s.blockSize total 0 s.dataBlocks).map (·.size s.blockSize)).sum = u32 total := by
  have hs := chunksFrom_size_sum h.pos h.writable h.chained
  have hm := mod_le total (2 ^ 32)
  rw [zero_add] at hs
  rw [chunksTo, map_append, sum_append_nat, hs]
  simp only [u32] at he ⊢
  split
  case isTrue hlt  => simp only [map_singleton, sum_singleton, size_skip]; omega
  case isFalse hlt => simp only [map_nil, sum_nil]; omega

omit hw he in
theorem chunksTo_valid (hc : c ∈ chunksTo env s.blockSize total 0 s.dataBlocks) :
    c.Valid s.blockSize ∧ ∀ crc, c ≠ .crc32 crc := by
  rcases mem_chunksTo h.writable h.chained hc with ⟨n, hn, rfl⟩ | ⟨bb, hbb, rfl⟩
  case inl => exact ⟨⟨hn, by simp, by simp⟩, by simp⟩
  refine ⟨(h.writable bb hbb).chunk_valid h.pos, fun crc => ?_⟩
  unfold chunk
  split <;> simp

theorem import_bytes_iff (crc : Bool)
    (hn : s.dataBlocks.length + (holes s.blockSize total 0 s.dataBlocks).length + crc.toNat < 2 ^ 32) :
    SparseFile.import_ fd (s.bytes env crc) crc = .ok s' ↔
      (∀ bb ∈ s.dataBlocks, bb.blocks s.blockSize < 2 ^ 31) ∧
      (∀ n ∈ holes s.blockSize total 0 s.dataBlocks, n < 2 ^ 31) ∧
      (crc → sparseCrc32 0 ((chunksTo env s.blockSize total 0 s.dataBlocks).flatMap (·.written s.blockSize)) =
        sparseCrc32 0 ((chunksTo env s.blockSize total 0 s.dataBlocks).flatMap (·.expand s.blockSize))) ∧
      ∃ bbl, (BackedBlockList.new s.blockSize).run
          (callsFrom env fd s.blockSize SPARSE_HEADER_LEN 0 s.dataBlocks) = .ok bbl ∧
        s' = { SparseFile.new s.blockSize (u32 total * s.blockSize) with backedBlockList := bbl } := by
  have hbs := blockSize_lt_of_calloc h.calloc s.backedBlockList.blockSize_lt
  have hl : (chunksTo env s.blockSize total 0 s.dataBlocks).length + crc.toNat < 2 ^ 32 := by
    rwa [chunksTo_length h.writable h.chained]
  have hv (c) (hc : c ∈ chunksTo env s.blockSize total 0 s.dataBlocks) := chunksTo_valid h hc
  rw [bytes_eq_encodeFile_crc32 h hw he, crcChunk,
    import_chunks_iff h.pos hbs (fun c hc => (hv c hc).left) (fun crc hc => (hv _ hc).right crc rfl) _ hl,
    forall_mem_chunksTo (p := (· < 2 ^ 31)) h.pos h.writable h.chained,
    readCalls_chunksTo h.pos h.writable h.chained (by simp), chunksTo_size_sum h he]
  simp only [u32_u32, true_and, and_assoc]

end Whole

end File

end Sparse
