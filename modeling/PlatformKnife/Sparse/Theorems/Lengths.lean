import PlatformKnife.Sparse.Theorems.ReadStep

-- The number of bytes covered by a list that was read from a file.

namespace Sparse

open CInt Bytes BackedBlockList List Option SparseFile

variable {st st' : ReadState} {fd : Int} {hdr : SparseHeader} {bs n : Nat}

section ReadSparse

namespace ReadState

def dataBlks (st : ReadState) : Nat :=
  if st.header.chunkType = CHUNK_TYPE_RAW ∨ st.header.chunkType = CHUNK_TYPE_FILL
  then st.header.chunkSz else 0

def dataBlksSum (fd : Int) (hdr : SparseHeader) : Nat → ReadState → Nat
  | 0, _ => 0
  | n + 1, st =>
    match st.readChunk fd hdr with
    | .error _ => 0
    | .ok (_, st') => st.dataBlks + dataBlksSum fd hdr n st'

-- Neither the length of the next chunk nor that of the chunk it is merged with overflows.
def NoWrap (fd : Int) (hdr : SparseHeader) (st : ReadState) : Prop :=
  (st.header.chunkType = CHUNK_TYPE_FILL → st.header.chunkSz * st.blockSize < 2 ^ 32) ∧
    ∀ bb ∈ st.newBb fd hdr, mergedLen st.blockSize st.backedBlockList.dataBlocks bb < 2 ^ 32

theorem raw_lt (ht : st.header.chunkType = CHUNK_TYPE_RAW) (hw : st.WellSized hdr) :
    st.header.chunkSz * st.blockSize < 2 ^ 32 := by
  rw [WellSized, if_pos ht] at hw
  rw [← hw.right, Nat.div_mul_cancel (Nat.dvd_of_mod_eq_zero hw.left)]
  exact toU32_lt _

theorem queue_totalLen (hs : bbl.Sorted) (h : queue bbl (some bb) = .ok bbl') :
    totalLen bbl'.dataBlocks ≤ totalLen bbl.dataBlocks + bb.len ∧
      (totalLen bbl'.dataBlocks = totalLen bbl.dataBlocks + bb.len ↔
        mergedLen bbl.blockSize bbl.dataBlocks bb < 2 ^ 32) := by
  have hs' : Sorted { bbl with fresh := bbl.fresh + 1 } := hs
  exact (queueBb_spec hs' h).right.totalLen hs'

theorem readChunk_totalLen (hs : st.backedBlockList.Sorted) (h : st.readChunk fd hdr = .ok (c, st')) :
    totalLen st'.backedBlockList.dataBlocks ≤
        totalLen st.backedBlockList.dataBlocks + st.blockSize * st.dataBlks ∧
      (totalLen st'.backedBlockList.dataBlocks =
          totalLen st.backedBlockList.dataBlocks + st.blockSize * st.dataBlks ↔ st.NoWrap fd hdr) := by
  obtain ⟨_, hr, hn, hq⟩ := readChunk_eq_ok hs h
  by_cases hraw : st.header.chunkType = CHUNK_TYPE_RAW
  case pos =>
    have hnew : st.newBb fd hdr = some _ := if_pos hraw
    have hd : st.dataBlks = st.header.chunkSz := if_pos (.inl hraw)
    have hlt := raw_lt hraw (hr (.inl hraw)).sized
    have hfill : ¬st.header.chunkType = CHUNK_TYPE_FILL := by rw [hraw]; decide
    rw [hnew] at hq
    have hlen : (st.backedBlockList.alloc (.fd fd (st.atData hdr).file.pos)
        (u32 (st.header.chunkSz * st.blockSize)) st.curBlock).len = st.header.chunkSz * st.blockSize :=
      (u32_u32 _).trans (u32_of_lt hlt)
    have htotal := hlen ▸ queue_totalLen hs hq
    simp only [NoWrap, hfill, false_implies, true_and, hnew, mem_def, some.injEq,
      forall_eq', hd, mul_comm st.blockSize]
    exact htotal
  by_cases hfill : st.header.chunkType = CHUNK_TYPE_FILL
  case neg =>
    have hnew : st.newBb fd hdr = none := (if_neg hraw).trans (if_neg hfill)
    have hd : st.dataBlks = 0 := if_neg (by simp [hraw, hfill])
    obtain he : st.backedBlockList = st'.backedBlockList := by simpa [hnew, queue] using hq
    simp [NoWrap, hnew, hfill, hd, he]
  have hnew : st.newBb fd hdr = some _ := (if_neg hraw).trans (if_pos hfill)
  have hd : st.dataBlks = st.header.chunkSz := if_pos (.inr hfill)
  rw [hnew] at hq
  obtain ⟨hle, heq⟩ := queue_totalLen hs hq
  simp only [NoWrap, hfill, true_implies, hnew, mem_def, some.injEq, forall_eq', hd,
    mul_comm st.blockSize, ← heq]
  simp only [alloc, u32] at hle ⊢
  omega

theorem readChunks_totalLen (hs : st.backedBlockList.Sorted) (h : st.readChunks fd hdr n = .ok st') :
    totalLen st'.backedBlockList.dataBlocks ≤
        totalLen st.backedBlockList.dataBlocks + st.blockSize * st.dataBlksSum fd hdr n ∧
      (totalLen st'.backedBlockList.dataBlocks =
          totalLen st.backedBlockList.dataBlocks + st.blockSize * st.dataBlksSum fd hdr n ↔
        st.Along (NoWrap fd hdr) fd hdr n) := by
  induction n generalizing st
  case zero =>
    cases h
    simp [dataBlksSum, Along]
  case succ n hi =>
    rw [readChunks] at h
    cases hc : st.readChunk fd hdr
    case error e => simp [hc] at h
    case ok r =>
      obtain ⟨c, st₁⟩ := r
      simp only [hc] at h
      obtain ⟨hs₁, hb⟩ := readChunk_sorted hs hc
      obtain ⟨hle, heq⟩ := readChunk_totalLen hs hc
      obtain ⟨hle', heq'⟩ := hi hs₁ h
      have halong : st.Along (NoWrap fd hdr) fd hdr (n + 1) ↔
          st.NoWrap fd hdr ∧ st₁.Along (NoWrap fd hdr) fd hdr n := by
        simp [Along, hc]
      rw [halong, ← heq, ← heq']
      simp only [dataBlksSum, hc, mul_add]
      rw [hb] at hle' ⊢
      omega

end ReadState

end ReadSparse

section ReadNormal

variable {d : List UInt8} {f : File} {bbl bbl' : BackedBlockList}

-- The blocks that a raw file is read in. Only the last one may be shorter than the block size.
def blocksOf (bs : Nat) : (fuel : Nat) → List UInt8 → List (List UInt8)
  | 0, _ => []
  | _ + 1, [] => []
  | fuel + 1, b :: d => (b :: d).take bs :: blocksOf bs fuel ((b :: d).drop bs)

-- What a block is added as: a fill with its first word, or a part of the file.
def fillOf (bs : Nat) (buf : List UInt8) : Option UInt32 :=
  if buf.length = bs ∧ SparseFile.sparseBlock bs buf then some (SparseFile.word buf 0) else none

def blockCall (fd : Int) (bs offset block : Nat) (buf : List UInt8) : Call :=
  match fillOf bs buf with
  | some val => .addFill val (.ofNat buf.length) (.ofNat block)
  | none => .addFd fd offset (.ofNat buf.length) (.ofNat block)

def blockCalls (fd : Int) (bs : Nat) : (offset block : Nat) → List (List UInt8) → List Call
  | _, _, [] => []
  | offset, block, buf :: l =>
    blockCall fd bs offset block buf :: blockCalls fd bs (offset + buf.length) (u32 (block + 1)) l

theorem blockCall_apply :
    (blockCall fd bs offset block buf).apply bbl = if buf.length = bs ∧ sparseBlock bs buf
      then bbl.addFill (word buf 0) buf.length block
      else bbl.addFd fd offset buf.length block := by
  rw [blockCall, fillOf]
  split <;> rename_i he <;> split at he <;> simp_all [addFill_eq_apply, addFd_eq_apply]

theorem readBlocks_eq (hf : f.rest = d) (hb : bbl.blockSize = bs) (hbs : bs < 2 ^ 32)
    (hw : 4 ≤ bs ∨ d.length < bs) (hfuel : d.length ≤ fuel) :
    readBlocks fd fuel d.length offset block f bbl =
      Exec.ofFault (bbl.run (blockCalls fd bs offset block (blocksOf bs fuel d))) := by
  induction fuel generalizing d offset block f bbl
  case zero =>
    obtain rfl := eq_nil_of_length_eq_zero (Nat.le_zero.mp hfuel)
    rfl
  case succ fuel hi =>
    rcases hd : d with _ | ⟨b, d'⟩
    · rfl
    have hz : d.length ≠ 0 := by simp [hd]
    have hm : min d.length bs = (d.take bs).length := by rw [length_take, Nat.min_comm]
    have hpos : 0 < (d.take bs).length := by rw [length_take]; omega
    have hread : readAll f (d.take bs).length = .ok (d.take bs, f.seekCur (d.take bs).length) :=
      readAll_of_rest_eq (hf.trans (take_append_drop bs d).symm)
    have hblocks : blocksOf bs (fuel + 1) d = d.take bs :: blocksOf bs fuel (d.drop bs) := by
      rw [hd, blocksOf]
    have hdrop : (d.drop bs).length = d.length - (d.take bs).length := by
      rw [length_drop, length_take]
      omega
    rw [← hd, hblocks, blockCalls, BackedBlockList.run, blockCall_apply]
    simp only [readBlocks, if_neg hz, hb, hm, hread]
    rw [if_neg (by rw [length_take]; omega)]
    cases hr : (if (d.take bs).length = bs ∧ sparseBlock bs (d.take bs)
        then bbl.addFill (word (d.take bs) 0) (d.take bs).length block
        else bbl.addFd fd offset (d.take bs).length block)
    case error e => rfl
    case ok bbl' =>
      have hb' : bbl'.blockSize = bs := by
        rw [← blockCall_apply, Call.apply_eq] at hr
        exact (queueBb_blockSize hr).trans hb
      have hf' : (f.seekCur (d.take bs).length).rest = d.drop bs := by
        rw [File.seekCur_rest, hf]
        nth_rewrite 2 [← take_append_drop bs d]
        rw [drop_left]
      dsimp only
      rw [← hdrop]
      exact hi hf' hb' (by rw [length_drop]; omega) (by omega)

theorem blocksOf_length_le (h : buf ∈ blocksOf bs fuel d) : buf.length ≤ bs := by
  induction fuel generalizing d
  case zero => cases h
  case succ fuel hi =>
    obtain _ | ⟨b, d⟩ := d
    · cases h
    rw [blocksOf, mem_cons] at h
    cases h
    case inl h => rw [h]; exact length_take_le ..
    case inr h => exact hi h

theorem blocksOf_whole : (blocksOf bs fuel d).IsChain fun buf _ => buf.length = bs := by
  induction fuel generalizing d
  case zero => exact .nil
  case succ fuel hi =>
    obtain _ | ⟨b, d⟩ := d
    · exact .nil
    rw [blocksOf]
    have hi := @hi ((b :: d).drop bs)
    rcases hl : blocksOf bs fuel ((b :: d).drop bs) with _ | ⟨buf, l⟩
    · exact .singleton _
    rw [hl] at hi
    refine isChain_cons_cons.mpr ⟨?_, hi⟩
    rw [length_take]
    by_contra hlt
    rw [drop_of_length_le (by omega)] at hl
    cases fuel <;> cases hl

theorem blocksOf_flatten (hb : 0 < bs) (hf : d.length ≤ fuel) : (blocksOf bs fuel d).flatten = d := by
  induction fuel generalizing d
  case zero => exact (eq_nil_of_length_eq_zero (Nat.le_zero.mp hf)).symm
  case succ fuel hi =>
    obtain _ | ⟨b, d⟩ := d
    · rfl
    have hl : ((b :: d).drop bs).length ≤ fuel := by
      rw [length_drop]
      omega
    rw [blocksOf, flatten_cons, hi hl, take_append_drop]

section Calls

variable {buf buf' : List UInt8} {bufs : List (List UInt8)} {offset block : Nat}

theorem blockCall_block : (blockCall fd bs offset block buf).block = u32 block := by
  rw [blockCall]
  split <;> rfl

theorem blockCall_len : (blockCall fd bs offset block buf).len = u32 buf.length := by
  rw [blockCall]
  split <;> rfl

theorem blockCalls_dropLast :
    (blockCalls fd bs offset block bufs).dropLast = blockCalls fd bs offset block bufs.dropLast := by
  induction bufs generalizing offset block
  case nil => rfl
  case cons buf bufs hi =>
    cases bufs
    case nil  => rfl
    case cons => exact congrArg (_ :: ·) hi

theorem blockCalls_ascending (h : block + bufs.length ≤ 2 ^ 32) :
    Ascending (blockCalls fd bs offset block bufs) ∧
      ∀ c ∈ blockCalls fd bs offset block bufs, block ≤ c.block := by
  induction bufs generalizing offset block
  case nil => simp [blockCalls, Ascending]
  case cons buf bufs hi =>
    rw [length_cons] at h
    have hu : u32 block = block := u32_of_lt (by omega)
    by_cases hn : bufs = []
    case pos => simp [hn, blockCalls, Ascending, blockCall_block, hu]
    have := length_pos_of_ne_nil hn
    have hu' : u32 (block + 1) = block + 1 := u32_of_lt (by omega)
    obtain ⟨h₁, h₂⟩ := @hi (offset + buf.length) (block + 1) (by omega)
    simp only [blockCalls, hu', Ascending, pairwise_cons, forall_mem_cons, blockCall_block, hu]
    exact ⟨⟨fun c hc => h₂ c hc, h₁⟩, le_rfl, fun c hc => Nat.le_of_succ_le (h₂ c hc)⟩

theorem blockCall_merges_iff (hb : 0 < bs) (hbs : bs < 2 ^ 32) (hl : buf.length = bs) (i j : Nat) :
    Merges bs ((blockCall fd bs offset block buf).node i)
        ((blockCall fd bs (offset + buf.length) (u32 (block + 1)) buf').node j) ↔
      fillOf bs buf = fillOf bs buf' := by
  have hu : u32 (u32 block + bs / bs) = u32 (u32 (block + 1)) := by
    rw [Nat.div_self hb]
    simp [u32]
  have hlen : (blockCall fd bs offset block buf).len = bs := by rw [blockCall_len, hl, u32_of_lt hbs]
  have hc : compatible ((blockCall fd bs offset block buf).node i)
      ((blockCall fd bs (offset + buf.length) (u32 (block + 1)) buf').node j) ↔
      fillOf bs buf = fillOf bs buf' := by
    cases ha : fillOf bs buf <;> cases hb : fillOf bs buf' <;>
      simp_all [blockCall, Call.node, Call.source, compatible]
  rw [Merges, hc]
  simp only [Call.node, blockCall_block, hlen, hu, true_and]

theorem isChain_blockCalls_iff (h : ∀ offset block a b i j, a.length = bs → b.length ≤ bs →
      (R ((blockCall fd bs offset block a).node i)
        ((blockCall fd bs (offset + a.length) (u32 (block + 1)) b).node j) ↔ S a b))
    (hw : bufs.IsChain fun buf _ => buf.length = bs) (hl : ∀ buf ∈ bufs, buf.length ≤ bs)
    (addr : Nat → Nat) :
    ((blockCalls fd bs offset block bufs).mapIdx fun i c => c.node (addr i)).IsChain R ↔
      bufs.IsChain S := by
  induction bufs generalizing offset block addr
  case nil => simp [blockCalls]
  case cons a bufs hi =>
    obtain _ | ⟨b, bufs⟩ := bufs
    · simp [blockCalls]
    rw [isChain_cons_cons] at hw
    simp only [forall_mem_cons] at hl
    have hi := @hi (offset + a.length) (u32 (block + 1)) hw.right (by simpa using hl.right) (addr <| · + 1)
    have hab := h offset block a b (addr 0) (addr 1) hw.left hl.right.left
    rw [isChain_cons_cons, ← hi, ← hab]
    simp only [blockCalls, mapIdx_cons, isChain_cons_cons]

theorem totalLen_blockCalls (hbs : bs < 2 ^ 32) (hl : ∀ buf ∈ bufs, buf.length ≤ bs) (addr : Nat → Nat) :
    totalLen ((blockCalls fd bs offset block bufs).mapIdx fun i c => c.node (addr i)) =
      bufs.flatten.length := by
  induction bufs generalizing offset block addr
  case nil => rfl
  case cons buf bufs hi =>
    simp only [forall_mem_cons] at hl
    have hi := @hi (offset + buf.length) (u32 (block + 1)) hl.right (addr <| · + 1)
    have hn : ((blockCall fd bs offset block buf).node (addr 0)).len = buf.length :=
      blockCall_len.trans (u32_of_lt (hl.left.trans_lt hbs))
    simp only [totalLen, blockCalls, mapIdx_cons, map_cons, sum_cons, hn,
      flatten_cons, length_append] at hi ⊢
    rw [hi]

end Calls

theorem totalLen_mergeLast (ha : Apart bs l.dropLast) : totalLen (mergeLast bs l) = totalLen l ↔
      l.IsChain fun a b => Merges bs a b → a.len + b.len < 2 ^ 32 := by
  rcases eq_nil_or_concat' l with rfl | ⟨l, b, rfl⟩
  case inl => simp [mergeLast]
  rcases eq_nil_or_concat' l with rfl | ⟨l, a, rfl⟩
  case inl => simp [mergeLast]
  rw [dropLast_concat] at ha
  have hl : (l ++ [a]).IsChain fun a b => Merges bs a b → a.len + b.len < 2 ^ 32 :=
    List.IsChain.imp (fun _ _ h hm => absurd hm h) ha
  rw [append_assoc, singleton_append, mergeLast_append_pair,
    isChain_append_cons_cons, iff_true_intro hl, true_and,
    iff_true_intro (List.IsChain.singleton b), and_true]
  by_cases hm : Merges bs a b
  case neg => simp [hm]
  have : (a.absorb b).len = (a.len + b.len) % 2 ^ 32 := rfl
  simp [hm, totalLen, this]

theorem BackedBlockList.QueueBb.zero_mem (h : bbl.QueueBb newBb bbl')
    (h₀ : ∃ b ∈ bbl.dataBlocks, b.block = 0) : ∃ b ∈ bbl'.dataBlocks, b.block = 0 := by
  obtain ⟨b, hb, hz⟩ := h₀
  cases h
  case front => exact ⟨b, mem_cons_of_mem _ hb, hz⟩
  case behind pre post bb hl h₁ h₂ hc =>
    rw [hl, mem_append, mem_cons] at hb
    rcases hb with hb | rfl | hb
    case inl => exact ⟨b, mem_append_left _ hb, hz⟩
    case inr.inl =>
      dsimp only [linked]
      split
      case isTrue  => exact ⟨_, mem_append_right _ (mem_cons_self ..), hz⟩
      case isFalse => exact ⟨_, mem_append_right _ (mem_cons_self ..), hz⟩
    case inr.inr =>
      have := h₂ b hb
      omega

theorem run_zero_mem (hs : bbl.Sorted) (h₀ : ∃ b ∈ bbl.dataBlocks, b.block = 0)
    (h : bbl.run calls = .ok bbl') : ∀ c ∈ calls, c.block ≠ 0 := by
  induction calls generalizing bbl
  case nil => simp
  case cons c calls hi =>
    rw [BackedBlockList.run, c.apply_eq] at h
    cases hq : queueBb { bbl with fresh := bbl.fresh + 1 } (c.node bbl.fresh)
    case error f => simp [hq] at h
    case ok bbl₁ =>
      have hs' : Sorted { bbl with fresh := bbl.fresh + 1 } := hs
      obtain ⟨ha, hq'⟩ := queueBb_spec hs' hq
      simp only [hq] at h
      have hm := hq'.zero_mem h₀
      obtain ⟨b, hb, hz⟩ := h₀
      simp only [forall_mem_cons]
      exact ⟨fun hc => ha.unused b hb (hz.trans hc.symm), hi (hq'.sorted hs') hm h⟩

theorem exists_blockCall (fd : Int) (bs offset block : Nat)
    (h : i < bufs.length) : ∃ c ∈ blockCalls fd bs offset block bufs, c.block = u32 (block + i) := by
  induction bufs generalizing offset block i
  case nil => cases h
  case cons buf bufs hi =>
    obtain _ | i := i
    · exact ⟨_, mem_cons_self .., blockCall_block⟩
    obtain ⟨c, hc, hb⟩ := hi (offset + buf.length) (u32 (block + 1)) (Nat.lt_of_succ_lt_succ h)
    refine ⟨c, mem_cons_of_mem _ hc, hb.trans ?_⟩
    simp only [u32]
    omega

-- The number of a block is kept in 32 bits, and no number is used twice.
theorem run_blockCalls_length_le (h : (BackedBlockList.new bs).run (blockCalls fd bs 0 0 bufs) = .ok bbl) :
    bufs.length ≤ 2 ^ 32 := by
  by_contra hn
  obtain _ | ⟨buf, bufs⟩ := bufs
  · simp at hn
  have hl : 2 ^ 32 - 1 < bufs.length := by
    rw [length_cons] at hn
    omega
  obtain ⟨c, hc, hb⟩ := exists_blockCall fd bs (0 + buf.length) (u32 (0 + 1)) hl
  rw [blockCalls, BackedBlockList.run, Call.apply_eq, queueBb_front (by simp [BackedBlockList.new])] at h
  exact run_zero_mem (pairwise_singleton ..) ⟨_, mem_singleton.mpr rfl, blockCall_block⟩ h c hc hb

-- A raw file of which each block is added, and not merged before the last one. A block has to hold a word
-- to be compared.
structure RawOk (bs : Nat) (d : List UInt8) : Prop where
  words : d = [] ∨ d.length < bs ∨ 4 ≤ bs
  count : (blocksOf bs d.length d).length ≤ 2 ^ 32
  apart : (blocksOf bs d.length d).dropLast.IsChain fun a b => fillOf bs a ≠ fillOf bs b
  len   : (blocksOf bs d.length d).IsChain fun a b =>
            fillOf bs a = fillOf bs b → a.length + b.length < 2 ^ 32

theorem nodes_dropLast (calls : List Call) : (nodes calls).dropLast = nodes calls.dropLast := by
  rcases eq_nil_or_concat' calls with rfl | ⟨calls, c, rfl⟩
  case inl => rfl
  case inr => rw [nodes_append_singleton, dropLast_concat, dropLast_concat]

theorem run_blockCalls_iff (hb : 0 < bs) (hbs : bs < 2 ^ 32) :
    (∃ bbl, (BackedBlockList.new bs).run (blockCalls fd bs 0 0 (blocksOf bs d.length d)) = .ok bbl ∧
        totalLen bbl.dataBlocks = d.length) ↔
      (blocksOf bs d.length d).length ≤ 2 ^ 32 ∧
      ((blocksOf bs d.length d).dropLast.IsChain fun a b => fillOf bs a ≠ fillOf bs b) ∧
      (blocksOf bs d.length d).IsChain fun a b =>
        fillOf bs a = fillOf bs b → a.length + b.length < 2 ^ 32 := by
  have hl (buf) (h : buf ∈ blocksOf bs d.length d) := blocksOf_length_le h
  have hw : (blocksOf bs d.length d).IsChain fun buf _ => buf.length = bs := blocksOf_whole
  have htotal : totalLen (nodes (blockCalls fd bs 0 0 (blocksOf bs d.length d))) = d.length := by
    exact (totalLen_blockCalls hbs hl id).trans (by rw [blocksOf_flatten hb le_rfl])
  have hapart : Apart bs (nodes (blockCalls fd bs 0 0 (blocksOf bs d.length d)).dropLast) ↔
      (blocksOf bs d.length d).dropLast.IsChain fun a b => fillOf bs a ≠ fillOf bs b := by
    rw [blockCalls_dropLast]
    refine isChain_blockCalls_iff (fun _ _ a b i j ha _ => ?_) hw.dropLast
      (fun buf h => hl buf (mem_of_mem_dropLast h)) id
    exact (blockCall_merges_iff hb hbs ha i j).not
  have hlen : ((nodes (blockCalls fd bs 0 0 (blocksOf bs d.length d))).IsChain
      fun a b => Merges bs a b → a.len + b.len < 2 ^ 32) ↔ (blocksOf bs d.length d).IsChain fun a b =>
        fillOf bs a = fillOf bs b → a.length + b.length < 2 ^ 32 := by
    refine isChain_blockCalls_iff (fun _ _ a b i j ha hb' => ?_) hw hl id
    rw [blockCall_merges_iff hb hbs ha]
    simp only [Call.node, blockCall_len, u32_of_lt (ha.trans_lt hbs), u32_of_lt (hb'.trans_lt hbs)]
  have hdrop := nodes_dropLast (blockCalls fd bs 0 0 (blocksOf bs d.length d))
  rw [← hlen, ← hapart]
  constructor
  case mp =>
    rintro ⟨bbl, hr, ht⟩
    have hc := run_blockCalls_length_le hr
    have hasc := (@blockCalls_ascending fd bs _ 0 0 ((zero_add _).trans_le hc)).left
    by_cases ha : Apart bs (nodes (blockCalls fd bs 0 0 (blocksOf bs d.length d)).dropLast)
    case neg =>
      rw [run_eq_error hb hbs hasc ha] at hr
      cases hr
    rw [run_appendedLast hb hbs hasc ha] at hr
    cases hr
    exact ⟨hc, ha, (totalLen_mergeLast (hdrop ▸ ha)).mp (ht.trans htotal.symm)⟩
  case mpr =>
    rintro ⟨hc, ha, hl⟩
    have hasc := (@blockCalls_ascending fd bs _ 0 0 ((zero_add _).trans_le hc)).left
    exact ⟨_, run_appendedLast hb hbs hasc ha, ((totalLen_mergeLast (hdrop ▸ ha)).mpr hl).trans htotal⟩

theorem readNormal_iff (hbs : bs < 2 ^ 32) :
    (∃ s, (new bs d.length).readNormal fd ⟨d, 0⟩ = .ok s ∧
      totalLen s.dataBlocks = d.length) ↔ RawOk bs d := by
  have hblk : (BackedBlockList.new bs).blockSize = bs := u32_of_lt hbs
  by_cases hd : d = []
  case pos =>
    subst hd
    exact ⟨fun _ => ⟨.inl rfl, Nat.zero_le _, .nil, .nil⟩, fun _ => ⟨_, rfl, rfl⟩⟩
  have hpos := length_pos_of_ne_nil hd
  by_cases hw : 4 ≤ bs ∨ d.length < bs
  case pos =>
    have hread := @readBlocks_eq fd bs d ⟨d, 0⟩ (.new bs) d.length 0 0 rfl hblk hbs hw le_rfl
    have hrun := @run_blockCalls_iff fd bs d (by omega) hbs
    refine .trans ?_ (hrun.trans ⟨fun h => ⟨.inr hw.symm, h.left, h.right.left, h.right.right⟩,
      fun h => ⟨h.count, h.apart, h.len⟩⟩)
    simp only [SparseFile.readNormal, SparseFile.new, hread]
    cases (BackedBlockList.new bs).run (blockCalls fd bs 0 0 (blocksOf bs d.length d))
    case error f => simp [Exec.ofFault]
    case ok bbl  => simp [Exec.ofFault]
  -- The first word of the buffer is read, but the buffer is too small for that.
  simp only [not_or, not_le, not_lt] at hw
  constructor
  case mp =>
    rintro ⟨s, h, _⟩
    have hm : min d.length bs = bs := by omega
    have hr : readAll ⟨d, 0⟩ bs = .ok (d.take bs, File.seekCur ⟨d, 0⟩ bs) := by
      rw [readAll_eq, if_pos (by exact hw.right)]
      rfl
    obtain ⟨n, hn⟩ := Nat.exists_eq_add_of_lt hpos
    have hf : readBlocks fd d.length d.length 0 0 ⟨d, 0⟩ (.new bs) = .error (.fault .outOfBounds) := by
      nth_rewrite 1 [hn]
      simp only [readBlocks, if_neg hpos.ne', hblk, hm, hr]
      rw [if_pos ⟨trivial, hw.left⟩]
    simp [SparseFile.readNormal, SparseFile.new, hf] at h
  case mpr =>
    intro h
    rcases h.words with h | h | h
    · exact absurd h hd
    · omega
    · omega

end ReadNormal

-- A file is read into a list that covers as many bytes as the file says: its length if it is raw,
-- otherwise the blocks of the chunks with contents.
theorem totalLen_read_iff (hbs : bs < 2 ^ 32) (fd : Int) (d : List UInt8) (len : Nat) (crc : Bool) :
    ((∃ s, (SparseFile.new bs d.length).readNormal fd ⟨d, 0⟩ = .ok s ∧
      totalLen s.dataBlocks = d.length) ↔ RawOk bs d) ∧
    ∀ s, (SparseFile.new bs len).readSparse fd ⟨d, 0⟩ crc = .ok s →
      let st := fileStart (.new bs len) d crc
      let n := (fileHdr d).totalChunks
      totalLen s.dataBlocks = bs * st.dataBlksSum fd (fileHdr d) n ↔
        st.Along (ReadState.NoWrap fd (fileHdr d)) fd (fileHdr d) n := by
  refine ⟨readNormal_iff hbs, fun s h => ?_⟩
  intro st n
  rw [readSparse_eq] at h
  split at h
  case isFalse => cases h
  cases hr : st.readChunks fd (fileHdr d) n
  case error e => simp [st, n, hr] at h
  case ok st' =>
    have hs : st.backedBlockList.Sorted := .nil
    have htotal := (ReadState.readChunks_totalLen hs hr).right
    have hb : st.blockSize = bs := u32_of_lt hbs
    rw [hb] at htotal
    simp only [st, n, hr] at h
    split at h <;> cases h
    rw [← htotal]
    simp [st, fileStart, SparseFile.readStart, SparseFile.new, BackedBlockList.new, totalLen]

-- Two different fills and a part of a block.
theorem totalLen_readNormal_three_blocks :
    ∃ s, (SparseFile.new 4 9).readNormal 0 ⟨[1, 1, 1, 1, 2, 2, 2, 2, 3], 0⟩ = .ok s ∧
      totalLen s.dataBlocks = 9 := by
  refine (totalLen_read_iff (by decide) 0 [1, 1, 1, 1, 2, 2, 2, 2, 3] 0 false).left.mpr ⟨?_, ?_, ?_, ?_⟩
  all_goals decide

-- A fill of 4 GiB is accepted, but its length is 0.
theorem totalLen_ne_fill_overflow :
    ∃ s, (SparseFile.new 4096 (2 ^ 32)).readSparse 0
        ⟨encodeFile 4096 (2 ^ 20) 1 [.fill 0 (2 ^ 20)], 0⟩ false = .ok s ∧
      totalLen s.dataBlocks = 0 ∧
      (fileStart (.new 4096 (2 ^ 32)) (encodeFile 4096 (2 ^ 20) 1 [.fill 0 (2 ^ 20)]) false).dataBlksSum 0
        (fileHdr (encodeFile 4096 (2 ^ 20) 1 [.fill 0 (2 ^ 20)])) 1 = 2 ^ 20 :=
  ⟨_, rfl, by decide, by decide⟩

end Sparse
