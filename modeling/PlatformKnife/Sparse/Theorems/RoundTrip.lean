import PlatformKnife.Sparse.Theorems.Header

-- A file written in the sparse format and read back has the same contents.

namespace Sparse

open Bytes CInt SparseFile BackedBlock BackedBlockList List Source Call

variable {env env' : Env} {a b bb newBb : BackedBlock} {l l' pre post : List BackedBlock}
variable {bbl bbl' : BackedBlockList} {calls : List Call} {bs last : Nat} {fd : Int}

section Run

theorem linked_pos (hw : (if Merges bs bb newBb then bb.len else 0) + newBb.len +
      (post.head?.elim 0 fun next => if Merges bs newBb next then next.len else 0) < 2 ^ 32)
    (hb : 0 < bb.len) (hn : 0 < newBb.len) (hp : ∀ b ∈ post, 0 < b.len) :
    ∀ b ∈ linked bs bb newBb post, 0 < b.len := by
  have absorb_pos {x y : BackedBlock} (hx : 0 < x.len) (h : x.len + y.len < 2 ^ 32) :
      0 < (x.absorb y).len := by
    have : (x.absorb y).len = x.len + y.len := u32_of_lt h
    omega
  have hnext : 0 < (absorbNext bs newBb post).1.len ∧ (∀ b ∈ (absorbNext bs newBb post).2, 0 < b.len) ∧
      (Merges bs bb newBb → bb.len + (absorbNext bs newBb post).1.len < 2 ^ 32) := by
    obtain _ | ⟨next, post⟩ := post
    · refine ⟨hn, by simp [absorbNext], fun hm => ?_⟩
      simpa [hm, absorbNext] using hw
    simp only [forall_mem_cons, head?_cons, Option.elim_some] at hp hw
    rw [absorbNext]
    split
    case isTrue hm =>
      rw [if_pos hm] at hw
      refine ⟨absorb_pos hn (by omega), hp.right, fun hm' => ?_⟩
      rw [if_pos hm'] at hw
      have : (newBb.absorb next).len = newBb.len + next.len := u32_of_lt (by omega)
      dsimp only
      omega
    case isFalse hm =>
      refine ⟨hn, by simpa using hp, fun hm' => ?_⟩
      rw [if_pos hm', if_neg hm] at hw
      exact hw
  simp only [linked]
  split
  case isTrue hm =>
    simp only [forall_mem_cons]
    exact ⟨absorb_pos hb (hnext.right.right (merges_absorbNext_iff.mp hm)), hnext.right.left⟩
  simp only [forall_mem_cons]
  exact ⟨hb, hnext.left, hnext.right.left⟩

theorem BackedBlockList.Admits.len_pos (h : bbl.Admits newBb) (hs : bbl.Sorted) (hb : 0 < bbl.blockSize)
    (hp : ∀ b ∈ bbl.dataBlocks, 0 < b.len) (hn : 0 < newBb.len) (hq : bbl.queueBb newBb = .ok bbl') :
    ∀ b ∈ bbl'.dataBlocks, 0 < b.len := by
  cases exists_place hs h.unused
  case inl hf =>
    rw [queueBb_front hf.right] at hq
    cases hq
    simpa using ⟨hn, hp⟩
  case inr hp' =>
    obtain ⟨pre, bb, post, hl, h₁, h₂, hprev, hnext⟩ := hp'
    have hw := h.len_lt
    simp only [mergedLen, hprev, hnext] at hw
    have hh : ∀ b ∈ post.head?, newBb.block < b.block :=
      fun b hb => h₂ b (mem_of_mem_head? hb)
    rw [queueBb_behind hs (h.cache (by simp [hprev])) hb.ne' hl h₁ hh] at hq
    cases hq
    simp only [hl, mem_append, mem_cons, or_imp, forall_and, forall_eq] at hp ⊢
    exact ⟨hp.left, linked_pos hw hp.right.left hn hp.right.right⟩

theorem Holds.run (h : Holds bs done bbl) (hp : ∀ b ∈ bbl.dataBlocks, 0 < b.len)
    (hb : 0 < bs) (hd : (done ++ calls).Pairwise (Call.Disjoint bs)) (hn : ∀ c ∈ calls, 0 < c.len)
    (ha : bbl.Along (fun bbl c => bbl.Admits (c.node bbl.fresh)) calls) :
    ∃ bbl', bbl.run calls = .ok bbl' ∧ Holds bs (done ++ calls) bbl' ∧
      ∀ b ∈ bbl'.dataBlocks, 0 < b.len := by
  induction calls generalizing done bbl
  case nil => exact ⟨bbl, rfl, by simpa using h, hp⟩
  case cons c calls hi =>
    obtain ⟨hc, hcs⟩ := ha
    simp only [forall_mem_cons] at hn
    have hdc : ∀ c' ∈ done, c'.Disjoint bs c :=
      fun c' hc' => (pairwise_append.mp hd).right.right c' hc' c (by simp)
    obtain ⟨bbl', hr, hh, hq⟩ := h.step hb hdc hc
    have hp' : ∀ b ∈ bbl'.dataBlocks, 0 < b.len := by
      have hc : Admits { bbl with fresh := bbl.fresh + 1 } (c.node bbl.fresh) :=
        ⟨hc.unused, hc.cache, hc.len_lt⟩
      have hs : Sorted { bbl with fresh := bbl.fresh + 1 } := h.ordered.sorted
      exact hc.len_pos hs (h.blockSize ▸ hb) hp hn.left (c.apply_eq ▸ hr)
    obtain ⟨bbl'', hr', hh', hp''⟩ := hi hh hp' (by simpa using hd) hn.right (hcs bbl' hr)
    refine ⟨bbl'', ?_, by simpa using hh', hp''⟩
    simp only [BackedBlockList.run, hr]
    exact hr'

end Run

section Denote

theorem denote_cons (k : Nat) : denote env bs (bb :: l) k = if bb.block ≤ k ∧ k < bb.endBlock bs
    then some (ofPtr ((bb.backing bs (k - bb.block)).byte env) bs)
    else denote env bs l k := by
  rw [denote, backingAt, find?_cons]
  split <;> simp_all [denote, backingAt]

theorem denote_congr (hf : Functional bs l) (hf' : Functional bs l')
    (h : ∀ k v, Backs bs l k v ↔ Backs bs l' k v) : denote env bs l = denote env bs l' := by
  funext k
  rw [denote, denote]
  congr 1
  apply Option.ext
  intro v
  rw [backingAt_eq_some_iff hf, backingAt_eq_some_iff hf', h]

theorem Ordered.functional (h : Ordered bs l) : Functional bs l :=
  functional_of_disjoint <| List.Pairwise.imp And.right h

theorem denote_mergeLast (hb : 0 < bs) (h : Ordered bs l)
    (hm : l.IsChain fun a b => Merges bs a b → a.len + b.len < 2 ^ 32) :
    denote env bs (mergeLast bs l) = denote env bs l := by
  rcases eq_nil_or_concat' l with rfl | ⟨l, b, rfl⟩
  case inl => rfl
  rcases eq_nil_or_concat' l with rfl | ⟨l, a, rfl⟩
  case inl => rfl
  rw [append_assoc, singleton_append] at *
  rw [mergeLast_append_pair]
  split
  case isFalse => rfl
  case isTrue hm' =>
    have hw := (isChain_append_cons_cons.mp hm).right.left hm'
    exact denote_congr (h.absorb hb hm' hw).functional h.functional fun k v => h.backs_absorb hb hm' hw

-- A chunk that was read back stands for the same blocks as the one that was written.
structure ReadsBack (env env' : Env) (bs : Nat) (a b : BackedBlock) : Prop where
  block  : b.block = a.block
  blocks : b.blocks bs = a.blocks bs
  bytes  : ∀ i < a.blocks bs, ofPtr ((b.backing bs i).byte env') bs =
             ofPtr ((a.backing bs i).byte env) bs

theorem ReadsBack.endBlock (h : ReadsBack env env' bs a b) : b.endBlock bs = a.endBlock bs := by
  rw [BackedBlock.endBlock, BackedBlock.endBlock, h.block, h.blocks]

theorem denote_eq_of_readsBack (h : List.Forall₂ (ReadsBack env env' bs) l l') :
    denote env' bs l' = denote env bs l := by
  induction h
  case nil => rfl
  case cons a b l l' h _ hi =>
    funext k
    rw [denote_cons, denote_cons, h.block, h.endBlock, hi]
    split
    case isTrue hk =>
      rw [h.bytes _ (by rw [BackedBlock.endBlock] at hk; omega)]
    case isFalse => rfl

theorem Ordered.of_readsBack (h : List.Forall₂ (ReadsBack env env' bs) l l') (ho : Ordered bs l) :
    Ordered bs l' := by
  have hmap : l'.map (fun bb => (bb.block, bb.endBlock bs)) =
      l.map fun bb => (bb.block, bb.endBlock bs) := by
    induction h
    case nil => rfl
    case cons a b l l' h _ hi =>
      rw [map_cons, map_cons, h.block, h.endBlock, hi (pairwise_cons.mp ho).right]
  have key (l : List BackedBlock) : Ordered bs l ↔ (l.map fun bb => (bb.block, bb.endBlock bs)).Pairwise
      fun a b => a.1 < b.1 ∧ ∀ k, ¬((a.1 ≤ k ∧ k < a.2) ∧ (b.1 ≤ k ∧ k < b.2)) := by
    rw [pairwise_map]
    rfl
  rw [key, hmap, ← key]
  exact ho

end Denote

section Read

-- The system in which a descriptor refers to a file with the given bytes.
def Env.withFile (env : Env) (fd : Int) (d : List UInt8) : Env :=
  { env with contents := fun fd' => if fd' = fd then some (toPtr d) else env.contents fd' }

theorem toPtr_of_drop {d x y z : List UInt8} {p i : Nat} (h : d.drop p = x ++ y ++ z)
    (hi : i < y.length) : toPtr d (p + x.length + i) = toPtr y i := by
  have hd : d.drop (p + x.length) = y ++ z := by
    rw [← drop_drop, h, append_assoc, drop_left]
  simp only [toPtr, getD_eq_getElem?_getD]
  rw [← getElem?_drop, hd, getElem?_append_left hi]

theorem toPtr_padded (data : Nat → UInt8) (len i : Nat) :
    toPtr (padded bs data len) i = if i < len then data i else 0 := by
  rw [toPtr, padded, getD_eq_getElem?_getD, getElem?_append, ofPtr_length]
  split
  case isTrue hi  => rw [← getD_eq_getElem?_getD, ofPtr_getD data hi]
  case isFalse hi => rw [getElem?_replicate]; split <;> rfl

theorem Source.ptr_advance {s : Source} (h : ¬s.IsFill) (n i : Nat) :
    (s.advance n).ptr env i = s.ptr env (n + i) := by
  cases s <;> simp_all [advance, ptr, Source.IsFill, add_assoc]

theorem backing_len_of_whole (h : bb.len = bb.blocks bs * bs) (hi : i < bb.blocks bs) :
    (bb.backing bs i).len = bs := by
  have : (i + 1) * bs ≤ bb.blocks bs * bs := Nat.mul_le_mul_right _ hi
  rw [add_mul] at this
  simp only [backing]
  omega

variable {d r : List UInt8} {p pos : Nat}

theorem readCall_readsBack (hb : 0 < bs) (hw : Writable env bs bb)
    (hf : bb.source.IsFill → bb.len = bb.blocks bs * bs)
    (hd : d.drop p = (bb.chunk env bs).encode bs ++ r) (he : env'.contents fd = some (toPtr d))
    (addr : Nat) : ReadsBack env env' bs bb ((bb.readCall fd bs p).node addr) := by
  have hl : ((bb.readCall fd bs p).node addr).len = bb.blocks bs * bs :=
    readCall_len (hw.blocks_mul_lt hb) p
  have hn : ((bb.readCall fd bs p).node addr).blocks bs = bb.blocks bs := blocks_eq_of_len_eq hb hl
  refine ⟨bb.readCall_block p, hn, fun i hi => ofPtr_congr fun j hj => ?_⟩
  have hlen : (((bb.readCall fd bs p).node addr).backing bs i).len = bs :=
    backing_len_of_whole (hn ▸ hl) (hn ▸ hi)
  rw [Backing.byte, hlen, if_pos hj, Backing.byte]
  by_cases hfill : bb.source.IsFill
  case pos =>
    rw [backing_len_of_whole (hf hfill) hi, if_pos hj]
    cases hs : bb.source <;> simp only [hs, Source.IsFill] at hfill
    simp [backing, hs, readCall, Call.node, Call.source, Source.advance, Source.ptr]
  have hlt : i * bs + j < bb.blocks bs * bs := by
    have : (i + 1) * bs ≤ bb.blocks bs * bs := Nat.mul_le_mul_right _ hi
    rw [add_mul] at this
    omega
  have hs : ((bb.readCall fd bs p).node addr).source = .fd fd (p + CHUNK_HEADER_LEN) := by
    cases hs : bb.source <;> simp_all [readCall, Call.node, Call.source, Source.IsFill]
  have hp : toPtr d (p + CHUNK_HEADER_LEN + (i * bs + j)) =
      if i * bs + j < bb.len then bb.source.ptr env (i * bs + j) else 0 := by
    rw [Chunk.encode, chunk_of_not_isFill hfill, Chunk.payload] at hd
    have hpad : i * bs + j < (padded bs (bb.source.ptr env) bb.len).length := by
      rw [padded_length hb, mul_comm bs]
      exact hlt
    exact (toPtr_of_drop hd hpad).trans (toPtr_padded ..)
  have hq : (Source.fd fd (p + CHUNK_HEADER_LEN + i * bs)).ptr env' j =
      toPtr d (p + CHUNK_HEADER_LEN + (i * bs + j)) := by
    simp only [Source.ptr, he, Option.getD_some, add_assoc]
  simp only [backing, hs, ptr_advance hfill]
  rw [advance, hq, hp]
  congr 1
  rw [Nat.lt_min, Nat.lt_sub_iff_add_lt]
  simp [hj, add_comm]

theorem callsFrom_readsBack (hb : 0 < bs) (hw : ∀ bb ∈ l, Writable env bs bb)
    (hf : ∀ bb ∈ l, bb.source.IsFill → bb.len = bb.blocks bs * bs) (hc : Chained bs last l)
    (hd : d.drop pos = (chunksFrom env bs last l).flatMap (·.encode bs) ++ r)
    (he : env'.contents fd = some (toPtr d)) (addr : Nat → Nat) :
    List.Forall₂ (ReadsBack env env' bs) l
      ((callsFrom env fd bs pos last l).mapIdx fun i c => c.node (addr i)) := by
  induction l generalizing pos last addr
  case nil => exact .nil
  case cons bb l hi =>
    simp only [forall_mem_cons] at hw hf
    have hd : d.drop (chunkPos pos last bb) = (bb.chunk env bs).encode bs ++
        ((chunksFrom env bs (bb.endBlock bs) l).flatMap (·.encode bs) ++ r) := by
      rw [chunksFrom_cons hw.left hc] at hd
      rw [chunkPos]
      split at hd
      case isTrue hlt =>
        have hn : ((Chunk.skip (bb.block - last)).encode bs).length = CHUNK_HEADER_LEN := by
          rw [Chunk.encode_length]
          rfl
        simp only [singleton_append, flatMap_cons, append_assoc] at hd
        rw [if_pos hlt, ← drop_drop, hd, ← hn, drop_left]
      case isFalse hlt =>
        simpa only [if_neg hlt, add_zero, nil_append, flatMap_cons, append_assoc] using hd
    rw [callsFrom, mapIdx_cons]
    refine .cons (readCall_readsBack hb hw.left hf.left hd he _) (hi hw.right hf.right hc.right ?_ _)
    rw [← drop_drop, hd, drop_left]

theorem callsFrom_isChain (hb : 0 < bs) (hw : ∀ bb ∈ l, Writable env bs bb)
    (hf : ∀ bb ∈ l, bb.source.IsFill → bb.blocks bs * bs < 2 ^ 31) (hc : Chained bs last l)
    (addr : Nat → Nat) :
    ((callsFrom env fd bs pos last l).mapIdx fun i c => c.node (addr i)).IsChain
      fun a b => Merges bs a b → a.len + b.len < 2 ^ 32 := by
  induction l generalizing pos last addr
  case nil => simp [callsFrom]
  case cons a l hi =>
    obtain _ | ⟨b, l⟩ := l
    · simp [callsFrom]
    simp only [forall_mem_cons] at hw hf
    have hi := @hi _ (chunkPos pos last a + ((a.chunk env bs).encode bs).length)
      (by simpa using hw.right) (by simpa using hf.right) hc.right (addr <| · + 1)
    simp only [callsFrom, mapIdx_cons, isChain_cons_cons] at hi ⊢
    refine ⟨fun hm => ?_, hi⟩
    obtain ⟨_, hs, hfill⟩ := (readCall_merges_iff fd hb (hw.left.blocks_mul_lt hb) hc.right.left
      (chunkPos_lt env pos last b hb) (addr 0) (addr 1)).mp hm
    have h₁ := hf.left hfill
    have h₂ := hf.right.left (hs ▸ hfill)
    simp only [node, readCall_len (hw.left.blocks_mul_lt hb),
      readCall_len (hw.right.left.blocks_mul_lt hb)]
    omega

end Read

section Whole

theorem whole_of_backs (hb : 0 < bs) (h : ∀ k v, Backs bs l k v → v.source.IsFill → v.len = bs)
    (hm : bb ∈ l) (hf : bb.source.IsFill) : bb.len = bb.blocks bs * bs := by
  have hle : bb.len ≤ bb.blocks bs * bs := (blocks_le_iff hb).mp le_rfl
  rcases hn : bb.blocks bs with _ | n
  · simpa [hn] using hle
  have hv : (bb.backing bs n).source.IsFill := by
    cases hs : bb.source <;> simp_all [Source.IsFill, backing, advance]
  have := h _ _ ⟨bb, hm, n, by omega, rfl, rfl⟩ hv
  simp only [backing] at this
  rw [hn, Nat.succ_mul] at hle
  rw [Nat.succ_mul]
  omega

theorem backs_nodes_whole (hb : 0 < bs) (h : ∀ c ∈ calls, (c.source 0).IsFill → bs ∣ c.len)
    (hv : Backs bs (nodes calls) k v) (hf : v.source.IsFill) : v.len = bs := by
  obtain ⟨n, hn, i, hi, rfl, rfl⟩ := hv
  simp only [nodes, mem_mapIdx] at hn
  obtain ⟨j, hj, rfl⟩ := hn
  have hc : (calls[j].source 0).IsFill := by
    cases hs : calls[j] <;> simp_all [Call.node, backing, Call.source, Source.advance, Source.IsFill]
  obtain ⟨m, hm⟩ := h _ (getElem_mem hj) hc
  apply backing_len_of_whole _ hi
  have hm : (calls[j].node j).len = m * bs := hm.trans (mul_comm ..)
  rw [blocks_eq_of_len_eq hb hm, hm]

end Whole

-- The calls succeed, the file can be written and read, and what was read stands for the blocks added.
def RoundTrips (env : Env) (fd : Int) (bs len : Nat) (calls : List Call) : Prop :=
  ∃ s f s', (SparseFile.new bs len).run calls = .ok s ∧ s.write env .empty true false = .ok f ∧
    import_ fd f.bytes false = .ok s' ∧
    denote (env.withFile fd f.bytes) bs s'.dataBlocks = denote env bs (nodes calls)

theorem roundTrips (len : Nat) (fd : Int) (hb : 0 < bs) (hbs : bs < 2 ^ 32) (hc : env.calloc (i32 bs))
    (hd : calls.Pairwise (Call.Disjoint bs)) (hf : ∀ c ∈ calls, (c.source 0).IsFill → bs ∣ c.len)
    (hn : ∀ c ∈ calls, 0 < c.len)
    (ha : (BackedBlockList.new bs).Along (fun bbl c => bbl.Admits (c.node bbl.fresh)) calls)
    (hs : ∀ s, (SparseFile.new bs len).run calls = .ok s → s.Importable ∧
      ∀ bb ∈ s.dataBlocks, bb.len < 2 ^ 31 ∧ Writable env bs bb) :
    RoundTrips env fd bs len calls := by
  obtain ⟨bbl, hrun, hh, hp⟩ := (Holds.nil hbs).run (by simp [BackedBlockList.new]) hb hd hn ha
  rw [nil_append] at hh
  have hr : (SparseFile.new bs len).run calls = .ok ⟨len, bbl⟩ := by
    rw [SparseFile.run_eq, SparseFile.new, hrun]
    rfl
  obtain ⟨hi, hw⟩ := hs _ hr
  obtain rfl : bbl.blockSize = bs := hh.blockSize
  have he : SparseFile.Encodable env ⟨len, bbl⟩ := by
    refine ⟨hc, hb, fun bb h => (hw bb h).right, ⟨?_, ?_⟩, hh.ordered.sorted⟩
    · refine hh.ordered.imp_of_mem fun _ hm h => h.right.endBlock_le hb h.left (hp _ hm)
    · exact fun bb h => (hi.ends bb h).trans (u32_lt _).le
  have hfill (bb) (hm : bb ∈ bbl.dataBlocks) (h : bb.source.IsFill) :
      bb.len = bb.blocks bbl.blockSize * bbl.blockSize := by
    refine whole_of_backs hb (fun k v hv => ?_) hm h
    exact backs_nodes_whole hb hf ((hh.backs k v).mp hv)
  have hl := lastBlock_mul_le_of_endOf_le he hi.len_eq hi.endOf_le
  refine ⟨⟨len, bbl⟩, _, _, hr, (write_isOk_iff he _).mpr ⟨hl, rfl⟩,
    (import_bytes_iff he hi.len_eq hi.endOf_le false hi.count).mpr
      ⟨hi.blocks, hi.holes, fun h => absurd h Bool.false_ne_true, _, run_callsFrom he hi.apart, rfl⟩, ?_⟩
  have hdrop : (SparseFile.bytes env ⟨len, bbl⟩ false).drop SPARSE_HEADER_LEN = _ :=
    (congrArg _ (bytes_eq_encodeFile he hi.len_eq hi.endOf_le)).trans encodeFile_drop
  rw [chunksTo, flatMap_append] at hdrop
  have hcont (d) : (env.withFile fd d).contents fd = some (toPtr d) := if_pos rfl
  have hback := callsFrom_readsBack hb he.writable hfill he.chained hdrop (hcont _) id
  refine (denote_mergeLast hb (hh.ordered.of_readsBack hback) ?_).trans ?_
  · refine callsFrom_isChain hb he.writable (fun bb hm h => ?_) he.chained id
    exact hfill bb hm h ▸ (hw bb hm).left
  · refine (denote_eq_of_readsBack hback).trans (denote_congr hh.ordered.functional ?_ hh.backs)
    exact fun k v w hv hw =>
      hh.ordered.functional k v w ((hh.backs k v).mpr hv) ((hh.backs k w).mpr hw)

theorem roundTrips_data_before_fill :
    RoundTrips .withoutFiles 0 4 24 [.addData 0 5 3, .addFill 7 4 0] := by
  refine roundTrips 24 0 (by decide) (by decide) (by decide) ?disjoint (by decide) (by decide) ?along ?file
  case disjoint => exact pairwise_pair.mpr (.symm (.of_endBlock_le (by decide)))
  case along =>
    -- Both chunks are put at the front of the list.
    refine ⟨⟨by decide, fun h => absurd rfl h, by decide⟩, ?_⟩
    rintro _ ⟨⟩
    refine ⟨⟨by decide, fun h => absurd rfl h, by decide⟩, ?_⟩
    rintro _ ⟨⟩
    trivial
  case file =>
    rintro _ ⟨⟩
    refine ⟨⟨?_, ?_, ?_, ?_, ?_, ?_⟩, ?_⟩
    all_goals decide

-- Two fills that meet are not merged if the second one is added first. They are merged when read, and the
-- chunk behind them is added with a pointer to a freed node.
theorem not_roundTrips_fills_before_data :
    [Call.addFill 0 4 1, .addFill 0 4 0, .addData 0 4 5].Pairwise (Call.Disjoint 4) ∧
      ¬RoundTrips .withoutFiles 0 4 24 [.addFill 0 4 1, .addFill 0 4 0, .addData 0 4 5] := by
  constructor
  case left =>
    simp only [pairwise_cons, mem_cons, not_mem_nil, or_false, forall_eq_or_imp,
      forall_eq, IsEmpty.forall_iff, implies_true, List.Pairwise.nil, and_true]
    refine ⟨⟨.symm (.of_endBlock_le ?_), .of_endBlock_le ?_⟩, .of_endBlock_le ?_⟩
    all_goals decide
  case right =>
    rintro ⟨s, f, s', hr, hf, hi, _⟩
    obtain ⟨he, hl, hend, hn, ha⟩ : s.Encodable .withoutFiles ∧ s.len = 6 * s.blockSize ∧
        endOf s.blockSize 0 s.dataBlocks ≤ u32 6 ∧
        s.dataBlocks.length + (holes s.blockSize 6 0 s.dataBlocks).length < 2 ^ 32 ∧
        ¬FillsApart s.blockSize s.dataBlocks := by
      cases hr
      refine ⟨⟨?_, ?_, ?_, ⟨?_, ?_⟩, ?_⟩, ?_, ?_, ?_, ?_⟩
      all_goals decide
    obtain ⟨_, rfl⟩ := (write_isOk_iff he f).mp hf
    obtain ⟨_, _, _, bbl, hrun, _⟩ := (import_bytes_iff he hl hend false hn).mp hi
    rw [run_callsFrom_eq_error he ha] at hrun
    cases hrun

end Sparse
