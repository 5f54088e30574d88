import PlatformKnife.Sparse.Run
import PlatformKnife.Sparse.Theorems.Queue

namespace Sparse

open CInt BackedBlock BackedBlockList List

variable {bbl : BackedBlockList} {calls : List Call} {bs : Nat}

namespace Call

theorem apply_eq (c : Call) :
    c.apply bbl = queueBb { bbl with fresh := bbl.fresh + 1 } (c.node bbl.fresh) := by
  have h : bbl.alloc (c.source bbl.fresh) c.len c.block = c.node bbl.fresh := by
    ext1 <;> simp [alloc, node, u32_of_lt c.len_lt, u32_of_lt c.block_lt]
  rw [← h]
  cases c <;> rfl

theorem applyTo_eq (s : SparseFile) (c : Call) :
    c.applyTo s = (c.apply s.backedBlockList).map ({ s with backedBlockList := · }) := by
  cases c <;> rfl

theorem Disjoint.of_endBlock_le {c d : Call} (h : (c.node 0).endBlock bs ≤ d.block) : c.Disjoint bs d :=
  BackedBlock.Disjoint.of_endBlock_le h

theorem Disjoint.symm {c d : Call} (h : c.Disjoint bs d) : d.Disjoint bs c :=
  BackedBlock.Disjoint.symm h

end Call

theorem nodes_append_singleton : nodes (calls ++ [c]) = nodes calls ++ [c.node calls.length] := by
  simp [nodes, mapIdx_append]

theorem BackedBlockList.run_append (h : bbl.run calls = .ok bbl') :
    bbl.run (calls ++ calls') = bbl'.run calls' := by
  induction calls generalizing bbl
  case nil => cases h; rfl
  case cons c calls hi =>
    simp only [cons_append, BackedBlockList.run] at *
    split at h
    · cases h
    · exact hi h

theorem BackedBlockList.run_append_error (h : bbl.run calls = .error f) :
    bbl.run (calls ++ calls') = .error f := by
  induction calls generalizing bbl
  case nil => cases h
  case cons c calls hi =>
    simp only [cons_append, BackedBlockList.run] at *
    split at h
    · exact h
    · exact hi h

theorem SparseFile.run_eq (s : SparseFile) :
    s.run calls = (s.backedBlockList.run calls).map ({ s with backedBlockList := · }) := by
  induction calls generalizing s
  case nil => rfl
  case cons c calls hi =>
    simp only [SparseFile.run, BackedBlockList.run, Call.applyTo_eq]
    cases c.apply s.backedBlockList
    case error => rfl
    case ok => exact hi _

-- The list of blocks represents a sequence of calls.
structure Represents (bs : Nat) (calls : List Call) (bbl : BackedBlockList) : Prop where
  ordered : Ordered bs bbl.dataBlocks
  backs   : ∀ k v, Backs bs bbl.dataBlocks k v ↔ Backs bs (nodes calls) k v
  cache   : bbl.CacheLinked
  start   : ∀ c : Call, (c.apply bbl).map dataBlocks = (c.apply bbl.clearCache).map dataBlocks

-- The parts of the invariant that do not depend on the cached node.
structure Holds (bs : Nat) (calls : List Call) (bbl : BackedBlockList) : Prop where
  ordered : Ordered bs bbl.dataBlocks
  backs : ∀ k v, Backs bs bbl.dataBlocks k v ↔ Backs bs (nodes calls) k v
  addrs : ∀ b ∈ bbl.dataBlocks, b.addr < bbl.fresh
  blockSize : bbl.blockSize = bs
  fresh : bbl.fresh = calls.length

theorem Holds.nil (h : bs < 2 ^ 32) : Holds bs [] (.new bs) where
  ordered := List.Pairwise.nil
  backs := by simp [BackedBlockList.new, nodes]
  addrs := by simp [BackedBlockList.new]
  blockSize := u32_of_lt h
  fresh := rfl

theorem Holds.step (h : Holds bs calls bbl) (hb : 0 < bs) (hd : ∀ c' ∈ calls, c'.Disjoint bs c)
    (ha : bbl.Admits (c.node bbl.fresh)) :
    ∃ bbl', c.apply bbl = .ok bbl' ∧ Holds bs (calls ++ [c]) bbl' ∧
      Queued { bbl with fresh := bbl.fresh + 1 } (c.node bbl.fresh) bbl' := by
  obtain ⟨ho, hv, haddrs, rfl, hf⟩ := h
  have hd : ∀ b ∈ bbl.dataBlocks, Disjoint bbl.blockSize b (c.node bbl.fresh) := by
    intro b hbl k hk
    obtain ⟨v, hbv⟩ := exists_backs_iff.mpr hk.left
    obtain ⟨n, hn, hnv⟩ := (hv k v).mp ⟨b, hbl, hbv⟩
    simp only [nodes, mem_mapIdx] at hn
    obtain ⟨i, hi, rfl⟩ := hn
    exact hd _ (getElem_mem hi) k ⟨⟨hnv.le_block, hnv.lt_endBlock⟩, hk.right⟩
  have ha : Admits { bbl with fresh := bbl.fresh + 1 } (c.node bbl.fresh) :=
    ⟨ha.unused, ha.cache, ha.len_lt⟩
  obtain ⟨bbl', hq, hq'⟩ := ha.queueBb ho hb hd
  refine ⟨bbl', c.apply_eq ▸ hq, ?_, hq'⟩
  constructor
  case ordered => exact hq'.blockSize ▸ hq'.ordered
  case backs =>
    intro k v
    rw [hq'.backs, hv, nodes_append_singleton, backs_append, hf]
    simp
  case addrs =>
    intro b hbl
    rw [hq'.fresh]
    rcases hq'.addrs b hbl with h | ⟨b', hb', h⟩
    case inl => simp [h, Call.node]
    case inr => simpa [h] using (haddrs b' hb').trans (Nat.lt_succ_self _)
  case blockSize => exact hq'.blockSize
  case fresh => simp [hq'.fresh, hf]

-- A call that leaves the cached node linked: its number is not in use, its block is not merged into the
-- one in front of it, and no length overflows.
structure KeepsCache (bbl : BackedBlockList) (c : Call) : Prop where
  unused : ∀ b ∈ bbl.dataBlocks, b.block ≠ c.block
  apart  : ¬MergesPrev bbl.blockSize bbl.dataBlocks (c.node bbl.fresh)
  len_lt : mergedLen bbl.blockSize bbl.dataBlocks (c.node bbl.fresh) < 2 ^ 32

theorem Holds.represents (h : Holds bs calls bbl) (hc : bbl.CacheLinked) : Represents bs calls bbl where
  ordered := h.ordered
  backs   := h.backs
  cache   := hc
  start   := fun c => by
    rw [c.apply_eq, c.apply_eq]
    have hs : Sorted { bbl with fresh := bbl.fresh + 1 } := h.ordered.sorted
    exact queueBb_clearCache hs hc

theorem Holds.represents_run (h : Holds bs done bbl) (hc : bbl.CacheLinked)
    (hb : 0 < bs) (hd : (done ++ calls).Pairwise (Call.Disjoint bs))
    (hk : bbl.Along KeepsCache calls) (hp : pre <+: calls) :
    ∃ bbl', bbl.run pre = .ok bbl' ∧ Represents bs (done ++ pre) bbl' := by
  induction pre generalizing done bbl calls
  case nil => exact ⟨bbl, rfl, by simpa using h.represents hc⟩
  case cons c pre hi =>
    obtain ⟨post, rfl⟩ := hp
    obtain ⟨hk, hks⟩ := hk
    have ha : bbl.Admits (c.node bbl.fresh) := ⟨hk.unused, fun _ => hc, hk.len_lt⟩
    have hdc : ∀ c' ∈ done, c'.Disjoint bs c := by
      intro c' hc'
      exact (pairwise_append.mp hd).right.right c' hc' c (by simp)
    obtain ⟨bbl', hr, hh, hq⟩ := h.step hb hdc ha
    obtain ⟨bbl'', hr', hrep⟩ := hi hh (hq.cache hc hk.apart) (by simpa using hd) (hks bbl' hr) ⟨post, rfl⟩
    refine ⟨bbl'', ?_, by simpa using hrep⟩
    simp only [BackedBlockList.run, hr]
    exact hr'

-- In each state reached by calls which keep the cached node linked, the list represents the calls.
theorem run_represents (hb : 0 < bs) (hb' : bs < 2 ^ 32) (hd : calls.Pairwise (Call.Disjoint bs))
    (hk : (new bs).Along KeepsCache calls) (hp : pre <+: calls) :
    ∃ bbl, (new bs).run pre = .ok bbl ∧ Represents bs pre bbl :=
  (Holds.nil hb').represents_run (by simp [CacheLinked, BackedBlockList.new]) hb hd hk hp

theorem run_represents_data_between_fills :
    ∃ bbl, (new 4096).run [.addFill 0 4096 0, .addData 0 100 5, .addFill 0 4096 4] = .ok bbl ∧
      Represents 4096 [.addFill 0 4096 0, .addData 0 100 5, .addFill 0 4096 4] bbl := by
  refine run_represents (by decide) (by decide) ?disjoint ?along (prefix_refl _)
  case disjoint =>
    simp only [pairwise_cons, mem_cons, not_mem_nil, or_false, forall_eq_or_imp,
      forall_eq, IsEmpty.forall_iff, implies_true, List.Pairwise.nil, and_true]
    refine ⟨⟨.of_endBlock_le ?_, .of_endBlock_le ?_⟩, .symm (.of_endBlock_le ?_)⟩
    all_goals decide
  case along =>
    refine ⟨⟨by decide, by decide, by decide⟩, ?_⟩
    rintro _ ⟨⟩
    refine ⟨⟨by decide, by decide, by decide⟩, ?_⟩
    rintro _ ⟨⟩
    refine ⟨⟨by decide, by decide, by decide⟩, ?_⟩
    rintro _ ⟨⟩
    trivial

-- Two fills that follow each other: the second one is merged into the first and freed, but stays the
-- cached node.
theorem run_not_represents_adjacent_fills :
    ∃ calls bbl, calls.Pairwise (Call.Disjoint 4096) ∧ (new 4096).run calls = .ok bbl ∧
      ¬Represents 4096 calls bbl := by
  refine ⟨[.addFill 0 4096 0, .addFill 0 4096 1], _, ?_, rfl, ?_⟩
  · exact pairwise_pair.mpr (.of_endBlock_le (by decide))
  · intro h
    obtain ⟨b, hb, ha⟩ := h.cache 1 rfl
    revert b
    decide

-- The next call reads the node after it was freed.
example : (new 4096).run [.addFill 0 4096 0, .addFill 0 4096 1, .addFill 0 4096 2] =
    .error .useAfterFree :=
  rfl

end Sparse
