import PlatformKnife.Sparse.Theorems.Resparse

-- Resparsing distributes the blocks of a file over several ones.

namespace Sparse

open CInt SparseFile List Option

variable {env : Env} {bs k : Nat} {v w : Backing} {l l₁ l₂ : List BackedBlock} {s s' : SparseFile}

section Expand

-- No block has two different backings.
def Functional (bs : Nat) (l : List BackedBlock) : Prop :=
  ∀ k v w, Backs bs l k v → Backs bs l k w → v = w

theorem functional_of_disjoint (h : l.Pairwise (BackedBlock.Disjoint bs)) : Functional bs l := by
  induction l
  case nil => simp [Functional]
  case cons bb l hi =>
    rw [pairwise_cons] at h
    have apart {k v w} (hv : bb.Backs bs k v) : ¬Backs bs l k w := by
      rintro ⟨b, hb, hw⟩
      exact h.left b hb k ⟨⟨hv.le_block, hv.lt_endBlock⟩, hw.le_block, hw.lt_endBlock⟩
    intro k v w hv hw
    rw [backs_cons] at hv hw
    rcases hv with hv | hv <;> rcases hw with hw | hw
    · exact hv.unique hw
    · exact absurd hw (apart hv)
    · exact absurd hv (apart hw)
    · exact hi h.right k v w hv hw

theorem Separated.functional (h : Separated bs l) : Functional bs l :=
  functional_of_disjoint <| h.endBlock_le.imp .of_endBlock_le

theorem Backs.of_backingAt (h : backingAt bs l k = some v) : Backs bs l k v := by
  obtain ⟨bb, hf, rfl⟩ := map_eq_some_iff.mp h
  have hk : bb.block ≤ k ∧ k < bb.endBlock bs := by simpa using find?_some hf
  rw [BackedBlock.endBlock] at hk
  exact ⟨bb, mem_of_find?_eq_some hf, k - bb.block, by omega, by omega, rfl⟩

theorem backingAt_eq_none_iff : backingAt bs l k = none ↔ ∀ v, ¬Backs bs l k v := by
  constructor
  case mp =>
    rintro h v ⟨bb, hb, hv⟩
    have := find?_eq_none.mp (map_eq_none_iff.mp h) bb hb
    simp [hv.le_block, hv.lt_endBlock] at this
  case mpr =>
    intro h
    cases hb : backingAt bs l k
    case none => rfl
    case some v => exact absurd (.of_backingAt hb) (h v)

theorem backingAt_eq_some_iff (h : Functional bs l) : backingAt bs l k = some v ↔ Backs bs l k v := by
  constructor
  case mp => exact .of_backingAt
  case mpr =>
    intro hv
    cases hb : backingAt bs l k
    case none => exact absurd hv (backingAt_eq_none_iff.mp hb v)
    case some w => rw [h k v w hv (.of_backingAt hb)]

theorem expandOnto_of_backs (h : Functional bs l) (hv : Backs bs l (x / bs) v) :
    expandOnto env bs img l x = v.byte env (x % bs) := by
  rw [expandOnto, (backingAt_eq_some_iff h).mpr hv]

theorem expandOnto_of_not_backs (h : ∀ v, ¬Backs bs l (x / bs) v) : expandOnto env bs img l x = img x := by
  rw [expandOnto, backingAt_eq_none_iff.mpr h]

variable {ls : List (List BackedBlock)}

theorem foldl_expandOnto_of_backs (hf : ∀ l ∈ ls, Functional bs l)
    (h : (∃ l ∈ ls, Backs bs l (x / bs) v) ∨ img x = v.byte env (x % bs))
    (hv : ∀ l ∈ ls, ∀ w, Backs bs l (x / bs) w → w = v) :
    ls.foldl (expandOnto env bs) img x = v.byte env (x % bs) := by
  induction ls generalizing img
  case nil => simpa using h
  case cons l ls hi =>
    simp only [forall_mem_cons] at hf hv
    refine hi hf.right ?_ hv.right
    by_cases hl : ∃ w, Backs bs l (x / bs) w
    case pos =>
      obtain ⟨w, hw⟩ := hl
      obtain rfl := hv.left w hw
      exact .inr (expandOnto_of_backs hf.left hw)
    rw [not_exists] at hl
    rw [expandOnto_of_not_backs hl]
    simpa [hl v] using h

theorem foldl_expandOnto_of_not_backs
    (h : ∀ l ∈ ls, ∀ v, ¬Backs bs l (x / bs) v) : ls.foldl (expandOnto env bs) img x = img x := by
  induction ls generalizing img
  case nil => rfl
  case cons l ls hi =>
    simp only [forall_mem_cons] at h
    rw [foldl_cons, hi h.right, expandOnto_of_not_backs h.left]

theorem foldl_expandOnto_eq (h : Functional bs l)
    (hls : ∀ k v, Backs bs l k v ↔ ∃ l' ∈ ls, Backs bs l' k v) :
    ls.foldl (expandOnto env bs) img = expandOnto env bs img l := by
  have hf : ∀ l' ∈ ls, Functional bs l' := fun l' hl k v w hv hw =>
    h k v w ((hls k v).mpr ⟨l', hl, hv⟩) ((hls k w).mpr ⟨l', hl, hw⟩)
  funext x
  by_cases hv : ∃ v, Backs bs l (x / bs) v
  case pos =>
    obtain ⟨v, hv⟩ := hv
    rw [expandOnto_of_backs h hv]
    refine foldl_expandOnto_of_backs hf (.inl ((hls _ v).mp hv)) fun l' hl w hw => ?_
    exact h _ w v ((hls _ w).mpr ⟨l', hl, hw⟩) hv
  rw [not_exists] at hv
  rw [expandOnto_of_not_backs hv]
  exact foldl_expandOnto_of_not_backs fun l' hl w hw => hv w ((hls _ w).mpr ⟨l', hl, hw⟩)

end Expand

section Partition

-- A block is in one of the files, backed as before, and no block is in two of them.
structure Partition (bs : Nat) (l : List BackedBlock) (files : List (List BackedBlock)) : Prop where
  backs_iff : ∀ k v, Backs bs l k v ↔ ∃ f ∈ files, Backs bs f k v
  disjoint  : files.Pairwise fun f g => ∀ k v w, Backs bs f k v → ¬Backs bs g k w
  separated : ∀ f ∈ files, Separated bs f

theorem Separated.partition (h : Separated bs files.flatten) : Partition bs files.flatten files where
  backs_iff := by
    intro k v
    simp only [Backs, mem_flatten]
    grind
  disjoint := by
    refine (pairwise_flatten.mp h.endBlock_le).right.imp ?_
    rintro _ _ hp k v w ⟨a, ha, hv⟩ ⟨b, hb, hw⟩
    have := hp a ha b hb
    have := hv.lt_endBlock
    have := hw.le_block
    omega
  separated := fun f hf => h.of_sublist (sublist_flatten_of_mem hf)

theorem Refines.partition (hr : Refines bs l files.flatten)
    (hb : 0 < bs) (hs : Separated bs l) : Partition bs l files := by
  have hp := (hr.separated hb hs).partition
  exact ⟨fun k v => by rw [← hr.backs_iff hb hs, hp.backs_iff], hp.disjoint, hp.separated⟩

-- Without a counter, the first call of `move_chunks_up_to_len` ends the loop.
theorem resparse_of_not_calloc (hc : env.calloc (i32 s.blockSize) = false)
    (h : resparse env fuel s maxLen outCount = some (n, s', outs)) :
    s'.dataBlocks = s.dataBlocks ∧ ∀ o ∈ outs, o.dataBlocks = [] := by
  obtain _ | fuel := fuel
  · contradiction
  rw [← new_blockSize] at hc
  simp only [resparse, resparseLoop, resparseRound, moveChunksUpToLen, hc, Bool.false_eq_true,
    if_false] at h
  split at h
  · contradiction
  case h_2 r hr =>
    simp only [some.injEq, Prod.mk.injEq] at h
    obtain ⟨_, rfl, rfl⟩ := h
    split at hr <;> cases hr <;> simp [BackedBlockList.move, new, BackedBlockList.new]

theorem resparse_refines (hb : 0 < s.blockSize) (ha : Addrs s.backedBlockList.fresh s.dataBlocks)
    (hs : Separated s.blockSize s.dataBlocks)
    (h : resparse env fuel s maxLen outCount = some (n, s', outs)) :
    Refines s.blockSize s.dataBlocks ((outs ++ [s']).map (·.dataBlocks)).flatten := by
  cases hc : env.calloc (i32 s.blockSize)
  case false =>
    obtain ⟨hs', ho⟩ := resparse_of_not_calloc hc h
    have ho : (outs.map (·.dataBlocks)).flatten = [] := by simpa using ho
    rw [map_append, flatten_append, ho, map_singleton, flatten_singleton, hs']
    exact .refl
  case true =>
    obtain ⟨gs, fresh, hg, hr⟩ := SparseFile.Valid.exists_groups ⟨hc, hb, ha, hs⟩ h
    rw [map_append, hr.out, flatten_append, map_singleton, flatten_singleton,
      hr.rest, ← flatten_append, take_append_drop]
    exact groups_refines hg

-- Resparsing is a partition of the blocks. If there is room for all files, they can be expanded in any
-- order.
theorem resparse_partition (hb : 0 < s.blockSize) (ha : Addrs s.backedBlockList.fresh s.dataBlocks)
    (hs : Separated s.blockSize s.dataBlocks)
    (h : resparse env fuel s maxLen outCount = some (n, s', outs)) :
    Partition s.blockSize s.dataBlocks ((outs ++ [s']).map (·.dataBlocks)) ∧
    (env.calloc (i32 s.blockSize) → n ≤ outCount → ∀ files : List SparseFile, files.Perm outs → ∀ img,
      (files.map (·.dataBlocks)).foldl (expandOnto env s.blockSize) img =
        expandOnto env s.blockSize img s.dataBlocks) := by
  have hp := (resparse_refines hb ha hs h).partition hb hs
  refine ⟨hp, ?_⟩
  intro hc hn files hf img
  obtain ⟨gs, fresh, hg, hr'⟩ := SparseFile.Valid.exists_groups ⟨hc, hb, ha, hs⟩ h
  have he : s'.dataBlocks = [] := by
    have := hr'.count
    rw [hr'.rest, drop_eq_nil_of_le (by omega), flatten_nil]
  refine foldl_expandOnto_eq hs.functional fun k v => ?_
  rw [hp.backs_iff]
  simp only [map_append, map_singleton, mem_append, mem_singleton, he,
    (hf.map _).mem_iff]
  constructor
  case mp =>
    rintro ⟨f, hf | rfl, hv⟩
    · exact ⟨f, hf, hv⟩
    · exact absurd hv backs_nil
  case mpr =>
    rintro ⟨f, hf, hv⟩
    exact ⟨f, .inl hf, hv⟩

-- Data of ten blocks, and a fill behind a hole.
def dataAndFill : SparseFile where
  len := 48
  backedBlockList := .ofUInts [.ofUInts 0 0 40 (.data 0), .ofUInts 1 11 4 (.fill 7)] none 4 2

theorem resparse_partition_dataAndFill :
    ∃ n s' outs, resparse .withoutFiles 4 dataAndFill 100 5 = some (n, s', outs) ∧
      Partition 4 dataAndFill.dataBlocks ((outs ++ [s']).map (·.dataBlocks)) := by
  have h : (resparse .withoutFiles 4 dataAndFill 100 5).isSome := by decide +kernel
  obtain ⟨⟨n, s', outs⟩, h⟩ := isSome_iff_exists.mp h
  exact ⟨n, s', outs, h, (resparse_partition (by decide) ⟨by decide, by decide⟩
    ⟨by decide, by decide⟩ h).left⟩

-- A block of the smallest size that no `int` holds.
def hugeBlock : SparseFile where
  len := 2 ^ 31
  backedBlockList := .ofUInts [.ofUInts 0 0 4 (.fill 7)] (some 0) 0x80000000 1

-- There is no counter for blocks of this size. The only file that is stored is an empty one.
theorem resparse_loses_hugeBlock :
    ∃ s' o, resparse .withoutFiles 1 hugeBlock (2 ^ 31 + 80) 1 = some (1, s', [o]) ∧
      [o.dataBlocks].foldl (expandOnto .withoutFiles hugeBlock.blockSize) (fun _ => 0) ≠
        expandOnto .withoutFiles hugeBlock.blockSize (fun _ => 0) hugeBlock.dataBlocks := by
  refine ⟨_, _, rfl, fun h => ?_⟩
  exact absurd (congrFun h 0) (by decide +kernel)

end Partition

end Sparse
