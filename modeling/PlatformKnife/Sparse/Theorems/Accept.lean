import PlatformKnife.Sparse.Theorems.Reader

-- When a block is accepted by the list of blocks, and what the list is after that.

namespace Sparse

open CInt Bytes BackedBlockList List

variable {a b bb newBb : BackedBlock} {l pre post : List BackedBlock} {bs : Nat}

section Merge

-- Two blocks which `merge_bb` can compare. It divides by the block size only for the same type.
def Comparable (bs : Nat) (a b : BackedBlock) : Prop :=
  a.block < b.block ∧ (a.source.type = b.source.type → bs ≠ 0)

theorem mergeBb_of_comparable (h : Comparable bs a b) :
    mergeBb bs a b = .ok (if Merges bs a b then some (a.absorb b) else none) := by
  by_cases ht : a.source.type = b.source.type
  case pos => exact mergeBb_eq h.left (h.right ht)
  have hm : ¬Merges bs a b := fun hm => ht (compatible_type_eq hm.right)
  rw [mergeBb, if_neg (not_le.mpr h.left), if_pos ht, if_neg hm]

theorem comparable_of_mergeBb (h : mergeBb bs a b = .ok r) : Comparable bs a b := by
  rw [mergeBb] at h
  split at h
  case isTrue => cases h
  case isFalse hl => exact ⟨not_le.mp hl, fun ht hb => by simp [ht, hb] at h⟩

theorem mergeNext_of_comparable (h : ∀ next ∈ post.head?, Comparable bs newBb next) :
    mergeNext bs newBb post = .ok (absorbNext bs newBb post) := by
  obtain _ | ⟨next, post⟩ := post
  · rfl
  rw [mergeNext, mergeBb_of_comparable (h next rfl), absorbNext]
  split <;> rename_i he <;> split at he <;> simp_all

theorem comparable_of_mergeNext (h : mergeNext bs newBb post = .ok r) :
    ∀ next ∈ post.head?, Comparable bs newBb next := by
  obtain _ | ⟨next, post⟩ := post
  · simp
  rintro _ ⟨⟩
  rw [mergeNext] at h
  split at h
  · cases h
  case h_2 hm | h_3 hm => exact comparable_of_mergeBb hm

theorem comparable_absorbNext :
    Comparable bs bb (absorbNext bs newBb post).1 ↔ Comparable bs bb newBb := by
  unfold absorbNext
  split <;> try split
  all_goals rfl

theorem linkBb_of_comparable (h₁ : Comparable bs bb newBb)
    (h₂ : ∀ next ∈ post.head?, Comparable bs newBb next) :
    linkBb bs pre bb newBb post = .ok (pre ++ linked bs bb newBb post) := by
  simp only [linkBb, mergeNext_of_comparable h₂, linked,
    mergeBb_of_comparable (comparable_absorbNext.mpr h₁)]
  split <;> rename_i he <;> split at he <;> simp_all

theorem comparable_of_linkBb (h : linkBb bs pre bb newBb post = .ok l) :
    Comparable bs bb newBb ∧ ∀ next ∈ post.head?, Comparable bs newBb next := by
  cases hn : mergeNext bs newBb post
  case error f => simp [linkBb, hn] at h
  case ok r =>
    have hc := comparable_of_mergeNext hn
    refine ⟨?_, hc⟩
    obtain rfl : absorbNext bs newBb post = r := by simpa [mergeNext_of_comparable hc] using hn
    cases hm : mergeBb bs bb (absorbNext bs newBb post).1
    case error f => simp [linkBb, hn, hm] at h
    case ok o => exact comparable_absorbNext.mp (comparable_of_mergeBb hm)

end Merge

section Queue

variable {bbl bbl' : BackedBlockList}

theorem lt_of_head?_lt (hs : (pre ++ bb :: post).Pairwise (·.block < ·.block))
    (h : ∀ b ∈ post.head?, n < b.block) : ∀ b ∈ post, n < b.block := by
  obtain _ | ⟨next, post⟩ := post
  · simp
  have hs := (pairwise_append.mp hs).right.left
  simp only [pairwise_cons] at hs
  simp only [head?_cons, Option.mem_def, Option.some.injEq, forall_eq'] at h
  simp only [forall_mem_cons]
  exact ⟨h, fun b hb => h.trans (hs.right.left b hb)⟩

section Place

variable (hs : l.Pairwise (·.block < ·.block)) (hl : l = pre ++ bb :: post) (h₁ : bb.block < n)
  (h₂ : ∀ b ∈ post, n < b.block)

include hs hl h₁ h₂

theorem unused_of_place : ∀ b ∈ l, b.block ≠ n := by
  rw [hl, pairwise_append] at hs
  simp only [hl, mem_append, mem_cons]
  rintro b (hb | rfl | hb)
  case inl => exact ((hs.right.right b hb bb (by simp)).trans h₁).ne
  case inr.inl => exact h₁.ne
  case inr.inr => exact (h₂ b hb).ne'

theorem neighbours_eq : prevBb l n = some bb ∧ nextBb l n = post.head? := by
  cases exists_place hs (unused_of_place hs hl h₁ h₂)
  case inl hf => exact absurd h₁ (lt_asymm (hf.right bb (by simp [hl])))
  case inr hp =>
    obtain ⟨pre', bb', post', hl', h₁', h₂', hprev, hnext⟩ := hp
    have le {q : List BackedBlock} (h : ∀ b ∈ q, n < b.block) : ∀ b ∈ q.head?, n ≤ b.block :=
      fun b hb => (h b (mem_of_mem_head? hb)).le
    obtain ⟨rfl, rfl, rfl⟩ := Sorted.place_unique hs hl hl' h₁ (le h₂) h₁' (le h₂')
    exact ⟨hprev, hnext⟩

end Place

theorem prevBb_eq_none (h : ∀ b ∈ l, n < b.block) : prevBb l n = none := by
  simp only [prevBb, getLast?_eq_none_iff, filter_eq_nil_iff, decide_eq_true_eq]
  exact fun b hb => lt_asymm (h b hb)

-- A block for which `queue_bb` does not fail: its number is not in use, and if it does not become the
-- head, the cached node is linked and it can be compared with its neighbours.
structure BackedBlockList.Accepts (bbl : BackedBlockList) (newBb : BackedBlock) : Prop where
  unused : ∀ b ∈ bbl.dataBlocks, b.block ≠ newBb.block
  cache  : prevBb bbl.dataBlocks newBb.block ≠ none → bbl.CacheLinked
  types  : ∀ prev ∈ prevBb bbl.dataBlocks newBb.block, bbl.blockSize = 0 →
             prev.source.type ≠ newBb.source.type ∧
             ∀ next ∈ nextBb bbl.dataBlocks newBb.block, newBb.source.type ≠ next.source.type

-- The list after a block has been queued, as a whole.
inductive BackedBlockList.QueueBb (bbl : BackedBlockList) (newBb : BackedBlock) :
    BackedBlockList → Prop
  | front (h : ∀ b ∈ bbl.dataBlocks, newBb.block < b.block) :
    QueueBb bbl newBb { bbl with dataBlocks := newBb :: bbl.dataBlocks }
  | behind {pre post : List BackedBlock} {bb : BackedBlock} (hl : bbl.dataBlocks = pre ++ bb :: post)
    (h₁ : bb.block < newBb.block) (h₂ : ∀ b ∈ post, newBb.block < b.block) (hc : bbl.CacheLinked) :
    QueueBb bbl newBb { bbl with
      dataBlocks := pre ++ linked bbl.blockSize bb newBb post
      lastUsed   := some newBb.addr }

theorem queueBb_spec (hs : bbl.Sorted) (h : bbl.queueBb newBb = .ok bbl') :
    bbl.Accepts newBb ∧ bbl.QueueBb newBb bbl' := by
  by_cases hf : ∀ b ∈ bbl.dataBlocks, newBb.block < b.block
  case pos =>
    rw [queueBb_front hf] at h
    cases h
    have hp := prevBb_eq_none hf
    exact ⟨⟨fun b hb => (hf b hb).ne', by simp [hp], by simp [hp]⟩, .front hf⟩
  rcases hl : bbl.dataBlocks with _ | ⟨head, tail⟩
  · simp [hl] at hf
  have hn : ¬newBb.block < head.block := by
    intro hn
    apply hf
    rw [Sorted, hl, pairwise_cons] at hs
    simp only [hl, forall_mem_cons]
    exact ⟨hn, fun b hb => hn.trans (hs.left b hb)⟩
  simp only [queueBb, hl, if_neg hn] at h
  cases hr : bbl.searchStart newBb head tail
  case error f => simp [hr] at h
  case ok r =>
    obtain ⟨p, b, q⟩ := r
    have hc := (searchStart_isOk_iff newBb hl).mp ⟨_, hr⟩
    rcases hk : seek newBb p b q with ⟨pre, bb, post⟩
    have he : bbl.dataBlocks = pre ++ bb :: post := by
      rw [hl, (searchStart_spec hr).left, (seek_spec hk).left]
    simp only [hr, hk] at h
    cases hlink : linkBb bbl.blockSize pre bb newBb post
    case error f => simp [hlink] at h
    case ok l =>
      obtain ⟨h₁, h₂⟩ := comparable_of_linkBb hlink
      have hs' : (pre ++ bb :: post).Pairwise (·.block < ·.block) := he ▸ (show _ from hs)
      have hpost := lt_of_head?_lt hs' fun b hb => (h₂ b hb).left
      obtain ⟨hprev, hnext⟩ := neighbours_eq hs he h₁.left hpost
      have hl : l = pre ++ linked bbl.blockSize bb newBb post := by
        simpa [linkBb_of_comparable h₁ h₂] using hlink.symm
      simp only [hlink, Except.ok.injEq] at h
      subst h hl
      refine ⟨⟨unused_of_place hs he h₁.left hpost, fun _ => hc, ?_⟩, .behind he h₁.left hpost hc⟩
      rw [hprev, hnext]
      rintro _ ⟨⟩ hb
      exact ⟨fun ht => h₁.right ht hb, fun next hn ht => (h₂ next hn).right ht hb⟩

theorem BackedBlockList.Accepts.queueBb (h : bbl.Accepts newBb) (hs : bbl.Sorted) :
    ∃ bbl', bbl.queueBb newBb = .ok bbl' := by
  cases exists_place hs h.unused
  case inl hf => exact ⟨_, queueBb_front hf.right⟩
  case inr hp =>
    obtain ⟨pre, bb, post, hl, h₁, h₂, hprev, hnext⟩ := hp
    have ht := h.types bb hprev
    rw [hnext] at ht
    have hh : ∀ b ∈ post.head?, newBb.block < b.block :=
      fun b hb => h₂ b (mem_of_mem_head? hb)
    rw [queueBb_eq_linkBb hs (h.cache (by simp [hprev])) hl h₁ (fun b hb => (hh b hb).le),
      linkBb_of_comparable ⟨h₁, fun he hb => (ht hb).left he⟩
        fun next hn => ⟨hh next hn, fun he hb => (ht hb).right next hn he⟩]
    exact ⟨_, rfl⟩

section Linked

theorem BackedBlockList.QueueBb.sorted (h : bbl.QueueBb newBb bbl') (hs : bbl.Sorted) : bbl'.Sorted := by
  cases h
  case front h => exact pairwise_cons.mpr ⟨h, hs⟩
  case behind pre post bb hl h₁ h₂ hc =>
    rw [Sorted, hl] at hs
    have hs' : (pre ++ bb :: newBb :: post).Pairwise (·.block < ·.block) := by
      simp only [pairwise_append, pairwise_cons, forall_mem_cons] at hs ⊢
      exact ⟨hs.left, ⟨⟨h₁, hs.right.left.left⟩, h₂, hs.right.left.right⟩,
        fun b hb => ⟨(hs.right.right b hb).left, (hs.right.right b hb).left.trans h₁,
          (hs.right.right b hb).right⟩⟩
    have hsub : ((pre ++ linked bbl.blockSize bb newBb post).map (·.block)).Sublist
        ((pre ++ bb :: newBb :: post).map (·.block)) := by
      simpa using linked_map (f := (·.block)) fun _ _ => rfl
    have := (pairwise_map.mpr hs').sublist hsub
    exact pairwise_map.mp this

def totalLen (l : List BackedBlock) : Nat :=
  (l.map (·.len)).sum

theorem linked_totalLen : totalLen (linked bs bb newBb post) ≤ totalLen (bb :: newBb :: post) ∧
    (totalLen (linked bs bb newBb post) = totalLen (bb :: newBb :: post) ↔
      (if Merges bs bb newBb then bb.len else 0) + newBb.len +
        (post.head?.elim 0 fun next => if Merges bs newBb next then next.len else 0) < 2 ^ 32) := by
  have hb := bb.len_lt
  have hn := newBb.len_lt
  have hl (a b : BackedBlock) : (a.absorb b).len = (a.len + b.len) % 2 ^ 32 := rfl
  obtain _ | ⟨next, post⟩ := post
  · by_cases hm : Merges bs bb newBb
    case pos => simp [linked, absorbNext, hm, totalLen, hl]; omega
    case neg => simpa [linked, absorbNext, hm, totalLen] using hn
  by_cases hm : Merges bs newBb next <;> by_cases hm' : Merges bs bb newBb <;>
    simp [linked, absorbNext, hm, hm', merges_absorb_iff, totalLen, hl] <;> omega

theorem BackedBlockList.QueueBb.totalLen (h : bbl.QueueBb newBb bbl') (hs : bbl.Sorted) :
    totalLen bbl'.dataBlocks ≤ totalLen bbl.dataBlocks + newBb.len ∧
      (totalLen bbl'.dataBlocks = totalLen bbl.dataBlocks + newBb.len ↔
        mergedLen bbl.blockSize bbl.dataBlocks newBb < 2 ^ 32) := by
  cases h
  case front h =>
    have hp := prevBb_eq_none h
    have hn := newBb.len_lt
    simp only [mergedLen, hp, Sparse.totalLen, map_cons, sum_cons]
    omega
  case behind pre post bb hl h₁ h₂ hc =>
    obtain ⟨hprev, hnext⟩ := neighbours_eq hs hl h₁ h₂
    obtain ⟨hle, heq⟩ := @linked_totalLen bb newBb post bbl.blockSize
    simp only [mergedLen, hprev, hnext, ← heq]
    simp only [Sparse.totalLen, hl, map_append, map_cons, sum_append, sum_cons] at hle ⊢
    omega

end Linked

end Queue

end Sparse
