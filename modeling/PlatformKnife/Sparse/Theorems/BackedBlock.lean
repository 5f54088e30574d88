import PlatformKnife.Lib.SortedList
import PlatformKnife.Sparse.BlockMap

namespace Sparse

open CInt List

variable {a b bb newBb : BackedBlock} {l pre post : List BackedBlock} {blockSize : Nat}

-- The condition on which `merge_bb` merges two blocks.
def Merges (blockSize : Nat) (a b : BackedBlock) : Prop :=
  u32 (a.block + a.len / blockSize) = b.block ∧ compatible a b

instance : Decidable (Merges blockSize a b) :=
  inferInstanceAs (Decidable (_ ∧ _))

theorem compatible_type_eq (h : compatible a b) : a.source.type = b.source.type := by
  unfold compatible at h
  split at h <;> simp_all [Source.type]

-- The merged block differs in its length, which does not matter for the one before.
theorem merges_absorb_iff : Merges blockSize a (b.absorb bb) ↔ Merges blockSize a b :=
  .rfl

theorem mergeBb_eq (h : a.block < b.block) (hb : blockSize ≠ 0) :
    mergeBb blockSize a b = .ok (if Merges blockSize a b then some (a.absorb b) else none) := by
  rw [mergeBb, if_neg (not_le.mpr h), if_neg hb]
  by_cases hc : compatible a b
  case pos => simp [compatible_type_eq hc, Merges, hc]; split <;> simp_all
  case neg => simp [Merges, hc]

-- The new block after the attempt to merge it with the next one, and what follows it.
def absorbNext (blockSize : Nat) (newBb : BackedBlock) :
    List BackedBlock → BackedBlock × List BackedBlock
  | [] => (newBb, [])
  | next :: post =>
    if Merges blockSize newBb next then (newBb.absorb next, post) else (newBb, next :: post)

-- The list from `bb` on after the new block was linked in behind it.
def linked (blockSize : Nat) (bb newBb : BackedBlock) (post : List BackedBlock) :
    List BackedBlock :=
  let (newBb, post) := absorbNext blockSize newBb post
  if Merges blockSize bb newBb then bb.absorb newBb :: post else bb :: newBb :: post

theorem absorbNext_block : (absorbNext blockSize newBb post).1.block = newBb.block := by
  unfold absorbNext
  split <;> try split
  all_goals rfl

theorem absorbNext_addr : (absorbNext blockSize newBb post).1.addr = newBb.addr := by
  unfold absorbNext
  split <;> try split
  all_goals rfl

theorem merges_absorbNext_iff :
    Merges blockSize bb (absorbNext blockSize newBb post).1 ↔ Merges blockSize bb newBb := by
  unfold absorbNext
  split <;> try split
  all_goals rfl

theorem mergeNext_eq (h : ∀ b ∈ post.head?, newBb.block < b.block) (hb : blockSize ≠ 0) :
    mergeNext blockSize newBb post = .ok (absorbNext blockSize newBb post) := by
  obtain _ | ⟨next, post⟩ := post
  · rfl
  rw [mergeNext, mergeBb_eq (h next rfl) hb, absorbNext]
  split <;> rename_i he <;> split at he <;> simp_all

theorem linkBb_eq (h₁ : bb.block < newBb.block) (h₂ : ∀ b ∈ post.head?, newBb.block < b.block)
    (hb : blockSize ≠ 0) :
    linkBb blockSize pre bb newBb post = .ok (pre ++ linked blockSize bb newBb post) := by
  have h : bb.block < (absorbNext blockSize newBb post).1.block := by rwa [absorbNext_block]
  rw [linkBb, mergeNext_eq h₂ hb, linked]
  simp only
  rw [mergeBb_eq h hb]
  split <;> rename_i he <;> split at he <;> simp_all

section Search

theorem seek_spec (h : seek newBb pre bb post = (pre', bb', post')) :
    (pre' ++ bb' :: post' = pre ++ bb :: post) ∧ (∀ b ∈ post'.head?, newBb.block ≤ b.block) ∧
      (bb.block < newBb.block → bb'.block < newBb.block) := by
  induction post generalizing pre bb
  case nil =>
    cases h
    simp
  case cons next post hi =>
    rw [seek] at h
    split at h
    case isTrue hn =>
      obtain ⟨h₁, h₂, h₃⟩ := hi h
      exact ⟨by simp [h₁], h₂, fun _ => h₃ hn⟩
    case isFalse hn =>
      cases h
      simpa using hn

theorem locate_eq_some (h : locate addr l = some (pre, bb, post)) :
    l = pre ++ bb :: post ∧ bb.addr = addr := by
  induction l generalizing pre
  case nil => cases h
  case cons b l hi =>
    rw [locate] at h
    split at h
    case isTrue => cases h; simp_all
    simp only [Option.map_eq_some_iff, Prod.mk.injEq, Prod.exists] at h
    obtain ⟨_, _, _, hl, rfl, rfl, rfl⟩ := h
    obtain ⟨h₁, h₂⟩ := hi hl
    simp [h₁, h₂]

theorem locate_eq_none_iff : locate addr l = none ↔ ∀ b ∈ l, b.addr ≠ addr := by
  induction l
  case nil => simp [locate]
  case cons b l hi =>
    rw [locate]
    split <;> simp_all

namespace BackedBlockList

-- The cached node is linked in the list.
def CacheLinked (bbl : BackedBlockList) : Prop :=
  ∀ addr ∈ bbl.lastUsed, ∃ b ∈ bbl.dataBlocks, b.addr = addr

abbrev Sorted (bbl : BackedBlockList) : Prop :=
  bbl.dataBlocks.Pairwise (·.block < ·.block)

variable {bbl : BackedBlockList} {head : BackedBlock} {tail : List BackedBlock}

theorem searchStart_spec (h : bbl.searchStart newBb head tail = .ok (pre, bb, post)) :
    (head :: tail = pre ++ bb :: post) ∧ (bb.block < newBb.block ∨ pre = [] ∧ bb = head) := by
  unfold searchStart at h
  split at h
  · cases h; simp
  · split at h
    · cases h
    case h_2 hl =>
      obtain ⟨he, _⟩ := locate_eq_some hl
      split at h <;> cases h
      case isTrue hn => exact ⟨he, .inl hn⟩
      case isFalse => simp

theorem searchStart_isOk_iff (newBb : BackedBlock) (hl : bbl.dataBlocks = head :: tail) :
    (∃ r, bbl.searchStart newBb head tail = .ok r) ↔ bbl.CacheLinked := by
  unfold searchStart CacheLinked
  split
  case h_1 hn => simp [hn]
  case h_2 addr ha =>
    simp only [ha, hl, Option.mem_def, Option.some.injEq, forall_eq']
    split
    case h_1 hn =>
      have := locate_eq_none_iff.mp hn
      simp_all
    case h_2 hs =>
      obtain ⟨he, ha⟩ := locate_eq_some hs
      constructor <;> intro _
      case mp  => exact ⟨_, he ▸ mem_append_right _ (mem_cons_self ..), ha⟩
      case mpr => split <;> simp

theorem queueBb_front (h : ∀ b ∈ bbl.dataBlocks, newBb.block < b.block) :
    bbl.queueBb newBb = .ok { bbl with dataBlocks := newBb :: bbl.dataBlocks } := by
  unfold queueBb
  split
  case h_1 hl => simp [hl]
  case h_2 hd _ hl => rw [if_pos (h hd (by simp [hl]))]; simp [hl]

theorem Sorted.place_unique (hs : l.Pairwise (·.block < ·.block))
    (h : l = pre ++ bb :: post) (h' : l = pre' ++ bb' :: post')
    (h₁ : bb.block < n) (h₂ : ∀ b ∈ post.head?, n ≤ b.block)
    (h₁' : bb'.block < n) (h₂' : ∀ b ∈ post'.head?, n ≤ b.block) :
    pre = pre' ∧ bb = bb' ∧ post = post' := by
  have below {p b q} (he : l = p ++ b :: q) (hn : b.block < n) :
      ∀ a ∈ p ++ [b], BackedBlock.block a < n := by
    intro a ha
    rw [he, pairwise_append] at hs
    simp only [mem_append, mem_singleton] at ha
    cases ha
    case inl ha => exact (hs.right.right a ha b (by simp)).trans hn
    case inr ha => exact ha ▸ hn
  have he : (pre ++ [bb]) ++ post = (pre' ++ [bb']) ++ post' := by simp [← h, ← h']
  obtain ⟨hp, hq⟩ := cut_unique he (below h h₁) (fun b hb => not_lt.mpr (h₂ b hb))
    (below h' h₁') (fun b hb => not_lt.mpr (h₂' b hb))
  obtain ⟨hp, hb⟩ := append_inj' hp rfl
  exact ⟨hp, by simpa using hb, hq⟩

-- A block that belongs behind `bb` is linked in there, wherever the search starts.
theorem queueBb_eq_linkBb (hs : bbl.Sorted) (hc : bbl.CacheLinked)
    (hl : bbl.dataBlocks = pre ++ bb :: post) (h₁ : bb.block < newBb.block)
    (h₂ : ∀ b ∈ post.head?, newBb.block ≤ b.block) :
    bbl.queueBb newBb = (linkBb bbl.blockSize pre bb newBb post).map
      fun l => { bbl with dataBlocks := l, lastUsed := some newBb.addr } := by
  unfold queueBb
  split
  case h_1 hn => simp [hn] at hl
  case h_2 head tail hd =>
    have hh : head.block < newBb.block := by
      cases pre <;> simp [hd] at hl
      case nil  => exact hl.left ▸ h₁
      case cons =>
        simp only [Sorted, hd, pairwise_cons] at hs
        exact (hs.left bb (by simp [hl.right])).trans h₁
    obtain ⟨⟨p, b, q⟩, hr⟩ := (searchStart_isOk_iff newBb hd).mpr hc
    obtain ⟨he, hn⟩ := searchStart_spec hr
    have hn : b.block < newBb.block := by
      cases hn
      case inl hn => exact hn
      case inr hn => exact hn.right ▸ hh
    rcases hk : seek newBb p b q with ⟨p', b', q'⟩
    obtain ⟨hk₁, hk₂, hk₃⟩ := seek_spec hk
    obtain ⟨rfl, rfl, rfl⟩ := Sorted.place_unique hs hl (by rw [hd, he, hk₁]) h₁ h₂ (hk₃ hn) hk₂
    rw [if_neg (not_lt.mpr hh.le), hr]
    simp only [hk]
    cases linkBb bbl.blockSize pre bb newBb post <;> rfl

theorem queueBb_behind (hs : bbl.Sorted) (hc : bbl.CacheLinked) (hb : bbl.blockSize ≠ 0)
    (hl : bbl.dataBlocks = pre ++ bb :: post) (h₁ : bb.block < newBb.block)
    (h₂ : ∀ b ∈ post.head?, newBb.block < b.block) :
    bbl.queueBb newBb = .ok { bbl with
      dataBlocks := pre ++ linked bbl.blockSize bb newBb post
      lastUsed := some newBb.addr } := by
  rw [queueBb_eq_linkBb hs hc hl h₁ (fun b hb => (h₂ b hb).le), linkBb_eq h₁ h₂ hb]
  rfl

end BackedBlockList
end Search

end Sparse
