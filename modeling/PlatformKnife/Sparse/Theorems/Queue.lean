import PlatformKnife.Sparse.Theorems.BlockMap

namespace Sparse

open CInt BackedBlock List BackedBlockList

variable {a b bb newBb : BackedBlock} {l pre post : List BackedBlock} {bs k : Nat} {v : Backing}

-- The neighbours which a block with number `n` gets in a sorted list.

def prevBb (l : List BackedBlock) (n : Nat) : Option BackedBlock :=
  (l.filter (·.block < n)).getLast?

def nextBb (l : List BackedBlock) (n : Nat) : Option BackedBlock :=
  (l.filter (n < ·.block)).head?

-- The block will be merged into the one in front of it.
def MergesPrev (bs : Nat) (l : List BackedBlock) (newBb : BackedBlock) : Prop :=
  ∃ bb ∈ prevBb l newBb.block, Merges bs bb newBb

instance : Decidable (MergesPrev bs l newBb) :=
  inferInstanceAs (Decidable (∃ bb ∈ prevBb l newBb.block, Merges bs bb newBb))

-- The length, as an unbounded number, of the chunk that a new block ends up in.
def mergedLen (bs : Nat) (l : List BackedBlock) (newBb : BackedBlock) : Nat :=
  match prevBb l newBb.block with
  | none => newBb.len
  | some bb =>
    (if Merges bs bb newBb then bb.len else 0) + newBb.len +
      ((nextBb l newBb.block).elim 0 fun next => if Merges bs newBb next then next.len else 0)

theorem exists_place (hs : l.Pairwise (·.block < ·.block)) (hn : ∀ b ∈ l, b.block ≠ n) :
    (prevBb l n = none ∧ ∀ b ∈ l, n < b.block) ∨
    (∃ pre bb post, l = pre ++ bb :: post ∧ bb.block < n ∧ (∀ b ∈ post, n < b.block) ∧
      prevBb l n = some bb ∧ nextBb l n = post.head?) := by
  obtain ⟨lo, hi, he, h₁, h₂⟩ := List.exists_cut (f := BackedBlock.block) n hs
  have h₂ : ∀ b ∈ hi, n < b.block := by
    intro b hb
    have := hn b (by simp [he, hb])
    have := h₂ b hb
    omega
  have hlo : l.filter (·.block < n) = lo := by
    rw [he, filter_append, filter_eq_self.mpr (by simpa using h₁),
      filter_eq_nil_iff.mpr (by simpa using fun b hb => (h₂ b hb).le), append_nil]
  have hhi : l.filter (n < ·.block) = hi := by
    rw [he, filter_append, filter_eq_nil_iff.mpr (by simpa using fun b hb => (h₁ b hb).le),
      filter_eq_self.mpr (by simpa using h₂), nil_append]
  rw [prevBb, nextBb, hlo, hhi]
  rcases eq_nil_or_concat' lo with rfl | ⟨pre, bb, rfl⟩
  case inl => exact .inl ⟨rfl, he ▸ h₂⟩
  case inr => exact .inr ⟨pre, bb, hi, by simp [he], h₁ bb (by simp), h₂, by simp, rfl⟩

section Linked

variable (ho : Ordered bs (pre ++ bb :: newBb :: post)) (hb : 0 < bs)
  (hw : (if Merges bs bb newBb then bb.len else 0) + newBb.len +
    (post.head?.elim 0 fun next => if Merges bs newBb next then next.len else 0) < 2 ^ 32)

include ho hb hw

theorem absorbNext_spec :
    Ordered bs (pre ++ bb :: (absorbNext bs newBb post).1 :: (absorbNext bs newBb post).2) ∧
    (∀ k v, Backs bs (pre ++ bb :: (absorbNext bs newBb post).1 :: (absorbNext bs newBb post).2) k v ↔
      Backs bs (pre ++ bb :: newBb :: post) k v) ∧
    (Merges bs bb newBb → bb.len + (absorbNext bs newBb post).1.len < 2 ^ 32) := by
  obtain _ | ⟨next, post⟩ := post
  · refine ⟨ho, fun _ _ => .rfl, fun hm => ?_⟩
    simpa [hm, absorbNext] using hw
  simp only [head?_cons, Option.elim_some] at hw
  rw [absorbNext]
  split
  case isTrue hm =>
    rw [if_pos hm] at hw
    have ho' : Ordered bs ((pre ++ [bb]) ++ newBb :: next :: post) := by simpa using ho
    refine ⟨by simpa using ho'.absorb hb hm (by omega), fun k v => ?_, fun hm' => ?_⟩
    · simpa using ho'.backs_absorb (k := k) (v := v) hb hm (by omega)
    · rw [if_pos hm'] at hw
      have := u32_le (newBb.len + next.len)
      simp only [absorb]
      omega
  case isFalse hm =>
    refine ⟨ho, fun _ _ => .rfl, fun hm' => ?_⟩
    rw [if_pos hm', if_neg hm] at hw
    exact hw

theorem linked_ordered : Ordered bs (pre ++ linked bs bb newBb post) := by
  obtain ⟨h₁, _, h₃⟩ := absorbNext_spec ho hb hw
  simp only [linked]
  split
  case isTrue hm => exact h₁.absorb hb hm (h₃ (merges_absorbNext_iff.mp hm))
  case isFalse => exact h₁

theorem linked_backs_iff :
    Backs bs (pre ++ linked bs bb newBb post) k v ↔ Backs bs (pre ++ bb :: newBb :: post) k v := by
  obtain ⟨h₁, h₂, h₃⟩ := absorbNext_spec ho hb hw
  simp only [linked]
  split
  case isTrue hm => rw [h₁.backs_absorb hb hm (h₃ (merges_absorbNext_iff.mp hm)), h₂]
  case isFalse => exact h₂ k v

end Linked

theorem Ordered.insert (ho : Ordered bs (pre ++ bb :: post)) (h₁ : bb.block < newBb.block)
    (h₂ : ∀ b ∈ post, newBb.block < b.block)
    (hd : ∀ b ∈ pre ++ bb :: post, Disjoint bs b newBb) : Ordered bs (pre ++ bb :: newBb :: post) := by
  simp only [Ordered, pairwise_append, pairwise_cons, mem_cons, mem_append, forall_eq_or_imp] at *
  obtain ⟨ho₁, ⟨ho₂, ho₃⟩, ho₄⟩ := ho
  refine ⟨ho₁, ⟨⟨?_, ho₂⟩, ?_, ho₃⟩, fun c hc => ⟨(ho₄ c hc).left, ?_, (ho₄ c hc).right⟩⟩
  · exact ⟨h₁, hd bb (.inr (.inl rfl))⟩
  · exact fun c hc => ⟨h₂ c hc, (hd c (.inr (.inr hc))).symm⟩
  · exact ⟨(ho₄ c hc).left.left.trans h₁, hd c (.inl hc)⟩

-- What a merge does not change comes from the blocks that were there and the new one.
theorem linked_map (hf : ∀ a b : BackedBlock, f (a.absorb b) = f a) :
    ((linked bs bb newBb post).map f).Sublist (f bb :: f newBb :: post.map f) := by
  have h₁ : f (absorbNext bs newBb post).1 = f newBb := by
    unfold absorbNext
    split <;> try split
    all_goals simp [hf]
  have h₂ : ((absorbNext bs newBb post).2.map f).Sublist (post.map f) := by
    cases post <;> rw [absorbNext]
    case cons => split <;> simp
  simp only [linked]
  split
  case isTrue  => simpa [hf] using h₂.cons _
  case isFalse => simpa [h₁] using h₂

namespace BackedBlockList

variable {bbl bbl' : BackedBlockList}

-- What is needed of a block and its list: its number is not in use, the cached node is linked if the
-- search looks at it, and no length overflows.
structure Admits (bbl : BackedBlockList) (newBb : BackedBlock) : Prop where
  unused : ∀ b ∈ bbl.dataBlocks, b.block ≠ newBb.block
  cache  : prevBb bbl.dataBlocks newBb.block ≠ none → bbl.CacheLinked
  len_lt : mergedLen bbl.blockSize bbl.dataBlocks newBb < 2 ^ 32

-- The list after a block has been added to it.
structure Queued (bbl : BackedBlockList) (newBb : BackedBlock) (bbl' : BackedBlockList) : Prop where
  ordered : Ordered bbl'.blockSize bbl'.dataBlocks
  backs : ∀ k v, Backs bbl.blockSize bbl'.dataBlocks k v ↔
                Backs bbl.blockSize bbl.dataBlocks k v ∨ newBb.Backs bbl.blockSize k v
  addrs : ∀ b ∈ bbl'.dataBlocks, b.addr = newBb.addr ∨ ∃ b' ∈ bbl.dataBlocks, b.addr = b'.addr
  cache : bbl.CacheLinked → ¬MergesPrev bbl.blockSize bbl.dataBlocks newBb → bbl'.CacheLinked
  blockSize : bbl'.blockSize = bbl.blockSize
  fresh : bbl'.fresh = bbl.fresh

theorem Admits.queueBb (h : bbl.Admits newBb) (ho : Ordered bbl.blockSize bbl.dataBlocks)
    (hb : 0 < bbl.blockSize) (hd : ∀ b ∈ bbl.dataBlocks, Disjoint bbl.blockSize b newBb) :
    ∃ bbl', bbl.queueBb newBb = .ok bbl' ∧ Queued bbl newBb bbl' := by
  cases exists_place ho.sorted h.unused
  case inl hp =>
    obtain ⟨_, hf⟩ := hp
    refine ⟨_, queueBb_front hf, ?_⟩
    constructor
    case ordered => exact pairwise_cons.mpr ⟨fun b hb => ⟨hf b hb, (hd b hb).symm⟩, ho⟩
    case backs => simp [or_comm]
    case addrs => simp only [mem_cons]; rintro b (rfl | hb); exacts [.inl rfl, .inr ⟨b, hb, rfl⟩]
    case cache =>
      intro hc _ addr ha
      obtain ⟨b, hb, h⟩ := hc addr ha
      exact ⟨b, mem_cons_of_mem _ hb, h⟩
    case blockSize => rfl
    case fresh => rfl
  case inr hp =>
    obtain ⟨pre, bb, post, hl, h₁, h₂, hprev, hnext⟩ := hp
    have hc := h.cache (by simp [hprev])
    have ho' := (hl ▸ ho).insert h₁ h₂ (hl ▸ hd)
    have hw := h.len_lt
    simp only [mergedLen, hprev, hnext] at hw
    have hh : ∀ b ∈ post.head?, newBb.block < b.block :=
      fun b hb => h₂ b (mem_of_mem_head? hb)
    refine ⟨_, queueBb_behind ho.sorted hc hb.ne' hl h₁ hh, ?_⟩
    constructor
    case ordered => exact linked_ordered ho' hb hw
    case backs =>
      intro k v
      simp only [linked_backs_iff ho' hb hw, hl, backs_append, backs_cons]
      tauto
    case addrs =>
      simp only [mem_append]
      rintro b (hb | hb)
      case inl => exact .inr ⟨b, by simp [hl, hb], rfl⟩
      case inr =>
        have := (linked_map (f := (·.addr)) fun _ _ => rfl).subset (mem_map_of_mem hb)
        simp only [mem_cons, mem_map] at this
        rcases this with h | h | ⟨b', hb', h⟩
        case inl => exact .inr ⟨bb, by simp [hl], h⟩
        case inr.inl => exact .inl h
        case inr.inr => exact .inr ⟨b', by simp [hl, hb'], h.symm⟩
    case cache =>
      intro _ hm addr ha
      simp only [Option.mem_def, Option.some.injEq] at ha
      have hm : ¬Merges bbl.blockSize bb (absorbNext bbl.blockSize newBb post).1 := by
        rw [merges_absorbNext_iff]
        exact fun hm' => hm ⟨bb, hprev, hm'⟩
      refine ⟨(absorbNext bbl.blockSize newBb post).1, ?_, ?_⟩
      · simp [linked, hm]
      · rw [absorbNext_addr, ha]
    case blockSize => rfl
    case fresh => rfl

-- The list for which the search starts at the head.
def clearCache (bbl : BackedBlockList) : BackedBlockList :=
  { bbl with lastUsed := none }

theorem queueBb_clearCache (hs : bbl.Sorted) (hc : bbl.CacheLinked) :
    (bbl.queueBb newBb).map dataBlocks = (bbl.clearCache.queueBb newBb).map dataBlocks := by
  rcases hl : bbl.dataBlocks with _ | ⟨head, tail⟩
  · simp [queueBb, clearCache, hl, Except.map]
  have hs' := hs
  rw [Sorted, hl, pairwise_cons] at hs'
  rcases lt_trichotomy head.block newBb.block with hn | hn | hn
  case inl =>
    obtain ⟨lo, hi, he, h₁, h₂⟩ := List.exists_cut (f := BackedBlock.block) newBb.block hs
    obtain ⟨pre, bb, hlo⟩ : ∃ pre bb, lo = pre ++ [bb] := by
      rcases eq_nil_or_concat' lo with rfl | h
      case inr => exact h
      have := h₂ head (by simp_all)
      omega
    have he : bbl.dataBlocks = pre ++ bb :: hi := by simp [he, hlo]
    have h₁ := h₁ bb (by simp [hlo])
    have h₂ : ∀ b ∈ hi.head?, newBb.block ≤ b.block := fun b hb => h₂ b (mem_of_mem_head? hb)
    have hs' : bbl.clearCache.Sorted := hs
    have hc' : bbl.clearCache.CacheLinked := by simp [CacheLinked, clearCache]
    rw [queueBb_eq_linkBb hs hc he h₁ h₂, queueBb_eq_linkBb hs' hc' he h₁ h₂]
    rfl
  case inr.inl =>
    -- No node has a smaller number than the head.
    have : bbl.searchStart newBb head tail = .ok ([], head, tail) := by
      obtain ⟨⟨p, b, q⟩, hr⟩ := (searchStart_isOk_iff newBb hl).mpr hc
      obtain ⟨he, hb⟩ := searchStart_spec hr
      rw [hr]
      cases p <;> simp only [nil_append, cons_append, cons.injEq] at he
      case nil  => rw [he.left, he.right]
      case cons =>
        have := hs'.left b (by simp [he.right])
        simp only [reduceCtorEq, false_and, or_false] at hb
        omega
    simp only [queueBb, clearCache, hl, if_neg (not_lt.mpr hn.le), this]
    rfl
  case inr.inr => simp [queueBb, clearCache, hl, hn, Except.map]

end BackedBlockList
end Sparse
