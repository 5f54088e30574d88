import PlatformKnife.Sparse.Theorems.Reachable

-- Chunks that are added in ascending order, as they are when a file is read.

namespace Sparse

open CInt BackedBlock BackedBlockList

variable {a b bb : BackedBlock} {l : List BackedBlock} {calls : List Call} {c : Call} {bs : Nat}

-- The list in which the last two chunks have been merged, if that is possible.
def mergeLast (bs : Nat) : List BackedBlock → List BackedBlock
  | [] => []
  | [a] => [a]
  | [a, b] => if Merges bs a b then [a.absorb b] else [a, b]
  | a :: b :: l => a :: mergeLast bs (b :: l)

theorem mergeLast_append_pair :
    mergeLast bs (l ++ [a, b]) = l ++ if Merges bs a b then [a.absorb b] else [a, b] := by
  induction l
  case nil => rfl
  case cons c l hi =>
    obtain _ | ⟨d, l⟩ := l
    · simp [mergeLast]
    rw [List.cons_append, List.cons_append, mergeLast, List.cons_append]
    case x_1 => simp
    exact congrArg _ hi

theorem linked_nil : linked bs a b [] = if Merges bs a b then [a.absorb b] else [a, b] :=
  rfl

namespace BackedBlockList

variable {bbl : BackedBlockList}

theorem queueBb_of_not_cacheLinked (hc : ¬bbl.CacheLinked) (hl : bbl.dataBlocks = head :: tail)
    (hn : head.block ≤ newBb.block) : bbl.queueBb newBb = .error .useAfterFree := by
  have hs : bbl.searchStart newBb head tail = .error .useAfterFree := by
    have hs := (searchStart_isOk_iff newBb hl).not.mpr hc
    unfold searchStart at hs ⊢
    split
    case h_1 hn => simp [hn] at hs
    case h_2 addr ha =>
      split
      · rfl
      case h_2 hl => simp only [ha, hl] at hs; split at hs <;> simp at hs
  simp only [queueBb, hl, if_neg (not_lt.mpr hn), hs]

end BackedBlockList

section Ascending

def appended (bs : Nat) (calls : List Call) : BackedBlockList where
  dataBlocks := nodes calls
  lastUsed := if calls.length < 2 then none else some (calls.length - 1)
  blockSize := u32 bs
  fresh := calls.length
  blockSize_lt := u32_lt _

theorem mem_nodes_addr_lt (h : bb ∈ nodes calls) : bb.addr < calls.length := by
  simp only [nodes, List.mem_mapIdx] at h
  obtain ⟨i, hi, rfl⟩ := h
  exact hi

-- Each call adds a chunk behind the previous ones.
def Ascending (calls : List Call) : Prop :=
  calls.Pairwise (·.block < ·.block)

theorem Ascending.nodes (h : Ascending calls) : (nodes calls).Pairwise (·.block < ·.block) := by
  rw [Ascending, Sparse.nodes, List.pairwise_iff_getElem] at *
  intro i j hi hj hij
  simp only [List.length_mapIdx] at hi hj
  simpa [Call.node] using h i j hi hj hij

theorem appended_cacheLinked : (appended bs calls).CacheLinked := by
  rcases List.eq_nil_or_concat' calls with rfl | ⟨calls, c, rfl⟩
  case inl => simp [CacheLinked, appended]
  intro addr ha
  refine ⟨c.node calls.length, by simp [appended, nodes_append_singleton], ?_⟩
  simp only [appended, List.length_append, List.length_singleton] at ha
  split at ha <;> simp_all [Call.node]

theorem appended_blockSize (hbs : bs < 2 ^ 32) : (appended bs calls).blockSize = bs :=
  u32_of_lt hbs

-- The state after the last of these calls, whose chunk may have been merged.
def appendedLast (bs : Nat) (calls : List Call) : BackedBlockList :=
  { appended bs calls with dataBlocks := mergeLast bs (nodes calls) }

variable (hb : 0 < bs) (hbs : bs < 2 ^ 32)

theorem nodes_append_pair (calls : List Call) (d c : Call) :
    nodes (calls ++ [d, c]) = nodes calls ++ [d.node calls.length, c.node (calls.length + 1)] := by
  rw [List.append_cons, nodes_append_singleton, nodes_append_singleton]
  simp

-- Each chunk but the last can not be merged with the one behind it.
def Apart (bs : Nat) (l : List BackedBlock) : Prop :=
  l.IsChain fun a b => ¬Merges bs a b

instance (l : List BackedBlock) : Decidable (Apart bs l) :=
  inferInstanceAs (Decidable (List.IsChain ..))

theorem apart_append_pair : Apart bs (l ++ [a, b]) ↔ Apart bs (l ++ [a]) ∧ ¬Merges bs a b := by
  simp only [Apart, List.isChain_append_cons_cons, List.isChain_singleton, and_true]

theorem appendedLast_of_apart (h : Apart bs (nodes calls)) :
    appendedLast bs calls = appended bs calls := by
  have hm : mergeLast bs (nodes calls) = nodes calls := by
    rcases List.eq_nil_or_concat' calls with rfl | ⟨calls, c, rfl⟩
    case inl => rfl
    rcases List.eq_nil_or_concat' calls with rfl | ⟨calls, d, rfl⟩
    case inl => rfl
    rw [List.append_assoc, List.singleton_append, nodes_append_pair] at h ⊢
    rw [mergeLast_append_pair, if_neg (apart_append_pair.mp h).right]
  rw [appendedLast, hm]
  rfl

-- The node of a chunk that was merged into the one before is still cached.
theorem appendedLast_stale (h : ¬Apart bs (nodes calls)) (h' : Apart bs (nodes calls.dropLast)) :
    ¬(appendedLast bs calls).CacheLinked ∧ ∃ bb l, (appendedLast bs calls).dataBlocks = bb :: l ∧
      ∃ c ∈ calls, bb.block = c.block := by
  rcases List.eq_nil_or_concat' calls with rfl | ⟨calls, c, rfl⟩
  case inl => exact absurd List.IsChain.nil h
  rcases List.eq_nil_or_concat' calls with rfl | ⟨calls, d, rfl⟩
  case inl => exact absurd (List.IsChain.singleton _) h
  rw [List.dropLast_concat, nodes_append_singleton] at h'
  rw [List.append_assoc, List.singleton_append] at h ⊢
  rw [nodes_append_pair, apart_append_pair, not_and, not_not] at h
  have hd : (appendedLast bs (calls ++ [d, c])).dataBlocks = nodes calls ++
      [(d.node calls.length).absorb (c.node (calls.length + 1))] := by
    rw [appendedLast, nodes_append_pair, mergeLast_append_pair, if_pos (h h')]
  constructor
  case left =>
    intro hc
    obtain ⟨b, hb, ha⟩ := hc (calls.length + 1) (by simp [appendedLast, appended])
    rw [hd, List.mem_append, List.mem_singleton] at hb
    rcases hb with hb | rfl
    case inl => have := mem_nodes_addr_lt hb; omega
    case inr => simp [absorb, Call.node] at ha
  case right =>
    rw [hd]
    cases calls
    case nil => exact ⟨_, _, rfl, d, by simp, rfl⟩
    case cons e calls => exact ⟨e.node 0, _, by rw [nodes, List.mapIdx_cons]; rfl, e, by simp, rfl⟩

include hb hbs

theorem apply_appended (h : Ascending (calls ++ [c])) :
    c.apply (appended bs calls) = .ok (appendedLast bs (calls ++ [c])) := by
  rw [Call.apply_eq]
  rcases List.eq_nil_or_concat' calls with rfl | ⟨calls, d, rfl⟩
  case inl => rfl
  have hl : (appended bs (calls ++ [d])).dataBlocks =
      nodes calls ++ d.node calls.length :: [] := nodes_append_singleton
  have hs : (appended bs (calls ++ [d])).Sorted :=
    Ascending.nodes (List.pairwise_append.mp h).left
  have hd : d.block < c.block := (List.pairwise_append.mp h).right.right d (by simp) c (by simp)
  have hn : (c.node (appended bs (calls ++ [d])).fresh) = c.node (calls.length + 1) := by
    simp [appended]
  have hu := u32_of_lt hbs
  have hc : (appended bs (calls ++ [d])).CacheLinked := appended_cacheLinked
  refine .trans (queueBb_behind (by exact hs) (by exact hc) ?_ hl (by exact hd) (by simp)) ?_
  · rw [appended_blockSize hbs]; exact hb.ne'
  · rw [linked_nil, hn]
    simp only [appendedLast, appended, hu, List.append_assoc, List.singleton_append,
      nodes_append_pair, mergeLast_append_pair]
    simp [Call.node]

theorem run_appended (h : Ascending calls) (hm : Apart bs (nodes calls)) :
    (new bs).run calls = .ok (appended bs calls) := by
  induction calls using List.reverseRecOn
  case nil => rfl
  case append_singleton calls c hi =>
    have hm' : Apart bs (nodes calls) := by
      rw [nodes_append_singleton] at hm
      exact hm.left_of_append
    rw [run_append (hi (List.pairwise_append.mp h).left hm')]
    simp only [BackedBlockList.run, apply_appended hb hbs h, appendedLast_of_apart hm]

theorem run_appendedLast (h : Ascending calls) (hm : Apart bs (nodes calls.dropLast)) :
    (new bs).run calls = .ok (appendedLast bs calls) := by
  rcases List.eq_nil_or_concat' calls with rfl | ⟨calls, c, rfl⟩
  case inl => rfl
  rw [List.dropLast_concat] at hm
  rw [run_append (run_appended hb hbs (List.pairwise_append.mp h).left hm)]
  simp only [BackedBlockList.run, apply_appended hb hbs h]

theorem run_eq_error (h : Ascending calls) (hm : ¬Apart bs (nodes calls.dropLast)) :
    (new bs).run calls = .error .useAfterFree := by
  induction calls using List.reverseRecOn
  case nil => simp [Apart, nodes] at hm
  case append_singleton calls c hi =>
    rw [List.dropLast_concat] at hm
    have h' : Ascending calls := (List.pairwise_append.mp h).left
    by_cases hm' : Apart bs (nodes calls.dropLast)
    case neg => exact run_append_error (hi h' hm')
    obtain ⟨hs, bb, l, hl, hlt⟩ := appendedLast_stale hm hm'
    rw [run_append (run_appendedLast hb hbs h' hm')]
    have hc : (c.apply (appendedLast bs calls)) = .error .useAfterFree := by
      rw [Call.apply_eq]
      obtain ⟨d, hd, hle⟩ := hlt
      have hd := (List.pairwise_append.mp h).right.right d hd c (by simp)
      exact queueBb_of_not_cacheLinked hs hl (hle ▸ hd.le)
    simp only [BackedBlockList.run, hc]

end Ascending

end Sparse
