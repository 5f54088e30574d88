import PlatformKnife.Sparse.Theorems.BackedBlock

namespace Sparse

open CInt BackedBlock

variable {a b c bb : BackedBlock} {l l₁ l₂ : List BackedBlock} {bs k : Nat} {v : Backing}

namespace BackedBlock

theorem blocks_le_iff (hb : 0 < bs) : bb.blocks bs ≤ n ↔ bb.len ≤ n * bs := by
  rw [blocks, Nat.div_le_iff_le_mul_add_pred hb, mul_comm]
  omega

theorem lt_blocks_iff (hb : 0 < bs) : i < bb.blocks bs ↔ i * bs < bb.len := by
  rw [← not_le, blocks_le_iff hb, not_le]

theorem blocks_eq_of_len_eq (hb : 0 < bs) (h : bb.len = n * bs) : bb.blocks bs = n := by
  apply Nat.le_antisymm
  case h₁ => rw [blocks_le_iff hb, h]
  case h₂ => rw [blocks, Nat.le_div_iff_mul_le hb]; omega

theorem le_endBlock : bb.block ≤ bb.endBlock bs :=
  Nat.le_add_right ..

theorem blocks_pos_iff (hb : 0 < bs) : 0 < bb.blocks bs ↔ 0 < bb.len := by
  rw [lt_blocks_iff hb, zero_mul]

theorem Disjoint.symm (h : Disjoint bs a b) : Disjoint bs b a :=
  fun k hk => h k hk.symm

theorem Disjoint.endBlock_le (h : Disjoint bs a b) (hb : 0 < bs) (hl : a.block < b.block)
    (hn : 0 < b.len) : a.endBlock bs ≤ b.block := by
  have hn := (blocks_pos_iff hb).mpr hn
  have h := h b.block
  simp only [endBlock] at *
  omega

theorem Disjoint.of_endBlock_le (h : a.endBlock bs ≤ b.block) : Disjoint bs a b := by
  intro k hk
  omega

theorem Backs.le_block (h : bb.Backs bs k v) : bb.block ≤ k := by
  obtain ⟨i, _, rfl, _⟩ := h
  omega

theorem Backs.lt_endBlock (h : bb.Backs bs k v) : k < bb.endBlock bs := by
  obtain ⟨i, _, rfl, _⟩ := h
  simp only [endBlock]
  omega

theorem exists_backs_iff : (∃ v, bb.Backs bs k v) ↔ bb.block ≤ k ∧ k < bb.endBlock bs := by
  constructor
  case mp =>
    rintro ⟨v, h⟩
    exact ⟨h.le_block, h.lt_endBlock⟩
  case mpr =>
    simp only [endBlock]
    rintro ⟨_, _⟩
    exact ⟨_, k - bb.block, by omega, by omega, rfl⟩

theorem Backs.unique (h₁ : bb.Backs bs k v₁) (h₂ : bb.Backs bs k v₂) : v₁ = v₂ := by
  obtain ⟨i, _, hi, rfl⟩ := h₁
  obtain ⟨j, _, hj, rfl⟩ := h₂
  rw [Nat.add_left_cancel (hi.symm.trans hj)]

end BackedBlock

section Merge

theorem Source.advance_zero (s : Source) : s.advance 0 = s := by
  cases s <;> rfl

theorem Source.advance_advance (s : Source) : (s.advance m).advance n = s.advance (m + n) := by
  cases s <;> simp [advance, add_assoc]

theorem compatible_advance (h : compatible a b) : a.source.advance (a.len + n) = b.source.advance n := by
  unfold compatible at h
  split at h <;> simp_all [Source.advance]
  all_goals omega

variable (hb : 0 < bs) (hm : Merges bs a b) (hl : a.block < b.block) (hd : Disjoint bs a b)

include hb hm hl hd

theorem Merges.aligned (hn : 0 < b.len) : a.len = a.blocks bs * bs ∧ a.endBlock bs = b.block := by
  have h := hm.left
  have he := hd.endBlock_le hb hl hn
  have hn : a.len / bs < 2 ^ 32 := (Nat.div_le_self ..).trans_lt a.len_lt
  have ha := a.block_lt
  have h₂ := Nat.div_mul_le_self a.len bs
  generalize a.len / bs = q at h hn h₂
  have hu : a.block + q = b.block := by
    simp only [u32] at h
    omega
  have hq : a.blocks bs ≤ q := by
    simp only [endBlock] at he
    omega
  have h₁ := (blocks_le_iff hb).mp hq
  have h₃ : a.blocks bs = q := blocks_eq_of_len_eq hb (by omega)
  rw [h₃, endBlock, h₃]
  omega

variable (hw : a.len + b.len < 2 ^ 32)

include hw

theorem absorb_backs_iff : (a.absorb b).Backs bs k v ↔ a.Backs bs k v ∨ b.Backs bs k v := by
  have hl' : (a.absorb b).len = a.len + b.len := u32_of_lt hw
  by_cases hz : b.len = 0
  case pos =>
    have h : ¬b.Backs bs k v := by
      rintro ⟨i, hi, _⟩
      simp [lt_blocks_iff hb, hz] at hi
    have : a.absorb b = a := by ext1 <;> first | rfl | simp [hl', hz]
    simp [this, h]
  obtain ⟨h₁, h₂⟩ := hm.aligned hb hl hd (pos_of_ne_zero hz)
  have whole {i} (hi : i < a.blocks bs) : i * bs + bs ≤ a.len := by
    rw [h₁, ← Nat.succ_mul]
    exact Nat.mul_le_mul_right _ hi
  constructor
  case mp =>
    rintro ⟨i, hi, rfl, rfl⟩
    rw [lt_blocks_iff hb, hl'] at hi
    by_cases hn : i < a.blocks bs
    case pos =>
      have := whole hn
      refine .inl ⟨i, hn, rfl, ?_⟩
      simp only [backing, hl', Backing.mk.injEq]
      exact ⟨rfl, by omega⟩
    obtain ⟨j, rfl⟩ := Nat.exists_eq_add_of_le (not_lt.mp hn)
    rw [add_mul] at hi
    refine .inr ⟨j, ?_, ?_, ?_⟩
    · rw [lt_blocks_iff hb]; omega
    · simp only [← h₂, endBlock, absorb]; omega
    · simp only [backing, hl', add_mul, ← h₁, Backing.mk.injEq]
      exact ⟨compatible_advance hm.right, by omega⟩
  case mpr =>
    rintro (⟨i, hi, rfl, rfl⟩ | ⟨j, hj, rfl, rfl⟩)
    case inl =>
      have := whole hi
      refine ⟨i, ?_, rfl, ?_⟩
      · rw [lt_blocks_iff hb, hl']; omega
      · simp only [backing, hl', Backing.mk.injEq]
        exact ⟨rfl, by omega⟩
    case inr =>
      rw [lt_blocks_iff hb] at hj
      refine ⟨a.blocks bs + j, ?_, ?_, ?_⟩
      · rw [lt_blocks_iff hb, hl', add_mul]; omega
      · simp only [← h₂, endBlock, absorb]; omega
      · simp only [backing, hl', add_mul, ← h₁, Backing.mk.injEq]
        exact ⟨(compatible_advance hm.right).symm, by omega⟩

theorem absorb_disjoint (ha : Disjoint bs a c) (hc : Disjoint bs b c) : Disjoint bs (a.absorb b) c := by
  intro k hk
  obtain ⟨v, hv⟩ := exists_backs_iff.mpr hk.left
  cases (absorb_backs_iff hb hm hl hd hw).mp hv
  case inl h => exact ha k ⟨⟨h.le_block, h.lt_endBlock⟩, hk.right⟩
  case inr h => exact hc k ⟨⟨h.le_block, h.lt_endBlock⟩, hk.right⟩

end Merge

section List

@[simp]
theorem backs_nil : ¬Backs bs [] k v := by
  simp [Backs]

@[simp]
theorem backs_cons : Backs bs (bb :: l) k v ↔ bb.Backs bs k v ∨ Backs bs l k v := by
  simp [Backs]

@[simp]
theorem backs_append : Backs bs (l₁ ++ l₂) k v ↔ Backs bs l₁ k v ∨ Backs bs l₂ k v := by
  simp [Backs, or_and_right, exists_or]

theorem Ordered.sorted (h : Ordered bs l) : l.Pairwise (·.block < ·.block) :=
  List.Pairwise.imp And.left h

theorem Ordered.absorb (h : Ordered bs (l₁ ++ a :: b :: l₂)) (hb : 0 < bs) (hm : Merges bs a b)
    (hw : a.len + b.len < 2 ^ 32) : Ordered bs (l₁ ++ a.absorb b :: l₂) := by
  simp only [Ordered, List.pairwise_append, List.pairwise_cons, List.forall_mem_cons] at *
  obtain ⟨h₁, ⟨⟨hab, ha⟩, hb₂, h₂⟩, h₃⟩ := h
  refine ⟨h₁, ⟨fun c hc => ⟨(ha c hc).left, ?_⟩, h₂⟩, fun c hc => ⟨⟨(h₃ c hc).left.left, ?_⟩, ?_⟩⟩
  · exact absorb_disjoint hb hm hab.left hab.right hw (ha c hc).right (hb₂ c hc).right
  · have hc := h₃ c hc
    exact (absorb_disjoint hb hm hab.left hab.right hw hc.left.right.symm hc.right.left.right.symm).symm
  · exact (h₃ c hc).right.right

theorem Ordered.backs_absorb (h : Ordered bs (l₁ ++ a :: b :: l₂)) (hb : 0 < bs)
    (hm : Merges bs a b) (hw : a.len + b.len < 2 ^ 32) :
    Backs bs (l₁ ++ a.absorb b :: l₂) k v ↔ Backs bs (l₁ ++ a :: b :: l₂) k v := by
  simp only [Ordered, List.pairwise_append, List.pairwise_cons, List.forall_mem_cons] at h
  have hab := h.right.left.left.left
  simp only [backs_append, backs_cons, absorb_backs_iff hb hm hab.left hab.right hw, or_assoc]

end List
end Sparse
