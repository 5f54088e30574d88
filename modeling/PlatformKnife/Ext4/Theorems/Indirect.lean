import Mathlib.Algebra.Order.Floor.Div
import PlatformKnife.Ext4.Indirect
import PlatformKnife.Ext4.Theorems.Cursor

namespace Ext4

open CInt Nat Except Finset LinkedAllocation

variable {p len m n : Nat} {aux : FsAuxInfo} {info : FsInfo} {a : LinkedAllocation}

theorem divRoundUp_eq (hn : 0 < n) (hlt : m + n - 1 < 2 ^ 32) : divRoundUp m n = .ok (m ⌈/⌉ n) := by
  rw [divRoundUp, if_neg (by omega), u32_of_lt hlt, ceilDiv_eq_add_pred_div]

-- A block has as many entries that no product but the last one wraps.
structure Entries (aux : FsAuxInfo) (p : Nat) : Prop where
  ind : aux.blocksPerInd = p
  pos : 0 < p
  le  : p ≤ 2 ^ 10

theorem Entries.sq_le (h : Entries aux p) : p ^ 2 ≤ 2 ^ 20 := by
  have := Nat.pow_le_pow_left h.le 2
  omega

theorem Entries.dind (h : Entries aux p) : aux.blocksPerDind = p ^ 2 := by
  have := h.sq_le
  rw [FsAuxInfo.blocksPerDind, h.ind, ← Nat.pow_two, u32_of_lt (by omega)]

-- At least `n` blocks from the cursor on lie in its region.
def Room (a : LinkedAllocation) (n : Nat) : Prop :=
  0 < n → ∃ behind reg ks oob, Aligned a behind (reg :: ks) oob ∧
    a.list.partialIter + n ≤ (a.heap.node reg).len

theorem Proper.room (hp : Proper a main oob) (hi : a.list.iter = some reg)
    (h : a.list.partialIter + n ≤ (a.heap.node reg).len) : Room a n := by
  obtain ⟨behind, ks, _, hal, _⟩ := hp.aligned hi
  exact fun _ => ⟨behind, reg, ks, oob, hal, h⟩

end Ext4
