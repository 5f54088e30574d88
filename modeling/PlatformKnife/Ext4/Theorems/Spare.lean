import PlatformKnife.Ext4.Theorems.BestFit

namespace Ext4

open CInt List Except RegionList

variable {l : Layout} {bgs bgs' : List BlockGroupInfo} {bg bg' : BlockGroupInfo} {force : Bool}
variable {reg reg' : Region} {regs : List Region}

-- The allocation that `allocate_blocks` returns for some regions.
def allocationOf (regs : List Region) : BlockAllocation where
  list := { regions := regs, last := some 0, iter := some 0 }

-- The spare block is taken from the first region. If that was all, all are dropped.

def reducedList (reg : Region) (regs : List Region) : RegionList :=
  if 1 < reg.len then { regions := { reg with len := reg.len - 1 } :: regs, last := some 0, iter := some 0 }
  else {}

theorem modifyBg_eq (hi : bgs[i]? = some bg) (hf : f bg = .ok bg') :
    modifyBg bgs i f = .ok (bgs.set i bg') := by
  simp [modifyBg, getBg, hi, hf]

theorem reduceAllocation_one (hi : bgs[reg.bg]? = some bg) (hf : freeBlocks bg 1 = .ok bg.released)
    (hpos : 0 < reg.len) :
    reduceAllocation 1 bgs (allocationOf (reg :: regs)).list 1
      = .ok (bgs.set reg.bg bg.released, reducedList reg regs) := by
  have hm : modifyBg bgs reg.bg (freeBlocks · 1) = .ok (bgs.set reg.bg bg.released) :=
    modifyBg_eq hi hf
  rw [reduceAllocation, if_neg Nat.one_ne_zero]
  simp only [allocationOf, getElem?_cons_zero]
  by_cases hlen : 1 < reg.len
  case pos =>
    rw [if_pos hlen, hm]
    simp [reducedList, hlen]
  rw [if_neg hlen, show reg.len = 1 by omega, hm]
  simp [reduceAllocation, reducedList, hlen]

-- The first block of the first region becomes the extent block. If that was all of it, the others are
-- moved.

def oobOf (regs : List Region) : RegionList :=
  if regs = [] then {} else { regions := regs, last := some (regs.length - 1), iter := some 0 }

def sparedAllocation (reg : Region) (regs : List Region) : BlockAllocation :=
  if 1 < reg.len then
    { list    := { regions := { reg with block := reg.block + 1, len := reg.len - 1 } :: regs
                   iter    := some 0 }
      oobList := oobOf [{ reg with len := 1 }] }
  else
    { list    := { regions := [reg], last := some 0, iter := some 0 }
      oobList := oobOf regs }

@[simp]
theorem oobOf_regions : (oobOf regs).regions = regs := by
  by_cases h : regs = [] <;> simp [oobOf, h]

theorem oobOf_append : (oobOf regs).append reg = .ok (oobOf (regs ++ [reg])) := by
  by_cases h : regs = []
  case pos => simp [h, oobOf, append]
  have hpos : 0 < regs.length := length_pos_iff.mpr h
  have hlast : regs.length - 1 + 1 = regs.length := by omega
  simp [oobOf, append, h, hpos, hlast]

theorem moveOob_rest (hf : regs.length ≤ fuel) :
    moveOob fuel { regions := reg :: regs, last := some 0, iter := some 0 } (oobOf moved) 1
      = .ok ({ regions := [reg], last := some 0, iter := some 0 }, oobOf (moved ++ regs)) := by
  induction regs generalizing fuel moved
  case nil =>
    cases fuel <;> simp [moveOob]
  case cons r regs ih =>
    obtain _ | fuel := fuel
    · simp at hf
    have hrem : remove { regions := reg :: r :: regs, last := some 0, iter := some 0 } 1
        = { regions := reg :: regs, last := some 0, iter := some 0 } := by
      simp [remove, shiftDown]
    simp only [length_cons, Nat.add_le_add_iff_right] at hf
    have := @ih fuel (moved ++ [r]) hf
    simpa [RegionList.moveOob, oobOf_append, hrem] using this

theorem reserveOobBlocks_one (hlt : reg.block + 1 < 2 ^ 32) (hpos : 0 < reg.len) (hpos' : 0 < reg'.len) :
    reserveOobBlocks (allocationOf (reg :: reg' :: regs)) 1
      = .ok (sparedAllocation reg (reg' :: regs), true) := by
  have hsplit₀ : (RegionList.doSplitAllocation (allocationOf (reg :: reg' :: regs)).list 0).1
      = (allocationOf (reg :: reg' :: regs)).list := by
    simp [RegionList.doSplitAllocation, allocationOf, RegionList.skip, not_le.mpr hpos]
  simp only [reserveOobBlocks, RegionList.splitAllocation]
  rw [show (allocationOf (reg :: reg' :: regs)).list.partialIter = 0 from rfl, hsplit₀]
  by_cases hlen : 1 < reg.len
  case pos =>
    simp [RegionList.doSplitAllocation, allocationOf, RegionList.skip, not_le.mpr hlen,
      RegionList.moveOob, RegionList.shiftUp, RegionList.append, RegionList.remove,
      RegionList.shiftDown, sparedAllocation, hlen, oobOf, u32_of_lt hlt]
  have hsplit₁ : RegionList.doSplitAllocation (allocationOf (reg :: reg' :: regs)).list 1
      = ((allocationOf (reg :: reg' :: regs)).list, some 1) := by
    simp [RegionList.doSplitAllocation, allocationOf, RegionList.skip, show reg.len = 1 by omega,
      not_le.mpr hpos']
  have hmove := @moveOob_rest reg (reg' :: regs) (regs.length + 2) [] (by simp)
  have hempty : (allocationOf (reg :: reg' :: regs)).oobList = oobOf [] := by
    simp [allocationOf, oobOf]
  simp only [nil_append] at hmove
  simp only [hsplit₁, hempty]
  simp only [allocationOf, length_cons]
  rw [hmove]
  simp [sparedAllocation, hlen]

theorem blocks_reduced (hpos : 0 < reg.len) :
    (reducedList reg regs).blocks.Subperm
      ((reg :: regs).flatMap Region.blocks |>.erase (reg.block + reg.len - 1)) := by
  simp only [reducedList]
  split
  case isTrue hlen =>
    have hrange : range' reg.block reg.len
        = range' reg.block (reg.len - 1) ++ [reg.block + reg.len - 1] := by
      conv_lhs => rw [show reg.len = reg.len - 1 + 1 by omega, range'_1_concat]
      rw [Nat.add_sub_assoc hpos]
    have hnot : reg.block + reg.len - 1 ∉ range' reg.block (reg.len - 1) := by
      simp [mem_range'_1]
      omega
    simp only [blocks, Region.blocks, flatMap_cons, hrange, append_assoc]
    rw [erase_append_right _ hnot, singleton_append, erase_cons_head]
  case isFalse => simp [blocks]

theorem blocks_spared : (sparedAllocation reg regs).blocks.Perm ((reg :: regs).flatMap Region.blocks) := by
  simp only [sparedAllocation]
  split
  case isTrue hlen =>
    have hrange : range' reg.block reg.len = reg.block :: range' (reg.block + 1) (reg.len - 1) := by
      conv_lhs => rw [show reg.len = reg.len - 1 + 1 by omega, range'_succ]
    have := perm_append_singleton reg.block
      (range' (reg.block + 1) (reg.len - 1) ++ regs.flatMap Region.blocks)
    simpa [BlockAllocation.blocks, blocks, Region.blocks, hrange] using this
  case isFalse hlen => simp [BlockAllocation.blocks, blocks]

end Ext4
