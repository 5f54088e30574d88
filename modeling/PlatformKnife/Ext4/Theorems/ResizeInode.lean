import PlatformKnife.Ext4.Theorems.Resize
import PlatformKnife.Lib.Writes

namespace Ext4

open CInt List Nat RegionList

section Spec

-- The groups with a superblock, in their order.
def superGroups (info : FsInfo) (groups : Nat) : List Nat :=
  (List.range groups).filter fun i => ext4BgHasSuperBlock info (i32 i)

def reservedRegion (info : FsInfo) (aux : FsAuxInfo) (i : Nat) : Region where
  block := u32 (groupStartBlock info aux i + 1 + aux.bgDescBlocks)
  len   := info.bgDescReserveBlocks
  bg    := i

def reservedBlock (info : FsInfo) (aux : FsAuxInfo) (i r : Nat) : Nat :=
  u32 ((reservedRegion info aux i).block + r)

-- The double indirect block has the reserved blocks of the first group, the indirect block of each those
-- of the other groups.
structure ListsReserved (info : FsInfo) (aux : FsAuxInfo) (dind ind : List Nat) : Prop where
  perm : (dind.take info.bgDescReserveBlocks).Perm
               ((List.range info.bgDescReserveBlocks).map (reservedBlock info aux 0))
  entry : ∀ i < info.bgDescReserveBlocks, dind[i]? = some (reservedBlock info aux 0
               (((i : Int) - aux.bgDescBlocks) % info.bgDescReserveBlocks).toNat)
  indirect : ∀ r < info.bgDescReserveBlocks, ∀ j i, (superGroups info aux.groups)[j + 1]? = some i →
               j < aux.blocksPerInd ∧
               ind[r * aux.blocksPerInd + j]? = some (reservedBlock info aux i r)

-- The call on the reserved blocks returns when its allocation does, with such blocks.
def AttachesReserved (info : FsInfo) (aux : FsAuxInfo) : Prop :=
  ∀ force bgs bgs' alloc alloc' ok,
    (List.range aux.groups).foldlM (appendReserved info aux) createAllocation = .ok alloc →
    appendOobAllocation force bgs alloc 1 = .ok (bgs', alloc', ok) →
    ∃ q q' dind ind inode,
      inodeAttachResize force info aux bgs alloc = .ok (bgs', [q, q'], inode) ∧
      q.data = .dindBlock dind ∧ q'.data = .indBlock ind ∧ ListsReserved info aux dind ind

end Spec

section Reserved

variable {info : FsInfo} {aux : FsAuxInfo}

-- The allocation of the regions, as a chain of appended regions.
def listOf (regs : List Region) : RegionList where
  regions := regs
  last    := if regs = [] then none else some (regs.length - 1)
  iter    := if regs = [] then none else some 0

theorem listOf_append (regs : List Region) (reg : Region) :
    (listOf regs).append reg = .ok (listOf (regs ++ [reg])) := by
  cases regs
  case nil => rfl
  case cons r rs => simp [append, listOf]

theorem superGroups_succ (info : FsInfo) (n : Nat) : superGroups info (n + 1)
    = superGroups info n ++ if ext4BgHasSuperBlock info (i32 n) then [n] else [] := by
  rw [superGroups, range_succ, filter_append, filter_singleton, superGroups, Bool.cond_eq_ite]

theorem appendReserved_range (info : FsInfo) (aux : FsAuxInfo) (n : Nat) :
    (range n).foldlM (appendReserved info aux) createAllocation
      = .ok { list := listOf ((superGroups info n).map (reservedRegion info aux)) } := by
  induction n
  case zero => rfl
  case succ n hi =>
    rw [range_succ, foldlM_append, hi, superGroups_succ]
    by_cases hs : ext4BgHasSuperBlock info (i32 n)
    case neg => simp [appendReserved, hs]
    have ha := listOf_append ((superGroups info n).map (reservedRegion info aux))
      (reservedRegion info aux n)
    rw [reservedRegion] at ha
    simp only [Except.ok_bind, foldlM_cons, foldlM_nil, appendReserved, hs, if_true, appendRegion, ha,
      Except.pure_eq_ok]
    simp [reservedRegion]

theorem superGroups_zero (h : 0 < groups) : (superGroups info groups)[0]? = some 0 := by
  obtain ⟨n, rfl⟩ : ∃ n, groups = n + 1 := ⟨groups - 1, by omega⟩
  rw [superGroups, range_succ_eq_map, filter_cons, if_pos ext4BgHasSuperBlock_zero]
  rfl

theorem blockAt_eq (h : ∀ reg ∈ regs, reg.len = n) (hk : regs[k]? = some reg) (hr : r < n) :
    blockAt regs (k * n + r) = u32 (reg.block + r) := by
  induction regs generalizing k
  case nil => cases hk
  case cons reg' regs hi =>
    have hl := h reg' (by simp)
    rw [blockAt, hl]
    obtain _ | k := k
    · rw [getElem?_cons_zero, Option.some.injEq] at hk
      simp [hr, hk]
    rw [getElem?_cons_succ] at hk
    have hs : (k + 1) * n + r = k * n + r + n := by ring
    rw [hs, if_neg (by omega), Nat.add_sub_cancel]
    exact hi (fun x hx => h x (by simp [hx])) hk

theorem getBlock_listOf (aux : FsAuxInfo) (hk : (superGroups info groups)[k]? = some i)
    (hr : r < info.bgDescReserveBlocks) (hlt : k * info.bgDescReserveBlocks + r < 2 ^ 32) :
    (listOf ((superGroups info groups).map (reservedRegion info aux))).getBlock
      (k * info.bgDescReserveBlocks + r) = reservedBlock info aux i r := by
  have hne : (superGroups info groups).map (reservedRegion info aux) ≠ [] := by
    intro hnil
    rw [map_eq_nil_iff.mp hnil] at hk
    cases hk
  rw [getBlock, rest]
  simp only [listOf, if_neg hne, drop_zero, add_zero, u32_of_lt hlt]
  rw [blockAt_eq (by simp [reservedRegion])
    (show _ = some (reservedRegion info aux i) by rw [getElem?_map, hk]; rfl) hr]
  rfl

theorem reservedBlock_inj (hR : info.bgDescReserveBlocks ≤ 2 ^ 32) (hr : r < info.bgDescReserveBlocks)
    (hr' : r' < info.bgDescReserveBlocks)
    (h : reservedBlock info aux i r = reservedBlock info aux i r') : r = r' := by
  simp only [reservedBlock, u32] at h
  omega

theorem appendOobAllocation_list (h : appendOobAllocation force bgs alloc len = .ok (bgs', alloc', ok)) :
    alloc'.list = alloc.list := by
  obtain ⟨⟨bgs₁, regs⟩, _, h⟩ := Except.bind_eq_ok_iff.mp h
  obtain _ | ⟨reg, regs⟩ := regs
  · obtain ⟨_, _, h⟩ := Except.bind_eq_ok_iff.mp h
    cases h
    rfl
  obtain ⟨_, _, h⟩ := Except.bind_eq_ok_iff.mp h
  cases h
  rfl

end Reserved

section Index

variable {info : FsInfo} {aux : FsAuxInfo}

section

variable (hR : 0 < info.bgDescReserveBlocks) (hR' : info.bgDescReserveBlocks ≤ 2 ^ 31)

include hR hR'

-- The index is never negative, so it is not corrected for that.
theorem resizeIndex_eq
    (i : Nat) : resizeIndex info aux i = subU32 i aux.bgDescBlocks % info.bgDescReserveBlocks := by
  have hlt := mod_lt (subU32 i aux.bgDescBlocks) hR
  have hi : i32 (subU32 i aux.bgDescBlocks % info.bgDescReserveBlocks : Nat)
      = (subU32 i aux.bgDescBlocks % info.bgDescReserveBlocks : Nat) := i32_of_lt (by omega)
  simp only [resizeIndex]
  rw [show ((subU32 i aux.bgDescBlocks : Int) % info.bgDescReserveBlocks)
    = ((subU32 i aux.bgDescBlocks % info.bgDescReserveBlocks : Nat) : Int) by simp, hi,
    if_neg (by omega)]
  simp only [toU32]
  omega

theorem resizeIndex_lt (i : Nat) : resizeIndex info aux i < info.bgDescReserveBlocks := by
  rw [resizeIndex_eq hR hR']
  exact mod_lt _ hR

theorem resizeIndex_eq_iff (hB : aux.bgDescBlocks < 2 ^ 32) (hi : i < 2 ^ 32) :
    resizeIndex info aux i = (((i : Int) - aux.bgDescBlocks) % info.bgDescReserveBlocks).toNat ↔
      aux.bgDescBlocks ≤ i ∨ info.bgDescReserveBlocks ∣ 2 ^ 32 := by
  rw [resizeIndex_eq hR hR']
  have hnn := Int.emod_nonneg ((i : Int) - aux.bgDescBlocks)
    (show (info.bgDescReserveBlocks : Int) ≠ 0 by omega)
  by_cases hle : aux.bgDescBlocks ≤ i
  case pos =>
    have hs : ((i : Int) - aux.bgDescBlocks) = ((i - aux.bgDescBlocks : Nat) : Int) := by omega
    rw [subU32_of_le hle hi, hs, ← Int.natCast_emod, Int.toNat_natCast]
    simp [hle]
  have hs : (subU32 i aux.bgDescBlocks : Int) = (i : Int) - aux.bgDescBlocks + 2 ^ 32 := by
    simp only [subU32, u32]
    omega
  have hd : (info.bgDescReserveBlocks : Int) ∣ 2 ^ 32 ↔ info.bgDescReserveBlocks ∣ 2 ^ 32 := by
    exact_mod_cast Int.natCast_dvd_natCast
  rw [← Int.natCast_inj, Int.natCast_emod, Int.toNat_of_nonneg hnn, hs,
    Int.emod_eq_emod_iff_emod_sub_eq_zero, add_sub_cancel_left, ← Int.dvd_iff_emod_eq_zero, hd,
    or_iff_right hle]

end

theorem rotation_perm (hR : 0 < n) (k : Int) :
    ((range n).map fun i : Nat => (((i : Int) - k) % n).toNat).Perm (range n) := by
  have hnn (i : Nat) := Int.emod_nonneg ((i : Int) - k) (show (n : Int) ≠ 0 by omega)
  have hlt (i : Nat) := Int.emod_lt_of_pos ((i : Int) - k) (show 0 < (n : Int) by omega)
  have hnd : ((range n).map fun i : Nat => (((i : Int) - k) % n).toNat).Nodup := by
    refine List.Nodup.map_on ?_ nodup_range
    intro i hi j hj hij
    rw [mem_range] at hi hj
    have he : ((i : Int) - k) % n = ((j : Int) - k) % n := by
      have := hnn i
      have := hnn j
      omega
    rw [Int.emod_eq_emod_iff_emod_sub_eq_zero, sub_sub_sub_cancel_right] at he
    have hz := Int.eq_zero_of_abs_lt_dvd (Int.dvd_of_emod_eq_zero he) (by rw [abs_lt]; omega)
    omega
  refine (subperm_of_subset hnd ?_).perm_of_length_le (by simp)
  intro x hx
  obtain ⟨i, _, rfl⟩ := mem_map.mp hx
  have := hnn i
  have := hlt i
  rw [mem_range]
  omega

end Index

section Loops

variable {info : FsInfo} {aux : FsAuxInfo} {list : RegionList}

theorem storeU32_writes (v : Nat → Nat) (h : i < xs.length) (hn : n = v i) :
    ∃ ys, storeU32 xs i n = .ok ys ∧ Writes v {i} xs ys := by
  subst hn
  exact ⟨_, if_pos h, Writes.set v i xs⟩

-- What the loops store at a place of the double indirect and of the indirect blocks.

def dindValue (info : FsInfo) (aux : FsAuxInfo) (list : RegionList) (i : Nat) : Nat :=
  list.getBlock (resizeIndex info aux i)

def indValue (info : FsInfo) (aux : FsAuxInfo) (list : RegionList) (q : Nat) : Nat :=
  list.getBlock (u32 ((q % aux.blocksPerInd + 1) * info.bgDescReserveBlocks + q / aux.blocksPerInd))

theorem attachIndirect_writes (hr : r < info.bgDescReserveBlocks)
    (hlen : info.bgDescReserveBlocks * aux.blocksPerInd ≤ xs.length) (hx : xs.length < 2 ^ 32)
    (hs : superblocks ≤ aux.blocksPerInd + 1) :
    ∃ ys, (range' 1 (superblocks - 1)).foldlM (attachIndirect info aux list r) xs = .ok ys ∧
      Writes (indValue info aux list)
        {q | ∃ j, j + 1 < superblocks ∧ q = r * aux.blocksPerInd + j} xs ys := by
  have hrow : r * aux.blocksPerInd + aux.blocksPerInd ≤ xs.length := by
    rw [← succ_mul]
    exact le_trans (Nat.mul_le_mul_right _ hr) hlen
  have hstep : ∀ j ∈ range' 1 (superblocks - 1), ∀ ys : List Nat, ys.length = xs.length →
      ∃ zs, attachIndirect info aux list r ys j = .ok zs ∧
        Writes (indValue info aux list) {r * aux.blocksPerInd + (j - 1)} ys zs := by
    intro j hj ys hl
    rw [mem_range'_1] at hj
    have hi : subU32 (u32 (r * aux.blocksPerInd + j)) 1 = r * aux.blocksPerInd + (j - 1) := by
      rw [u32_of_lt (by omega), subU32_of_le (by omega) (by omega)]
      omega
    have hm : (r * aux.blocksPerInd + (j - 1)) % aux.blocksPerInd = j - 1 := by
      rw [mul_add_mod_of_lt (by omega)]
    have hd : (r * aux.blocksPerInd + (j - 1)) / aux.blocksPerInd = r := by
      rw [add_comm, add_mul_div_right _ _ (by omega), div_eq_of_lt (by omega), zero_add]
    rw [attachIndirect, hi]
    refine storeU32_writes _ (by omega) ?_
    rw [indValue, hm, hd, Nat.sub_add_cancel hj.1]
  obtain ⟨ys, hys, hw⟩ := Writes.foldlM hstep
  refine ⟨ys, hys, hw.congr ?_⟩
  ext q
  simp only [Set.mem_ofPred_eq, mem_range'_1, Set.mem_singleton_iff]
  constructor
  · rintro ⟨j, hj, rfl⟩
    exact ⟨j - 1, by omega, rfl⟩
  · rintro ⟨j, hj, rfl⟩
    exact ⟨j + 1, by omega, by simp⟩

theorem attachReserved_writes (list : RegionList) (dind ind : List Nat)
    (hR : 0 < info.bgDescReserveBlocks) (hR' : info.bgDescReserveBlocks ≤ 2 ^ 31)
    (hd : info.bgDescReserveBlocks ≤ dind.length)
    (hlen : info.bgDescReserveBlocks * aux.blocksPerInd ≤ ind.length) (hi : ind.length < 2 ^ 32)
    (hs : superblocks ≤ aux.blocksPerInd + 1) :
    ∃ dind' ind', (range info.bgDescReserveBlocks).foldlM
        (attachReserved info aux list superblocks) (dind, ind) = .ok (dind', ind') ∧
      Writes (dindValue info aux list) {i | i < info.bgDescReserveBlocks} dind dind' ∧
      Writes (indValue info aux list) {q | ∃ i < info.bgDescReserveBlocks, ∃ j, j + 1 < superblocks ∧
        q = resizeIndex info aux i * aux.blocksPerInd + j} ind ind' := by
  have hstep₁ : ∀ i ∈ range info.bgDescReserveBlocks, ∀ ys : List Nat, ys.length = dind.length →
      ∃ zs, storeU32 ys i (list.getBlock (resizeIndex info aux i)) = .ok zs ∧
        Writes (dindValue info aux list) {i} ys zs := by
    intro i hi ys hl
    rw [mem_range] at hi
    exact storeU32_writes _ (by omega) rfl
  have hstep₂ : ∀ i ∈ range info.bgDescReserveBlocks, ∀ ys : List Nat, ys.length = ind.length →
      ∃ zs, (range' 1 (superblocks - 1)).foldlM
          (attachIndirect info aux list (resizeIndex info aux i)) ys = .ok zs ∧
        Writes (indValue info aux list) {q | ∃ j, j + 1 < superblocks ∧
          q = resizeIndex info aux i * aux.blocksPerInd + j} ys zs := by
    intro i _ ys hl
    exact attachIndirect_writes (resizeIndex_lt hR hR' i) (hl ▸ hlen) (hl ▸ hi) hs
  obtain ⟨dind', h₁, hw₁⟩ := Writes.foldlM hstep₁
  obtain ⟨ind', h₂, hw₂⟩ := Writes.foldlM hstep₂
  refine ⟨dind', ind', Writes.foldlM_pair h₁ h₂, hw₁.congr ?_, hw₂.congr ?_⟩
  · ext i
    simp
  · ext q
    simp

theorem storeU32_length (h : storeU32 xs i n = .ok ys) : ys.length = xs.length := by
  rw [storeU32] at h
  split at h
  case isTrue  => cases h; exact length_set
  case isFalse => cases h

theorem attachReserved_length
    (h : (range n).foldlM (attachReserved info aux list superblocks) data = .ok data') :
    data'.fst.length = data.fst.length := by
  refine foldlM_inv (P := fun d : List Nat × List Nat => d.fst.length = data.fst.length) ?_ rfl h
  intro d i d' hd hs
  obtain ⟨dind, hst, hs⟩ := Except.bind_eq_ok_iff.mp hs
  obtain ⟨ind, _, hs⟩ := Except.bind_eq_ok_iff.mp hs
  cases hs
  exact (storeU32_length hst).trans hd

end Loops

section Attach

variable {info : FsInfo} {aux : FsAuxInfo} {force : Bool} {alloc : BlockAllocation}

theorem blockAllocationLen_listOf (info : FsInfo) (aux : FsAuxInfo) (gs : List Nat) :
    blockAllocationLen { list := listOf (gs.map (reservedRegion info aux)) }
      = u32 (gs.length * info.bgDescReserveBlocks) := by
  rw [blockAllocationLen, listOf, sum_eq_card_nsmul _ info.bgDescReserveBlocks (by
    simp [reservedRegion])]
  simp

-- The two loops, over blocks that are empty.
def attachAll (info : FsInfo) (aux : FsAuxInfo) (alloc : BlockAllocation) : Exec (List Nat × List Nat) :=
  (range info.bgDescReserveBlocks).foldlM
    (attachReserved info aux alloc.list (blockAllocationLen alloc / info.bgDescReserveBlocks))
    (replicate (info.blockSize / 4) 0, replicate (info.blockSize * info.bgDescReserveBlocks / 4) 0)

theorem inodeAttachResize_of_loops (hR : info.bgDescReserveBlocks ≠ 0)
    (hm : blockAllocationLen alloc % info.bgDescReserveBlocks = 0)
    (ho : appendOobAllocation force bgs alloc 1 = .ok (bgs', alloc', ok))
    (hl : attachAll info aux alloc = .ok (dind, ind)) :
    ∃ q q' inode, inodeAttachResize force info aux bgs alloc = .ok (bgs', [q, q'], inode) ∧
      q.data = .dindBlock dind ∧ q'.data = .indBlock ind := by
  rw [attachAll, ← appendOobAllocation_list ho] at hl
  simp only [inodeAttachResize, hR, if_false, hm, ne_eq, not_true_eq_false, ho, Except.ok_bind, hl]
  exact ⟨_, _, _, rfl, rfl, rfl⟩

theorem loops_of_inodeAttachResize
    (h : inodeAttachResize force info aux bgs alloc = .ok (bgs', [q, q'], inode))
    (hd : q.data = .dindBlock dind) (hi : q'.data = .indBlock ind) :
    attachAll info aux alloc = .ok (dind, ind) := by
  simp only [inodeAttachResize] at h
  split at h
  case isTrue  => cases h
  split at h
  case isTrue  => cases h
  obtain ⟨⟨bgs₁, alloc', ok⟩, ho, h⟩ := Except.bind_eq_ok_iff.mp h
  obtain ⟨⟨dind', ind'⟩, hl, h⟩ := Except.bind_eq_ok_iff.mp h
  cases h
  cases hd
  cases hi
  rw [attachAll, ← appendOobAllocation_list ho]
  exact hl

section

variable (hg : 0 < aux.groups) (h4 : 4 ∣ info.blockSize) (hmax : info.blockSize ≤ 65536)
variable (hP : aux.blocksPerInd = info.blockSize / 4) (hR : 0 < info.bgDescReserveBlocks)

include hg h4 hmax hP hR

theorem attach_writes (hRP : info.bgDescReserveBlocks ≤ aux.blocksPerInd)
    (hS : (superGroups info aux.groups).length ≤ aux.blocksPerInd + 1)
    (halloc : alloc = { list := listOf ((superGroups info aux.groups).map (reservedRegion info aux)) }) :
    blockAllocationLen alloc % info.bgDescReserveBlocks = 0 ∧
    ∃ dind ind, attachAll info aux alloc = .ok (dind, ind) ∧
      (∀ i < info.bgDescReserveBlocks,
        dind[i]? = some (reservedBlock info aux 0 (resizeIndex info aux i))) ∧
      ∀ i < info.bgDescReserveBlocks, ∀ j g, (superGroups info aux.groups)[j + 1]? = some g →
        ind[resizeIndex info aux i * aux.blocksPerInd + j]?
          = some (reservedBlock info aux g (resizeIndex info aux i)) := by
  have hR' : info.bgDescReserveBlocks ≤ 2 ^ 31 := by omega
  have hSR : (superGroups info aux.groups).length * info.bgDescReserveBlocks
      ≤ (2 ^ 14 + 1) * 2 ^ 14 := Nat.mul_le_mul (by omega) (by omega)
  have hRP' : info.bgDescReserveBlocks * aux.blocksPerInd ≤ 2 ^ 14 * 2 ^ 14 :=
    Nat.mul_le_mul (by omega) (by omega)
  have hbl : blockAllocationLen alloc
      = (superGroups info aux.groups).length * info.bgDescReserveBlocks := by
    rw [halloc, blockAllocationLen_listOf, u32_of_lt (by omega)]
  have hsb : blockAllocationLen alloc / info.bgDescReserveBlocks
      = (superGroups info aux.groups).length := by
    rw [hbl, Nat.mul_div_cancel _ hR]
  have hind : info.blockSize * info.bgDescReserveBlocks / 4
      = info.bgDescReserveBlocks * aux.blocksPerInd := by
    rw [hP, mul_comm, Nat.mul_div_assoc _ h4]
  obtain ⟨dind, ind, hl, hwd, hwi⟩ := attachReserved_writes alloc.list (replicate (info.blockSize / 4) 0)
    (replicate (info.blockSize * info.bgDescReserveBlocks / 4) 0) hR hR' (by simp; omega)
    (by simp; omega) (by simp; omega) hS
  refine ⟨by rw [hbl, mul_mod_left], dind, ind, by rw [attachAll, hsb]; exact hl, ?_, ?_⟩
  · intro i hi
    have hlt : resizeIndex info aux i < info.bgDescReserveBlocks := resizeIndex_lt hR hR' i
    have hb := getBlock_listOf aux (superGroups_zero hg) hlt (by omega)
    rw [zero_mul, zero_add] at hb
    rw [hwd.written i hi (by simp; omega), dindValue, halloc, hb]
  · intro i hi j g hj
    have hlt : resizeIndex info aux i < info.bgDescReserveBlocks := resizeIndex_lt hR hR' i
    obtain ⟨hjl, _⟩ := List.getElem?_eq_some_iff.mp hj
    have hrow : resizeIndex info aux i * aux.blocksPerInd + aux.blocksPerInd
        ≤ info.bgDescReserveBlocks * aux.blocksPerInd := by
      rw [← succ_mul]
      exact Nat.mul_le_mul_right _ hlt
    have hk : (j + 1) * info.bgDescReserveBlocks + info.bgDescReserveBlocks
        ≤ (superGroups info aux.groups).length * info.bgDescReserveBlocks := by
      rw [← succ_mul]
      exact Nat.mul_le_mul_right _ hjl
    have hm : (resizeIndex info aux i * aux.blocksPerInd + j) % aux.blocksPerInd = j :=
      mul_add_mod_of_lt (by omega)
    have hd : (resizeIndex info aux i * aux.blocksPerInd + j) / aux.blocksPerInd
        = resizeIndex info aux i := by
      rw [add_comm, add_mul_div_right _ _ (by omega), div_eq_of_lt (by omega), zero_add]
    rw [hwi.written _ ⟨i, hi, j, hjl, rfl⟩ (by simp; omega), indValue, hm, hd, halloc,
      u32_of_lt (by omega), getBlock_listOf aux hj hlt (by omega)]

-- A double indirect block or indirect blocks with too few entries, and an index that wraps with a
-- remainder lead to blocks that do not list the reserved ones.
theorem room_of_attachesReserved (hB : aux.bgDescBlocks < 2 ^ 32) (h : AttachesReserved info aux) :
    info.bgDescReserveBlocks ≤ aux.blocksPerInd ∧
    (superGroups info aux.groups).length ≤ aux.blocksPerInd + 1 ∧
    (aux.bgDescBlocks = 0 ∨ info.bgDescReserveBlocks ∣ 2 ^ 32) := by
  have hrange := appendReserved_range info aux aux.groups
  have hoob : appendOobAllocation true []
      { list := listOf ((superGroups info aux.groups).map (reservedRegion info aux)) } 1
      = .ok ([], _, false) := rfl
  obtain ⟨q, q', dind, ind, inode, hcall, hqd, hqi, hlist⟩ := h true [] [] _ _ _ hrange hoob
  have hloops := loops_of_inodeAttachResize hcall hqd hqi
  have hlen := attachReserved_length hloops
  have hRP : info.bgDescReserveBlocks ≤ aux.blocksPerInd := by
    obtain ⟨hlt, _⟩ := List.getElem?_eq_some_iff.mp (hlist.entry (info.bgDescReserveBlocks - 1) (by omega))
    simp at hlen
    omega
  have hS : (superGroups info aux.groups).length ≤ aux.blocksPerInd + 1 := by
    by_contra hc
    have hj : (superGroups info aux.groups).length - 2 + 1 < (superGroups info aux.groups).length := by
      omega
    have := (hlist.indirect 0 hR _ _ (getElem?_eq_getElem hj)).1
    omega
  obtain ⟨_, dind', ind', hl, hd, _⟩ := attach_writes hg h4 hmax hP hR hRP hS rfl
  rw [hloops, Except.ok.injEq, Prod.mk.injEq] at hl
  have he := hd 0 hR
  rw [← hl.1, hlist.entry 0 hR, Option.some.injEq] at he
  have hnn := Int.emod_nonneg (((0 : Nat) : Int) - aux.bgDescBlocks)
    (show (info.bgDescReserveBlocks : Int) ≠ 0 by omega)
  have hlt := Int.emod_lt_of_pos (((0 : Nat) : Int) - aux.bgDescBlocks)
    (show 0 < (info.bgDescReserveBlocks : Int) by omega)
  have hidx := reservedBlock_inj (by omega) (by omega) (resizeIndex_lt hR (by omega) 0) he
  have hrot := (resizeIndex_eq_iff hR (by omega) hB (by decide)).mp hidx.symm
  exact ⟨hRP, hS, hrot.imp_left le_zero.mp⟩

theorem attachesReserved_of_room (hB : aux.bgDescBlocks < 2 ^ 32)
    (hRP : info.bgDescReserveBlocks ≤ aux.blocksPerInd)
    (hS : (superGroups info aux.groups).length ≤ aux.blocksPerInd + 1)
    (hrot : aux.bgDescBlocks = 0 ∨ info.bgDescReserveBlocks ∣ 2 ^ 32) : AttachesReserved info aux := by
  have hrange := appendReserved_range info aux aux.groups
  intro force bgs bgs' alloc alloc' ok halloc hoob
  rw [hrange, Except.ok.injEq] at halloc
  obtain ⟨hm, dind, ind, hl, hd, hi⟩ := attach_writes hg h4 hmax hP hR hRP hS halloc.symm
  obtain ⟨q, q', inode, hcall, hqd, hqi⟩ := inodeAttachResize_of_loops (by omega) hm hoob hl
  have hidx : ∀ i < info.bgDescReserveBlocks, resizeIndex info aux i
      = (((i : Int) - aux.bgDescBlocks) % info.bgDescReserveBlocks).toNat := by
    intro i hi
    exact (resizeIndex_eq_iff hR (by omega) hB (by omega)).mpr (hrot.imp_left fun h0 => by omega)
  have hperm := rotation_perm hR aux.bgDescBlocks
  have hentry : ∀ i < info.bgDescReserveBlocks, dind[i]? = some (reservedBlock info aux 0
      (((i : Int) - aux.bgDescBlocks) % info.bgDescReserveBlocks).toNat) := by
    intro i hi
    rw [hd i hi, hidx i hi]
  refine ⟨q, q', dind, ind, inode, hcall, hqd, hqi, ?_, hentry, ?_⟩
  · have htake : dind.take info.bgDescReserveBlocks
        = ((range info.bgDescReserveBlocks).map fun i : Nat =>
          (((i : Int) - aux.bgDescBlocks) % info.bgDescReserveBlocks).toNat).map
            (reservedBlock info aux 0) := by
      apply ext_getElem?
      intro i
      rw [getElem?_take, getElem?_map, getElem?_map]
      split
      case isTrue hlt  => simp [hentry i hlt, hlt]
      case isFalse hge => simp [hge]
    rw [htake]
    exact hperm.map _
  · intro r hr j g hg
    have hmem := hperm.mem_iff.mpr (mem_range.mpr hr)
    obtain ⟨i, hir, rfl⟩ := mem_map.mp hmem
    rw [mem_range] at hir
    obtain ⟨hjl, _⟩ := List.getElem?_eq_some_iff.mp hg
    refine ⟨by omega, ?_⟩
    rw [← hidx i hir]
    exact hi i hir j g hg

end

-- The blocks list every reserved block once exactly if there is room, and the index of the rotation does
-- not wrap or wraps without a remainder.
theorem attachesReserved_iff (info : FsInfo) (aux : FsAuxInfo) (hg : 0 < aux.groups)
    (h4 : 4 ∣ info.blockSize) (hmax : info.blockSize ≤ 65536)
    (hP : aux.blocksPerInd = info.blockSize / 4) (hB : aux.bgDescBlocks < 2 ^ 32)
    (hR : 0 < info.bgDescReserveBlocks) :
    AttachesReserved info aux ↔
      info.bgDescReserveBlocks ≤ aux.blocksPerInd ∧
      (superGroups info aux.groups).length ≤ aux.blocksPerInd + 1 ∧
      (aux.bgDescBlocks = 0 ∨ info.bgDescReserveBlocks ∣ 2 ^ 32) where
  mp   := room_of_attachesReserved hg h4 hmax hP hR hB
  mpr  := fun ⟨hRP, hS, hrot⟩ => attachesReserved_of_room hg h4 hmax hP hR hB hRP hS hrot

def oneGroup (bgDescReserveBlocks : Nat) (h : bgDescReserveBlocks < 2 ^ 32) : FsInfo :=
  .ofNats (32768 * 4096) 4096 32768 8192 256 1 bgDescReserveBlocks
    (FsInfo.inRange_iff.mpr ⟨by decide, by decide, by decide, by decide, by decide, by decide, h⟩)

def oneGroupAux : FsAuxInfo where
  firstDataBlock := 0
  lenBlocks := 32768
  inodeTableBlocks := 512
  groups := 1
  bgDescBlocks := 1
  blocksPerInd := 1024

theorem attachesReserved_oneGroup : AttachesReserved (oneGroup 8 (by decide)) oneGroupAux :=
  (attachesReserved_iff (oneGroup 8 (by decide)) oneGroupAux (by decide) (by decide) (by decide) rfl
    (by decide) (by decide)).mpr (by decide)

-- Of 7 reserved blocks the last is not listed and the fourth is twice.
theorem not_attachesReserved_oneGroup :
    computeBgDescReserveBlocks (oneGroup 0 (by decide)) = .ok 7 ∧
    ext4CreateFsAuxInfo (oneGroup 7 (by decide)) = .ok oneGroupAux ∧
    ¬AttachesReserved (oneGroup 7 (by decide)) oneGroupAux := by
  refine ⟨by decide +kernel, by decide +kernel, fun h => ?_⟩
  obtain ⟨_, _, hrot⟩ := room_of_attachesReserved (by decide) (by decide) (by decide) rfl (by decide)
    (by decide) h
  exact absurd hrot (by decide)

end Attach

end Ext4
