import PlatformKnife.Ext4.Theorems.Spare

namespace Ext4

open CInt Bump List Except

variable {l : Layout} {bgs bgs' bgs₁ : List BlockGroupInfo} {bg : BlockGroupInfo} {force : Bool}
variable {reg : Region} {regs : List Region} {s : Allocated}

theorem allocateBlocks_bestFit (ha : l.Addressable) (h : BgsOk l bgs)
    (hr : allocateBlocks force bgs len = .ok (bgs', some alloc)) :
    ∃ reg regs, BestFit l bgs len (reg :: regs) bgs' ∧ alloc = allocationOf (reg :: regs) := by
  obtain ⟨⟨bgs₁, _ | ⟨reg, regs⟩⟩, hb, hr⟩ := bind_eq_ok_iff.mp hr
  · simp at hr
  simp only [isEmpty_cons, Bool.false_eq_true, if_false, pure_eq_ok, ok.injEq, Prod.mk.injEq,
    Option.some.injEq] at hr
  obtain ⟨hbgs, halloc⟩ := hr
  subst hbgs
  exact ⟨reg, regs, ext4AllocateBestFit_bestFit ha h hb (by simp), halloc.symm⟩

theorem blocks_allocationOf : (allocationOf regs).blocks = regs.flatMap Region.blocks := by
  simp [allocationOf, BlockAllocation.blocks, RegionList.blocks]

section

variable (ha : l.Addressable) (h : BgsOk l bgs)

include ha h

theorem BestFit.head_block
    (hb : BestFit l bgs len (reg :: regs) bgs') : 0 < reg.block ∧ reg.block + reg.len + 8 < 2 ^ 32 := by
  obtain ⟨bg, hi, hend, hgl, hc⟩ := hb.head_end h
  have hok := (hb.allocates ha h).ok
  have hs := Layout.first_succ_le ha (hok.lt hi)
  have hg := @Layout.groupLen_le l reg.bg
  obtain ⟨bg₀, hi₀⟩ := getElem?_of_lt (show reg.bg < bgs.length by have := hok.lt hi; have := h.length; omega)
  have hh := (h.group _ _ hi₀).header_le
  have hh₂ := @Layout.headerLen_ge l reg.bg
  rw [cursor_of_some hi₀] at hc
  omega

theorem takeSpare_reduced (hb : BestFit l bgs len (reg :: regs) bgs₁) (hk : regs.length + 1 ≤ 3) :
    ∃ bgs₂, takeSpare bgs₁ (allocationOf (reg :: regs)) (regs.length + 1)
        = .ok (bgs₂, { list := reducedList reg regs }, 0) ∧
      Allocates l bgs bgs₂ (reducedList reg regs).blocks := by
  have hal := hb.allocates ha h
  obtain ⟨bg, hi, hend, hgl, hc⟩ := hb.head_end h
  have hpos := hb.len_pos reg (by simp)
  have hcur := cursor_of_some hi
  have hlt := (List.getElem?_eq_some_iff.mp hi).fst
  have hg := hal.ok.group _ _ hi
  obtain ⟨bg₀, hi₀⟩ := getElem?_of_lt (show reg.bg < bgs.length by
    have := hal.ok.lt hi
    have := h.length
    omega)
  have hh := (h.group _ _ hi₀).header_le
  rw [← cursor_of_some hi₀] at hh
  obtain ⟨hfree, hrel⟩ := hg.release ha (hal.ok.lt hi) (by omega) hgl
  refine ⟨bgs₁.set reg.bg bg.released, ?_, hal.ok.set hrel, ?_,
    (map_set_eq hi (show bg.released.inodeTable = _ from rfl)).trans hal.tables⟩
  · simp [takeSpare, hk, reduceAllocation_one hi hfree hpos]
    rfl
  · have hback := @Grants.giveBack _ _ _ _ _ reg.bg _ hal.grants (by omega)
    rw [Layout.arenas_base, hcur, ← hend] at hback
    rw [cursor_set hlt]
    exact hback.subperm (blocks_reduced hpos)

theorem takeSpare_spared (hb : BestFit l bgs len (reg :: regs) bgs₁) (hk : ¬regs.length + 1 ≤ 3) :
    takeSpare bgs₁ (allocationOf (reg :: regs)) (regs.length + 1)
        = .ok (bgs₁, sparedAllocation reg regs, (sparedAllocation reg regs).oobList.getBlock 0) ∧
      Allocates l bgs bgs₁ (sparedAllocation reg regs).blocks := by
  refine ⟨?_, (hb.allocates ha h).subperm blocks_spared.subperm⟩
  obtain ⟨_, hblock⟩ := hb.head_block ha h
  have hpos := hb.len_pos reg (by simp)
  obtain _ | ⟨reg', regs⟩ := regs
  · simp at hk
  have hpos' := hb.len_pos reg' (by simp)
  rw [takeSpare, if_neg hk, reserveOobBlocks_one (by omega) hpos hpos']
  rfl

end

theorem doInodeAllocateExtents_inv
    (hr : doInodeAllocateExtents force info fs len = .ok (fs', some (inode, alloc))) :
    ∃ bgs₁ alloc₀ alloc₁ extentBlock,
      allocateBlocks force fs.bgs (u32 (blockLen info len + 1)) = .ok (bgs₁, some alloc₀) ∧
      takeSpare bgs₁ alloc₀ alloc₀.list.regions.length = .ok (fs'.bgs, alloc₁, extentBlock) ∧
      alloc = { alloc₁ with list := alloc₁.list.rewind } := by
  simp only [doInodeAllocateExtents, pure_eq_ok] at hr
  obtain ⟨⟨bgs₁, _ | alloc₀⟩, hb, hr⟩ := bind_eq_ok_iff.mp hr
  · cases force <;> simp [error] at hr
  obtain ⟨⟨bgs₂, alloc₁, extentBlock⟩, ht, hr⟩ := bind_eq_ok_iff.mp hr
  refine ⟨bgs₁, alloc₀, alloc₁, extentBlock, hb, ?_⟩
  dsimp only at hr
  split at hr
  case isTrue =>
    obtain ⟨_, _, hr⟩ := bind_eq_ok_iff.mp hr
    cases hr
    exact ⟨ht, rfl⟩
  split at hr
  case isTrue  => cases force <;> simp [error] at hr
  obtain ⟨_, _, hr⟩ := bind_eq_ok_iff.mp hr
  cases hr
  exact ⟨ht, rfl⟩

theorem doInodeAllocateExtents_allocates (ha : l.Addressable) (h : BgsOk l fs.bgs)
    (hr : doInodeAllocateExtents force l.info fs len = .ok (fs', some (inode, alloc))) :
    Allocates l fs.bgs fs'.bgs alloc.blocks := by
  obtain ⟨bgs₁, alloc₀, alloc₁, extentBlock, hal, ht, halloc⟩ := doInodeAllocateExtents_inv hr
  obtain ⟨reg, regs, hb, halloc₀⟩ := allocateBlocks_bestFit ha h hal
  have hlen : alloc₀.list.regions.length = regs.length + 1 := by simp [halloc₀, allocationOf]
  have hblocks : alloc.blocks = alloc₁.blocks := by rw [halloc]; rfl
  rw [hlen, halloc₀] at ht
  rw [hblocks]
  by_cases hk : regs.length + 1 ≤ 3
  case pos =>
    obtain ⟨bgs₂, ht', hres⟩ := takeSpare_reduced ha h hb hk
    rw [ht', ok.injEq, Prod.mk.injEq, Prod.mk.injEq] at ht
    obtain ⟨hbgs, halloc₁, _⟩ := ht
    rw [← hbgs, ← halloc₁]
    simpa [BlockAllocation.blocks, RegionList.blocks] using hres
  obtain ⟨ht', hres⟩ := takeSpare_spared ha h hb hk
  rw [ht', ok.injEq, Prod.mk.injEq, Prod.mk.injEq] at ht
  obtain ⟨hbgs, halloc₁, _⟩ := ht
  rw [← hbgs, ← halloc₁]
  exact hres

def Layout.start (l : Layout) (i : Nat) : Nat :=
  if i < l.aux.groups then l.headerLen i else 0

-- All blocks that are live were handed out since.
structure Accountable (l : Layout) (s : Allocated) : Prop where
  ok : BgsOk l s.fs.bgs
  grants : Grants l.arenas l.start (cursor s.fs.bgs) s.live.flatten

theorem Accountable.step (h : Accountable l s) (ha : Allocates l s.fs.bgs bgs' blocks) :
    Accountable l ⟨⟨bgs', queue⟩, blocks :: s.live⟩ :=
  ⟨ha.ok, h.grants.trans ha.grants⟩

theorem mapM_ok_iff {f : α → Exec β} {xs : List α} {ys : List β} :
    xs.mapM f = .ok ys ↔ List.Forall₂ (fun x y => f x = .ok y) xs ys := by
  induction xs generalizing ys
  case nil => simp [eq_comm]
  case cons x xs ih =>
    rw [mapM_cons, forall₂_cons_left_iff]
    cases hx : f x
    case error _ => simp
    case ok y =>
      cases hxs : xs.mapM f
      case error _ =>
        have hnot (zs) : ¬List.Forall₂ (fun x y => f x = .ok y) xs zs := by simp [← ih, hxs]
        simp [hnot]
      case ok zs =>
        have hiff (zs') : List.Forall₂ (fun x y => f x = .ok y) xs zs' ↔ zs = zs' := by
          simp [← ih, hxs]
        simp [hiff, eq_comm]

theorem blockAllocatorInit_ok (ha : l.Addressable)
    (h : blockAllocatorInit force l.info l.aux = .ok bgs) : BgsOk l bgs := by
  have hf := mapM_ok_iff.mp h
  have hlen : bgs.length = l.aux.groups := by simpa using hf.length_eq.symm
  refine ⟨hlen, ?_⟩
  intro i bg hi
  obtain ⟨hlt, hget⟩ := List.getElem?_eq_some_iff.mp hi
  obtain ⟨bg', hinit, hok⟩ := initBg_ok force ha (show i < l.aux.groups by omega)
  have := hf.get (i := i) (by simp; omega) hlt
  simp only [get_eq_getElem, getElem_range, hget] at this
  rw [hinit, ok.injEq] at this
  exact this ▸ hok

theorem Reachable.accountable (ha : l.Addressable) (h : Reachable force l s) : Accountable l s := by
  induction h
  case init bgs queue hinit =>
    have hok := blockAllocatorInit_ok ha hinit
    refine ⟨hok, ?_, nodup_nil, by simp⟩
    intro i
    simp only [Layout.start]
    split
    case isTrue hi =>
      obtain ⟨bg, hbg⟩ := getElem?_of_lt (hok.length ▸ hi)
      rw [cursor_of_some hbg]
      exact (hok.group i bg hbg).header_le
    case isFalse => exact Nat.zero_le _
  case allocateBlock hr hb ih =>
    have hal := allocateBlockFrom_cases ha ih.ok hr (by simp)
    rw [if_neg hb] at hal
    exact ih.step hal
  case allocateBlocks hr ih =>
    obtain ⟨reg, regs, hb, halloc⟩ := allocateBlocks_bestFit ha ih.ok hr
    apply ih.step
    rw [halloc, blocks_allocationOf]
    exact hb.allocates ha ih.ok
  case doInodeAllocateExtents hr ih =>
    exact ih.step (doInodeAllocateExtents_allocates ha ih.ok hr)

theorem Accountable.accounted (ha : l.Addressable) (h : Accountable l s) : Accounted l s where
  length := h.ok.length
  counted i bg := fun hi => (h.ok.group i bg hi).counted ha
  nodup := h.grants.nodup
  headers block := by
    rintro hmem i hi ⟨h₁, h₂⟩
    have hs : l.start i = l.headerLen i := by simp [Layout.start, hi]
    refine h.grants.not_mem ?_ h₁ ?_ hmem
    · rw [hs]; exact Layout.headerLen_le hi
    · rwa [hs]

-- The accounting of the allocator holds in every state that is reached.
theorem accounted_of_reachable (ha : l.Addressable) (h : Reachable force l s) : Accounted l s :=
  (h.accountable ha).accounted ha

-- Two groups of which the second one is cut off.
def twoGroups : Layout where
  info := .ofNats (180 * 16) 16 100 4 16 1 3 (Eq.refl true)
  aux := ⟨1, 180, 4, 2, 4, 4⟩
  created := rfl
  fits := by decide

theorem accounted_twoGroups : ∃ s, Reachable false twoGroups s ∧ s.live = [[115, 116, 117]] ∧
    Accounted twoGroups s := by
  have hinit : ∃ bgs bgs' alloc, blockAllocatorInit false twoGroups.info twoGroups.aux = .ok bgs ∧
      allocateBlocks false bgs 3 = .ok (bgs', some alloc) ∧ alloc.blocks = [115, 116, 117] :=
    ⟨_, _, _, rfl, rfl, rfl⟩
  obtain ⟨bgs, bgs', alloc, hinit, halloc, hblocks⟩ := hinit
  have hreach : Reachable false twoGroups ⟨⟨bgs', []⟩, [alloc.blocks]⟩ :=
    .allocateBlocks (.init hinit) halloc
  refine ⟨_, hreach, by simp [hblocks], accounted_of_reachable ⟨by decide, by decide⟩ hreach⟩

-- A group of more blocks than a block of bitmap has bits.
def longGroup : Layout where
  info := .ofNats (5000 * 1024) 1024 8200 1252 256 1 31 (Eq.refl true)
  aux := ⟨1, 5000, 313, 1, 1, 256⟩
  created := rfl
  fits := by decide

theorem Accounted.blocksPerGroup_le (h : Accounted l s) (hg : 0 < l.aux.groups) :
    l.info.blocksPerGroup ≤ 8 * l.info.blockSize := by
  obtain ⟨bg, hbg⟩ := getElem?_of_lt (h.length.symm ▸ hg)
  have hbits := congrArg List.length (h.counted 0 bg hbg).bits
  simp only [BlockGroupInfo.blockBits, List.length_take, List.length_map, List.length_range,
    length_append, length_replicate] at hbits
  omega

theorem blockAllocatorInit_longGroup :
    ∃ bgs, blockAllocatorInit false longGroup.info longGroup.aux = .ok bgs := by
  have hr : reserveHeader false (freshBg longGroup.info longGroup.aux 0) = .ok (_, true) :=
    (reserveHeader_iff (by decide)).mpr ⟨by decide, by decide, rfl⟩
  obtain ⟨bg, ho⟩ := (@reserveOverrun_iff longGroup.info longGroup.aux false 0 (by decide) (by decide)
    (by decide)).mpr (by decide)
  exact ⟨[bg], mapM_ok_iff.mpr (.cons (initBg_eq_ok hr ho) .nil)⟩

-- The blocks that the group lacks are marked past the end of the block bitmap.
theorem not_accounted_longGroup : ∃ s, Reachable false longGroup s ∧ ¬Accounted longGroup s := by
  obtain ⟨bgs, hbgs⟩ := blockAllocatorInit_longGroup
  refine ⟨⟨⟨bgs, []⟩, []⟩, .init hbgs, ?_⟩
  intro hacc
  exact absurd (hacc.blocksPerGroup_le (by decide)) (by decide)

end Ext4
