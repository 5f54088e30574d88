import PlatformKnife.Ext4.Theorems.Tracked

namespace Ext4

open CInt Bump List RegionList

variable {l : Layout} {bgs bgs' : List BlockGroupInfo} {bg : BlockGroupInfo} {force : Bool}
variable {s : Image} {slots : List Slot}
variable {alloc alloc' : BlockAllocation}

theorem foldlM_inv {f : α → β → Exec α} {xs : List β} {P : α → Prop}
    (hf : ∀ a b a', P a → f a b = .ok a' → P a') (h : P a)
    (hr : xs.foldlM f a = .ok a') : P a' := by
  induction xs generalizing a
  case nil =>
    simp only [foldlM_nil, Except.pure_eq_ok, Except.ok.injEq] at hr
    exact hr ▸ h
  case cons x xs ih =>
    rw [foldlM_cons] at hr
    obtain ⟨a₁, hx, hr⟩ := Except.bind_eq_ok_iff.mp hr
    exact ih (hf a x a₁ h hx) hr

structure StartsAt (reg : Region) (alloc : BlockAllocation) : Prop where
  head : alloc.list.regions.head? = some reg
  iter : alloc.list.iter = some 0
  partialIter : alloc.list.partialIter = 0
  oobList : alloc.oobList = {}

theorem appendReserved_startsAt (h : StartsAt reg alloc)
    (hr : appendReserved info aux alloc i = .ok alloc') : StartsAt reg alloc' := by
  simp only [appendReserved] at hr
  split at hr
  case isFalse => exact Except.ok.inj hr ▸ h
  obtain ⟨list, hlist, hr⟩ := Except.bind_eq_ok_iff.mp hr
  simp only [Except.pure_eq_ok, Except.ok.injEq] at hr
  subst hr
  have hhead := h.head
  rcases hregs : alloc.list.regions with _ | ⟨reg', regs⟩
  · simp [hregs] at hhead
  simp only [append, hregs, isEmpty_cons, Bool.false_eq_true, if_false] at hlist
  split at hlist
  · cases hlist
  · split at hlist
    case isFalse => cases hlist
    case isTrue =>
      rw [hregs] at hhead
      have hlist := Except.ok.inj hlist
      subst hlist
      exact ⟨by simpa using hhead, h.iter, h.partialIter, h.oobList⟩

theorem ext4BgHasSuperBlock_zero : ext4BgHasSuperBlock info (i32 (0 : Nat)) := by
  simp [ext4BgHasSuperBlock, i32]

theorem appendReserved_all (hg : 0 < aux.groups)
    (hr : (range aux.groups).foldlM (appendReserved info aux) createAllocation = .ok alloc) :
    StartsAt ⟨u32 (groupStartBlock info aux 0 + 1 + aux.bgDescBlocks), info.bgDescReserveBlocks, 0⟩
      alloc := by
  obtain ⟨n, hn⟩ : ∃ n, aux.groups = n + 1 := ⟨aux.groups - 1, by omega⟩
  rw [hn, range_succ_eq_map, foldlM_cons] at hr
  obtain ⟨alloc₁, h₁, hr⟩ := Except.bind_eq_ok_iff.mp hr
  refine foldlM_inv (fun _ _ _ => appendReserved_startsAt) ?_ hr
  rw [appendReserved, if_pos ext4BgHasSuperBlock_zero] at h₁
  simp only [appendRegion, createAllocation, append, isEmpty_nil, if_true, Except.ok_bind,
    Except.pure_eq_ok, Except.ok.injEq] at h₁
  subst h₁
  exact ⟨rfl, rfl, rfl, rfl⟩

theorem StartsAt.getBlock (h : StartsAt reg alloc) (hpos : 0 < reg.len)
    (hlt : reg.block < 2 ^ 32) : alloc.list.getBlock 0 = reg.block := by
  have hhead := h.head
  rcases hregs : alloc.list.regions with _ | ⟨reg', regs⟩
  · simp [hregs] at hhead
  rw [hregs, head?_cons, Option.some.injEq] at hhead
  subst hhead
  simp [RegionList.getBlock, RegionList.rest, h.iter, h.partialIter, hregs, RegionList.blockAt,
    hpos, u32_of_lt hlt, u32_of_lt (show 0 < 2 ^ 32 by decide)]

theorem inodeAttachResize_inv (hr : inodeAttachResize force info aux bgs alloc = .ok (bgs', qs, inode)) :
    0 < info.bgDescReserveBlocks ∧
    ∃ alloc' ok dind ind, appendOobAllocation force bgs alloc 1 = .ok (bgs', alloc', ok) ∧
      qs = [⟨alloc'.oobList.getBlock 0, info.blockSize, .dindBlock dind⟩,
        ⟨alloc'.list.getBlock 0, u32 (info.blockSize * info.bgDescReserveBlocks), .indBlock ind⟩] := by
  simp only [inodeAttachResize] at hr
  split at hr
  case isTrue => cases hr
  case isFalse hpos =>
    split at hr
    case isTrue => cases hr
    obtain ⟨⟨bgs₁, alloc', ok⟩, hoob, hr⟩ := Except.bind_eq_ok_iff.mp hr
    obtain ⟨⟨dind, ind⟩, _, hr⟩ := Except.bind_eq_ok_iff.mp hr
    simp only [Except.pure_eq_ok, Except.ok.injEq, Prod.mk.injEq] at hr
    obtain ⟨hbgs, hqs, _⟩ := hr
    subst hbgs
    exact ⟨pos_of_ne_zero hpos, alloc', ok, dind, ind, hoob, hqs.symm⟩

theorem appendOobAllocation_one (ha : l.Addressable) (h : BgsOk l bgs)
    (hs : force = false ∨ ∃ bg ∈ bgs, 0 < bg.freeBlocks) (hoob : alloc.oobList = {})
    (hr : appendOobAllocation force bgs alloc 1 = .ok (bgs', alloc', ok)) :
    alloc'.list = alloc.list ∧ Allocates l bgs bgs' [alloc'.oobList.getBlock 0] := by
  obtain ⟨⟨bgs₁, regs⟩, hb, hr⟩ := Except.bind_eq_ok_iff.mp hr
  obtain _ | ⟨reg, regs⟩ := regs
  · rw [ext4AllocateBestFit, bestFitLoop, if_pos one_pos] at hb
    obtain ⟨⟨bgs₂, res⟩, hp, hb⟩ := Except.bind_eq_ok_iff.mp hb
    cases res
    case none =>
      obtain ⟨-, hforce, hnone⟩ := ext4AllocateBestFitPartial_none ha h one_pos hp
      cases hs
      case inl hs => simp [hs] at hforce
      case inr hs =>
        obtain ⟨bg, hbg, hpos⟩ := hs
        have := hnone bg hbg
        omega
    case some reg => simp [bestFitLoop] at hb
  have hfit := ext4AllocateBestFit_bestFit ha h hb (by simp)
  have hsum := hfit.sum_len
  have hpos := hfit.len_pos
  obtain ⟨_, hlt⟩ := hfit.head_block ha h
  have hone : reg.len = 1 ∧ regs = [] := by
    have h₁ := hpos reg (by simp)
    obtain _ | ⟨r, rs⟩ := regs
    · simpa using hsum
    have h₂ := hpos r (by simp)
    simp only [map_cons, sum_cons] at hsum
    omega
  simp only [append, hoob, isEmpty_nil, if_true, Except.ok_bind, Except.pure_eq_ok, Except.ok.injEq,
    Prod.mk.injEq] at hr
  obtain ⟨hbgs, halloc, _⟩ := hr
  subst hbgs halloc
  refine ⟨rfl, ?_⟩
  have hblock := @getBlock_oobOf reg [] (by omega) (by omega)
  simp only [oobOf, cons_ne_nil, if_false, length_singleton, Nat.sub_self] at hblock
  rw [hblock]
  have := hfit.allocates ha h
  simpa [hone, Region.blocks] using this

theorem Tracked.addDind (h : Tracked l s slots dinds)
    (hal : Allocates l s.fs.bgs bgs [q.block]) (hlen : q.len = l.info.blockSize) (hp : Placed l q) :
    Tracked l { s with fs.bgs := bgs, regions := s.regions ++ [q] } slots (q.block :: dinds) := by
  have hb := l.blockSize_pos
  have hblocks : q.blocks l.info = [q.block] := by
    have hone : (l.info.blockSize + l.info.blockSize - 1) / l.info.blockSize = 1 :=
      Nat.div_eq_of_lt_le (by omega) (by omega)
    rw [Queued.blocks, hlen, hone]
    rfl
  refine { h with ok := hal.ok, grants := ?_, taken := ?_, regions := ?_, placed := ?_, queued := ?_ }
  · exact h.grants.trans hal.grants
  · intro slot hslot
    have := h.taken slot hslot
    simpa only [Image.Taken, hal.tables] using this
  · rw [flatMap_append, flatMap_singleton, hblocks]
    have hperm : (slots.flatMap (Slot.blocks l) ++ q.block :: dinds).Perm
        (slots.flatMap (Slot.blocks l) ++ dinds ++ [q.block]) := by
      rw [append_assoc]
      exact (perm_append_singleton _ _).symm.append_left _
    exact (h.regions.append (List.Subperm.refl _)).trans hperm.symm.subperm
  · intro q' hq'
    cases mem_append.mp hq'
    case inl hq' => exact h.placed q' hq'
    case inr hq' => exact mem_singleton.mp hq' ▸ hp
  · intro i hi
    obtain ⟨q', hq', hdata⟩ := h.queued i hi
    exact ⟨q', mem_append_left _ hq', hdata⟩

theorem Tracked.resize (hl : l.Proper) (h : Tracked l s slots dinds) (hs : s.Resizable force)
    (hres : s.resized = false)
    (hr : ext4CreateResizeInode force l.info l.aux s.fs.bgs = .ok (bgs, qs, inode)) :
    ∃ slots dinds, Tracked l { s with fs.bgs := bgs, regions := s.regions ++ qs, resized := true }
      slots dinds := by
  have ha := hl.addressable
  obtain ⟨⟨bgs₁, table⟩, hinode, hr⟩ := Except.bind_eq_ok_iff.mp hr
  obtain ⟨alloc, halloc, hr⟩ := Except.bind_eq_ok_iff.mp hr
  obtain ⟨⟨bgs₂, qs₂, inode₂⟩, hattach, hr⟩ := Except.bind_eq_ok_iff.mp hr
  simp only [Except.pure_eq_ok, Except.ok.injEq, Prod.mk.injEq] at hr
  obtain ⟨hbgs, hqs, _⟩ := hr
  subst hbgs hqs
  obtain ⟨⟨slots₁, h₁⟩, hfree⟩ := h.getInode ha hinode
  have hstart := appendReserved_all hl.groups_pos halloc
  obtain ⟨hpos, alloc', ok, dind, ind, hoob, hqs⟩ := inodeAttachResize_inv hattach
  have hs' : force = false ∨ ∃ bg ∈ bgs₁, 0 < bg.freeBlocks := by
    refine hs.imp_right ?_
    rintro ⟨bg, hbg, hpos⟩
    have hmem : bg.freeBlocks ∈ bgs₁.map BlockGroupInfo.freeBlocks := hfree ▸ mem_map_of_mem hbg
    obtain ⟨bg', hbg', heq⟩ := mem_map.mp hmem
    exact ⟨bg', hbg', heq ▸ hpos⟩
  obtain ⟨hlist, hal⟩ := appendOobAllocation_one ha h₁.ok hs' hstart.oobList hoob
  -- The reserved blocks that hold the indirect blocks are those of the first group.
  have hfirst := Layout.first_succ_le ha hl.groups_pos
  have hsuper := Layout.superLen_add_le hl.groups_pos
  have hsl : l.superLen 0 = 1 + l.aux.bgDescBlocks + l.info.bgDescReserveBlocks := by
    simp only [Layout.superLen, ext4BgHasSuperBlock_zero, if_true]
  have hblock₀ : u32 (groupStartBlock l.info l.aux 0 + 1 + l.aux.bgDescBlocks)
      = l.first 0 + (1 + l.aux.bgDescBlocks) := by
    rw [Layout.groupStartBlock_eq ha hl.groups_pos, u32_of_lt (by omega), add_assoc]
  have hblock : alloc'.list.getBlock 0 = l.first 0 + (1 + l.aux.bgDescBlocks) := by
    rw [hlist, hstart.getBlock hpos (u32_lt _), hblock₀]
  have h₂ := @addDind _ _ _ _ _ ⟨alloc'.oobList.getBlock 0, l.info.blockSize, .dindBlock dind⟩ h₁ hal rfl
    ⟨by simp, by simp⟩
  have hsub : (Queued.blocks l.info ⟨alloc'.list.getBlock 0,
      u32 (l.info.blockSize * l.info.bgDescReserveBlocks), .indBlock ind⟩).Sublist
      (Slot.blocks l ⟨0, .reserved⟩) :=
    blocks_sublist l.blockSize_pos hblock (by rw [Kind.len, mul_comm]; exact u32_le _)
  refine ⟨⟨0, .reserved⟩ :: slots₁, _,
    h₂.add ⟨hl.groups_pos, fun _ => ext4BgHasSuperBlock_zero⟩ hsub ⟨by simp, by simp⟩ ?_ ?_ ?_ h₂.ok rfl
      rfl rfl ?_⟩
  · simp [Image.Taken, hres]
  · simp [Image.Taken]
  · rintro ⟨j, kind⟩ htaken
    cases kind <;> simp_all [Image.Taken]
  · simp [hqs]

end Ext4
