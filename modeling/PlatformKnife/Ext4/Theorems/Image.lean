import PlatformKnife.Ext4.Theorems.Resize

namespace Ext4

open CInt Bump Except

variable {l : Layout} {bgs bgs' : List BlockGroupInfo} {bg : BlockGroupInfo} {force : Bool}
variable {s : Image} {slots : List Slot}

theorem Layout.firstDataBlock_eq (l : Layout) :
    l.aux.firstDataBlock = if l.info.blockSize > 1024 then 0 else 1 := by
  have hc := l.created
  simp only [ext4CreateFsAuxInfo] at hc
  split at hc
  case isTrue => cases hc
  case isFalse =>
    rw [← ok.inj hc, trimLastGroup_firstDataBlock]

theorem Tracked.queueSb (hl : l.Proper) (h : Tracked l s slots dinds) (hs : s.queuedSb = false)
    (hr : ext4QueueSb l.info = .ok qs) :
    Tracked l { s with regions := s.regions ++ qs, queuedSb := true } (⟨0, .super⟩ :: slots) dinds := by
  obtain ⟨q, hq, hblock, hlen, hdata⟩ : ∃ q, qs = [q] ∧ q.block = l.first 0 ∧
      q.len ≤ l.info.blockSize ∧ q.data = .sb := by
    have hf := l.firstDataBlock_eq
    have hge := hl.blockSize_ge
    simp only [Layout.first, zero_mul, add_zero, hf]
    simp only [ext4QueueSb] at hr
    split at hr
    case isTrue hgt =>
      split at hr
      case isTrue  => cases hr
      case isFalse => exact ⟨_, (ok.inj hr).symm, by simp [hgt], le_refl _, rfl⟩
    case isFalse hgt => exact ⟨_, (ok.inj hr).symm, by simp [hgt], hge, rfl⟩
  subst hq
  refine h.add ⟨hl.groups_pos, fun _ => ext4BgHasSuperBlock_zero⟩
    (blocks_sublist l.blockSize_pos hblock (by simpa [Kind.len] using hlen))
    ⟨by simp [hdata], by simp [hdata]⟩ ?_ ?_ ?_ h.ok rfl rfl rfl rfl
  · simp [Image.Taken, hs]
  · simp [Image.Taken]
  · rintro ⟨j, kind⟩ htaken
    cases kind <;> simp_all [Image.Taken]

theorem Built.tracked (hl : l.Proper) (h : Built force l (Image.Resizable force) s) :
    ∃ slots dinds, Tracked l s slots dinds := by
  have ha := hl.addressable
  induction h
  case init hbgs hfill => exact ⟨_, _, tracked_init hl hbgs hfill⟩
  case getInode hr ih =>
    obtain ⟨slots, dinds, ht⟩ := ih
    obtain ⟨⟨slots', ht'⟩, _⟩ := ht.getInode ha hr
    exact ⟨slots', dinds, ht'⟩
  case ext4CreateResizeInode hcond hres hr ih =>
    obtain ⟨slots, dinds, ht⟩ := ih
    exact ht.resize hl hcond hres hr
  case allocateBlock s bgs block _ hr ih =>
    obtain ⟨slots, dinds, ht⟩ := ih
    have hal := allocateBlockFrom_cases ha ht.ok hr (by simp)
    refine ⟨slots, dinds, ?_⟩
    by_cases hb : block = ext4AllocateFailed
    case pos =>
      rw [if_pos hb] at hal
      subst hb hal
      simpa using ht
    simp only [hb, if_false] at hal ⊢
    exact ht.allocate { s.fs with bgs } [[block]] (by simpa using hal)
  case allocateBlocks s len bgs alloc _ hr ih =>
    obtain ⟨slots, dinds, ht⟩ := ih
    exact ⟨slots, dinds, ht.allocate { s.fs with bgs } _ (allocateBlocks_allocates ha ht.ok hr)⟩
  case doInodeAllocateExtents s len fs res _ hr ih =>
    obtain ⟨slots, dinds, ht⟩ := ih
    refine ⟨slots, dinds, ht.allocate fs _ ?_⟩
    rcases res with _ | ⟨inode, alloc⟩
    · exact doInodeAllocateExtents_lost ha ht.ok hr
    · simpa [BlockAllocation.toLive] using doInodeAllocateExtents_allocates ha ht.ok hr
  case ext4QueueSb hs hr ih =>
    obtain ⟨slots, dinds, ht⟩ := ih
    exact ⟨_, dinds, ht.queueSb hl hs hr⟩

theorem consistent_of_built (hl : l.Proper) (h : Built force l (Image.Resizable force) s) :
    Consistent l s := by
  obtain ⟨_, _, ht⟩ := h.tracked hl
  exact ht.consistent hl.addressable

def twoReserves : Layout where
  info := .ofNats (180 * 1024) 1024 100 16 128 1 3 (Eq.refl true)
  aux := ⟨1, 180, 2, 2, 1, 256⟩
  created := rfl
  fits := by decide

theorem consistent_twoReserves : ∃ s, Built false twoReserves (Image.Resizable false) s ∧
    s.resized = true ∧ s.queuedSb = true ∧ Consistent twoReserves s := by
  have hrun : (do
      let bgs ← blockAllocatorInit false twoReserves.info twoReserves.aux
      let filled ← ext4FillInSb twoReserves.info twoReserves.aux
      let resized ← ext4CreateResizeInode false twoReserves.info twoReserves.aux bgs
      let sb ← ext4QueueSb twoReserves.info
      return (filled.2.length, resized.2.1.map Queued.block, sb.map Queued.block))
        = ok (2, [8, 110, 3], [1]) := by decide +kernel
  obtain ⟨bgs, hinit, hrun⟩ := bind_eq_ok_iff.mp hrun
  obtain ⟨⟨_, bgDesc⟩, hfill, hrun⟩ := bind_eq_ok_iff.mp hrun
  obtain ⟨⟨bgs', queued, _⟩, hresize, hrun⟩ := bind_eq_ok_iff.mp hrun
  obtain ⟨sb, hsb, _⟩ := bind_eq_ok_iff.mp hrun
  have hbuilt : Built false twoReserves (Image.Resizable false) _ :=
    .ext4QueueSb (.ext4CreateResizeInode (.init hinit hfill) (.inl rfl) rfl hresize) rfl hsb
  refine ⟨_, hbuilt, rfl, rfl, consistent_of_built ⟨⟨?_, ?_⟩, ?_, ?_, ?_⟩ hbuilt⟩ <;> decide

-- Blocks of 512 bytes, of which the superblock takes two.
def halfBlocks : Layout where
  info := .ofNats (180 * 512) 512 100 16 128 1 3 (Eq.refl true)
  aux := ⟨1, 180, 4, 2, 1, 128⟩
  created := rfl
  fits := by decide

-- The second block of the superblock is the first one of the descriptors.
theorem not_consistent_halfBlocks : ∃ s, halfBlocks.Addressable ∧
    Built false halfBlocks (Image.Resizable false) s ∧ ¬Consistent halfBlocks s := by
  have hrun : (do
      let bgs ← blockAllocatorInit false halfBlocks.info halfBlocks.aux
      return bgs.length) = ok 2 := by decide +kernel
  obtain ⟨bgs, hinit, _⟩ := bind_eq_ok_iff.mp hrun
  have hfill : ext4FillInSb halfBlocks.info halfBlocks.aux = .ok (_, _) := rfl
  have hsb : ext4QueueSb halfBlocks.info = .ok _ := rfl
  refine ⟨_, ⟨by decide, by decide⟩, .ext4QueueSb (.init hinit hfill) rfl hsb, ?_⟩
  intro hc
  have hnodup := hc.separate.nodup
  dsimp only at hnodup
  exact absurd hnodup (by decide)

end Ext4
