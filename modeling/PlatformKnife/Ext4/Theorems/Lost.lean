import PlatformKnife.Ext4.Image
import PlatformKnife.Ext4.Theorems.Mapping

namespace Ext4

open CInt Bump Except Prod

variable {l : Layout} {bgs bgs' : List BlockGroupInfo} {bg : BlockGroupInfo} {force : Bool}
variable {info : FsInfo} {aux : FsAuxInfo} {reg : Region} {regs regs' : List Region} {fs fs' : Fs}

theorem Allocates.lost (h : Allocates l bgs bgs' blocks) : Allocates l bgs bgs' [] :=
  h.subperm List.nil_subperm

section

variable (ha : l.Addressable) (h : BgsOk l bgs)

include ha h

theorem ext4AllocateBestFitPartial_allocates (hlen : 0 < len)
    (hr : ext4AllocateBestFitPartial force bgs len = .ok (bgs', res)) : Allocates l bgs bgs' [] := by
  cases res
  case some reg =>
    obtain ⟨bg, hi, _, _, hbgs, _⟩ := ext4AllocateBestFitPartial_ok ha h hlen hr
    exact hbgs ▸ (allocates_reserved ha h hi (min_le_right _ _)).lost
  case none => exact (ext4AllocateBestFitPartial_none ha h hlen hr).1.symm ▸ .refl h

theorem bestFitLoop_allocates
    (hr : bestFitLoop force fuel bgs len regs = .ok (bgs', regs')) : Allocates l bgs bgs' [] := by
  induction fuel generalizing bgs len regs
  case zero =>
    simp only [bestFitLoop, ok.injEq, mk.injEq] at hr
    exact hr.left ▸ .refl h
  case succ fuel ih =>
    rw [bestFitLoop] at hr
    split at hr
    case isFalse =>
      simp only [ok.injEq, mk.injEq] at hr
      exact hr.left ▸ .refl h
    case isTrue hlen =>
      obtain ⟨⟨bgs₁, res⟩, hp, hr⟩ := bind_eq_ok_iff.mp hr
      have hal := ext4AllocateBestFitPartial_allocates ha h hlen hp
      cases res
      case none =>
        simp only [pure_eq_ok, ok.injEq, mk.injEq] at hr
        exact hr.left ▸ hal
      case some reg => exact hal.trans (ih hal.ok hr)

theorem allocateBlocks_allocates (hr : allocateBlocks force bgs len = .ok (bgs', alloc)) :
    Allocates l bgs bgs' (BlockAllocation.toLive alloc).flatten := by
  cases alloc
  case some alloc =>
    obtain ⟨reg, regs, hb, halloc⟩ := allocateBlocks_bestFit ha h hr
    have := hb.allocates ha h
    simpa [BlockAllocation.toLive, halloc, blocks_allocationOf] using this
  case none =>
    obtain ⟨⟨bgs₁, regs⟩, hb, hr⟩ := bind_eq_ok_iff.mp hr
    have hal := bestFitLoop_allocates ha h hb
    simp only [pure_eq_ok] at hr
    split at hr
    case isFalse => simp at hr
    simp only [ok.injEq, mk.injEq, and_true] at hr
    exact hr ▸ hal

theorem takeSpare_allocates (hb : BestFit l bgs len (reg :: regs) bgs')
    (ht : takeSpare bgs' (allocationOf (reg :: regs)) (regs.length + 1) = .ok (bgs₂, res)) :
    Allocates l bgs bgs₂ [] := by
  by_cases hk : regs.length + 1 ≤ 3
  case pos =>
    obtain ⟨_, ht', hal⟩ := takeSpare_reduced ha h hb hk
    rw [ht', ok.injEq, mk.injEq] at ht
    exact ht.left ▸ hal.lost
  obtain ⟨ht', hal⟩ := takeSpare_spared ha h hb hk
  rw [ht', ok.injEq, mk.injEq] at ht
  exact ht.left ▸ hal.lost

end

theorem doInodeAllocateExtents_lost (ha : l.Addressable) (h : BgsOk l fs.bgs)
    (hr : doInodeAllocateExtents force l.info fs len = .ok (fs', none)) :
    Allocates l fs.bgs fs'.bgs [] := by
  obtain ⟨⟨bgs₁, alloc⟩, hal, hr⟩ := bind_eq_ok_iff.mp hr
  obtain _ | alloc := alloc
  · obtain ⟨_, _, hr⟩ := bind_eq_ok_iff.mp hr
    simp only [pure_eq_ok, ok.injEq, mk.injEq, and_true] at hr
    exact hr ▸ allocateBlocks_allocates ha h hal
  obtain ⟨reg, regs, hb, halloc⟩ := allocateBlocks_bestFit ha h hal
  obtain ⟨⟨bgs₂, alloc₂, extentBlock⟩, ht, hr⟩ := bind_eq_ok_iff.mp hr
  have hlen : alloc.list.regions.length = regs.length + 1 := by simp [halloc, allocationOf]
  rw [hlen, halloc] at ht
  have hspare := takeSpare_allocates ha h hb ht
  simp only at hr
  split at hr
  case isTrue =>
    obtain ⟨_, _, hr⟩ := bind_eq_ok_iff.mp hr
    simp at hr
  split at hr
  case isTrue =>
    obtain ⟨_, _, hr⟩ := bind_eq_ok_iff.mp hr
    simp only [pure_eq_ok, ok.injEq, mk.injEq, and_true] at hr
    exact hr ▸ hspare
  obtain ⟨_, _, hr⟩ := bind_eq_ok_iff.mp hr
  simp at hr

end Ext4
