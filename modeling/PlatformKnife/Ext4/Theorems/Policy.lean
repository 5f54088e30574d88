import PlatformKnife.Ext4.Theorems.Accounting

namespace Ext4

open CInt List BlockGroupInfo Except

-- What the allocator keeps for a group: the free blocks follow the first free one, none of them is
-- marked, and they have block numbers. By the header the first free block is not the first one.
structure HasFree (bg : BlockGroupInfo) : Prop where
  header : 0 < bg.firstFreeBlock
  reservable : Reservable bg.bitmaps bg.firstFreeBlock bg.freeBlocks
  blocks : bg.firstBlock + bg.firstFreeBlock + bg.freeBlocks < 2 ^ 32

-- The policy that is documented at `allocate_blocks`: a request that fits into a group is met from one
-- with the fewest free blocks of those, and otherwise all free blocks of one with the most are taken.
inductive FollowsPolicy : List Nat → Nat → List Region → Prop
  | done : FollowsPolicy free 0 []
  | fits : 0 < n → free[reg.bg]? = some f → n ≤ f → (∀ f' ∈ free, n ≤ f' → f ≤ f') →
    reg.len = n → FollowsPolicy (free.set reg.bg (f - n)) 0 regs → FollowsPolicy free n (reg :: regs)
  | largest : (∀ f' ∈ free, f' < n) → free[reg.bg]? = some f → (∀ f' ∈ free, f' ≤ f) → 0 < f →
    reg.len = f → FollowsPolicy (free.set reg.bg 0) (n - f) regs → FollowsPolicy free n (reg :: regs)

def freeCounts (bgs : List BlockGroupInfo) : List Nat :=
  bgs.map BlockGroupInfo.freeBlocks

def TakenFrom (bgs : List BlockGroupInfo) (reg : Region) : Prop :=
  ∃ bg, bgs[reg.bg]? = some bg ∧ reg.block = bg.firstBlock + bg.firstFreeBlock ∧
    0 < reg.len ∧ reg.len ≤ bg.freeBlocks

variable {l : Layout} {bgs bgs' : List BlockGroupInfo} {bg : BlockGroupInfo} {force : Bool}
variable {free : List Nat} {reg : Region} {regs : List Region} {g len n num : Nat}

namespace FollowsPolicy

theorem eq_nil (h : FollowsPolicy free 0 regs) : regs = [] := by
  cases h
  case done => rfl
  case fits hpos _ _ _ _ => omega
  case largest hg _ hlt _ => exact absurd (hlt _ (mem_of_getElem? hg)) (Nat.not_lt_zero _)

variable (h : FollowsPolicy free n regs)

include h

theorem sum_len : (regs.map Region.len).sum = n := by
  induction h
  case done => rfl
  case fits hlen _ ih => rw [map_cons, sum_cons, hlen, ih, add_zero]
  case largest hlt hg hmax _ hlen _ ih =>
    have := hlt _ (mem_of_getElem? hg)
    rw [map_cons, sum_cons, hlen, ih]
    omega

theorem free_pos (hr : reg ∈ regs) : ∃ f, free[reg.bg]? = some f ∧ 0 < f := by
  induction h
  case done => cases hr
  case fits hpos hg hle _ _ hrest _ =>
    rw [hrest.eq_nil, mem_singleton] at hr
    exact ⟨_, hr ▸ hg, by omega⟩
  case largest f _ first _ hg _ hpos _ _ ih =>
    cases mem_cons.mp hr
    case inl hr => exact ⟨f, hr ▸ hg, hpos⟩
    case inr hr =>
      obtain ⟨f', hf', hpos'⟩ := ih hr
      by_cases hbg : first.bg = reg.bg
      case neg => exact ⟨f', by rwa [getElem?_set_ne hbg] at hf', hpos'⟩
      rw [← hbg, getElem?_set_self'] at hf'
      simp [hg] at hf'
      omega

theorem nodup : (regs.map Region.bg).Nodup := by
  induction h
  case done => exact nodup_nil
  case fits hrest _ => rw [hrest.eq_nil]; exact nodup_singleton _
  case largest f _ first _ hg _ _ _ hrest ih =>
    refine nodup_cons.mpr ⟨?_, ih⟩
    intro hmem
    obtain ⟨reg, hr, hbg⟩ := mem_map.mp hmem
    obtain ⟨f', hf', hpos⟩ := hrest.free_pos hr
    rw [hbg, getElem?_set_self'] at hf'
    simp [hg] at hf'
    omega

end FollowsPolicy

theorem freeCounts_set : freeCounts (bgs.set g (bg.reserved start num))
    = (freeCounts bgs).set g (bg.freeBlocks - num) := by
  rw [freeCounts, map_set]
  rfl

theorem freeCounts_getElem? (h : bgs[g]? = some bg) : (freeCounts bgs)[g]? = some bg.freeBlocks := by
  rw [freeCounts, getElem?_map, h]
  rfl

theorem sum_set_sub (h : free[g]? = some f) (hn : n ≤ f) : (free.set g (f - n)).sum + n = free.sum := by
  induction free generalizing g
  case nil => simp at h
  case cons f' free ih =>
    obtain _ | g := g
    · simp only [getElem?_cons_zero, Option.some.injEq] at h
      simp only [set_cons_zero, sum_cons, h]
      omega
    have := ih (by simpa using h)
    simp only [set_cons_succ, sum_cons]
    omega

namespace HasFree

theorem reserveBlocks_eq (h : HasFree bg) (hn : num ≤ bg.freeBlocks) (hpos : 0 < num) :
    reserveBlocks force bg bg.firstFreeBlock num = .ok (bg.reserved bg.firstFreeBlock num, true) := by
  have hh := h.header
  have hb := h.blocks
  have hle := h.reservable.le
  -- The first free block is not 0, so that a long range is not at the start of a byte.
  refine (reserveBlocks_iff (by omega) (by omega)).mpr ⟨hn, ⟨.inr (by omega), ?_⟩, rfl⟩
  intro b hb₁ hb₂
  exact h.reservable.clear b hb₁ (by omega)

theorem reserved (h : HasFree bg) (hn : num ≤ bg.freeBlocks) (hpos : 0 < num) :
    HasFree (bg.reserved bg.firstFreeBlock num) := by
  have hle := h.reservable.le
  have hb := h.blocks
  constructor
  case header => simp only [BlockGroupInfo.reserved, if_true]; omega
  case blocks => simp only [BlockGroupInfo.reserved, if_true]; omega
  case reservable =>
    simp only [BlockGroupInfo.reserved, if_true]
    refine ⟨.inr (by simp only [Bitmap.setRange_length]; omega), ?_⟩
    intro b hb₁ hb₂
    rw [Bitmap.bit_setRange (by omega), h.reservable.clear b (by omega) (by omega)]
    simp
    omega

theorem allocate_eq (h : HasFree bg) (hg : bgs[g]? = some bg) (hn : num ≤ bg.freeBlocks) (hpos : 0 < num) :
    ext4AllocateBlocksFromBlockGroup force bgs num g
      = .ok (bgs.set g (bg.reserved bg.firstFreeBlock num), bg.firstBlock + bg.firstFreeBlock) := by
  have hb := h.blocks
  have hu : u32 (bg.firstBlock + bg.firstFreeBlock) = bg.firstBlock + bg.firstFreeBlock :=
    u32_of_lt (by omega)
  simp [ext4AllocateBlocksFromBlockGroup, getBg, hg, not_lt.mpr hn, h.reserveBlocks_eq hn hpos, hu]

end HasFree

theorem GroupOk.hasFree (ha : l.Addressable) (hi : i < l.aux.groups) (h : GroupOk l i bg) :
    HasFree bg := by
  have hs := Layout.first_succ_le ha hi
  have hbm := ha.bitmap
  have hgl := @Layout.groupLen_le l i
  have hh := h.header_le
  have hh₂ := @Layout.headerLen_ge l i
  have hl := h.length
  have hle := h.le
  have hfree := h.free
  have hfb := h.firstBlock
  refine ⟨by omega, ⟨.inr (by omega), ?_⟩, by omega⟩
  intro b hb₁ hb₂
  rw [h.bit b (by omega)]
  simp
  omega

theorem hasFree_of_reachable (ha : l.Addressable) (h : Reachable force l s) :
    ∀ bg ∈ s.fs.bgs, HasFree bg := by
  intro bg hbg
  have hok := (h.accountable ha).ok
  obtain ⟨i, hi⟩ := mem_iff_getElem?.mp hbg
  exact (hok.group i bg hi).hasFree ha (hok.lt hi)

theorem ext4AllocateBestFitPartial_some (force : Bool) (h : ∀ bg ∈ bgs, HasFree bg) (hlen : 0 < len)
    (hfree : 0 < (freeCounts bgs).sum) :
    ∃ (reg : Region) (bg : BlockGroupInfo), bgs[reg.bg]? = some bg ∧ 0 < bg.freeBlocks ∧
      Best bgs len reg.bg bg.freeBlocks ∧ reg.len = min len bg.freeBlocks ∧
      reg.block = bg.firstBlock + bg.firstFreeBlock ∧
      ext4AllocateBestFitPartial force bgs len
        = .ok (bgs.set reg.bg (bg.reserved bg.firstFreeBlock reg.len), some reg) := by
  rcases hf : findBestFit len bgs 0 (0, 0) with ⟨foundBg, foundLen⟩
  have hbest := best_of_findBestFit hlen hf
  have hpos : 0 < foundLen := by
    by_contra hz
    have hall : ∀ f ∈ freeCounts bgs, f = 0 := by
      intro f hmem
      obtain ⟨bg, hbg, hf⟩ := mem_map.mp hmem
      have := hbest.largest (by omega) bg hbg
      omega
    rw [sum_eq_zero hall] at hfree
    omega
  obtain ⟨bg, hg, hfound⟩ := hbest.found hpos
  subst hfound
  have hb := (h bg (mem_of_getElem? hg)).blocks
  have hne : bg.firstBlock + bg.firstFreeBlock ≠ ext4AllocateFailed := by
    simp only [ext4AllocateFailed]
    omega
  refine ⟨⟨_, _, foundBg⟩, bg, hg, hpos, hbest, rfl, rfl, ?_⟩
  have halloc : ext4AllocateBlocksFromBlockGroup force bgs _ _ = _ :=
    (h bg (mem_of_getElem? hg)).allocate_eq hg (min_le_right len _) (by omega)
  simp [ext4AllocateBestFitPartial, hf, ne_of_gt hpos, halloc, hne]

theorem ext4AllocateBestFitPartial_full (hlen : 0 < len) (hfree : (freeCounts bgs).sum = 0) :
    ext4AllocateBestFitPartial force bgs len ≠ .ok (bgs', some reg) := by
  rcases hf : findBestFit len bgs 0 (0, 0) with ⟨foundBg, foundLen⟩
  have hz : foundLen = 0 := by
    by_contra hpos
    obtain ⟨bg, hg, hfound⟩ := (best_of_findBestFit hlen hf).found (by omega)
    have := sum_eq_zero_iff.mp hfree _ (mem_map_of_mem (mem_of_getElem? hg))
    omega
  cases force <;> simp [ext4AllocateBestFitPartial, hf, hz, error]

theorem Best.followsPolicy (h : Best bgs len reg.bg bg.freeBlocks) (hlen : 0 < len)
    (hg : bgs[reg.bg]? = some bg) (hpos : 0 < bg.freeBlocks) (hr : reg.len = min len bg.freeBlocks)
    (hrest : FollowsPolicy ((freeCounts bgs).set reg.bg (bg.freeBlocks - reg.len)) (len - reg.len) regs) :
    FollowsPolicy (freeCounts bgs) len (reg :: regs) := by
  have hc := freeCounts_getElem? hg
  by_cases hle : len ≤ bg.freeBlocks
  case pos =>
    rw [min_eq_left hle] at hr
    rw [hr, Nat.sub_self] at hrest
    refine .fits hlen hc hle ?_ hr hrest
    intro f hf hlf
    obtain ⟨b, hb, hbf⟩ := mem_map.mp hf
    exact hbf ▸ h.tight hle b hb (hbf ▸ hlf)
  have hlt := Nat.lt_of_not_le hle
  have hmax : ∀ f ∈ freeCounts bgs, f ≤ bg.freeBlocks := by
    intro f hf
    obtain ⟨b, hb, hbf⟩ := mem_map.mp hf
    exact hbf ▸ h.largest hlt b hb
  rw [min_eq_right hlt.le] at hr
  rw [hr, Nat.sub_self] at hrest
  exact .largest (fun f hf => lt_of_le_of_lt (hmax f hf) hlt) hc hmax hpos hr hrest

theorem TakenFrom.of_set (hne : g ≠ reg.bg) (h : TakenFrom (bgs.set g bg') reg) : TakenFrom bgs reg := by
  obtain ⟨b, hb, h⟩ := h
  exact ⟨b, by rwa [getElem?_set_ne hne] at hb, h⟩

theorem hasFree_set (h : ∀ bg ∈ bgs, HasFree bg) (hg : bgs[g]? = some bg) (hn : num ≤ bg.freeBlocks)
    (hpos : 0 < num) : ∀ b ∈ bgs.set g (bg.reserved bg.firstFreeBlock num), HasFree b := by
  intro b hb
  cases mem_or_eq_of_mem_set hb
  case inl hb => exact h b hb
  case inr hb => exact hb ▸ (h bg (mem_of_getElem? hg)).reserved hn hpos

theorem sum_freeCounts_set (start : Nat) (hg : bgs[g]? = some bg) (hn : num ≤ bg.freeBlocks) :
    (freeCounts (bgs.set g (bg.reserved start num))).sum + num = (freeCounts bgs).sum := by
  rw [freeCounts_set]
  exact sum_set_sub (freeCounts_getElem? hg) hn

theorem bestFitLoop_of_le (force : Bool) (regs : List Region) (h : ∀ bg ∈ bgs, HasFree bg)
    (hfuel : len ≤ fuel) (hfree : len ≤ (freeCounts bgs).sum) :
    ∃ bgs' new, bestFitLoop force fuel bgs len regs = .ok (bgs', regs ++ new) ∧
      FollowsPolicy (freeCounts bgs) len new ∧ ∀ reg ∈ new, TakenFrom bgs reg := by
  induction fuel generalizing bgs len regs
  case zero =>
    rw [Nat.le_zero.mp hfuel]
    exact ⟨bgs, [], by simp [bestFitLoop], .done, by simp⟩
  case succ fuel ih =>
    by_cases hlen : 0 < len
    case neg =>
      rw [Nat.eq_zero_of_not_pos hlen]
      exact ⟨bgs, [], by simp [bestFitLoop], .done, by simp⟩
    obtain ⟨reg, bg, hg, hpos, hbest, hreg, hblock, hp⟩ :=
      ext4AllocateBestFitPartial_some force h hlen (by omega)
    have hle : reg.len ≤ bg.freeBlocks := by omega
    have hsum := sum_freeCounts_set bg.firstFreeBlock hg hle
    obtain ⟨bgs', new, hloop, hnew, htaken⟩ := ih (regs ++ [reg]) (hasFree_set h hg hle (by omega))
      (show len - reg.len ≤ fuel by omega) (by omega)
    rw [freeCounts_set] at hnew
    have hfollows := hbest.followsPolicy hlen hg hpos hreg hnew
    refine ⟨bgs', reg :: new, ?_, hfollows, ?_⟩
    · simp only [bestFitLoop, gt_iff_lt, hlen, if_true, hp, ok_bind, hloop, append_assoc, singleton_append]
    · obtain ⟨hnotin, _⟩ := nodup_cons.mp hfollows.nodup
      intro reg' hr
      cases mem_cons.mp hr
      case inl hr => exact hr ▸ ⟨bg, hg, hblock, by omega, hle⟩
      case inr hr =>
        have hne : reg.bg ≠ reg'.bg := fun he => hnotin (he ▸ mem_map_of_mem hr)
        exact (htaken reg' hr).of_set hne

theorem bestFitLoop_of_lt (h : ∀ bg ∈ bgs, HasFree bg) (hfuel : len ≤ fuel)
    (hfree : (freeCounts bgs).sum < len) (hr : bestFitLoop force fuel bgs len regs = .ok (bgs', new)) :
    new = [] := by
  induction fuel generalizing bgs len regs
  case zero => omega
  case succ fuel ih =>
    have hlen : 0 < len := by omega
    simp only [bestFitLoop, gt_iff_lt, hlen, if_true] at hr
    obtain ⟨⟨bgs₁, res⟩, hp, hr⟩ := bind_eq_ok_iff.mp hr
    obtain _ | reg := res
    · simp only [pure_eq_ok, ok.injEq, Prod.mk.injEq] at hr
      exact hr.right.symm
    by_cases hz : (freeCounts bgs).sum = 0
    case pos => exact absurd hp (ext4AllocateBestFitPartial_full hlen hz)
    obtain ⟨reg', bg, hg, hpos, _, hreg, _, hp'⟩ :=
      ext4AllocateBestFitPartial_some force h hlen (pos_of_ne_zero hz)
    rw [hp', ok.injEq, Prod.mk.injEq, Option.some.injEq] at hp
    obtain ⟨hbgs, he⟩ := hp
    subst hbgs he
    have hle : reg'.len ≤ bg.freeBlocks := by omega
    have hsum := sum_freeCounts_set bg.firstFreeBlock hg hle
    exact ih (hasFree_set h hg hle (by omega)) (by omega) (by omega) hr

-- A request is met exactly if as many blocks are free, with regions as documented.
theorem allocateBlocks_followsPolicy (force : Bool) (h : ∀ bg ∈ bgs, HasFree bg) (hlen : 0 < len) :
    ((∃ bgs' alloc, allocateBlocks force bgs len = .ok (bgs', some alloc)) ↔
      len ≤ (freeCounts bgs).sum) ∧
    ∀ bgs' alloc, allocateBlocks force bgs len = .ok (bgs', some alloc) →
      (alloc.list.regions.map Region.len).sum = len ∧
      (alloc.list.regions.map Region.bg).Nodup ∧
      FollowsPolicy (freeCounts bgs) len alloc.list.regions ∧
      ∀ reg ∈ alloc.list.regions, TakenFrom bgs reg := by
  by_cases hle : len ≤ (freeCounts bgs).sum
  case neg =>
    have hfail : ∀ bgs' alloc, allocateBlocks force bgs len ≠ .ok (bgs', some alloc) := by
      intro bgs' alloc hr
      obtain ⟨⟨bgs₁, regs⟩, hloop, hr⟩ := bind_eq_ok_iff.mp hr
      have hnil := bestFitLoop_of_lt h (le_refl len) (Nat.lt_of_not_le hle) hloop
      simp [hnil] at hr
    have hnone : ¬∃ bgs' alloc, allocateBlocks force bgs len = .ok (bgs', some alloc) := by
      rintro ⟨bgs', alloc, hr⟩
      exact hfail bgs' alloc hr
    refine ⟨⟨fun h => absurd h hnone, fun hc => absurd hc hle⟩, ?_⟩
    intro bgs' alloc hr
    exact absurd hr (hfail bgs' alloc)
  obtain ⟨bgs', regs, hloop, hfollows, htaken⟩ :=
    bestFitLoop_of_le force [] h (le_refl len) hle
  have hne : regs ≠ [] := by
    intro hnil
    have := hfollows.sum_len
    simp [hnil] at this
    omega
  have halloc : allocateBlocks force bgs len
      = .ok (bgs', some { list := { regions := regs, last := some 0, iter := some 0 } }) := by
    simp [allocateBlocks, ext4AllocateBestFit, hloop, hne]
  refine ⟨⟨fun _ => hle, fun _ => ⟨_, _, halloc⟩⟩, ?_⟩
  intro bgs₁ alloc hr
  rw [halloc, ok.injEq, Prod.mk.injEq, Option.some.injEq] at hr
  rw [← hr.right]
  exact ⟨hfollows.sum_len, hfollows.nodup, hfollows, htaken⟩

theorem allocateBlocks_followsPolicy_twoGroups : ∃ bgs,
    blockAllocatorInit false twoGroups.info twoGroups.aux = .ok bgs ∧ freeCounts bgs = [86, 65] ∧
    ∃ bgs' alloc, allocateBlocks false bgs 90 = .ok (bgs', some alloc) ∧
      (alloc.list.regions.map Region.len).sum = 90 ∧ FollowsPolicy [86, 65] 90 alloc.list.regions := by
  have hinit : ∃ bgs, blockAllocatorInit false twoGroups.info twoGroups.aux = .ok bgs ∧
      freeCounts bgs = [86, 65] := ⟨_, rfl, rfl⟩
  obtain ⟨bgs, hinit, hfree⟩ := hinit
  have hreach : Reachable false twoGroups ⟨⟨bgs, []⟩, []⟩ := .init hinit
  have hok := hasFree_of_reachable ⟨by decide, by decide⟩ hreach
  obtain ⟨hiff, hpolicy⟩ := allocateBlocks_followsPolicy false hok (show 0 < 90 by decide)
  obtain ⟨bgs', alloc, hr⟩ := hiff.mpr (by rw [hfree]; decide)
  obtain ⟨hsum, _, hfollows, _⟩ := hpolicy bgs' alloc hr
  exact ⟨bgs, hinit, hfree, bgs', alloc, hr, hsum, hfree ▸ hfollows⟩

end Ext4
