import PlatformKnife.Ext4.Geometry
import PlatformKnife.Ext4.Theorems.Reserve

namespace Ext4

open CInt Nat Except FsInfo BlockGroupInfo

variable {info : FsInfo} {aux : FsAuxInfo}

-- What `ext4_create_fs_aux_info` has computed before it looks at the last group.
def FsInfo.untrimmed (info : FsInfo) : FsAuxInfo where
  firstDataBlock := info.firstBlock
  lenBlocks := info.blocks
  inodeTableBlocks := info.inodeTableBlocks
  groups := u32 info.allGroups
  bgDescBlocks := info.bgDescBlocks
  blocksPerInd := info.blockSize / 4

theorem FsInfo.blocks_lt (info : FsInfo) : info.blocks < 2 ^ 63 :=
  lt_of_le_of_lt (Nat.div_le_self _ _) info.len_lt

theorem div_round_up_eq (n : Nat) (hp : 0 < p) :
    (n + p - 1) / p = if n % p = 0 then n / p else n / p + 1 := by
  have hn := div_add_mod n p
  have hr := mod_lt n hp
  generalize n / p = q at *
  split
  case isTrue h =>
    apply Nat.div_eq_of_lt_le
    case lo => rw [mul_comm]; omega
    case hi => rw [mul_comm, mul_add]; omega
  case isFalse h =>
    apply Nat.div_eq_of_lt_le
    case lo => rw [mul_comm, mul_add]; omega
    case hi => rw [mul_comm, mul_add, mul_add]; omega

theorem FsInfo.allGroups_eq (hp : 0 < info.blocksPerGroup) : info.allGroups
    = (info.blocks - info.firstBlock + info.blocksPerGroup - 1) / info.blocksPerGroup :=
  (div_round_up_eq _ hp).symm

theorem ext4CreateFsAuxInfo_eq (h : ext4CreateFsAuxInfo info = .ok aux)
    (hb : info.firstBlock ≤ info.blocks) :
    0 < info.blockSize ∧ 0 < info.blocksPerGroup ∧ aux = trimLastGroup info info.untrimmed := by
  simp only [ext4CreateFsAuxInfo, bind, bind] at h
  split at h
  case isTrue => cases h
  case isFalse hz =>
    simp only [Bool.or_eq_true, decide_eq_true_eq, not_or] at hz
    have hs : 0 < info.blockSize := by omega
    have hp : 0 < info.blocksPerGroup := by omega
    refine ⟨hs, hp, ?_⟩
    have hl := info.blocks_lt
    have hpl := info.blocksPerGroup_lt
    have hg : u64 (u64 (info.blocks + (2 ^ 64 - info.firstBlock)) + info.blocksPerGroup - 1)
        = info.blocks - info.firstBlock + info.blocksPerGroup - 1 := by
      simp only [u64, FsInfo.firstBlock] at *
      split at hb <;> split <;> omega
    have ha := FsInfo.allGroups_eq hp
    simp only [FsInfo.blocks, FsInfo.firstBlock] at hg ha
    simp only [pure_eq_ok, Except.ok.injEq, hg, ← ha] at h
    exact h.symm

theorem trimLastGroup_untrimmed (hg : 0 < info.allGroups) :
    trimLastGroup info info.untrimmed = { info.untrimmed with
      groups    := u32 info.remainingGroups
      lenBlocks := info.remainingBlocks } := by
  have hu : subU32 (u32 info.allGroups) 1 = u32 (info.allGroups - 1) := by
    simp only [subU32, u32]
    omega
  have ht : (0 < info.blocks % info.blocksPerGroup &&
      decide (info.blocks % info.blocksPerGroup
        < headerBlocks info info.untrimmed (u32 (info.allGroups - 1)))) ↔ info.Trimmed := by
    simp only [Bool.and_eq_true, decide_eq_true_eq]
    rfl
  simp only [trimLastGroup, remainingGroups, remainingBlocks]
  simp only [show info.untrimmed.groups = u32 info.allGroups from rfl,
    show info.untrimmed.lenBlocks = info.blocks from rfl, hu]
  by_cases h : info.Trimmed
  case pos => rw [if_pos (ht.mpr h)]; simp [h]
  case neg => rw [if_neg (mt ht.mp h)]; simp [h]; rfl

theorem trimLastGroup_lenBlocks_le : (trimLastGroup info aux).lenBlocks ≤ aux.lenBlocks := by
  simp only [trimLastGroup]
  split <;> simp

theorem trimLastGroup_firstDataBlock : (trimLastGroup info aux).firstDataBlock = aux.firstDataBlock := by
  simp only [trimLastGroup]
  split <;> rfl

theorem ext4CreateFsAuxInfo_bounds (h : ext4CreateFsAuxInfo info = .ok aux) :
    aux.lenBlocks ≤ info.blocks ∧ aux.firstDataBlock = info.firstBlock := by
  simp only [ext4CreateFsAuxInfo, bind, bind] at h
  split at h
  case isTrue => cases h
  simp only [pure_eq_ok, Except.ok.injEq] at h
  rw [← h]
  exact ⟨trimLastGroup_lenBlocks_le, trimLastGroup_firstDataBlock⟩

section Cover

variable {a b p x y : Nat}

theorem cover_unique (ha : y + (a - 1) * p < x) (ha' : x ≤ y + a * p) (hb : y + (b - 1) * p < x)
    (hb' : x ≤ y + b * p) : a = b := by
  have key {m n : Nat} (hm : x ≤ y + m * p) (hn : y + (n - 1) * p < x) : n ≤ m := by
    by_contra hc
    have := Nat.mul_le_mul_right p (show m ≤ n - 1 by omega)
    omega
  exact le_antisymm (key hb' ha) (key ha' hb)

end Cover

namespace FsInfo

theorem blocks_eq (h : info.firstBlock < info.blocks) :
    info.blocks = info.firstBlock + info.wholeGroups * info.blocksPerGroup + info.tail := by
  have := div_add_mod (info.blocks - info.firstBlock) info.blocksPerGroup
  simp only [wholeGroups, tail, mul_comm _ info.blocksPerGroup]
  omega

theorem allGroups_pos (hp : 0 < info.blocksPerGroup) (h : info.firstBlock < info.blocks) :
    0 < info.allGroups := by
  rw [allGroups_eq hp]
  exact Nat.div_pos (by omega) hp

theorem blocks_mod (h : info.firstBlock < info.blocks) :
    info.blocks % info.blocksPerGroup = (info.firstBlock + info.tail) % info.blocksPerGroup := by
  rw [blocks_eq h, add_right_comm, add_mul_mod_self_right]

theorem wholeGroups_mul (h : 0 < info.wholeGroups) : info.wholeGroups * info.blocksPerGroup
    = (info.wholeGroups - 1) * info.blocksPerGroup + info.blocksPerGroup := by
  rw [← succ_mul, succ_eq_add_one, Nat.sub_add_cancel h]

theorem remainingBlocks_eq (hp : 0 < info.blocksPerGroup) (h : info.firstBlock < info.blocks)
    (ht : info.blockSize ≤ 1024 → info.Trimmed → info.tail ≠ 0) (hr : 0 < info.remainingGroups) :
    info.remainingBlocks = info.firstBlock + (info.remainingGroups - 1) * info.blocksPerGroup
      + info.lastSize ∧ 0 < info.lastSize ∧ info.lastSize ≤ info.blocksPerGroup := by
  have hb := blocks_eq h
  have hm := blocks_mod h
  have hl : info.tail < info.blocksPerGroup := mod_lt _ hp
  by_cases htr : info.Trimmed
  case neg =>
    simp only [remainingGroups, htr, if_false, allGroups] at hr
    simp only [remainingBlocks, remainingGroups, lastSize, htr, if_false, allGroups]
    by_cases hz : info.tail = 0
    case neg =>
      simp only [hz, if_false, Nat.add_sub_cancel]
      omega
    simp only [hz, if_true] at hr ⊢
    have hw := wholeGroups_mul hr
    omega
  have hpos := htr.left
  have hne : info.tail ≠ 0 := by
    by_cases hs : info.blockSize ≤ 1024
    case pos => exact ht hs htr
    intro hz
    simp [firstBlock, Nat.lt_of_not_le hs, hz] at hm
    omega
  have hfb : info.firstBlock ≤ 1 := by simp only [firstBlock]; split <;> omega
  have hlt : info.firstBlock + info.tail < info.blocksPerGroup := by
    by_contra hc
    rw [hm, show info.firstBlock + info.tail = info.blocksPerGroup by omega, mod_self] at hpos
    omega
  rw [mod_eq_of_lt hlt] at hm
  simp only [remainingGroups, htr, if_true, allGroups, hne, if_false] at hr
  have hw := @wholeGroups_mul info (by omega)
  simp only [remainingBlocks, remainingGroups, lastSize, htr, if_true, allGroups, hne, if_false,
    hm, Nat.add_sub_cancel]
  omega

theorem not_cover_of_tail_eq_zero (hp : 0 < info.blocksPerGroup)
    (h : info.firstBlock < info.blocks) (hs : info.blockSize ≤ 1024) (ht : info.Trimmed)
    (hz : info.tail = 0) :
    ¬info.remainingBlocks ≤ info.firstBlock + u32 info.remainingGroups * info.blocksPerGroup := by
  have hb := blocks_eq h
  have hm := blocks_mod h
  have hpos := ht.left
  have hf : info.firstBlock = 1 := by simp [firstBlock, not_lt.mpr hs]
  have hp₁ : 1 < info.blocksPerGroup := by
    by_contra hc
    simp [show info.blocksPerGroup = 1 by omega, mod_one] at hpos
  rw [hf, hz, mod_eq_of_lt hp₁] at hm
  have hg : info.remainingGroups = info.wholeGroups - 1 := by
    simp [remainingGroups, ht, allGroups, hz]
  have hw : 0 < info.wholeGroups := by
    have := allGroups_pos hp h
    simpa [allGroups, hz] using this
  have hle := Nat.mul_le_mul_right info.blocksPerGroup (u32_le info.remainingGroups)
  have hw' := wholeGroups_mul hw
  simp only [remainingBlocks, ht, if_true, hm, hf, hg] at *
  omega

end FsInfo

section Reserve

variable {force : Bool} {i : Nat} {bg : BlockGroupInfo}

theorem reserveHeader_iff (hh : headerBlocks info aux i ≤ info.blocksPerGroup) :
    reserveHeader force (freshBg info aux i) = .ok (bg, true) ↔
      headerBlocks info aux i ≤ 16 * info.blockSize ∧ headerBlocks info aux i + 8 < 2 ^ 32 ∧
      bg = (freshBg info aux i).reserved 0 (headerBlocks info aux i) := by
  have hlt : headerBlocks info aux i < 2 ^ 32 := by
    simp only [headerBlocks]
    split <;> exact u32_lt _
  simp only [reserveHeader, freshBg]
  by_cases hw : headerBlocks info aux i + 8 < 2 ^ 32
  case neg =>
    simp only [hw, false_and, and_false, iff_false, reserveBlocks_ok_iff]
    rintro ⟨_, _, hok, _⟩
    exact reserveBits_ne_ok_of_wrap (by omega) hlt rfl (by omega) hok
  rw [reserveBlocks_iff (.inl hw) (by omega)]
  constructor
  case mp =>
    rintro ⟨_, hr, hbg⟩
    have := hr.le
    simp only [List.length_replicate] at this
    exact ⟨by omega, hw, hbg⟩
  case mpr =>
    rintro ⟨hle, _, hbg⟩
    refine ⟨hh, ⟨.inr ?_, ?_⟩, hbg⟩
    · simp only [List.length_replicate]; omega
    · intros; exact Bitmap.bit_replicate_zero

theorem reserveOverrun_iff (hh : headerBlocks info aux i ≤ min info.blocksPerGroup
      (aux.lenBlocks - (aux.firstDataBlock + i * info.blocksPerGroup)))
    (hl : headerBlocks info aux i ≤ 16 * info.blockSize)
    (hf : aux.firstDataBlock + i * info.blocksPerGroup < aux.lenBlocks) :
    (∃ bg, reserveOverrun force info aux
        ((freshBg info aux i).reserved 0 (headerBlocks info aux i)) = .ok (bg, true)) ↔
      (aux.lenBlocks < aux.firstDataBlock + (i + 1) * info.blocksPerGroup →
        aux.firstDataBlock + (i + 1) * info.blocksPerGroup < 2 ^ 32 →
        info.blocksPerGroup ≤ 16 * info.blockSize) := by
  have hp := info.blocksPerGroup_lt
  have hs : aux.firstDataBlock + (i + 1) * info.blocksPerGroup
      = aux.firstDataBlock + i * info.blocksPerGroup + info.blocksPerGroup := by ring
  have he : u32 (((freshBg info aux i).reserved 0 (headerBlocks info aux i)).firstBlock
      + info.blocksPerGroup) = u32 (aux.firstDataBlock + (i + 1) * info.blocksPerGroup) := by
    simp only [reserved, freshBg, hs, u32]
    omega
  simp only [reserveOverrun, he]
  rw [hs] at *
  generalize aux.firstDataBlock + i * info.blocksPerGroup = first at *
  by_cases hc : aux.lenBlocks < first + info.blocksPerGroup ∧ first + info.blocksPerGroup < 2 ^ 32
  case neg =>
    have hle : ¬aux.lenBlocks < u32 (first + info.blocksPerGroup) := by
      simp only [u32]
      omega
    simp only [gt_iff_lt, hle, if_false]
    constructor
    case mp  => rintro _ h₁ h₂; exact absurd ⟨h₁, h₂⟩ hc
    case mpr => rintro _; exact ⟨_, rfl⟩
  obtain ⟨hc₁, hc₂⟩ := hc
  have hst : subU32 info.blocksPerGroup (first + info.blocksPerGroup - aux.lenBlocks)
      = aux.lenBlocks - first := by
    rw [subU32_of_le (by omega) hp]
    omega
  simp only [u32_of_lt hc₂, gt_iff_lt, hc₁, hc₂, if_true, hst, forall_const]
  have hiff (bg) : reserveBlocks force ((freshBg info aux i).reserved 0 (headerBlocks info aux i))
      (aux.lenBlocks - first) (first + info.blocksPerGroup - aux.lenBlocks) = .ok (bg, true) ↔ _ :=
    reserveBlocks_iff (by omega) (by omega)
  simp only [hiff]
  constructor
  case mp =>
    rintro ⟨_, _, hr, _⟩
    have := hr.le
    simp only [reserved, freshBg, Bitmap.setRange_length, List.length_replicate] at this
    omega
  case mpr =>
    intro hb
    refine ⟨_, ?_, ⟨.inr ?_, ?_⟩, rfl⟩
    · simp only [reserved, freshBg]; omega
    · simp only [reserved, freshBg, Bitmap.setRange_length, List.length_replicate]
      omega
    · intro k hk _
      simp only [reserved, freshBg]
      rw [Bitmap.bit_setRange (by simp; omega), Bitmap.bit_replicate_zero]
      simp
      omega

end Reserve

-- What is computed when the number of groups fits its type.
def FsInfo.remaining (info : FsInfo) : FsAuxInfo :=
  { info.untrimmed with
    groups    := info.remainingGroups
    lenBlocks := info.remainingBlocks }

section Remaining

variable {force : Bool} {i : Nat} (hp : 0 < info.blocksPerGroup)
variable (hne : info.firstBlock < info.blocks) (hrem : 0 < info.remainingGroups)
variable (ht : info.blockSize ≤ 1024 → info.Trimmed → info.tail ≠ 0)

include hp hne hrem ht

theorem remaining_cover :
    info.firstBlock + (info.remainingGroups - 1) * info.blocksPerGroup < info.remainingBlocks ∧
    info.remainingBlocks ≤ info.firstBlock + info.remainingGroups * info.blocksPerGroup := by
  obtain ⟨hre, hlp, hll⟩ := remainingBlocks_eq hp hne ht hrem
  have hm : info.remainingGroups * info.blocksPerGroup
      = (info.remainingGroups - 1) * info.blocksPerGroup + info.blocksPerGroup := by
    rw [← succ_mul, succ_eq_add_one, Nat.sub_add_cancel hrem]
  omega

theorem remaining_inside (hi : i < info.remainingGroups) :
    min info.blocksPerGroup (info.remainingBlocks - (info.firstBlock + i * info.blocksPerGroup))
      = if i = info.remainingGroups - 1 then info.lastSize else info.blocksPerGroup := by
  obtain ⟨hre, hlp, hll⟩ := remainingBlocks_eq hp hne ht hrem
  split
  case isTrue h => rw [← h] at hre; omega
  case isFalse h =>
    have hm := Nat.mul_le_mul_right info.blocksPerGroup (show i + 1 ≤ info.remainingGroups - 1 by omega)
    rw [succ_mul] at hm
    omega

theorem remaining_overrun (hi : i < info.remainingGroups) :
    info.remainingBlocks < info.firstBlock + (i + 1) * info.blocksPerGroup ↔
      i = info.remainingGroups - 1 ∧ info.lastSize < info.blocksPerGroup := by
  obtain ⟨hre, hlp, hll⟩ := remainingBlocks_eq hp hne ht hrem
  by_cases h : i = info.remainingGroups - 1
  case pos =>
    rw [← h] at hre
    rw [succ_mul]
    omega
  have hm := Nat.mul_le_mul_right info.blocksPerGroup (show i + 1 ≤ info.remainingGroups - 1 by omega)
  omega

theorem remaining_geometry_iff : Geometry force info info.remaining ↔
    (∀ i < info.remainingGroups, info.header i ≤ info.blocksPerGroup) ∧
    (∀ i < info.remainingGroups, info.header i ≤ 16 * info.blockSize ∧ info.header i + 8 < 2 ^ 32) ∧
    info.header (info.remainingGroups - 1) ≤ info.lastSize ∧
    (info.lastSize < info.blocksPerGroup →
      info.firstBlock + info.remainingGroups * info.blocksPerGroup < 2 ^ 32 →
      info.blocksPerGroup ≤ 16 * info.blockSize) := by
  obtain ⟨hre, hlp, hll⟩ := remainingBlocks_eq hp hne ht hrem
  have hhdr (i) : headerBlocks info info.remaining i = info.header i := rfl
  have hlast : info.remainingGroups - 1 + 1 = info.remainingGroups := Nat.sub_add_cancel hrem
  have hbefore {i} (hi : i < info.remainingGroups) :
      info.firstBlock + i * info.blocksPerGroup < info.remainingBlocks := by
    have := Nat.mul_le_mul_right info.blocksPerGroup (show i ≤ info.remainingGroups - 1 by omega)
    omega
  constructor
  case mp =>
    intro hgeo
    have hle (i) (hi : i < info.remainingGroups) :
        headerBlocks info info.remaining i ≤ info.blocksPerGroup :=
      le_trans (hgeo.header_le i hi) (min_le_left _ _)
    have hfit (i) (hi : i < info.remainingGroups) :
        headerBlocks info info.remaining i ≤ 16 * info.blockSize ∧
        headerBlocks info info.remaining i + 8 < 2 ^ 32 := by
      obtain ⟨_, _, hr, _⟩ := hgeo.reserves i hi
      obtain ⟨h₁, h₂, _⟩ := (reserveHeader_iff (hle i hi)).mp hr
      exact ⟨h₁, h₂⟩
    refine ⟨hle, hfit, ?_, ?_⟩
    · have := hgeo.header_le (info.remainingGroups - 1) (by exact sub_lt hrem (by decide))
      have hin := remaining_inside hp hne hrem ht (sub_lt hrem one_pos)
      simp only [if_true] at hin
      exact hin ▸ this
    · intro hlt hs
      have hi : info.remainingGroups - 1 < info.remainingGroups := sub_lt hrem one_pos
      obtain ⟨_, bg', hr, hr'⟩ := hgeo.reserves _ hi
      obtain ⟨_, _, hbg⟩ := (reserveHeader_iff (hle _ hi)).mp hr
      subst hbg
      refine (reserveOverrun_iff (hgeo.header_le _ hi) (hfit _ hi).left (hbefore hi)).mp ⟨_, hr'⟩ ?_ ?_
      · exact (remaining_overrun hp hne hrem ht hi).mpr ⟨rfl, hlt⟩
      · rw [hlast]; exact hs
  case mpr =>
    rintro ⟨hle, hfit, hl, hbit⟩
    simp only [← hhdr] at hle hfit hl
    obtain ⟨hc₁, hc₂⟩ := remaining_cover hp hne hrem ht
    have hin (i) (hi : i < info.remainingGroups) : headerBlocks info info.remaining i
        ≤ min info.blocksPerGroup
          (info.remainingBlocks - (info.firstBlock + i * info.blocksPerGroup)) := by
      rw [remaining_inside hp hne hrem ht hi]
      split
      case isTrue h => exact h ▸ hl
      case isFalse  => exact hle i hi
    refine ⟨hc₁, hc₂, hin, ?_⟩
    intro i hi
    obtain ⟨hf₁, hf₂⟩ := hfit i hi
    obtain ⟨bg', hr⟩ : ∃ bg, reserveOverrun force info info.remaining
        ((freshBg info info.remaining i).reserved 0 (headerBlocks info info.remaining i))
          = .ok (bg, true) := by
      apply (reserveOverrun_iff (hin i hi) hf₁ (hbefore hi)).mpr
      intro h₁ h₂
      obtain ⟨h, hlt⟩ := (remaining_overrun hp hne hrem ht hi).mp h₁
      rw [h, hlast] at h₂
      exact hbit hlt h₂
    exact ⟨_, bg', (reserveHeader_iff (hle i hi)).mpr ⟨hf₁, hf₂, rfl⟩, hr⟩

end Remaining

-- `ext4_create_fs_aux_info` computes a right geometry exactly for the regular filesystems: the last
-- group's size modulo a group's counts the blocks before the first group.
theorem geometry_iff (force : Bool) (h : ext4CreateFsAuxInfo info = .ok aux) (hg : 0 < aux.groups) :
    Geometry force info aux ↔ info.Regular := by
  obtain ⟨hlen, hfirst⟩ := ext4CreateFsAuxInfo_bounds h
  by_cases hne : info.firstBlock < info.blocks
  case neg =>
    constructor
    case mp  => intro hgeo; have := hgeo.lt_lenBlocks; omega
    case mpr => intro hreg; exact absurd hreg.nonempty hne
  obtain ⟨_, hp, haux⟩ := ext4CreateFsAuxInfo_eq h (by omega)
  rw [trimLastGroup_untrimmed (allGroups_pos hp hne)] at haux
  have hrem : 0 < info.remainingGroups := by
    by_contra hc
    simp [haux, show info.remainingGroups = 0 by omega, u32] at hg
  constructor
  case mp =>
    intro hgeo
    have hlt := hgeo.lt_lenBlocks
    have hle := hgeo.lenBlocks_le
    simp only [haux] at hlt hle
    have htail : info.blockSize ≤ 1024 → info.Trimmed → info.tail ≠ 0 := by
      intro hs ht hz
      exact not_cover_of_tail_eq_zero hp hne hs ht hz hle
    obtain ⟨hc₁, hc₂⟩ := remaining_cover hp hne hrem htail
    have hr : u32 info.remainingGroups = info.remainingGroups := cover_unique hlt hle hc₁ hc₂
    rw [haux, hr] at hgeo
    obtain ⟨h₁, h₂, h₃, h₄⟩ := (remaining_geometry_iff hp hne hrem htail).mp hgeo
    exact ⟨hne, u32_eq_iff.mp hr, htail, h₁, h₂, h₃, h₄⟩
  case mpr =>
    intro hreg
    rw [haux, u32_of_lt hreg.remaining_lt]
    exact (remaining_geometry_iff hp hne hrem hreg.tail_ne).mpr
      ⟨hreg.header_le, hreg.header_fits, hreg.last_le, hreg.bitmap_fits⟩

-- Filesystems of 1K blocks, with the default size of the groups.
def smallBlocks (blocks : Nat) (h : blocks * 1024 < 2 ^ 63) : FsInfo :=
  .ofNats (blocks * 1024) 1024 8192 2048 256 1 256 (FsInfo.inRange_iff.mpr ⟨h, by decide⟩)

theorem geometry_partial_last_group :
    ∃ aux, ext4CreateFsAuxInfo (smallBlocks 20000 (by decide)) = .ok aux ∧ aux.groups = 3 ∧
      Geometry false (smallBlocks 20000 (by decide)) aux := by
  refine ⟨_, rfl, rfl, (geometry_iff false rfl (by decide)).mpr ?_⟩
  exact {
    nonempty := by decide
    remaining_lt := by decide
    tail_ne := by decide
    header_le := by decide
    header_fits := by decide
    last_le := by decide
    bitmap_fits := by decide
  }

-- With two whole groups of 1K blocks, the second is given up with one block only.
theorem not_geometry_whole_last_group :
    ∃ aux, ext4CreateFsAuxInfo (smallBlocks 16385 (by decide)) = .ok aux ∧ 0 < aux.groups ∧
      ¬Geometry false (smallBlocks 16385 (by decide)) aux := by
  refine ⟨_, rfl, by decide, ?_⟩
  intro h
  exact absurd h.lenBlocks_le (by decide)

end Ext4
