import PlatformKnife.Ext4.Run
import PlatformKnife.Ext4.Theorems.Geometry

namespace Ext4

open CInt List BlockGroupInfo Bitmap

namespace Layout

variable {l : Layout} {i j : Nat}

theorem headerLen_le (hi : i < l.aux.groups) : l.headerLen i ≤ l.groupLen i :=
  l.fits i hi

theorem groupLen_le : l.groupLen i ≤ l.info.blocksPerGroup :=
  min_le_left _ _

theorem headerLen_ge : 2 ≤ l.headerLen i := by
  simp only [headerLen]
  omega

theorem headerBlocks_eq (hi : i < l.aux.groups) : Ext4.headerBlocks l.info l.aux i = l.headerLen i := by
  have h := lt_of_le_of_lt (le_trans (headerLen_le hi) groupLen_le) l.info.blocksPerGroup_lt
  simp only [Ext4.headerBlocks, headerLen, superLen] at *
  split <;> simp_all [u32_of_lt]

theorem first_succ_le (ha : l.Addressable) (hi : i < l.aux.groups) :
    l.first i + l.info.blocksPerGroup + 8 < 2 ^ 32 := by
  have hb := ha.blocks
  have := Nat.mul_le_mul_right l.info.blocksPerGroup (show i + 1 ≤ l.aux.groups by omega)
  rw [Nat.succ_mul] at this
  simp only [first]
  omega

theorem group_unique (hi : l.first i ≤ block) (hi' : block < l.first i + l.info.blocksPerGroup)
    (hj : l.first j ≤ block) (hj' : block < l.first j + l.info.blocksPerGroup) : i = j := by
  have key {m n : Nat} (hm : l.first m ≤ block) (hn : block < l.first n + l.info.blocksPerGroup) :
      m ≤ n := by
    by_contra hc
    have := Nat.mul_le_mul_right l.info.blocksPerGroup (show n + 1 ≤ m by omega)
    rw [Nat.succ_mul] at this
    simp only [first] at *
    omega
  exact le_antisymm (key hi hj') (key hj hi')

end Layout

-- A bitmap that is marked up to the first free block and from the device's end on.
structure GroupOk (l : Layout) (i : Nat) (bg : BlockGroupInfo) : Prop where
  firstBlock : bg.firstBlock = l.first i
  super : bg.hasSuperblock = ext4BgHasSuperBlock l.info (i32 i)
  length : bg.bitmaps.length = 2 * l.info.blockSize
  header_le : l.headerLen i ≤ bg.firstFreeBlock
  le : bg.firstFreeBlock ≤ l.info.blocksPerGroup
  free : bg.freeBlocks = l.groupLen i - bg.firstFreeBlock
  bit : ∀ b < l.info.blocksPerGroup,
    Bitmap.bit bg.bitmaps b = decide (b < bg.firstFreeBlock ∨ l.groupLen i ≤ b)

variable {l : Layout} {i : Nat} {bg bg' : BlockGroupInfo}

namespace GroupOk

theorem counted (ha : l.Addressable) (h : GroupOk l i bg) : Counted l i bg := by
  have hle := h.le
  have hgl := @Layout.groupLen_le l i
  have hbits : (bg.blockBits l.info).take l.info.blocksPerGroup =
      replicate bg.firstFreeBlock true ++ replicate (l.groupLen i - bg.firstFreeBlock) false
        ++ replicate (l.info.blocksPerGroup - max bg.firstFreeBlock (l.groupLen i)) true := by
    have hb := ha.bitmap
    apply ext_getElem
    case hl =>
      simp [blockBits]
      omega
    case h =>
      intro k h₁ h₂
      simp only [blockBits, length_take, length_map, length_range] at h₁
      simp only [blockBits, getElem_take, getElem_map, getElem_range,
        h.bit k (by omega), getElem_append, getElem_replicate, length_append,
        length_replicate]
      split
      case isFalse => simp; omega
      split
      case isTrue hk  => simp [hk]
      case isFalse hk => simp; omega
  refine ⟨hbits, ?_⟩
  rw [hbits, h.free]
  simp [count_append, count_replicate]

theorem add_le (h : GroupOk l i bg) (hn : num ≤ bg.freeBlocks) :
    bg.firstFreeBlock + num ≤ l.info.blocksPerGroup ∧
    (0 < num → bg.firstFreeBlock + num ≤ l.groupLen i) := by
  have := h.free
  have := h.le
  have := @Layout.groupLen_le l i
  omega

theorem reserveBlocks_eq (ha : l.Addressable) (hi : i < l.aux.groups) (h : GroupOk l i bg)
    (hn : num ≤ bg.freeBlocks) :
    reserveBlocks force bg bg.firstFreeBlock num = .ok (bg.reserved bg.firstFreeBlock num, true) := by
  have hs := Layout.first_succ_le ha hi
  have hb := ha.bitmap
  have hl := h.length
  obtain ⟨hle, hlg⟩ := h.add_le hn
  refine (reserveBlocks_iff (.inl (by omega)) (by omega)).mpr ⟨hn, ⟨.inr (by omega), ?_⟩, rfl⟩
  intro b hb₁ hb₂
  rw [h.bit b (by omega)]
  simp
  omega

theorem reserved (ha : l.Addressable) (h : GroupOk l i bg) (hn : num ≤ bg.freeBlocks) :
    GroupOk l i (bg.reserved bg.firstFreeBlock num) := by
  have hb := ha.bitmap
  have hh := h.header_le
  have hl := h.length
  obtain ⟨hle, hlg⟩ := h.add_le hn
  constructor
  case firstBlock => exact h.firstBlock
  case super => exact h.super
  case length => simpa [BlockGroupInfo.reserved] using h.length
  case header_le => simp only [BlockGroupInfo.reserved, if_true]; omega
  case le => simpa [BlockGroupInfo.reserved] using hle
  case free => simp only [BlockGroupInfo.reserved, if_true, h.free]; omega
  case bit =>
    intro b hb
    simp only [BlockGroupInfo.reserved, if_true]
    rw [Bitmap.bit_setRange (by omega), h.bit b hb, Bool.eq_iff_iff]
    simp only [Bool.or_eq_true, decide_eq_true_eq]
    omega

end GroupOk

def BlockGroupInfo.released (bg : BlockGroupInfo) : BlockGroupInfo :=
  { bg with
    bitmaps := Bitmap.clearBit bg.bitmaps (bg.firstFreeBlock - 1)
    freeBlocks := bg.freeBlocks + 1
    firstFreeBlock := bg.firstFreeBlock - 1 }

section

variable (ha : l.Addressable) (hi : i < l.aux.groups)

include ha hi

theorem GroupOk.release (h : GroupOk l i bg)
    (hh : l.headerLen i < bg.firstFreeBlock) (hg : bg.firstFreeBlock ≤ l.groupLen i) :
    freeBlocks bg 1 = .ok bg.released ∧ GroupOk l i bg.released := by
  have hs := Layout.first_succ_le ha hi
  have hb := ha.bitmap
  have hgl := @Layout.groupLen_le l i
  have hl := h.length
  have hf := h.free
  have hu : subU32 bg.firstFreeBlock 1 = bg.firstFreeBlock - 1 :=
    subU32_of_le (by omega) (by omega)
  have hin : (bg.firstFreeBlock - 1) / 8 < bg.bitmaps.length := by omega
  constructor
  case left =>
    have hbits : freeBits 1 bg.bitmaps (bg.firstFreeBlock - 1)
        = .ok (clearBit bg.bitmaps (bg.firstFreeBlock - 1)) := by
      rw [freeBits, if_pos hin, freeBits]
    have hfree : u32 (bg.freeBlocks + 1) = bg.freeBlocks + 1 := u32_of_lt (by omega)
    rw [freeBlocks, hu, hbits, hfree]
    rfl
  case right =>
    constructor
    case firstBlock => exact h.firstBlock
    case super => exact h.super
    case length => simpa [released] using h.length
    case header_le => simp only [released]; omega
    case le => simp only [released]; omega
    case free => simp only [released]; omega
    case bit =>
      intro b hb
      simp only [released]
      rw [bit_clearBit hin, h.bit b hb]
      by_cases hbe : b = bg.firstFreeBlock - 1
      case pos => simp [hbe]; omega
      simp only [hbe, decide_false, Bool.not_false, Bool.and_true]
      refine decide_eq_decide.mpr ?_
      omega

theorem reserveHeader_eq :
    reserveHeader force (freshBg l.info l.aux i)
      = .ok ((freshBg l.info l.aux i).reserved 0 (l.headerLen i), true) := by
  have hs := Layout.first_succ_le ha hi
  have hb := ha.bitmap
  have hh := Layout.headerLen_le hi
  have hg := @Layout.groupLen_le l i
  have := Layout.headerBlocks_eq hi
  refine (reserveHeader_iff (by omega)).mpr ⟨by omega, by omega, ?_⟩
  rw [this]

theorem reserveOverrun_eq :
    reserveOverrun force l.info l.aux ((freshBg l.info l.aux i).reserved 0 (l.headerLen i))
      = .ok (if l.groupLen i < l.info.blocksPerGroup then
          ((freshBg l.info l.aux i).reserved 0 (l.headerLen i)).reserved (l.groupLen i)
            (l.info.blocksPerGroup - l.groupLen i)
        else
          (freshBg l.info l.aux i).reserved 0 (l.headerLen i), true) := by
  have hs := Layout.first_succ_le ha hi
  have hb := ha.bitmap
  have hh := Layout.headerLen_le hi
  have hh₂ := @Layout.headerLen_ge l i
  have hg := @Layout.groupLen_le l i
  have he : u32 (((freshBg l.info l.aux i).reserved 0 (l.headerLen i)).firstBlock
      + l.info.blocksPerGroup) = l.first i + l.info.blocksPerGroup := by
    simp only [reserved, freshBg, u32, Layout.first] at *
    omega
  have hgl : l.groupLen i = min l.info.blocksPerGroup (l.aux.lenBlocks - l.first i) := rfl
  simp only [reserveOverrun, he]
  by_cases hc : l.groupLen i < l.info.blocksPerGroup
  case neg => rw [if_neg (by omega), if_neg hc]
  have hst : subU32 l.info.blocksPerGroup (l.first i + l.info.blocksPerGroup - l.aux.lenBlocks)
      = l.groupLen i := by
    rw [subU32_of_le (by omega) (by omega)]
    omega
  have hov : l.first i + l.info.blocksPerGroup - l.aux.lenBlocks
      = l.info.blocksPerGroup - l.groupLen i := by omega
  rw [if_pos (by omega), if_pos hc, hst, hov]
  refine (reserveBlocks_iff (.inl (by omega)) (by omega)).mpr ⟨?_, ⟨.inr ?_, ?_⟩, rfl⟩
  · simp only [reserved, freshBg]; omega
  · simp only [reserved, freshBg, setRange_length, length_replicate]
    omega
  · intro b hb₁ hb₂
    simp only [reserved, freshBg]
    rw [bit_setRange (by simp; omega), bit_replicate_zero]
    simp
    omega

end

theorem initBg_eq_ok (hr : reserveHeader force (freshBg info aux i) = .ok (bg, true))
    (ho : reserveOverrun force info aux bg = .ok (bg', ok)) : initBg force info aux i = .ok bg' := by
  simp [initBg, hr, ho]

-- When a header fills a short group, the first free block is behind the missing ones.
theorem initBg_ok (force : Bool) (ha : l.Addressable) (hi : i < l.aux.groups) :
    ∃ bg, initBg force l.info l.aux i = .ok bg ∧ GroupOk l i bg := by
  have hs := Layout.first_succ_le ha hi
  have hb := ha.bitmap
  have hh := Layout.headerLen_le hi
  have hg := @Layout.groupLen_le l i
  have hfirst : u32 (l.aux.firstDataBlock + i * l.info.blocksPerGroup) = l.first i :=
    u32_of_lt (by simp only [Layout.first] at hs; omega)
  have hbit (b) : bit (setRange (replicate (2 * l.info.blockSize) 0#8) 0
      (l.headerLen i)) b = decide (b < l.headerLen i) := by
    rw [bit_setRange (by simp; omega), bit_replicate_zero]
    simp
  refine ⟨_, initBg_eq_ok (reserveHeader_eq ha hi) (reserveOverrun_eq ha hi), ?_⟩
  by_cases hc : l.groupLen i < l.info.blocksPerGroup
  case pos =>
    simp only [if_pos hc]
    constructor
    case firstBlock => exact hfirst
    case super => rfl
    case length => simp [reserved, freshBg]
    case header_le => simp only [reserved, freshBg, if_true]; split <;> omega
    case le => simp only [reserved, freshBg, if_true]; split <;> omega
    case free => simp only [reserved, freshBg, if_true]; split <;> omega
    case bit =>
      intro b hb₁
      simp only [reserved, freshBg, if_true]
      rw [bit_setRange (by simp; omega), hbit, ← Bool.decide_or]
      refine decide_eq_decide.mpr ?_
      split <;> omega
  simp only [if_neg hc]
  constructor
  case firstBlock => exact hfirst
  case super => rfl
  case length => simp [reserved, freshBg]
  case header_le => simp [reserved, freshBg]
  case le => simp only [reserved, freshBg, if_true]; omega
  case free => simp only [reserved, freshBg, if_true]; omega
  case bit =>
    intro b hb₁
    simp only [reserved, freshBg, if_true]
    rw [hbit]
    refine decide_eq_decide.mpr ?_
    omega

end Ext4
