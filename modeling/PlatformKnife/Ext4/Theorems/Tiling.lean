import PlatformKnife.Ext4.Mapping

-- The extents written for some regions, and the data queued for them.
namespace Ext4

open CInt List Nat Extent

variable {info : FsInfo} {reg : Region} {regs : List Region} {filename : String}

def extentsFrom : Nat → List Region → List Extent
  | _, [] => []
  | fileBlock, reg :: regs =>
    { eeBlock := fileBlock, eeLen := u16 reg.len, eeStartHi := 0, eeStartLo := reg.block }
      :: extentsFrom (u32 (fileBlock + reg.len)) regs

@[simp]
theorem extentsFrom_length : (extentsFrom fileBlock regs).length = regs.length := by
  induction regs generalizing fileBlock
  case nil  => rfl
  case cons => simp [extentsFrom, *]

theorem subU32_zero (h : n < 2 ^ 32) : subU32 n 0 = n := by
  rw [subU32_of_le (Nat.zero_le n) h, Nat.sub_zero]

theorem writeExtents_iff (hlen : ∀ reg ∈ regs, reg.len < 2 ^ 32) :
    writeExtents room fileBlock 0 regs = .ok extents ↔
      regs.length * sizeofExtent ≤ room ∧ extents = extentsFrom fileBlock regs := by
  induction regs generalizing room fileBlock extents
  case nil => simp [writeExtents, extentsFrom, eq_comm]
  case cons reg regs ih =>
    have hsub := subU32_zero (hlen reg mem_cons_self)
    have ih {extents} := @ih (room - sizeofExtent) (u32 (fileBlock + reg.len)) extents fun r hr =>
      hlen r (mem_cons_of_mem _ hr)
    rw [writeExtents, length_cons, succ_mul, hsub]
    by_cases hroom : room < sizeofExtent
    case pos =>
      simp only [hroom, if_true, fault, Except.error_bind, reduceCtorEq, false_iff]
      omega
    simp only [hroom, if_false, Except.pure_eq_ok]
    have hiff : regs.length * sizeofExtent + sizeofExtent ≤ room ↔
        regs.length * sizeofExtent ≤ room - sizeofExtent := by omega
    cases hw : writeExtents (room - sizeofExtent) (u32 (fileBlock + reg.len)) 0 regs
    case error e =>
      have := @ih (extentsFrom (u32 (fileBlock + reg.len)) regs)
      simp only [hw, reduceCtorEq, and_true, false_iff] at this
      simp only [Except.error_bind, reduceCtorEq, hiff, this, false_and]
    case ok es =>
      obtain ⟨hle, hes⟩ := ih.mp hw
      simp [hiff, hle, hes, extentsFrom, eq_comm]

theorem sum_eeLen_le : ((extentsFrom fileBlock regs).map eeLen).sum ≤ (regs.map Region.len).sum := by
  induction regs generalizing fileBlock
  case nil => simp [extentsFrom]
  case cons reg regs ih =>
    have := @ih (u32 (fileBlock + reg.len))
    have := mod_le reg.len (2 ^ 16)
    simp only [extentsFrom, map_cons, sum_cons, u16]
    omega

theorem sum_eeLen_iff :
    ((extentsFrom fileBlock regs).map eeLen).sum = (regs.map Region.len).sum ↔
      ∀ reg ∈ regs, reg.len < 2 ^ 16 := by
  induction regs generalizing fileBlock
  case nil => simp [extentsFrom]
  case cons reg regs ih =>
    have hle := @sum_eeLen_le regs (u32 (fileBlock + reg.len))
    have hmod := mod_le reg.len (2 ^ 16)
    have hlt : reg.len % 2 ^ 16 = reg.len ↔ reg.len < 2 ^ 16 := mod_eq_iff_lt (by decide)
    rw [forall_mem_cons, ← @ih (u32 (fileBlock + reg.len)), ← hlt]
    simp only [extentsFrom, map_cons, sum_cons, u16]
    omega

theorem extentsFrom_contiguous (hlt : ∀ reg ∈ regs, reg.len < 2 ^ 16)
    (hsum : fileBlock + (regs.map Region.len).sum < 2 ^ 32) :
    Contiguous fileBlock (extentsFrom fileBlock regs) := by
  induction regs generalizing fileBlock
  case nil => trivial
  case cons reg regs ih =>
    simp only [map_cons, sum_cons] at hsum
    obtain ⟨hreg, hregs⟩ := forall_mem_cons.mp hlt
    have hu16 : u16 reg.len = reg.len := mod_eq_of_lt hreg
    have hu32 : u32 (fileBlock + reg.len) = fileBlock + reg.len := u32_of_lt (by omega)
    refine ⟨rfl, ?_⟩
    simp only [hu16, hu32]
    exact ih hregs (by omega)

theorem extentsFrom_blocks (hlt : ∀ reg ∈ regs, reg.len < 2 ^ 16) :
    (extentsFrom fileBlock regs).flatMap blocks = regs.flatMap Region.blocks := by
  induction regs generalizing fileBlock
  case nil => rfl
  case cons reg regs ih =>
    obtain ⟨hreg, hregs⟩ := forall_mem_cons.mp hlt
    have hu16 : u16 reg.len = reg.len := mod_eq_of_lt hreg
    simp only [extentsFrom, flatMap_cons, ih hregs, blocks, start, Region.blocks, hu16, zero_mul, zero_add]

-- The regions are as many blocks as what is left of the file and not empty, so that the loop ends with
-- the last.
structure Backs (info : FsInfo) (regs : List Region) (fileBlock rest : Nat) : Prop where
  pos : ∀ reg ∈ regs, 0 < reg.len
  lt  : ∀ reg ∈ regs, reg.len < 2 ^ 16
  sum : fileBlock + (regs.map Region.len).sum < 2 ^ 32
  le  : rest ≤ (regs.map Region.len).sum * info.blockSize
  gt  : (regs.map Region.len).sum * info.blockSize < rest + info.blockSize

namespace Backs

theorem head_lt (h : Backs info (reg :: regs) fileBlock rest) :
    reg.len * info.blockSize < rest + info.blockSize ∧ 0 < rest := by
  have hgt := h.gt
  have hpos := h.pos reg mem_cons_self
  have := Nat.mul_le_mul_right info.blockSize hpos
  simp only [map_cons, sum_cons, add_mul] at hgt
  omega

theorem tail (h : Backs info (reg :: regs) fileBlock rest) :
    Backs info regs (fileBlock + reg.len) (rest - min (reg.len * info.blockSize) rest) ∧
      (regs ≠ [] → min (reg.len * info.blockSize) rest = reg.len * info.blockSize) := by
  obtain ⟨hpos, hlt, hsum, hle, hgt⟩ := h
  simp only [map_cons, sum_cons, add_mul] at hsum hle hgt
  have hregs := (forall_mem_cons.mp hpos).right
  obtain _ | ⟨reg', regs⟩ := regs
  · simp only [map_nil, sum_nil, zero_mul] at hle hgt
    exact ⟨⟨hregs, by simp, by simp; omega, by omega, by simp; omega⟩, by simp⟩
  have hpos' := Nat.mul_le_mul_right info.blockSize (hregs reg' mem_cons_self)
  have hmin : min (reg.len * info.blockSize) rest = reg.len * info.blockSize := by
    simp only [map_cons, sum_cons, add_mul] at hgt
    omega
  rw [hmin]
  refine ⟨⟨hregs, (forall_mem_cons.mp hlt).right, by omega, by omega, by omega⟩, fun _ => rfl⟩

end Backs

theorem bind_cons_eq_ok_iff :
    (do let xs ← x; return a :: xs) = Except.ok (b :: bs) ↔ a = b ∧ x = .ok bs := by
  cases x <;> simp

theorem backingFile_iff (h : Backs info regs fileBlock rest)
    (hlen : len = fileBlock * info.blockSize + rest) :
    backingFile info filename regs 0 (fileBlock * info.blockSize) rest
        = .ok ((extentsFrom fileBlock regs).map (queued info len filename)) ↔
      ∀ reg ∈ regs, reg.len * info.blockSize < 2 ^ 32 := by
  induction regs generalizing fileBlock rest
  case nil =>
    have : rest = 0 := by have := h.le; simpa using this
    simp [this, backingFile, extentsFrom]
  case cons reg regs ih =>
    obtain ⟨hhead, hrest⟩ := h.head_lt
    obtain ⟨htail, hmin⟩ := h.tail
    have hu16 : u16 reg.len = reg.len := mod_eq_of_lt (h.lt reg mem_cons_self)
    have hu32 : u32 (fileBlock + reg.len) = fileBlock + reg.len := by
      have := h.sum
      simp only [map_cons, sum_cons] at this
      exact u32_of_lt (by omega)
    have hsub : subU32 reg.len 0 = reg.len :=
      subU32_zero (lt_trans (h.lt reg mem_cons_self) (by decide))
    -- A size that wraps is too small by more than the last block.
    have hfit : min (u32 (reg.len * info.blockSize)) rest = min (reg.len * info.blockSize) rest ↔
        reg.len * info.blockSize < 2 ^ 32 := by
      have hbs := info.blockSize_lt
      refine ⟨?_, fun hlt => by rw [u32_of_lt hlt]⟩
      intro heq
      by_contra hnot
      have hwrap : u32 (reg.len * info.blockSize) + 2 ^ 32 ≤ reg.len * info.blockSize := by
        simp only [u32]
        omega
      omega
    have hrestEq : len - fileBlock * info.blockSize = rest := by omega
    obtain ⟨r, hr⟩ : ∃ r, rest = r + 1 := ⟨rest - 1, by omega⟩
    rw [hr, backingFile, ← hr, hsub, extentsFrom, map_cons, bind_cons_eq_ok_iff, forall_mem_cons, ← hfit]
    simp only [queued, start, hu16, hu32, hrestEq, zero_mul, zero_add, Queued.mk.injEq, true_and, and_true]
    refine and_congr_right fun heq => ?_
    rw [heq]
    obtain _ | ⟨reg', regs⟩ := regs
    · have := htail.le
      have : rest - min (reg.len * info.blockSize) rest = 0 := by simpa using this
      simp [this, backingFile, extentsFrom]
    have hadd : fileBlock * info.blockSize + min (reg.len * info.blockSize) rest
        = (fileBlock + reg.len) * info.blockSize := by rw [hmin (by simp), add_mul]
    rw [hadd]
    exact ih htail (by omega)

section

variable (hbs : 0 < info.blockSize)
include hbs

theorem fileBlocks_bounds (len : Nat) : len ≤ fileBlocks info len * info.blockSize ∧
    fileBlocks info len * info.blockSize < len + info.blockSize := by
  have hdiv := div_add_mod (len + info.blockSize - 1) info.blockSize
  have hmod := mod_lt (len + info.blockSize - 1) hbs
  rw [mul_comm] at hdiv
  simp only [fileBlocks]
  omega

theorem fileBlocks_pos (hlen : 0 < len) : 0 < fileBlocks info len :=
  Nat.div_pos (by omega) hbs

theorem u32_blockLen_succ (hlt : fileBlocks info len + 1 < 2 ^ 32) :
    u32 (blockLen info len + 1) = fileBlocks info len + 1 := by
  obtain ⟨hle, hgt⟩ := fileBlocks_bounds hbs len
  have hmul : fileBlocks info len * info.blockSize ≤ (2 ^ 32 - 2) * (2 ^ 32 - 1) :=
    Nat.mul_le_mul (by omega) (le_sub_one_of_lt info.blockSize_lt)
  have hu64 : u64 (len + info.blockSize - 1) = len + info.blockSize - 1 :=
    u64_of_lt (by have := info.blockSize_lt; omega)
  have hblockLen : blockLen info len = fileBlocks info len := by
    rw [blockLen, hu64]
    exact u32_of_lt (show fileBlocks info len < 2 ^ 32 by omega)
  rw [hblockLen, u32_of_lt hlt]

theorem le_maxRegion_iff : n ≤ maxRegion info ↔ n < 2 ^ 16 ∧ n * info.blockSize < 2 ^ 32 := by
  rw [maxRegion, Nat.le_min, le_div_iff_mul_le hbs]
  omega

end

-- What the map of a file comes down to, once the regions are known.
structure Tiles (info : FsInfo) (len : Nat) (filename : String) (regs : List Region)
    (allocationLen ehMax : Nat) : Prop where
  queued : backingFile info filename regs 0 0 len
    = .ok ((extentsFrom 0 regs).map (Extent.queued info len filename))
  entries : u16 allocationLen = regs.length
  max : u16 allocationLen ≤ ehMax
  contiguous : Contiguous 0 (extentsFrom 0 regs)
  sum : ((extentsFrom 0 regs).map Extent.eeLen).sum = fileBlocks info len
  nodup : ((extentsFrom 0 regs).flatMap Extent.blocks).Nodup
  owned : ∀ block ∈ (extentsFrom 0 regs).flatMap Extent.blocks, block ∈ regs.flatMap Region.blocks

theorem Tiles.fileBlocks_le (h : Tiles info len filename regs allocationLen ehMax) :
    fileBlocks info len ≤ (regs.map Region.len).sum :=
  h.sum ▸ sum_eeLen_le

theorem tiles_iff (hbs : 0 < info.blockSize) (hpos : ∀ reg ∈ regs, 0 < reg.len)
    (hnodup : (regs.flatMap Region.blocks).Nodup)
    (hsum : (regs.map Region.len).sum + 1 = u32 (blockLen info len + 1)) :
    Tiles info len filename regs regs.length ehMax ↔
      fileBlocks info len + 1 < 2 ^ 32 ∧ regs.length < 2 ^ 16 ∧ regs.length ≤ ehMax ∧
      ∀ reg ∈ regs, reg.len ≤ maxRegion info := by
  have hlt := u32_lt (blockLen info len + 1)
  obtain ⟨hle, hgt⟩ := fileBlocks_bounds hbs len
  have hu16 : u16 regs.length = regs.length ↔ regs.length < 2 ^ 16 := mod_eq_iff_lt (by decide)
  -- The regions have the blocks of the file if these can be numbered.
  have hall (hf : fileBlocks info len + 1 < 2 ^ 32) : (regs.map Region.len).sum = fileBlocks info len := by
    have := u32_blockLen_succ hbs hf
    omega
  have hbacks (hf : fileBlocks info len + 1 < 2 ^ 32) (hl : ∀ reg ∈ regs, reg.len < 2 ^ 16) :
      Backs info regs 0 len :=
    ⟨hpos, hl, by rw [hall hf]; omega, by rwa [hall hf], by rwa [hall hf]⟩
  have hqueued (hf) (hl) := @backingFile_iff info regs filename 0 len len (hbacks hf hl) (by simp)
  simp only [zero_mul] at hqueued
  constructor
  case mp =>
    intro h
    have hf : fileBlocks info len + 1 < 2 ^ 32 := by have := h.fileBlocks_le; omega
    have hl := sum_eeLen_iff.mp (h.sum.trans (hall hf).symm)
    have hbytes := (hqueued hf hl).mp h.queued
    refine ⟨hf, hu16.mp h.entries, h.entries ▸ h.max, ?_⟩
    intro reg hreg
    exact (le_maxRegion_iff hbs).mpr ⟨hl reg hreg, hbytes reg hreg⟩
  case mpr =>
    rintro ⟨hf, hk, hmax, hm⟩
    have hm (reg) (hreg : reg ∈ regs) := (le_maxRegion_iff hbs).mp (hm reg hreg)
    have hl (reg) (hreg : reg ∈ regs) := (hm reg hreg).left
    have hblocks := @extentsFrom_blocks regs 0 hl
    exact {
      queued := (hqueued hf hl).mpr fun reg hreg => (hm reg hreg).right
      entries := hu16.mpr hk
      max := by rwa [hu16.mpr hk]
      contiguous := extentsFrom_contiguous hl (by rw [hall hf]; omega)
      sum := (sum_eeLen_iff.mpr hl).trans (hall hf)
      nodup := by rwa [hblocks]
      owned := by simp [hblocks]
    }

end Ext4
