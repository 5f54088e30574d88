import PlatformKnife.Lib.Bump
import PlatformKnife.Ext4.Theorems.Group

namespace Ext4

open CInt Bump List Except

variable {l : Layout} {bgs bgs' bgs'' : List BlockGroupInfo} {bg : BlockGroupInfo} {force : Bool}

def Layout.arenas (l : Layout) : Arenas Nat where
  base := l.first
  size := l.groupLen
  disjoint i j x := by
    have hi := @Layout.groupLen_le l i
    have hj := @Layout.groupLen_le l j
    intro h₁ h₂ h₃ h₄
    exact Layout.group_unique h₁ (by omega) h₃ (by omega)

@[simp]
theorem Layout.arenas_base (l : Layout) : l.arenas.base = l.first :=
  rfl

@[simp]
theorem Layout.arenas_size (l : Layout) : l.arenas.size = l.groupLen :=
  rfl

def cursor (bgs : List BlockGroupInfo) (i : Nat) : Nat :=
  match bgs[i]? with
  | some bg => bg.firstFreeBlock
  | none => 0

theorem cursor_of_some (h : bgs[i]? = some bg) : cursor bgs i = bg.firstFreeBlock := by
  simp [cursor, h]

theorem cursor_set (hi : i < bgs.length) :
    cursor (bgs.set i bg) = Function.update (cursor bgs) i bg.firstFreeBlock := by
  funext j
  by_cases hj : j = i
  case pos => subst hj; simp [cursor, hi]
  case neg => simp [cursor, hj, Ne.symm hj]

structure BgsOk (l : Layout) (bgs : List BlockGroupInfo) : Prop where
  length : bgs.length = l.aux.groups
  group  : ∀ i bg, bgs[i]? = some bg → GroupOk l i bg

theorem BgsOk.lt (h : BgsOk l bgs) (hi : bgs[i]? = some bg) : i < l.aux.groups :=
  h.length ▸ (List.getElem?_eq_some_iff.mp hi).fst

theorem BgsOk.set (h : BgsOk l bgs) (hg : GroupOk l i bg) : BgsOk l (bgs.set i bg) where
  length := by simpa using h.length
  group j bg' := by
    intro hj
    by_cases hij : i = j
    case neg =>
      rw [getElem?_set_ne hij] at hj
      exact h.group j bg' hj
    subst hij
    simp only [getElem?_set_self', Option.map_eq_map, Option.map_eq_some_iff] at hj
    obtain ⟨_, _, hj⟩ := hj
    exact hj ▸ hg

-- A call that keeps the accounting, hands out blocks and leaves the inode tables.
structure Allocates (l : Layout) (bgs bgs' : List BlockGroupInfo) (blocks : List Nat) : Prop where
  ok : BgsOk l bgs'
  grants : Grants l.arenas (cursor bgs) (cursor bgs') blocks
  tables : bgs'.map BlockGroupInfo.inodeTable = bgs.map BlockGroupInfo.inodeTable

theorem map_set_eq (hi : bgs[i]? = some bg) (hf : f bg₁ = f bg) : (bgs.set i bg₁).map f = bgs.map f := by
  obtain ⟨hlt, hget⟩ := List.getElem?_eq_some_iff.mp hi
  have hlt' : i < (bgs.map f).length := by simpa using hlt
  have hval : (bgs.map f)[i] = f bg₁ := by simp [hget, hf]
  rw [map_set, ← hval, set_getElem_self]

namespace Allocates

theorem refl (h : BgsOk l bgs) : Allocates l bgs bgs [] :=
  ⟨h, .refl _ _, rfl⟩

theorem trans (h : Allocates l bgs bgs' xs) (h' : Allocates l bgs' bgs'' ys) :
    Allocates l bgs bgs'' (ys ++ xs) :=
  ⟨h'.ok, h.grants.trans h'.grants, h'.tables.trans h.tables⟩

theorem subperm (h : Allocates l bgs bgs' xs) (hs : ys.Subperm xs) : Allocates l bgs bgs' ys :=
  ⟨h.ok, h.grants.subperm hs, h.tables⟩

end Allocates

theorem ext4AllocateBlocksFromBlockGroup_ok (ha : l.Addressable) (h : BgsOk l bgs)
    (hi : bgs[i]? = some bg) (hn : len ≤ bg.freeBlocks) :
    ext4AllocateBlocksFromBlockGroup force bgs len i
      = .ok (bgs.set i (bg.reserved bg.firstFreeBlock len), l.first i + bg.firstFreeBlock) := by
  have hg := h.group i bg hi
  have hs := Layout.first_succ_le ha (h.lt hi)
  have hle := hg.le
  have hr : reserveBlocks force bg bg.firstFreeBlock len = _ := hg.reserveBlocks_eq ha (h.lt hi) hn
  have hu : u32 (l.first i + bg.firstFreeBlock) = l.first i + bg.firstFreeBlock := u32_of_lt (by omega)
  simp [ext4AllocateBlocksFromBlockGroup, getBg, hi, not_lt.mpr hn, hr, hg.firstBlock, hu]

theorem ext4AllocateBlocksFromBlockGroup_failed (hi : bgs[i]? = some bg) (hn : bg.freeBlocks < len) :
    ext4AllocateBlocksFromBlockGroup force bgs len i = .ok (bgs, ext4AllocateFailed) := by
  simp [ext4AllocateBlocksFromBlockGroup, getBg, hi, hn]

theorem allocates_reserved (ha : l.Addressable) (h : BgsOk l bgs) (hi : bgs[i]? = some bg)
    (hn : len ≤ bg.freeBlocks) :
    Allocates l bgs (bgs.set i (bg.reserved bg.firstFreeBlock len))
      (range' (l.first i + bg.firstFreeBlock) len) := by
  have hg := h.group i bg hi
  have hlt : i < bgs.length := (List.getElem?_eq_some_iff.mp hi).fst
  obtain ⟨_, hle⟩ := hg.add_le hn
  refine ⟨h.set (hg.reserved ha hn), ?_, map_set_eq hi rfl⟩
  have := @Grants.single Nat i len _ l.arenas (cursor bgs) ?_
  case refine_1 =>
    rw [cursor_of_some hi, Layout.arenas_size]
    omega
  rw [cursor_of_some hi] at this
  rw [cursor_set hlt]
  simpa [BlockGroupInfo.reserved] using this

theorem getElem?_of_lt (h : i < bgs.length) : ∃ bg, bgs[i]? = some bg :=
  ⟨_, getElem?_eq_getElem h⟩

theorem allocateBlockFrom_cases (ha : l.Addressable) (h : BgsOk l bgs)
    (hr : allocateBlockFrom force n i bgs = .ok (bgs', block)) (hn : i + n ≤ bgs.length) :
    if block = ext4AllocateFailed then bgs' = bgs else Allocates l bgs bgs' [block] := by
  induction n generalizing i
  case zero =>
    simp only [allocateBlockFrom, Except.ok.injEq, Prod.mk.injEq] at hr
    rw [if_pos hr.right.symm, hr.left]
  case succ n ih =>
    obtain ⟨bg, hi⟩ := getElem?_of_lt (show i < bgs.length by omega)
    rw [allocateBlockFrom] at hr
    by_cases hf : 1 ≤ bg.freeBlocks
    case neg =>
      simp only [ext4AllocateBlocksFromBlockGroup_failed hi (Nat.lt_of_not_le hf), ok_bind, ne_eq,
        not_true_eq_false, if_false] at hr
      exact ih hr (by omega)
    have hs := Layout.first_succ_le ha (h.lt hi)
    have hle := (h.group i bg hi).le
    have hne : l.first i + bg.firstFreeBlock ≠ ext4AllocateFailed := by
      simp only [ext4AllocateFailed]
      omega
    simp only [ext4AllocateBlocksFromBlockGroup_ok ha h hi hf, ok_bind, ne_eq, hne, not_false_eq_true,
      if_true, pure_eq_ok, Except.ok.injEq, Prod.mk.injEq] at hr
    obtain ⟨hbgs, hblock⟩ := hr
    subst hbgs hblock
    rw [if_neg hne]
    simpa using allocates_reserved ha h hi hf

end Ext4
