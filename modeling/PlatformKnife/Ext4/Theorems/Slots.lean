import PlatformKnife.Ext4.Theorems.Lost

-- The parts that the header of a group is made of.
namespace Ext4

open CInt Bump Layout

variable {l : Layout} {i : Nat}

inductive Kind
  | super
  | desc
  | reserved
  | bitmaps
  | table
  deriving DecidableEq

structure Slot where
  group : Nat
  kind  : Kind
  deriving DecidableEq

namespace Kind

-- Only the groups with a superblock have the first three parts.
def inSuper : Kind → Bool
  | super | desc | reserved => true
  | bitmaps | table => false

def off (l : Layout) (i : Nat) : Kind → Nat
  | super => 0
  | desc => 1
  | reserved => 1 + l.aux.bgDescBlocks
  | bitmaps => l.superLen i
  | table => l.superLen i + 2

def len (l : Layout) : Kind → Nat
  | super => 1
  | desc => l.aux.bgDescBlocks
  | reserved => l.info.bgDescReserveBlocks
  | bitmaps => 2
  | table => l.aux.inodeTableBlocks

variable {k k' : Kind}

theorem end_le (h : k.inSuper → ext4BgHasSuperBlock l.info (i32 i)) :
    k.off l i + k.len l ≤ l.headerLen i := by
  cases k <;> simp [off, len, inSuper, headerLen, superLen] at * <;> simp_all <;> omega

theorem apart (hne : k ≠ k') (h : k.inSuper → ext4BgHasSuperBlock l.info (i32 i))
    (h' : k'.inSuper → ext4BgHasSuperBlock l.info (i32 i)) :
    k.off l i + k.len l ≤ k'.off l i ∨ k'.off l i + k'.len l ≤ k.off l i := by
  cases k <;> cases k' <;> simp [off, len, inSuper, superLen] at * <;> simp_all <;> omega

end Kind

namespace Slot

def blocks (l : Layout) (slot : Slot) : List Nat :=
  List.range' (l.first slot.group + slot.kind.off l slot.group) (slot.kind.len l)

structure Valid (l : Layout) (slot : Slot) : Prop where
  group_lt : slot.group < l.aux.groups
  inSuper  : slot.kind.inSuper → ext4BgHasSuperBlock l.info (i32 slot.group)

variable {slot slot' : Slot}

theorem Valid.mem_bounds (h : slot.Valid l) (hb : block ∈ slot.blocks l) :
    l.first slot.group ≤ block ∧ block < l.first slot.group + l.headerLen slot.group := by
  have := List.mem_range'_1.mp hb
  have := Kind.end_le h.inSuper
  omega

theorem disjoint (h : slot.Valid l) (h' : slot'.Valid l) (hne : slot ≠ slot') :
    (slot.blocks l).Disjoint (slot'.blocks l) := by
  intro block hb hb'
  have hbound := h.mem_bounds hb
  have hbound' := h'.mem_bounds hb'
  have hle := headerLen_le h.group_lt
  have hle' := headerLen_le h'.group_lt
  have hg := @groupLen_le l slot.group
  have hg' := @groupLen_le l slot'.group
  have hgroup : slot.group = slot'.group :=
    group_unique hbound.left (by omega) hbound'.left (by omega)
  obtain ⟨i, k⟩ := slot
  obtain ⟨j, k'⟩ := slot'
  simp only at hgroup
  subst hgroup
  have hkind : k ≠ k' := by
    intro hk
    exact hne (by rw [hk])
  have hmem := List.mem_range'_1.mp hb
  have hmem' := List.mem_range'_1.mp hb'
  have := @Kind.apart l i k k' hkind h.inSuper h'.inSuper
  simp only at hmem hmem'
  omega

theorem nodup_flatMap {slots : List Slot} (hn : slots.Nodup) (hv : ∀ slot ∈ slots, slot.Valid l) :
    (slots.flatMap (blocks l)).Nodup := by
  refine List.nodup_flatMap.mpr ⟨fun slot _ => List.nodup_range', ?_⟩
  exact hn.imp_of_mem fun ha hb hne => disjoint (hv _ ha) (hv _ hb) hne

end Slot

theorem Slot.Valid.not_granted {slot : Slot} (h : slot.Valid l)
    (hg : Grants l.arenas l.start c xs) (hb : block ∈ slot.blocks l) : block ∉ xs := by
  have hs : l.start slot.group = l.headerLen slot.group := by simp [start, h.group_lt]
  obtain ⟨h₁, h₂⟩ := h.mem_bounds hb
  exact hg.not_mem (by rw [hs]; exact headerLen_le h.group_lt) h₁ (by rwa [hs])

theorem Slot.Valid.lt_lenBlocks {slot : Slot} (h : slot.Valid l) (hb : block ∈ slot.blocks l) :
    block < l.aux.lenBlocks := by
  obtain ⟨h₁, h₂⟩ := h.mem_bounds hb
  have hle := headerLen_le h.group_lt
  have hg : l.groupLen slot.group = min _ (l.aux.lenBlocks - l.first slot.group) := rfl
  omega

theorem lt_lenBlocks_of_granted (hg : Grants l.arenas c c' xs) (hx : x ∈ xs) : x < l.aux.lenBlocks := by
  obtain ⟨i, h₁, _, h₂⟩ := hg.mem x hx
  have hlen : l.groupLen i = min _ (l.aux.lenBlocks - l.first i) := rfl
  simp only [arenas_base, arenas_size] at h₁ h₂
  omega

end Ext4
