import PlatformKnife.Ext4.Theorems.Slots

namespace Ext4

open CInt Bump List Except Slot

variable {l : Layout} {bgs bgs' : List BlockGroupInfo} {bg : BlockGroupInfo} {force : Bool}
variable {s : Image} {slots : List Slot} {cond : Image → Prop}

-- The parts of the headers that may have been queued.
def Image.Taken (s : Image) (slot : Slot) : Prop :=
  match slot.kind with
  | .super => slot.group ≠ 0 ∨ s.queuedSb = true
  | .reserved => s.resized = true
  | .table => (s.fs.bgs.map BlockGroupInfo.inodeTable)[slot.group]? = some true
  | _ => True

-- Where the data of a group has to be.
structure Placed (l : Layout) (q : Queued) : Prop where
  bitmaps : ∀ i, q.data = .bitmaps i →
    q.block = l.first i + l.superLen i ∧ q.len = 2 * l.info.blockSize
  table   : ∀ i, q.data = .inodeTable i → q.block = l.first i + l.superLen i + 2

-- The regions lie in different parts of the headers. Only the block of the resize inode comes from the
-- allocator.
structure Tracked (l : Layout) (s : Image) (slots : List Slot) (dinds : List Nat) : Prop where
  ok : BgsOk l s.fs.bgs
  grants : Grants l.arenas l.start (cursor s.fs.bgs) (dinds ++ s.live.flatten)
  nodup : slots.Nodup
  valid : ∀ slot ∈ slots, slot.Valid l
  taken : ∀ slot ∈ slots, s.Taken slot
  regions : (s.regions.flatMap (Queued.blocks l.info)).Subperm (slots.flatMap (Slot.blocks l) ++ dinds)
  placed : ∀ q ∈ s.regions, Placed l q
  queued : ∀ i < l.aux.groups, ∃ q ∈ s.regions, q.data = .bitmaps i
  bgDesc : s.bgDesc = (List.range l.aux.groups).map (groupDesc l.info l.aux)

namespace Tracked

variable (h : Tracked l s slots dinds)
include h

theorem all_nodup : (slots.flatMap (blocks l) ++ (dinds ++ s.live.flatten)).Nodup := by
  refine nodup_append.mpr ⟨nodup_flatMap h.nodup h.valid, h.grants.nodup, ?_⟩
  intro a ha b hb hab
  obtain ⟨slot, hslot, ha⟩ := mem_flatMap.mp ha
  exact (h.valid slot hslot).not_granted h.grants ha (hab ▸ hb)

theorem separate : Separate l s := by
  have hsub : (s.regions.flatMap (Queued.blocks l.info) ++ s.live.flatten).Subperm
      (slots.flatMap (blocks l) ++ (dinds ++ s.live.flatten)) := by
    rw [← append_assoc]
    exact h.regions.append (List.Subperm.refl _)
  constructor
  case nodup =>
    obtain ⟨_, hp, hs⟩ := hsub
    exact hp.nodup_iff.mp (hs.nodup h.all_nodup)
  case inside =>
    intro block hblock
    cases mem_append.mp (hsub.subset hblock)
    case inl hb =>
      obtain ⟨slot, hslot, hb⟩ := mem_flatMap.mp hb
      exact (h.valid slot hslot).lt_lenBlocks hb
    case inr hb => exact lt_lenBlocks_of_granted h.grants hb

end Tracked

-- The numbers in the code, which do not wrap.
namespace Layout

theorem groupStartBlock_eq (ha : l.Addressable) (hi : i < l.aux.groups) :
    groupStartBlock l.info l.aux i = l.first i := by
  have := first_succ_le ha hi
  exact u32_of_lt (show l.first i < 2 ^ 32 by omega)

theorem superLen_add_le (hi : i < l.aux.groups) :
    l.superLen i + 2 + l.aux.inodeTableBlocks ≤ l.info.blocksPerGroup := by
  have h₁ := headerLen_le hi
  have h₂ := @groupLen_le l i
  simp only [headerLen] at h₁
  omega

theorem groupDesc_eq (ha : l.Addressable) (hi : i < l.aux.groups) :
    (groupDesc l.info l.aux i).bgBlockBitmap = l.first i + l.superLen i ∧
    (groupDesc l.info l.aux i).bgInodeBitmap = l.first i + l.superLen i + 1 ∧
    (groupDesc l.info l.aux i).bgInodeTable = l.first i + l.superLen i + 2 := by
  have hs := first_succ_le ha hi
  have hle := superLen_add_le hi
  have hsize : (if ext4BgHasSuperBlock l.info (i32 i) then
      u32 (1 + l.aux.bgDescBlocks + l.info.bgDescReserveBlocks) else 0) = l.superLen i := by
    simp only [superLen] at *
    split <;> simp_all
    exact u32_of_lt (by omega)
  simp only [groupDesc, groupStartBlock_eq ha hi, hsize]
  exact ⟨u32_of_lt (by omega), u32_of_lt (by omega), u32_of_lt (by omega)⟩

end Layout

theorem Tracked.consistent (ha : l.Addressable) (h : Tracked l s slots dinds) : Consistent l s := by
  refine ⟨h.separate, by simp [h.bgDesc], ?_⟩
  intro i desc hdesc
  rw [h.bgDesc, getElem?_map, Option.map_eq_some_iff] at hdesc
  obtain ⟨j, hj, hdesc⟩ := hdesc
  obtain ⟨hlt, hij⟩ := List.getElem?_eq_some_iff.mp hj
  simp only [length_range, getElem_range] at hlt hij
  subst hij hdesc
  obtain ⟨h₁, h₂, h₃⟩ := Layout.groupDesc_eq ha hlt
  exact {
    queued := h.queued i hlt
    blockBitmap q hq := by rw [h₁]; exact (h.placed q hq).bitmaps i
    inodeBitmap := by rw [h₁, h₂]
    inodeTable q hq := by rw [h₃]; exact (h.placed q hq).table i
  }

theorem blocks_sublist {q : Queued} {slot : Slot} (hb : 0 < l.info.blockSize)
    (hblock : q.block = l.first slot.group + slot.kind.off l slot.group)
    (hlen : q.len ≤ slot.kind.len l * l.info.blockSize) :
    (q.blocks l.info).Sublist (slot.blocks l) := by
  rw [Queued.blocks, blocks, hblock, range'_sublist_right]
  refine Nat.le_of_lt_succ <| (Nat.div_lt_iff_lt_mul hb).mpr ?_
  rw [Nat.succ_mul]
  omega

theorem sublist_flatMap {f g : α → List β} {xs : List α} (h : ∀ x ∈ xs, (f x).Sublist (g x)) :
    (xs.flatMap f).Sublist (xs.flatMap g) := by
  induction xs
  case nil => simp
  case cons x xs ih =>
    obtain ⟨hx, hxs⟩ := forall_mem_cons.mp h
    exact hx.append (ih hxs)

-- The regions that are queued at first.

def superSlots (info : FsInfo) (i : Nat) : List Slot :=
  if ext4BgHasSuperBlock info (i32 i) then
    (if i ≠ 0 then [⟨i, .super⟩] else []) ++ [⟨i, .desc⟩]
  else
    []

def initialSlots (l : Layout) : List Slot :=
  (List.range l.aux.groups).map (⟨·, .bitmaps⟩)
    ++ (List.range l.aux.groups).flatMap (superSlots l.info)

theorem mem_superSlots : slot ∈ superSlots info i ↔ ext4BgHasSuperBlock info (i32 i) ∧
    slot.group = i ∧ ((slot.kind = .super ∧ i ≠ 0) ∨ slot.kind = .desc) := by
  obtain ⟨group, kind⟩ := slot
  simp only [superSlots]
  by_cases hs : ext4BgHasSuperBlock info (i32 i) <;> by_cases hi : i = 0 <;> simp [hs, hi]
  tauto

theorem mem_initialSlots : slot ∈ initialSlots l ↔ slot.group < l.aux.groups ∧
    (slot.kind = .bitmaps ∨ (ext4BgHasSuperBlock l.info (i32 slot.group) ∧
      ((slot.kind = .super ∧ slot.group ≠ 0) ∨ slot.kind = .desc))) := by
  obtain ⟨group, kind⟩ := slot
  simp only [initialSlots, mem_append, mem_map, mem_range, mk.injEq, mem_flatMap, mem_superSlots]
  aesop

theorem initialSlots_nodup : (initialSlots l).Nodup := by
  refine nodup_append.mpr ⟨?_, ?_, ?_⟩
  · exact nodup_range.map fun i j h => by simpa using h
  · refine nodup_flatMap.mpr ⟨?_, ?_⟩
    · intro i _
      simp only [superSlots]
      split
      case isTrue  => split <;> simp
      case isFalse => simp
    · refine nodup_range.imp ?_
      intro i j hij slot hi hj
      exact hij ((mem_superSlots.mp hi).right.left.symm.trans (mem_superSlots.mp hj).right.left)
  · intro a ha b hb hab
    obtain ⟨i, _, ha⟩ := mem_map.mp ha
    obtain ⟨j, _, hb⟩ := mem_flatMap.mp hb
    have hk := (mem_superSlots.mp hb).right.right
    rw [← hab, ← ha] at hk
    simp at hk

theorem ext4FillInSb_eq (h : ext4FillInSb info aux = .ok (queued, bgDesc)) :
    queued = (range aux.groups).flatMap (queuedSuper info aux) ∧
      bgDesc = (range aux.groups).map (groupDesc info aux) := by
  rw [ext4FillInSb] at h
  split at h
  case isTrue => cases h
  case isFalse =>
  obtain ⟨groups, hg, h⟩ := bind_eq_ok_iff.mp h
  have hf : List.Forall₂ (fun i g => (queuedSuper info aux i, groupDesc info aux i) = g)
      (range aux.groups) groups := by
    refine (mapM_ok_iff.mp hg).imp ?_
    intro i g hi
    simp only [fillInGroup] at hi
    split at hi
    case isTrue  => exact ok.inj hi
    case isFalse => cases hi
  have heq := forall₂_eq_eq_eq ▸ forall₂_map_left_iff.mpr hf
  simp only [pure_eq_ok, ok.injEq, Prod.mk.injEq] at h
  rw [← h.left, ← h.right, ← heq]
  simp [flatMap_map, map_map, Function.comp_def]

theorem queuedSuper_sublist (ha : l.Addressable) (hi : i < l.aux.groups) :
    ((queuedSuper l.info l.aux i).flatMap (Queued.blocks l.info)).Sublist
      ((superSlots l.info i).flatMap (blocks l)) := by
  have hb := l.blockSize_pos
  have hs := Layout.first_succ_le ha hi
  have hstart := Layout.groupStartBlock_eq ha hi
  simp only [queuedSuper, superSlots, hstart]
  split
  case isFalse => simp
  have hdesc : (Queued.blocks l.info ⟨u32 (l.first i + 1), u32 (l.aux.bgDescBlocks * l.info.blockSize),
      .bgDesc⟩).Sublist (blocks l ⟨i, .desc⟩) :=
    blocks_sublist hb (u32_of_lt (by omega)) (u32_le _)
  have hsuper : (Queued.blocks l.info ⟨l.first i, l.info.blockSize, .backupSb i⟩).Sublist
      (blocks l ⟨i, .super⟩) := blocks_sublist hb rfl (by simp [Kind.len])
  simp only [flatMap_append, flatMap_singleton]
  refine List.Sublist.append ?_ hdesc
  split
  case isTrue  => simpa using hsuper
  case isFalse => simp

theorem queuedBitmaps_block (ha : l.Addressable) (hi : i < l.aux.groups) :
    (queuedBitmaps l.info l.aux i).block = l.first i + l.superLen i := by
  have hs := Layout.first_succ_le ha hi
  have hle := Layout.superLen_add_le hi
  have hstart : (freshBg l.info l.aux i).firstBlock = l.first i := Layout.groupStartBlock_eq ha hi
  simp only [queuedBitmaps, hstart]
  exact u32_of_lt (show l.first i + l.superLen i < 2 ^ 32 by omega)

theorem tracked_init (hl : l.Proper) (hbgs : blockAllocatorInit force l.info l.aux = .ok bgs)
    (hfill : ext4FillInSb l.info l.aux = .ok (queued, bgDesc)) :
    Tracked l {
      fs := ⟨bgs, []⟩
      regions := (range l.aux.groups).map (queuedBitmaps l.info l.aux) ++ queued
      live := []
      bgDesc
    } (initialSlots l) [] := by
  have ha := hl.addressable
  have hreach : Reachable force l ⟨⟨bgs, []⟩, []⟩ := .init hbgs
  have hacc := hreach.accountable ha
  obtain ⟨hqueued, hdesc⟩ := ext4FillInSb_eq hfill
  have hlen : u32 (2 * l.info.blockSize) = 2 * l.info.blockSize :=
    u32_of_lt (by have := hl.blockSize_lt; omega)
  have hsuper {q i} (hq : q ∈ queuedSuper l.info l.aux i) : Placed l q := by
    simp only [queuedSuper] at hq
    split at hq
    case isFalse => simp at hq
    cases mem_append.mp hq
    case inl hq =>
      split at hq
      case isFalse => simp at hq
      rw [mem_singleton.mp hq]
      exact ⟨by simp, by simp⟩
    case inr hq =>
      rw [mem_singleton.mp hq]
      exact ⟨by simp, by simp⟩
  constructor
  case ok => exact hacc.ok
  case grants => simpa using hacc.grants
  case nodup => exact initialSlots_nodup
  case bgDesc => exact hdesc
  case valid =>
    intro slot hslot
    obtain ⟨hlt, hk⟩ := mem_initialSlots.mp hslot
    refine ⟨hlt, ?_⟩
    intro hin
    cases hk
    case inl hk => simp [hk, Kind.inSuper] at hin
    case inr hk => exact hk.left
  case taken =>
    intro slot hslot
    obtain ⟨_, hk⟩ := mem_initialSlots.mp hslot
    obtain ⟨group, kind⟩ := slot
    cases kind <;> simp_all [Image.Taken]
  case regions =>
    rw [append_nil, flatMap_append, hqueued, flatMap_map, flatMap_assoc, initialSlots,
      flatMap_append, flatMap_map, flatMap_assoc]
    refine (List.Sublist.append (sublist_flatMap ?_) (sublist_flatMap ?_)).subperm
    · intro i hi
      have hi := mem_range.mp hi
      exact blocks_sublist l.blockSize_pos (queuedBitmaps_block ha hi) (u32_le _)
    · intro i hi
      exact queuedSuper_sublist ha (mem_range.mp hi)
  case placed =>
    intro q hq
    cases mem_append.mp hq
    case inl hq =>
      obtain ⟨i, hi, hq⟩ := mem_map.mp hq
      have hblock := queuedBitmaps_block ha (mem_range.mp hi)
      subst hq
      refine ⟨?_, by simp [queuedBitmaps]⟩
      intro j hj
      simp only [queuedBitmaps, Data.bitmaps.injEq] at hj
      subst hj
      exact ⟨hblock, hlen⟩
    case inr hq =>
      rw [hqueued] at hq
      obtain ⟨i, _, hq⟩ := mem_flatMap.mp hq
      exact hsuper hq
  case queued =>
    intro i hi
    exact ⟨queuedBitmaps l.info l.aux i, mem_append_left _ (mem_map_of_mem (mem_range.mpr hi)), rfl⟩

theorem Tracked.allocate (h : Tracked l s slots dinds) (fs : Fs) (lists : List (List Nat))
    (ha : Allocates l s.fs.bgs fs.bgs lists.flatten) :
    Tracked l { s with fs, live := lists ++ s.live } slots dinds := by
  have hperm : (dinds ++ (lists ++ s.live).flatten).Perm (lists.flatten ++ (dinds ++ s.live.flatten)) := by
    rw [flatten_append, ← append_assoc, ← append_assoc]
    exact perm_append_comm.append_right _
  refine { h with ok := ha.ok, grants := ?_, taken := ?_ }
  · exact (h.grants.trans ha.grants).subperm hperm.subperm
  · intro slot hslot
    have := h.taken slot hslot
    simpa only [Image.Taken, ha.tables] using this

theorem Tracked.add (h : Tracked l s slots dinds)
    (hv : slot.Valid l) (hq : (q.blocks l.info).Sublist (slot.blocks l)) (hp : Placed l q)
    (hnot : ¬s.Taken slot) (ht : s'.Taken slot) (hmono : ∀ slot, s.Taken slot → s'.Taken slot)
    (hok : BgsOk l s'.fs.bgs) (hcur : cursor s'.fs.bgs = cursor s.fs.bgs) (hlive : s'.live = s.live)
    (hdesc : s'.bgDesc = s.bgDesc) (hregions : s'.regions = s.regions ++ [q]) :
    Tracked l s' (slot :: slots) dinds := by
  constructor
  case ok => exact hok
  case grants => rw [hcur, hlive]; exact h.grants
  case nodup => exact nodup_cons.mpr ⟨fun hmem => hnot (h.taken slot hmem), h.nodup⟩
  case valid => exact forall_mem_cons.mpr ⟨hv, h.valid⟩
  case taken => exact forall_mem_cons.mpr ⟨ht, fun slot hs => hmono slot (h.taken slot hs)⟩
  case bgDesc => exact hdesc.trans h.bgDesc
  case regions =>
    rw [hregions, flatMap_append, flatMap_singleton, flatMap_cons, append_assoc]
    exact perm_append_comm.subperm.trans (hq.subperm.append h.regions)
  case placed =>
    rw [hregions]
    intro q' hq'
    cases mem_append.mp hq'
    case inl hq' => exact h.placed q' hq'
    case inr hq' => exact mem_singleton.mp hq' ▸ hp
  case queued =>
    intro i hi
    obtain ⟨q', hq', hdata⟩ := h.queued i hi
    exact ⟨q', hregions ▸ mem_append_left _ hq', hdata⟩

theorem getInode_inv (hr : getInode info aux bgs inode = .ok (bgs', queued)) :
    ∃ (i : Nat) (bg : BlockGroupInfo), bgs[i]? = some bg ∧
      bgs' = bgs.set i (allocateBgInodeTable info aux i bg).1 ∧
      queued = (allocateBgInodeTable info aux i bg).2 := by
  simp only [getInode] at hr
  split at hr
  case isTrue => cases hr
  split at hr
  case isTrue => cases hr
  obtain ⟨bg, hbg, hr⟩ := bind_eq_ok_iff.mp hr
  simp only [pure_eq_ok, ok.injEq, Prod.mk.injEq] at hr
  refine ⟨_, bg, ?_, hr.left.symm, hr.right.symm⟩
  simp only [getBg] at hbg
  split at hbg
  case h_1 hsome => exact hsome.trans (by rw [ok.inj hbg])
  · cases hbg

theorem GroupOk.superBlocks_eq (h : GroupOk l i bg) : superBlocks l.info l.aux bg = l.superLen i := by
  simp only [superBlocks, Layout.superLen, h.super]

theorem Tracked.getInode (ha : l.Addressable) (h : Tracked l s slots dinds)
    (hr : getInode l.info l.aux s.fs.bgs inode = .ok (bgs, qs)) :
    (∃ slots, Tracked l { s with fs.bgs := bgs, regions := s.regions ++ qs } slots dinds) ∧
      bgs.map BlockGroupInfo.freeBlocks = s.fs.bgs.map BlockGroupInfo.freeBlocks := by
  obtain ⟨i, bg, hi, hbgs, hqs⟩ := getInode_inv hr
  have hg := h.ok.group i bg hi
  have hlt := h.ok.lt hi
  have hlen := (List.getElem?_eq_some_iff.mp hi).fst
  simp only [allocateBgInodeTable] at hbgs hqs
  by_cases ht : bg.inodeTable
  case pos =>
    simp only [ht, if_true] at hbgs hqs
    have hset : s.fs.bgs.set i bg = s.fs.bgs := by
      have := (List.getElem?_eq_some_iff.mp hi).snd
      rw [← this, set_getElem_self]
    rw [hset] at hbgs
    subst hbgs hqs
    exact ⟨⟨slots, by simpa using h⟩, rfl⟩
  simp only [ht, Bool.false_eq_true, if_false] at hbgs hqs
  have hset : BgsOk l (s.fs.bgs.set i { bg with inodeTable := true }) :=
    h.ok.set ⟨hg.firstBlock, hg.super, hg.length, hg.header_le, hg.le, hg.free, hg.bit⟩
  subst hbgs hqs
  refine ⟨⟨⟨i, .table⟩ :: slots, ?_⟩, map_set_eq hi rfl⟩
  have hs := Layout.first_succ_le ha hlt
  have hle := Layout.superLen_add_le hlt
  have hblock : u32 (bg.firstBlock + 2 + superBlocks l.info l.aux bg)
      = l.first i + (l.superLen i + 2) := by
    rw [hg.firstBlock, hg.superBlocks_eq, u32_of_lt (by omega)]
    omega
  refine h.add ⟨hlt, by simp [Kind.inSuper]⟩ (blocks_sublist l.blockSize_pos hblock (u32_le _)) ?_
    ?_ ?_ ?_ hset ?_ rfl rfl rfl
  · refine ⟨by simp, ?_⟩
    intro j hj
    simp only [Data.inodeTable.injEq] at hj
    subst hj
    simp only [hblock]
    omega
  · simp [Image.Taken, hi, ht]
  · simp [Image.Taken, hlen]
  · rintro ⟨j, kind⟩ htaken
    cases kind <;> simp only [Image.Taken] at *
    case table =>
      by_cases hij : i = j
      case pos => subst hij; simp [hlen]
      case neg => simpa [getElem?_set_ne hij] using htaken
    all_goals exact htaken
  · rw [cursor_set hlen, ← cursor_of_some hi]
    exact Function.update_eq_self _ _

end Ext4
