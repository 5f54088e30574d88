import PlatformKnife.Lib.Greedy
import PlatformKnife.Ext4.Theorems.Tiling
import PlatformKnife.Ext4.Theorems.Accounting

namespace Ext4

open CInt Greedy List Except BlockGroupInfo RegionList

variable {l : Layout} {bgs bgs' bgs₁ : List BlockGroupInfo} {bg : BlockGroupInfo} {force : Bool}
variable {info : FsInfo} {reg : Region} {regs : List Region} {fs fs₁ : Fs} {filename : String}

theorem BestFit.takes (h : BestFit l bgs len regs bgs') :
    Takes (bgs.map BlockGroupInfo.freeBlocks) len (regs.map Region.len) := by
  induction h
  case nil => exact .nil
  case cons len bgs g bg regs bgs' hlen hg hpos hbest hrest ih =>
    obtain ⟨hlt, hget⟩ := List.getElem?_eq_some_iff.mp hg
    have hlt' : g < (bgs.map BlockGroupInfo.freeBlocks).length := by simpa using hlt
    have hperm := (getElem_cons_eraseIdx_perm hlt').symm
    rw [getElem_map, hget] at hperm
    refine .cons hlen hpos hperm ?_ (ih.perm ?_)
    · intro hf n hn
      obtain ⟨b, hb, hn⟩ := mem_map.mp (mem_of_mem_eraseIdx hn)
      exact hn ▸ hbest.largest hf b hb
    · have hset := set_perm_cons_eraseIdx hlt' (bg.freeBlocks - min len bg.freeBlocks)
      rwa [map_set]

section

variable (ha : l.Addressable) (h : BgsOk l bgs)

include ha h

theorem ext4AllocateBestFitPartial_ne_fault (hlen : 0 < len) :
    ext4AllocateBestFitPartial force bgs len ≠ .error (.fault f) := by
  obtain ⟨g, bg, -, -, -, he⟩ | ⟨-, ⟨-, he⟩ | ⟨msg, he⟩⟩ :=
    ext4AllocateBestFitPartial_cases ha h force hlen
  all_goals simp [he]

theorem bestFitLoop_ne_fault : bestFitLoop force fuel bgs len regs ≠ .error (.fault f) := by
  induction fuel generalizing bgs len regs
  case zero => simp [bestFitLoop]
  case succ fuel ih =>
    rw [bestFitLoop]
    split
    case isFalse => simp
    case isTrue hlen =>
      rcases hp : ext4AllocateBestFitPartial force bgs len with e | ⟨bgs₁, _ | reg⟩
      · intro he
        rw [error_bind, error.injEq] at he
        exact ext4AllocateBestFitPartial_ne_fault ha h hlen (he ▸ hp)
      · simp
      · obtain ⟨bg, hi, _, _, hbgs, _⟩ := ext4AllocateBestFitPartial_ok ha h hlen hp
        exact ih (hbgs ▸ h.reserve ha hi (min_le_right _ _))

theorem allocateBlocks_ne_fault : allocateBlocks force bgs len ≠ .error (.fault f) := by
  intro hr
  rw [allocateBlocks] at hr
  rcases hb : ext4AllocateBestFit force bgs len with e | ⟨bgs₁, regs⟩
  · rw [hb, error_bind, error.injEq] at hr
    exact bestFitLoop_ne_fault ha h (hr ▸ hb)
  simp only [hb, ok_bind] at hr
  split at hr <;> simp at hr

end

theorem bestFit_of_not_fails (ha : l.Addressable) (h : BgsOk l fs.bgs)
    (hnf : ¬Fails (doInodeAllocateExtents force info fs len)) :
    ∃ reg regs bgs₁, BestFit l fs.bgs (u32 (blockLen info len + 1)) (reg :: regs) bgs₁ ∧
      allocateBlocks force fs.bgs (u32 (blockLen info len + 1))
        = .ok (bgs₁, some (allocationOf (reg :: regs))) := by
  rcases hal : allocateBlocks force fs.bgs (u32 (blockLen info len + 1)) with
    (f | msg) | ⟨bgs₁, _ | alloc⟩
  · exact absurd hal (allocateBlocks_ne_fault ha h)
  · refine absurd (.inl ⟨msg, ?_⟩) hnf
    simp [doInodeAllocateExtents, hal]
  · refine absurd ?_ hnf
    cases force
    case false => exact .inl ⟨_, by simp [doInodeAllocateExtents, hal, error]; rfl⟩
    case true  =>
      exact .inr ⟨_, by simp [doInodeAllocateExtents, hal, error]; rfl⟩
  · obtain ⟨reg, regs, hb, halloc⟩ := allocateBlocks_bestFit ha h hal
    exact ⟨reg, regs, bgs₁, hb, by rw [halloc]⟩

theorem node_unique (h : Node info inode hdr extents leaf) (h' : Node info inode hdr' extents' leaf')
    (hq : leaf ++ queue = leaf' ++ queue') : hdr = hdr' ∧ extents = extents' ∧ queue = queue' := by
  cases h <;> cases h'
  case inode.inode => exact ⟨rfl, rfl, hq⟩
  case inode.leaf => simp_all
  case leaf.inode => simp_all
  case leaf.leaf => simp_all

@[simp]
theorem RegionList.rewind_rest (list : RegionList) : list.rewind.rest = list.regions := by
  cases h : list.regions
  case nil => simp [rewind, rest, h]
  case cons _ _ => simp [rewind, rest, h]

theorem mapsFile_iff_tiles {alloc : BlockAllocation}
    (hr : doInodeAllocateExtents force info fs len
      = .ok (fs₁, some (inode, { alloc with list := alloc.list.rewind })))
    (hq : fs₁.queue = fs.queue ++ leaf)
    (hn : Node info inode hdr (extentsFrom 0 alloc.list.regions) leaf) (hd : hdr.ehDepth = 0)
    (he : hdr.ehEntries = u16 allocationLen) :
    MapsFile force info fs len filename ↔
      Tiles info len filename alloc.list.regions allocationLen hdr.ehMax := by
  have hfile : inodeAllocateFileExtents force info fs len filename
      = backingFile info filename alloc.list.regions 0 0 len >>= fun queued =>
        .ok ({ fs₁ with queue := fs₁.queue ++ queued },
          some (inode, { alloc with list := alloc.list.rewind })) := by
    simp only [inodeAllocateFileExtents, hr, ok_bind, extentCreateBackingFile, rewind_rest]
    rfl
  constructor
  case mp =>
    rintro ⟨fs', inode', alloc', hdr', extents, hok, hmaps⟩
    rw [hfile] at hok
    cases hbf : backingFile info filename alloc.list.regions 0 0 len
    case error _ => simp [hbf] at hok
    case ok queued =>
      simp only [hbf, ok_bind, ok.injEq, Prod.mk.injEq, Option.some.injEq] at hok
      obtain ⟨hfs, hinode, halloc⟩ := hok
      subst hfs hinode halloc
      obtain ⟨leaf', hnode, hqueue⟩ := hmaps.node
      simp only [hq, append_assoc, append_cancel_left_eq] at hqueue
      obtain ⟨hh, hes, hqs⟩ := node_unique hn hnode hqueue
      subst hh hes
      exact {
        queued := by rw [hbf, hqs]
        entries := by simpa [he] using hmaps.entries
        max := he ▸ hmaps.max
        contiguous := hmaps.contiguous
        sum := hmaps.sum
        nodup := hmaps.nodup
        owned := hmaps.owned
      }
  case mpr =>
    intro h
    have hok := hfile
    rw [h.queued] at hok
    refine ⟨_, _, _, hdr, extentsFrom 0 alloc.list.regions, hok, ?_⟩
    exact {
      node := ⟨leaf, hn, by simp [hq]⟩
      depth := hd
      entries := by simpa [he] using h.entries
      max := he ▸ h.max
      contiguous := h.contiguous
      sum := h.sum
      nodup := h.nodup
      owned := h.owned
    }

theorem not_mapsFile_of_error (hr : doInodeAllocateExtents force info fs len = .error e) :
    ¬MapsFile force info fs len filename := by
  rintro ⟨_, _, _, _, _, hok, _⟩
  simp [inodeAllocateFileExtents, hr] at hok

theorem reducedList_rest : (reducedList reg regs).rest = (reducedList reg regs).regions := by
  simp only [reducedList]
  split <;> simp [rest]

theorem reducedList_partialIter : (reducedList reg regs).partialIter = 0 := by
  simp only [reducedList]
  split <;> rfl

theorem sparedAllocation_rest :
    (sparedAllocation reg regs).list.rest = (sparedAllocation reg regs).list.regions := by
  simp only [sparedAllocation]
  split <;> simp [rest]

theorem sparedAllocation_partialIter : (sparedAllocation reg regs).list.partialIter = 0 := by
  simp only [sparedAllocation]
  split <;> rfl

theorem BestFit.block_bounds (ha : l.Addressable) (h : BgsOk l bgs) (hb : BestFit l bgs len regs bgs') :
    ∀ reg ∈ regs, 0 < reg.block ∧ reg.block + reg.len + 8 < 2 ^ 32 := by
  induction hb
  case nil => simp
  case cons hlen hg hpos hbest hrest ih =>
    refine forall_mem_cons.mpr ⟨(BestFit.cons hlen hg hpos hbest hrest).head_block ha h, ?_⟩
    exact ih (h.reserve ha hg (min_le_right _ _))

theorem forall_mem_of_spare {P : Nat → Prop} (hp : ∀ n, P (n + 1) → P n) (h : ∀ r ∈ reg :: regs, P r.len) :
    (∀ r ∈ (reducedList reg regs).regions, P r.len) ∧
      ∀ r ∈ (sparedAllocation reg regs).list.regions, P r.len := by
  obtain ⟨hreg, hregs⟩ := forall_mem_cons.mp h
  have hreg' (hlen : 1 < reg.len) : P (reg.len - 1) :=
    hp _ (by rwa [Nat.sub_add_cancel (le_of_lt hlen)])
  simp only [reducedList, sparedAllocation]
  split
  case isTrue hlen =>
    exact ⟨forall_mem_cons.mpr ⟨hreg' hlen, hregs⟩, forall_mem_cons.mpr ⟨hreg' hlen, hregs⟩⟩
  case isFalse => exact ⟨by simp, by simpa using hreg⟩

theorem Layout.blockSize_pos (l : Layout) : 0 < l.info.blockSize := by
  have hc := l.created
  rw [ext4CreateFsAuxInfo] at hc
  split at hc
  case isTrue => cases hc
  case isFalse hz =>
    simp only [Bool.or_eq_true, decide_eq_true_eq, not_or] at hz
    omega

theorem leafMax_eq (h : sizeofExtentHeader ≤ info.blockSize) : leafMax info = leafCapacity info := by
  have := info.blockSize_lt
  have hu64 : u64 (info.blockSize + (2 ^ 64 - sizeofExtentHeader))
      = info.blockSize - sizeofExtentHeader := by
    simp only [u64, sizeofExtentHeader] at *
    omega
  rw [leafMax, hu64, leafCapacity]

theorem le_leafCapacity_iff (hn : 0 < n) :
    n ≤ leafCapacity info ↔ sizeofExtentHeader ≤ info.blockSize ∧
      n * sizeofExtent ≤ info.blockSize - sizeofExtentHeader ∧ n < 2 ^ 16 ∧ n ≤ leafMax info := by
  constructor
  case mp =>
    intro hle
    have hmod := Nat.mod_le ((info.blockSize - sizeofExtentHeader) / sizeofExtent) (2 ^ 16)
    have hlt : leafCapacity info < 2 ^ 16 := Nat.mod_lt _ (by decide)
    have hdiv : n ≤ (info.blockSize - sizeofExtentHeader) / sizeofExtent := le_trans hle hmod
    have hmul := (Nat.le_div_iff_mul_le (by decide)).mp hdiv
    have hs : sizeofExtentHeader ≤ info.blockSize := by
      simp only [sizeofExtent] at hmul
      omega
    exact ⟨hs, hmul, by omega, leafMax_eq hs ▸ hle⟩
  case mpr =>
    rintro ⟨hs, _, _, hle⟩
    exact leafMax_eq hs ▸ hle

theorem getBlock_oobOf (hpos : 0 < reg.len) (hlt : reg.block < 2 ^ 32) :
    (oobOf (reg :: regs)).getBlock 0 = reg.block := by
  simp [oobOf, getBlock, rest, blockAt, hpos, u32_of_lt hlt, u32_of_lt (show 0 < 2 ^ 32 by decide)]

def leafHeader (info : FsInfo) (allocationLen : Nat) : ExtentHeader where
  ehMagic := ext4ExtMagic
  ehEntries := u16 allocationLen
  ehMax := leafMax info
  ehDepth := 0
  ehGeneration := 0

theorem writeLeafExtents_iff {list : RegionList} (hlen : ∀ reg ∈ list.rest, reg.len < 2 ^ 32)
    (hp : list.partialIter = 0) :
    writeLeafExtents info allocationLen list = .ok res ↔
      (sizeofExtentHeader ≤ info.blockSize ∧
        list.rest.length * sizeofExtent ≤ info.blockSize - sizeofExtentHeader) ∧
      res = (leafHeader info allocationLen, extentsFrom 0 list.rest) := by
  simp only [writeLeafExtents, hp]
  by_cases hs : info.blockSize < sizeofExtentHeader
  case pos => simp [hs, fault, not_le.mpr hs]
  have hw {es} := @writeExtents_iff list.rest (info.blockSize - sizeofExtentHeader) 0 es hlen
  simp only [hs, if_false, Nat.le_of_not_lt hs, true_and, pure_eq_ok]
  cases he : writeExtents (info.blockSize - sizeofExtentHeader) 0 0 list.rest
  case error _ =>
    have := @hw (extentsFrom 0 list.rest)
    simp only [he, reduceCtorEq, and_true, false_iff] at this
    simp [this]
  case ok es =>
    obtain ⟨hle, hes⟩ := hw.mp he
    simp [hle, hes, leafHeader, eq_comm]

section

variable (ha : l.Addressable) (h : BgsOk l fs.bgs)
variable (hb : BestFit l fs.bgs (u32 (blockLen l.info len + 1)) (reg :: regs) bgs₁)
variable (hal : allocateBlocks force fs.bgs (u32 (blockLen l.info len + 1))
  = .ok (bgs₁, some (allocationOf (reg :: regs))))
include ha h hb hal

theorem mapsFile_inode (hk : regs.length + 1 ≤ 3) :
    MapsFile force l.info fs len filename ↔
      Tiles l.info len filename (reducedList reg regs).regions (regs.length + 1) 3 := by
  obtain ⟨bgs₂, ht, _⟩ := takeSpare_reduced ha h hb hk
  have hlt : ∀ r ∈ (reducedList reg regs).regions, r.len < 2 ^ 32 := by
    refine (@forall_mem_of_spare reg regs (· < 2 ^ 32) (fun n hn => by omega) ?_).left
    intro r hr
    have := hb.block_bounds ha h r hr
    omega
  have hlength : (reducedList reg regs).regions.length ≤ regs.length + 1 := by
    simp only [reducedList]
    split <;> simp
  have hw : writeExtents iBlockRoom 0 0 (reducedList reg regs).regions = .ok _ :=
    (writeExtents_iff hlt).mpr ⟨by simp only [sizeofExtent, iBlockRoom, sizeofExtentHeader]; omega, rfl⟩
  have hlist : (allocationOf (reg :: regs)).list.regions.length = regs.length + 1 := by
    simp [allocationOf]
  let hdr : ExtentHeader :=
    { ehMagic := ext4ExtMagic, ehEntries := u16 (regs.length + 1), ehMax := 3, ehDepth := 0,
      ehGeneration := 0 }
  let inode := inodeOf l.info len (blockLen l.info len) hdr
    (extentsFrom 0 (reducedList reg regs).regions) none
  let alloc : BlockAllocation := { list := reducedList reg regs }
  have hr : doInodeAllocateExtents force l.info fs len
      = .ok ({ fs with bgs := bgs₂ }, some (inode, { alloc with list := alloc.list.rewind })) := by
    simp only [doInodeAllocateExtents, hal, ok_bind, hlist, ht, if_true, writeInodeExtents,
      reducedList_rest, reducedList_partialIter, hw, pure_eq_ok]
    rfl
  have hn : Node l.info inode hdr (extentsFrom 0 alloc.list.regions) [] := .inode rfl
  exact mapsFile_iff_tiles hr (by simp) hn rfl rfl

omit hal in
theorem extentBlock_ne_zero (hk : ¬regs.length + 1 ≤ 3) :
    (sparedAllocation reg regs).oobList.getBlock 0 ≠ 0 := by
  have hpos := hb.len_pos
  have hbounds := hb.block_bounds ha h
  simp only [sparedAllocation]
  split
  case isTrue =>
    have hreg := hbounds reg (by simp)
    have hblock := @getBlock_oobOf { reg with len := 1 } [] one_pos (by simp only; omega)
    rw [hblock]
    exact ne_of_gt hreg.left
  obtain _ | ⟨reg', regs⟩ := regs
  · simp at hk
  have hreg := hbounds reg' (by simp)
  rw [getBlock_oobOf (hpos reg' (by simp)) (by omega)]
  exact ne_of_gt hreg.left

theorem mapsFile_leaf (hk : ¬regs.length + 1 ≤ 3)
    (hnf : ¬Fails (doInodeAllocateExtents force l.info fs len)) :
    MapsFile force l.info fs len filename ↔ sizeofExtentHeader ≤ l.info.blockSize ∧
      (sparedAllocation reg regs).list.regions.length * sizeofExtent
        ≤ l.info.blockSize - sizeofExtentHeader ∧
      Tiles l.info len filename (sparedAllocation reg regs).list.regions (regs.length + 1)
        (leafMax l.info) := by
  obtain ⟨ht, _⟩ := takeSpare_spared ha h hb hk
  have hne := extentBlock_ne_zero ha h hb hk
  have hlt : ∀ r ∈ (sparedAllocation reg regs).list.regions, r.len < 2 ^ 32 := by
    refine (@forall_mem_of_spare reg regs (· < 2 ^ 32) (fun n hn => by omega) ?_).right
    intro r hr
    have := hb.block_bounds ha h r hr
    omega
  have hlist : (allocationOf (reg :: regs)).list.regions.length = regs.length + 1 := by
    simp [allocationOf]
  by_cases hsize : i32 (l.info.blockSize - 1) < (regs.length + 1 : Nat)
  case pos =>
    refine absurd ?_ hnf
    simp only [doInodeAllocateExtents, hal, ok_bind, hlist, ht, if_neg hne, hsize, if_true]
    cases force
    case false => exact .inl ⟨_, rfl⟩
    case true  => exact .inr ⟨_, rfl⟩
  have hwrite {res} := @writeLeafExtents_iff l.info (regs.length + 1) res
    (sparedAllocation reg regs).list (sparedAllocation_rest ▸ hlt) sparedAllocation_partialIter
  rw [sparedAllocation_rest] at hwrite
  rw [← and_assoc]
  cases hw : writeLeafExtents l.info (regs.length + 1) (sparedAllocation reg regs).list
  case error e =>
    have hr : doInodeAllocateExtents force l.info fs len = .error e := by
      simp only [doInodeAllocateExtents, hal, ok_bind, hlist, ht, if_neg hne, hsize, if_false, hw,
        error_bind]
    refine iff_of_false (not_mapsFile_of_error hr) fun hand => ?_
    have hok := hwrite.mpr ⟨hand.left, rfl⟩
    simp [hw] at hok
  case ok res =>
    obtain ⟨hfits, hres⟩ := hwrite.mp hw
    let idx : ExtentIdx :=
      { eiBlock := 0, eiLeafLo := (sparedAllocation reg regs).oobList.getBlock 0, eiLeafHi := 0,
        eiUnused := 0 }
    let inode := inodeOf l.info len (u32 (blockLen l.info len + 1)) extentIndexHeader [] (some idx)
    let alloc := sparedAllocation reg regs
    let extents := extentsFrom 0 alloc.list.regions
    let queue := fs.queue ++ [⟨alloc.oobList.getBlock 0, l.info.blockSize,
      .extents (leafHeader l.info (regs.length + 1)) extents⟩]
    have hn : Node l.info inode (leafHeader l.info (regs.length + 1)) extents _ := .leaf rfl rfl rfl
    have hr : doInodeAllocateExtents force l.info fs len
        = .ok (⟨bgs₁, queue⟩, some (inode, { alloc with list := alloc.list.rewind })) := by
      simp only [doInodeAllocateExtents, hal, ok_bind, hlist, ht, if_neg hne, hsize, if_false, hw,
        hres, pure_eq_ok]
      rfl
    have hqueue : queue = fs.queue ++ [⟨idx.eiLeafHi * 2 ^ 32 + idx.eiLeafLo, l.info.blockSize,
        .extents (leafHeader l.info (regs.length + 1)) extents⟩] := by
      simp [queue, idx, alloc]
    refine (mapsFile_iff_tiles hr hqueue hn rfl rfl).trans ?_
    simp only [hfits, true_and]
    rfl

theorem mapsFile_iff_regions (hlen : 0 < len) (hnf : ¬Fails (doInodeAllocateExtents force l.info fs len)) :
    MapsFile force l.info fs len filename ↔ 1 < reg.len ∧ fileBlocks l.info len + 1 < 2 ^ 32 ∧
      regs.length + 1 ≤ max 3 (leafCapacity l.info) ∧
      reg.len - 1 ≤ maxRegion l.info ∧ ∀ r ∈ regs, r.len ≤ maxRegion l.info := by
  have hbs := l.blockSize_pos
  have hsum := hb.sum_len
  have hpos := hb.len_pos
  simp only [map_cons, sum_cons] at hsum
  by_cases hone : 1 < reg.len
  case neg =>
    -- All of the first region is the spare block.
    simp only [hone, false_and, iff_false]
    by_cases hk : regs.length + 1 ≤ 3
    case pos =>
      rw [mapsFile_inode ha h hb hal hk]
      intro htiles
      have hle := htiles.fileBlocks_le
      have hf := fileBlocks_pos hbs hlen
      simp only [reducedList, hone, if_false, map_nil, sum_nil] at hle
      omega
    rw [mapsFile_leaf ha h hb hal hk hnf]
    rintro ⟨_, _, htiles⟩
    have hle := htiles.fileBlocks_le
    simp only [sparedAllocation, hone, if_false, map_cons, map_nil, sum_cons, sum_nil] at hle
    have hsucc := u32_blockLen_succ hbs (show fileBlocks l.info len + 1 < 2 ^ 32 by omega)
    have hcount := length_le_sum_of_one_le (regs.map Region.len) (by
      simpa [Nat.succ_le_iff] using (forall_mem_cons.mp hpos).right)
    rw [length_map] at hcount
    omega
  have hpos' : ∀ r ∈ { reg with len := reg.len - 1 } :: regs, 0 < r.len :=
    forall_mem_cons.mpr ⟨Nat.sub_pos_of_lt hone, (forall_mem_cons.mp hpos).right⟩
  by_cases hk : regs.length + 1 ≤ 3
  case pos =>
    obtain ⟨_, _, hres⟩ := takeSpare_reduced ha h hb hk
    have hnodup := hres.grants.nodup
    have hlt : regs.length + 1 < 2 ^ 16 := by omega
    rw [mapsFile_inode ha h hb hal hk]
    simp only [reducedList, hone, if_true, blocks] at hnodup ⊢
    rw [← @length_cons _ { reg with len := reg.len - 1 }, tiles_iff hbs hpos' hnodup (by simp; omega)]
    simp only [forall_mem_cons, length_cons, hlt, hk, true_and, le_sup_of_le_left]
  obtain ⟨_, hres⟩ := takeSpare_spared ha h hb hk
  have hnodup := hres.grants.nodup.of_append_left
  have hmax : regs.length + 1 ≤ max 3 (leafCapacity l.info) ↔
      regs.length + 1 ≤ leafCapacity l.info := by omega
  have hpos'' : ∀ r ∈ { reg with block := reg.block + 1, len := reg.len - 1 } :: regs,
      0 < r.len := forall_mem_cons.mpr (forall_mem_cons.mp hpos')
  rw [mapsFile_leaf ha h hb hal hk hnf, hmax, le_leafCapacity_iff (Nat.succ_pos _)]
  simp only [sparedAllocation, hone, if_true, blocks] at hnodup ⊢
  rw [← @length_cons _ { reg with block := reg.block + 1, len := reg.len - 1 },
    tiles_iff hbs hpos'' hnodup (by simp; omega)]
  simp only [forall_mem_cons, length_cons, true_and]
  constructor
  case mp =>
    rintro ⟨hs, hfits, hf, hlt, hle, hm⟩
    exact ⟨hf, ⟨hs, hfits, hlt, hle⟩, hm⟩
  case mpr =>
    rintro ⟨hf, ⟨hs, hfits, hlt, hle⟩, hm⟩
    exact ⟨hs, hfits, hf, hlt, hle, hm⟩

end

-- A file is mapped if and only if the free counts allow for it.
theorem mapsFile_iff_mappable {s : Allocated} (ha : l.Addressable) (h : Reachable force l s)
    (hlen : 0 < len) (hnf : ¬Fails (doInodeAllocateExtents force l.info s.fs len)) :
    MapsFile force l.info s.fs len filename ↔
      Mappable l.info (s.fs.bgs.map BlockGroupInfo.freeBlocks) len := by
  have hok := (h.accountable ha).ok
  obtain ⟨reg, regs, bgs₁, hb, hal⟩ := bestFit_of_not_fails ha hok hnf
  have htakes := hb.takes
  have hpos := fileBlocks_pos l.blockSize_pos hlen
  rw [map_cons] at htakes
  rw [mapsFile_iff_regions ha hok hb hal hlen hnf]
  have hmem : (∀ r ∈ regs, r.len ≤ maxRegion l.info) ↔
      ∀ n ∈ regs.map Region.len, n ≤ maxRegion l.info := by simp
  constructor
  case mp =>
    rintro ⟨hone, hf, hk, hfirst, hrest⟩
    rw [u32_blockLen_succ l.blockSize_pos hf] at htakes
    have hfirst : reg.len ≤ maxRegion l.info + 1 := by omega
    exact {
      blocks_lt := hf
      spare := (htakes.one_lt_head_iff (by omega)).mp hone
      regions := htakes.length_le_iff.mp (by simpa using hk)
      first_le := htakes.head_le_iff.mp hfirst
      second_le := (htakes.tail_le_iff hfirst).mp (hmem.mp hrest)
    }
  case mpr =>
    intro hm
    rw [u32_blockLen_succ l.blockSize_pos hm.blocks_lt] at htakes
    have hfirst := htakes.head_le_iff.mpr hm.first_le
    have hk := htakes.length_le_iff.mpr hm.regions
    refine ⟨(htakes.one_lt_head_iff (by omega)).mpr hm.spare, hm.blocks_lt, by simpa using hk,
      by omega, hmem.mpr <| (htakes.tail_le_iff hfirst).mpr hm.second_le⟩

theorem mapsFile_twoGroups : ∃ s, Reachable false twoGroups s ∧
    ¬Fails (doInodeAllocateExtents false twoGroups.info s.fs 40) ∧
    MapsFile false twoGroups.info s.fs 40 "init.rc" := by
  have hinit : ∃ bgs fs r, blockAllocatorInit false twoGroups.info twoGroups.aux = .ok bgs ∧
      doInodeAllocateExtents false twoGroups.info ⟨bgs, []⟩ 40 = .ok (fs, some r) ∧
      bgs.map BlockGroupInfo.freeBlocks = [86, 65] := ⟨_, _, _, rfl, rfl, rfl⟩
  obtain ⟨bgs, fs, r, hinit, hr, hfree⟩ := hinit
  have hreach : Reachable false twoGroups ⟨⟨bgs, []⟩, []⟩ := .init hinit
  have hnf : ¬Fails (doInodeAllocateExtents false twoGroups.info ⟨bgs, []⟩ 40) := by
    simp [Fails, hr]
  refine ⟨_, hreach, hnf, ?_⟩
  refine (mapsFile_iff_mappable ⟨by decide, by decide⟩ hreach (by decide) hnf).mpr ?_
  rw [hfree]
  exact ⟨by decide, ⟨86, by decide, by decide⟩, ⟨[86], by decide, by decide, by decide⟩,
    .inl (by decide), by decide⟩

-- Two groups of 4K blocks, with two free blocks and one.
def scarceGroups : Layout where
  info := .ofNats (43 * 4096) 4096 22 16 256 1 15 (Eq.refl true)
  aux := ⟨0, 43, 1, 2, 1, 1024⟩
  created := rfl
  fits := by decide

-- Once a block was taken from the first group, the spare block is all of the first region, and the other
-- one is lost with it. The inode then has two entries, but no extent.
theorem not_mapsFile_scarceGroups : ∃ s, scarceGroups.Addressable ∧ Reachable false scarceGroups s ∧
    ¬Fails (doInodeAllocateExtents false scarceGroups.info s.fs 1) ∧
    ¬MapsFile false scarceGroups.info s.fs 1 "init.rc" := by
  have hrun : (do
      let bgs ← blockAllocatorInit false scarceGroups.info scarceGroups.aux
      let taken ← allocateBlock false bgs
      let inode ← doInodeAllocateExtents false scarceGroups.info ⟨taken.1, []⟩ 1
      return (taken.2, inode.2.map fun r => (r.1.hdr.ehEntries, r.1.idx, r.1.extents)))
        = ok (20, some (2, none, [])) := by decide +kernel
  obtain ⟨bgs, hinit, hrun⟩ := bind_eq_ok_iff.mp hrun
  obtain ⟨⟨bgs', block⟩, hblock, hrun⟩ := bind_eq_ok_iff.mp hrun
  obtain ⟨⟨fs, res⟩, hr, hres⟩ := bind_eq_ok_iff.mp hrun
  simp only [pure_eq_ok, ok.injEq, Prod.mk.injEq, Option.map_eq_some_iff] at hres
  obtain ⟨hb, ⟨inode, alloc⟩, hsome, hentries, hidx, hextents⟩ := hres
  subst hb hsome
  have hreach : Reachable false scarceGroups ⟨⟨bgs', []⟩, [[20]]⟩ :=
    .allocateBlock (.init hinit) hblock (by decide)
  refine ⟨_, ⟨by decide, by decide⟩, hreach, by simp [Fails, hr], ?_⟩
  rintro ⟨fs', inode', alloc', hdr, extents, hok, hmaps⟩
  obtain ⟨_, hr', hok⟩ := bind_eq_ok_iff.mp hok
  rw [hr, ok.injEq] at hr'
  subst hr'
  obtain ⟨queued, _, hok⟩ := bind_eq_ok_iff.mp hok
  simp only [pure_eq_ok, ok.injEq, Prod.mk.injEq, Option.some.injEq] at hok
  obtain ⟨_, hinode, _⟩ := hok
  subst hinode
  obtain ⟨leaf, hnode, _⟩ := hmaps.node
  have hcount := hmaps.entries
  simp only at hentries hidx hextents
  cases hnode
  case inode => simp [hentries, hextents] at hcount
  case leaf hsome _ _ _ => simp [hidx] at hsome

end Ext4
