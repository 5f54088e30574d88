import PlatformKnife.Ext4.Fixup
import PlatformKnife.Lib.Writes

namespace Ext4

open CInt List Except

section Nodes

variable {disk : Disk} {node : List UInt8} {hdr : ExtentHeader} {e : Nat → Extent}
variable {idx : Nat → ExtentIdx} {child : Nat → List UInt8} {b fsBlock : Nat} {P : Nat → Prop}

section

variable (hh : headerOf node = .ok hdr)

include hh

theorem assigns_leaf_iff (hd : hdr.ehDepth = 0)
    (he : ∀ i < hdr.ehEntries, extentOf node i = .ok (e i) ∧ P i) :
    Assigns disk node b fsBlock ↔
      ∃ i < hdr.ehEntries, (e i).Covers b ∧ fsBlock = (e i).start + (b - (e i).eeBlock) := by
  constructor
  case mp =>
    intro h
    cases h
    case leaf i e' hd' hi hh' he' hc =>
      obtain rfl := ok.inj (hh.symm.trans hh')
      obtain rfl := ok.inj ((he i hi).left.symm.trans he')
      exact ⟨i, hi, hc, rfl⟩
    case index hd' _ _ hh' _ _ =>
      obtain rfl := ok.inj (hh.symm.trans hh')
      exact absurd hd hd'
  case mpr =>
    rintro ⟨i, hi, hc, hf⟩
    exact hf ▸ .leaf hh hd hi (he i hi).left hc

theorem assigns_index_iff (hd : hdr.ehDepth = d + 1) (hc : ∀ i < hdr.ehEntries,
      extentIdxOf node i = .ok (idx i) ∧ disk (idx i).fsBlockNum = some (child i) ∧ P i) :
    Assigns disk node b fsBlock ↔ ∃ i < hdr.ehEntries, Assigns disk (child i) b fsBlock := by
  constructor
  case mp =>
    intro h
    cases h
    case leaf hd' _ hh' _ _ =>
      obtain rfl := ok.inj (hh.symm.trans hh')
      omega
    case index i idx' child' _ hi hdisk' hh' hidx' ha =>
      obtain rfl := ok.inj (hh.symm.trans hh')
      obtain rfl := ok.inj ((hc i hi).left.symm.trans hidx')
      obtain rfl := Option.some.inj ((hc i hi).right.left.symm.trans hdisk')
      exact ⟨i, hi, ha⟩
  case mpr =>
    rintro ⟨i, hi, ha⟩
    exact .index hh (by omega) hi (hc i hi).left (hc i hi).right.left ha

theorem visits_leaf_iff (hd : hdr.ehDepth = 0)
    (he : ∀ i < hdr.ehEntries, extentOf node i = .ok (e i) ∧ P i) :
    Visits disk node b ↔ ∃ i < hdr.ehEntries, (e i).Covers b := by
  constructor
  case mp =>
    intro h
    cases h
    case leaf i e' hd' hi hh' he' hc =>
      obtain rfl := ok.inj (hh.symm.trans hh')
      obtain rfl := ok.inj ((he i hi).left.symm.trans he')
      exact ⟨i, hi, hc⟩
    case index hd' _ hh' _ _ =>
      obtain rfl := ok.inj (hh.symm.trans hh')
      exact absurd hd hd'
  case mpr =>
    rintro ⟨i, hi, hc⟩
    exact .leaf hh hd hi (he i hi).left hc

end

theorem visits_index_iff {idx : ExtentIdx} {child : List UInt8} (hh : headerOf node = .ok hdr)
    (hd : hdr.ehDepth = d + 1) (hidx : extentIdxOf node 0 = .ok idx)
    (hdisk : disk idx.fsBlockNum = some child) : Visits disk node b ↔ Visits disk child b := by
  constructor
  case mp =>
    intro h
    cases h
    case leaf hd' _ hh' _ _ =>
      obtain rfl := ok.inj (hh.symm.trans hh')
      omega
    case index idx' child' _ hdisk' hh' hidx' hv =>
      obtain rfl := ok.inj (hidx.symm.trans hidx')
      obtain rfl := Option.some.inj (hdisk.symm.trans hdisk')
      exact hv
  case mpr => exact .index hh (by omega) hidx hdisk

end Nodes

section Walk

variable {disk : Disk} {node : List UInt8} {hdr : ExtentHeader} {blockList : List Nat}
variable {b d lo hi stack : Nat} {v : Nat → Nat}

namespace WellFormed

variable (h : WellFormed disk d lo hi node)

include h

theorem exists_header : ∃ hdr, headerOf node = .ok hdr ∧ hdr.ehMagic = ext4ExtMagic := by
  induction h
  case leaf hh hm _ _ _ => exact ⟨_, hh, hm⟩
  case index hh hm _ _ _ _ _ _ _ => exact ⟨_, hh, hm⟩

theorem range_of_assigns (ha : Assigns disk node b fsBlock) : lo ≤ b ∧ b < hi := by
  induction h generalizing b fsBlock
  case leaf e hh _ hd he _ =>
    obtain ⟨i, hi, ⟨h₁, h₂⟩, _⟩ := (assigns_leaf_iff hh hd he).mp ha
    obtain ⟨_, _, hlo, hhi⟩ := he i hi
    omega
  case index hh _ hd _ hc hb _ _ ih =>
    obtain ⟨i, hi, ha⟩ := (assigns_index_iff hh hd hc).mp ha
    have := ih i hi ha
    have := hb i hi
    omega

theorem assigns_unique (h₁ : Assigns disk node b f₁) (h₂ : Assigns disk node b f₂) : f₁ = f₂ := by
  induction h generalizing b f₁ f₂
  case leaf e hh _ hd he hs =>
    have hiff {f} := @assigns_leaf_iff disk _ _ e b f _ hh hd he
    obtain ⟨i, hi, ⟨hi₁, hi₂⟩, hf₁⟩ := hiff.mp h₁
    obtain ⟨j, hj, ⟨hj₁, hj₂⟩, hf₂⟩ := hiff.mp h₂
    rcases lt_trichotomy i j with hij | hij | hij
    case inl => have := hs i j hij hj; omega
    case inr.inl => rw [hf₁, hf₂, hij]
    case inr.inr => have := hs j i hij hi; omega
  case index idx child childHdr bound hh _ hd _ hc hb hs hw ih =>
    have hiff {f} := @assigns_index_iff disk _ _ idx child b f _ hh _ hd hc
    obtain ⟨i, hi, ha₁⟩ := hiff.mp h₁
    obtain ⟨j, hj, ha₂⟩ := hiff.mp h₂
    have hr₁ := (hw i hi).range_of_assigns ha₁
    have hr₂ := (hw j hj).range_of_assigns ha₂
    rcases lt_trichotomy i j with hij | hij | hij
    case inl => have := hs i j hij hj; omega
    case inr.inl => exact ih i hi ha₁ (hij ▸ ha₂)
    case inr.inr => have := hs j i hij hi; omega

theorem exists_assigns (hh : headerOf node = .ok hdr)
    (hpos : 0 < hdr.ehEntries) : ∃ b fsBlock, Assigns disk node b fsBlock := by
  induction h generalizing hdr
  case leaf e hh' _ hd he _ =>
    obtain rfl := ok.inj (hh.symm.trans hh')
    obtain ⟨_, hlen, _⟩ := he 0 hpos
    have hc : (e 0).Covers (e 0).eeBlock := ⟨le_refl _, by omega⟩
    exact ⟨_, _, (assigns_leaf_iff hh' hd he).mpr ⟨0, hpos, hc, rfl⟩⟩
  case index hh' _ hd hpos' hc _ _ _ ih =>
    obtain ⟨_, _, _, hch, hcpos⟩ := hc 0 hpos'
    obtain ⟨b, fsBlock, ha⟩ := ih 0 hpos' hch hcpos
    exact ⟨b, fsBlock, (assigns_index_iff hh' hd hc).mpr ⟨0, hpos', ha⟩⟩

theorem exists_of_visits (hv : Visits disk node b) : ∃ fsBlock, Assigns disk node b fsBlock := by
  induction h generalizing b
  case leaf hh _ hd he _ =>
    obtain ⟨i, hi, hc⟩ := (visits_leaf_iff hh hd he).mp hv
    exact ⟨_, (assigns_leaf_iff hh hd he).mpr ⟨i, hi, hc, rfl⟩⟩
  case index hh _ hd hpos hc _ _ _ ih =>
    obtain ⟨hidx, hdisk, _⟩ := hc 0 hpos
    obtain ⟨f, ha⟩ := ih 0 hpos ((visits_index_iff hh hd hidx hdisk).mp hv)
    exact ⟨f, (assigns_index_iff hh hd hc).mpr ⟨0, hpos, ha⟩⟩

end WellFormed

theorem Extent.covers_iff {e : Extent} : e.Covers b ↔ ∃ j < e.eeLen, b = e.eeBlock + j := by
  unfold Covers
  constructor
  case mp  => exact fun h => ⟨b - e.eeBlock, by omega, by omega⟩
  case mpr => rintro ⟨j, hj, rfl⟩; omega

theorem setExtent_writes {e : Extent} (hlen : e.eeBlock + e.eeLen ≤ blockList.length)
    (h32 : e.eeBlock + e.eeLen ≤ 2 ^ 32)
    (hv : ∀ j < e.eeLen, v (e.eeBlock + j) = e.start + j) :
    ∃ blockList', setExtent e blockList = .ok blockList' ∧
      Writes v {b | e.Covers b} blockList blockList' := by
  have hstep : ∀ j ∈ range e.eeLen, ∀ ys : List Nat, ys.length = blockList.length →
      ∃ zs, setBlock ys (u32 (e.eeBlock + j)) (e.start + j) = .ok zs ∧ Writes v {e.eeBlock + j} ys zs := by
    intro j hj ys hys
    rw [mem_range] at hj
    rw [u32_of_lt (by omega), setBlock, if_pos (by omega), ← hv j hj]
    exact ⟨_, rfl, .set v _ ys⟩
  obtain ⟨blockList', heq, hw⟩ := Writes.foldlM hstep
  refine ⟨blockList', heq, hw.congr ?_⟩
  ext b
  simp only [Set.mem_ofPred_eq, mem_range, Set.mem_singleton_iff, Extent.covers_iff]

section

variable (hlen : hi ≤ blockList.length) (h32 : hi ≤ 2 ^ 32)
variable (hv : ∀ b fsBlock, Assigns disk node b fsBlock → v b = fsBlock)

include hlen h32 hv

theorem getExtentEnts_writes (h : WellFormed disk 0 lo hi node) :
    ∃ blockList', getExtentEnts node blockList = .ok blockList' ∧
      Writes v {b | Visits disk node b} blockList blockList' := by
  cases h
  case leaf hdr e hm hd hs hh he =>
    have ha {b fsBlock} := @assigns_leaf_iff disk node hdr e b fsBlock _ hh hd he
    have hstep : ∀ i ∈ range hdr.ehEntries, ∀ ys : List Nat, ys.length = blockList.length →
        ∃ zs, (extentOf node i >>= fun extent => setExtent extent ys) = .ok zs ∧
          Writes v {b | (e i).Covers b} ys zs := by
      intro i hi ys hys
      rw [mem_range] at hi
      obtain ⟨hei, _, _, hhi⟩ := he i hi
      rw [hei]
      refine setExtent_writes (by omega) (by omega) fun j hj => hv _ _ (ha.mpr ⟨i, hi, ?_, ?_⟩)
      · exact Extent.covers_iff.mpr ⟨j, hj, rfl⟩
      · rw [Nat.add_sub_cancel_left]
    obtain ⟨blockList', heq, hw⟩ := Writes.foldlM hstep
    refine ⟨blockList', ?_, hw.congr ?_⟩
    · simp only [getExtentEnts, hh, hd, ok_bind, ne_eq, not_true, if_false]
      exact heq
    · ext b
      simp [visits_leaf_iff hh hd he]

theorem walk_writes (h : WellFormed disk d lo hi node) (hh : headerOf node = .ok hdr) (hs : d ≤ stack) :
    ∃ blockList', (if hdr.ehDepth = 0 then getExtentEnts node blockList
        else getExtentIdx disk stack node blockList) = .ok blockList' ∧
      Writes v {b | Visits disk node b} blockList blockList' := by
  induction h generalizing hdr stack blockList
  case leaf e hh' hm hd he hsort =>
    obtain rfl := ok.inj (hh.symm.trans hh')
    rw [if_pos hd]
    exact getExtentEnts_writes hlen h32 hv (.leaf e hh' hm hd he hsort)
  case index idx child childHdr bound hh' hm hd hpos hc hb hsort hw ih =>
    obtain rfl := ok.inj (hh.symm.trans hh')
    obtain ⟨stack, rfl⟩ : ∃ k, stack = k + 1 := ⟨stack - 1, by omega⟩
    obtain ⟨hidx, hdisk, hsize, hch, _⟩ := hc 0 hpos
    have := hb 0 hpos
    have hv' : ∀ b fsBlock, Assigns disk (child 0) b fsBlock → v b = fsBlock :=
      fun b f ha => hv b f ((assigns_index_iff hh' hd hc).mpr ⟨0, hpos, ha⟩)
    -- Each round walks the subtree of the first entry.
    have hstep : ∀ i ∈ range hdr.ehEntries, ∀ ys : List Nat, ys.length = blockList.length →
        ∃ zs, (if (childHdr 0).ehDepth = 0 then getExtentEnts (child 0) ys
          else getExtentIdx disk stack (child 0) ys) = .ok zs ∧
          Writes v {b | Visits disk (child 0) b} ys zs :=
      fun i _ ys hys => ih 0 hpos (by omega) (by omega) hv' hch (by omega)
    obtain ⟨blockList', heq, hw⟩ := Writes.foldlM hstep
    refine ⟨blockList', ?_, hw.congr ?_⟩
    · have hne : hdr.ehDepth ≠ 0 := by omega
      simp only [if_neg hne, getExtentIdx, hh', ok_bind, hidx, readBlock, hdisk, if_pos hsize, hch]
      exact heq
    · ext b
      simp only [Set.mem_ofPred_eq, visits_index_iff hh' hd hidx hdisk, mem_range]
      exact ⟨fun h => h.choose_spec.right, fun hv => ⟨0, hpos, hv⟩⟩

theorem getBlockListExtents_writes (h : WellFormed disk d lo hi node) (hs : d ≤ stack) :
    ∃ blockList', getBlockListExtents disk stack node blockList = .ok blockList' ∧
      Writes v {b | Visits disk node b} blockList blockList' := by
  obtain ⟨hdr, hh, hm⟩ := h.exists_header
  obtain ⟨blockList', heq, hw⟩ := walk_writes hlen h32 hv h hh hs
  refine ⟨blockList', ?_, hw⟩
  simp only [getBlockListExtents, hh, hm, ok_bind, ne_eq, not_true, if_false]
  exact heq

end

theorem singleEntries_index_iff {idx : ExtentIdx} {child : List UInt8} (hh : headerOf node = .ok hdr)
    (hd : hdr.ehDepth = d + 1) (hidx : extentIdxOf node 0 = .ok idx)
    (hdisk : disk idx.fsBlockNum = some child) :
    SingleEntries disk node ↔ hdr.ehEntries = 1 ∧ SingleEntries disk child := by
  constructor
  case mp =>
    intro h
    cases h
    case leaf hd' hh' =>
      obtain rfl := ok.inj (hh.symm.trans hh')
      omega
    case index idx' child' _ he hdisk' hc hh' hidx' =>
      obtain rfl := ok.inj (hh.symm.trans hh')
      obtain rfl := ok.inj (hidx.symm.trans hidx')
      obtain rfl := Option.some.inj (hdisk.symm.trans hdisk')
      exact ⟨he, hc⟩
  case mpr => exact fun h => .index hh (by omega) h.left hidx hdisk h.right

theorem WellFormed.visits_iff_singleEntries (h : WellFormed disk d lo hi node) :
    (∀ b fsBlock, Assigns disk node b fsBlock → Visits disk node b) ↔ SingleEntries disk node := by
  induction h
  case leaf e hh _ hd he _ =>
    have hl {b} := @visits_leaf_iff disk _ _ e b _ hh hd he
    refine ⟨fun _ => .leaf hh hd, fun _ b f ha => ?_⟩
    obtain ⟨i, hi, hc, _⟩ := (assigns_leaf_iff hh hd he).mp ha
    exact hl.mpr ⟨i, hi, hc⟩
  case index idx child childHdr bound hh _ hd hpos hc hb hsort hw ih =>
    obtain ⟨hidx, hdisk, _⟩ := hc 0 hpos
    have ha {b f} := @assigns_index_iff disk _ _ idx child b f _ hh _ hd hc
    have hvis {b} := @visits_index_iff disk _ _ b _ _ _ hh hd hidx hdisk
    rw [singleEntries_index_iff hh hd hidx hdisk, ← ih 0 hpos]
    constructor
    case mp =>
      intro h
      refine ⟨?_, fun b f hab => hvis.mp (h b f (ha.mpr ⟨0, hpos, hab⟩))⟩
      by_contra hne
      -- The subtree of the second entry has a block, which is not in the range of the first.
      obtain ⟨_, _, _, hch, hcpos⟩ := hc 1 (by omega)
      obtain ⟨b, f, hab⟩ := (hw 1 (by omega)).exists_assigns hch hcpos
      obtain ⟨f', hab'⟩ := (hw 0 hpos).exists_of_visits (hvis.mp (h b f (ha.mpr ⟨1, by omega, hab⟩)))
      have := (hw 0 hpos).range_of_assigns hab'
      have := (hw 1 (by omega)).range_of_assigns hab
      have := hsort 0 1 (by omega) (by omega)
      omega
    case mpr =>
      rintro ⟨hone, h⟩ b f hab
      obtain ⟨i, hi, hab⟩ := ha.mp hab
      obtain rfl : i = 0 := by omega
      exact hvis.mpr (h b f hab)

-- The list has what the tree assigns exactly when each index has a single entry.
theorem getBlockListExtents_iff (h : WellFormed disk d 0 n node) (h32 : n ≤ 2 ^ 32) (hs : d ≤ stack) :
    (∀ blockList, n ≤ blockList.length →
      ∃ blockList', getBlockListExtents disk stack node blockList = .ok blockList' ∧
        ∀ b fsBlock, Assigns disk node b fsBlock → blockList'[b]? = some fsBlock) ↔
      SingleEntries disk node := by
  classical
  let v b := if hb : ∃ fsBlock, Assigns disk node b fsBlock then hb.choose else 0
  have hv : ∀ b fsBlock, Assigns disk node b fsBlock → v b = fsBlock := by
    intro b f ha
    have hb : ∃ fsBlock, Assigns disk node b fsBlock := ⟨f, ha⟩
    simp only [v, dif_pos hb]
    exact h.assigns_unique hb.choose_spec ha
  rw [← h.visits_iff_singleEntries]
  constructor
  case mp =>
    intro hall b f ha
    by_contra hvis
    have hlen : n ≤ (replicate n (f + 1)).length := by simp
    obtain ⟨blockList', heq, hset⟩ := hall _ hlen
    obtain ⟨blockList₂, heq₂, hw⟩ := getBlockListExtents_writes hlen h32 hv h hs
    obtain rfl := ok.inj (heq.symm.trans heq₂)
    have hkept := (hw.kept b hvis).symm.trans (hset b f ha)
    have := h.range_of_assigns ha
    simp [this.right] at hkept
  case mpr =>
    intro hvis blockList hlen
    obtain ⟨blockList', heq, hw⟩ := getBlockListExtents_writes hlen h32 hv h hs
    refine ⟨blockList', heq, fun b f ha => ?_⟩
    have := h.range_of_assigns ha
    rw [hw.written b (hvis b f ha) (by omega), hv b f ha]

end Walk

-- Directories of one and of two blocks, with a leaf in the blocks 5 and 6, which gives them the block 7
-- or 9.
namespace DirTree

def node (len depth : Nat) (entries : List (List UInt8)) : List UInt8 :=
  let hdr := [0x0a, 0xf3, .ofNat entries.length, 0, 4, 0, .ofNat depth, 0, 0, 0, 0, 0]
  (hdr ++ entries.flatten).rightpad len 0

def leaf (i : Nat) : List UInt8 :=
  node 1024 0 [[.ofNat i, 0, 0, 0, 1, 0, 0, 0, .ofNat (2 * i + 7), 0, 0, 0]]

def root (n : Nat) : List UInt8 :=
  node 60 1 ((List.range n).map fun i => [.ofNat i, 0, 0, 0, .ofNat (i + 5), 0, 0, 0, 0, 0, 0, 0])

def disk : Disk
  | 5 => some (leaf 0)
  | 6 => some (leaf 1)
  | _ => none

theorem headerOf_leaf (hi : i < 2) : headerOf (leaf i) = .ok ⟨ext4ExtMagic, 1, 4, 0, 0⟩ := by
  interval_cases i <;> decide +kernel

theorem extentOf_leaf (hi : i < 2) : extentOf (leaf i) 0 = .ok ⟨i, 1, 0, 2 * i + 7⟩ := by
  interval_cases i <;> decide +kernel

theorem headerOf_root (hn : n ≤ 2) : headerOf (root n) = .ok ⟨ext4ExtMagic, n, 4, 1, 0⟩ := by
  interval_cases n <;> decide +kernel

theorem child_root (hn : n ≤ 2) : ∀ i < n, extentIdxOf (root n) i = .ok ⟨i, i + 5, 0, 0⟩ ∧
    disk (ExtentIdx.fsBlockNum ⟨i, i + 5, 0, 0⟩) = some (leaf i) ∧
    (leaf i).length ≤ maxExt4BlockSize := by
  interval_cases n <;> decide +kernel

theorem leaf_wellFormed (hi : i < 2) : WellFormed disk 0 i (i + 1) (leaf i) := by
  refine .leaf (fun _ => ⟨i, 1, 0, 2 * i + 7⟩) (headerOf_leaf hi) rfl rfl ?_ ?_
  · intro j hj
    obtain rfl : j = 0 := Nat.lt_one_iff.mp hj
    exact ⟨extentOf_leaf hi, one_pos, le_refl _, le_refl _⟩
  · intro j k hjk hk
    have : k < 1 := hk
    omega

theorem root_wellFormed (hn : n ≤ 2) (hpos : 0 < n) : WellFormed disk 1 0 n (root n) := by
  refine .index (fun i => ⟨i, i + 5, 0, 0⟩) leaf (fun _ => ⟨ext4ExtMagic, 1, 4, 0, 0⟩) (fun i => i + 1)
    (headerOf_root hn) rfl rfl hpos ?_ ?_ ?_ ?_
  · intro i hi
    obtain ⟨hidx, hdisk, hlen⟩ := child_root hn i hi
    exact ⟨hidx, hdisk, hlen, headerOf_leaf (lt_of_lt_of_le hi hn), one_pos⟩
  · exact fun i hi => ⟨Nat.zero_le _, hi⟩
  · exact fun i j hij _ => hij
  · exact fun i hi => leaf_wellFormed (lt_of_lt_of_le hi hn)

theorem assigns_root (hn : n ≤ 2) (hi : i < n) : Assigns disk (root n) i (2 * i + 7) := by
  obtain ⟨hidx, hdisk, _⟩ := child_root hn i hi
  have hi' := lt_of_lt_of_le hi hn
  have hc : Extent.Covers ⟨i, 1, 0, 2 * i + 7⟩ i := ⟨le_refl _, Nat.lt_succ_self _⟩
  have hleaf := @Assigns.leaf disk _ _ _ _ _ (headerOf_leaf hi') rfl one_pos (extentOf_leaf hi') hc
  rw [Nat.sub_self, Extent.start, zero_mul, zero_add] at hleaf
  exact .index (headerOf_root hn) Nat.one_ne_zero hi hidx hdisk hleaf

theorem singleEntries_root : SingleEntries disk (root 1) := by
  obtain ⟨hidx, hdisk, _⟩ := child_root (by decide) 0 one_pos
  have hleaf : SingleEntries disk (leaf 0) := .leaf (headerOf_leaf (by decide)) rfl
  exact .index (headerOf_root (by decide)) Nat.one_ne_zero rfl hidx hdisk hleaf

-- An index with one entry, and one with two, of which the second is not walked.

theorem getBlockListExtents_oneEntry :
    WellFormed disk 1 0 1 (root 1) ∧ SingleEntries disk (root 1) ∧
      ∀ blockList, 1 ≤ blockList.length →
        ∃ blockList', getBlockListExtents disk 1 (root 1) blockList = .ok blockList' ∧
          ∀ b fsBlock, Assigns disk (root 1) b fsBlock → blockList'[b]? = some fsBlock :=
  have hw := root_wellFormed (by decide) one_pos
  ⟨hw, singleEntries_root,
    (getBlockListExtents_iff hw (by decide) (le_refl 1)).mpr singleEntries_root⟩

theorem not_getBlockListExtents_twoEntries :
    WellFormed disk 1 0 2 (root 2) ∧ Assigns disk (root 2) 1 9 ∧
      getBlockListExtents disk 1 (root 2) [0, 0, 0] = .ok [7, 0, 0] :=
  ⟨root_wellFormed (le_refl 2) Nat.two_pos, assigns_root (le_refl 2) Nat.one_lt_two,
    by decide +kernel⟩

end DirTree
end Ext4
