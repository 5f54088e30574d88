import PlatformKnife.Ext4.Theorems.RegionLinks

namespace Ext4

open CInt LinkedPath List Option Heap RegionNode LinkedAllocation

variable {h : Heap} {n reg len : Nat} {ptr : Option Nat} {regs : List Region} {ids : List Nat}

@[simp]
theorem regionBlocks_length : (regionBlocks regs).length = lenSum regs := by
  simp [regionBlocks, lenSum, Region.blocks, length_flatMap]

@[simp]
theorem regionBlocks_nil : regionBlocks [] = [] :=
  rfl

@[simp]
theorem regionBlocks_cons : regionBlocks (r :: regs) = r.blocks ++ regionBlocks regs :=
  rfl

@[simp]
theorem regionBlocks_append : regionBlocks (regs ++ regs') = regionBlocks regs ++ regionBlocks regs' :=
  flatMap_append

@[simp]
theorem lenSum_nil : lenSum [] = 0 :=
  rfl

@[simp]
theorem lenSum_cons : lenSum (r :: regs) = r.len + lenSum regs :=
  sum_cons

theorem blockAt_eq_getD (hb : ∀ b ∈ regionBlocks regs, b < ext4AllocateFailed) :
    RegionList.blockAt regs n = (regionBlocks regs)[n]?.getD ext4AllocateFailed := by
  induction regs generalizing n
  case nil => rfl
  case cons r regs ih =>
    simp only [regionBlocks_cons, mem_append] at hb
    rw [RegionList.blockAt, regionBlocks_cons]
    have hlen : r.blocks.length = r.len := by simp [Region.blocks]
    split
    case isTrue hn =>
      have hmem : r.block + n ∈ r.blocks := by simp [Region.blocks, mem_range'_1, hn]
      have hlt : r.block + n < 2 ^ 32 := lt_trans (hb _ (.inl hmem)) (by decide)
      rw [getElem?_append_left (by omega), u32_of_lt hlt]
      simp [Region.blocks, hn]
    case isFalse hn =>
      rw [getElem?_append_right (by omega), hlen]
      exact ih fun b hb' => hb b (.inr hb')

theorem skip_eq (hn : n < r.len) :
    RegionList.skip (regs ++ r :: regs') (lenSum regs + n) = (regs.length, n) := by
  induction regs
  case nil => simp [RegionList.skip, not_le.mpr hn]
  case cons r' regs ih =>
    simp only [cons_append, RegionList.skip, lenSum_cons]
    rw [if_pos (by omega), show r'.len + lenSum regs + n - r'.len = lenSum regs + n by omega, ih]
    rfl

theorem skip_of_le (hn : lenSum regs ≤ n) : RegionList.skip regs n = (regs.length, n - lenSum regs) := by
  induction regs generalizing n
  case nil => rfl
  case cons r regs ih =>
    rw [lenSum_cons] at hn
    rw [RegionList.skip, if_pos (by omega), ih (by omega), lenSum_cons, Nat.sub_sub]
    rfl

namespace Heap

theorem Valid.perm (hv : h.Valid ids) (hp : ids'.Perm ids) : h.Valid ids' where
  nodup   := hp.nodup_iff.mpr hv.nodup
  lt i hi := hv.lt i (hp.subset hi)

section

variable (hv : h.Valid (ids ++ ids'))

include hv

theorem Valid.left : h.Valid ids  where
  nodup   := (nodup_append.mp hv.nodup).left
  lt i hi := hv.lt i (mem_append_left _ hi)

theorem Valid.right : h.Valid ids'  where
  nodup   := (nodup_append.mp hv.nodup).right.left
  lt i hi := hv.lt i (mem_append_right _ hi)

theorem Valid.notMem (hi : i ∈ ids) : i ∉ ids' :=
  fun hi' => (nodup_append.mp hv.nodup).right.right i hi i hi' rfl

end

theorem Valid.of_size {h' : Heap} (hv : h.Valid ids) (hs : h'.size = h.size) : h'.Valid ids where
  nodup := hv.nodup
  lt    := hs ▸ hv.lt

section

variable (hp : Path RegionNode.next h.node ptr ids none) (hv : h.Valid ids)

include hp hv

theorem chain_eq : h.chain ptr = ids :=
  hp.walk_eq (length_le_of_lt hv.nodup hv.lt)

theorem regions_eq : h.regions ptr = h.regionsOf ids := by
  rw [regions, chain_eq hp hv, regionsOf]

theorem blocks_eq : h.blocks ptr = h.blocksOf ids := by
  rw [blocks, regions_eq hp hv, blocksOf]

end

theorem regionsOf_congr {h' : Heap} (hr : ∀ i ∈ ids, (h'.node i).toRegion = (h.node i).toRegion) :
    h'.regionsOf ids = h.regionsOf ids :=
  map_congr_left hr

@[simp]
theorem cut_size : (h.cut reg len).size = h.size + 1 :=
  rfl

theorem cut_node_self : (h.cut reg len).node reg = { h.node reg with next := some h.size, len } := by
  simp [cut, set_node]

theorem cut_node_new (hr : reg < h.size) : (h.cut reg len).node h.size = {
    bg    := (h.node reg).bg
    block := u32 ((h.node reg).block + len)
    len   := (h.node reg).len - len
    next  := (h.node reg).next
    prev  := some reg } := by
  simp [cut, set_node, ne_of_gt hr]

theorem cut_node_of_ne (hr : i ≠ reg) (hi : i < h.size) : (h.cut reg len).node i = h.node i := by
  simp [cut, set_node, hr, ne_of_lt hi]

theorem cut_prev (hi : i < h.size) : ((h.cut reg len).node i).prev = (h.node i).prev := by
  by_cases hr : i = reg
  case pos => rw [hr, cut_node_self]
  case neg => rw [cut_node_of_ne hr hi]

theorem cut_node_of_mem (hv : h.Valid (ids ++ reg :: ids')) (hi : i ∈ ids ∨ i ∈ ids') :
    (h.cut reg len).node i = h.node i := by
  have hn := nodup_append.mp hv.nodup
  have hne : i ≠ reg := by
    cases hi
    case inl hi => exact hn.right.right i hi reg (by simp)
    case inr hi => exact fun he => (nodup_cons.mp hn.right.left).left (he ▸ hi)
  refine cut_node_of_ne hne (hv.lt i ?_)
  cases hi
  case inl hi => simp [hi]
  case inr hi => simp [hi]

theorem cut_path (hp : Path next h.node q (ids ++ reg :: ids') none) (hv : h.Valid (ids ++ reg :: ids')) :
    Path next (h.cut reg len).node q (ids ++ reg :: h.size :: ids') none := by
  have hreg : reg < h.size := hv.lt reg (by simp)
  obtain ⟨r, hp₁, hr, hp₂⟩ := Path.append_iff.mp hp
  have h₁ : Path next (h.cut reg len).node q ids r :=
    hp₁.congr fun i hi => by rw [cut_node_of_mem hv (.inl hi)]
  have h₂ : Path next (h.cut reg len).node (h.node reg).next ids' none :=
    hp₂.congr fun i hi => by rw [cut_node_of_mem hv (.inr hi)]
  refine h₁.append ⟨hr, ?_, ?_⟩
  · rw [cut_node_self]
  · rwa [cut_node_new hreg]

theorem cut_valid (hv : h.Valid (ids ++ reg :: ids')) :
    (h.cut reg len).Valid (ids ++ reg :: h.size :: ids') := by
  have hnot : h.size ∉ ids ++ reg :: ids' := fun hm => lt_irrefl _ (hv.lt _ hm)
  have hperm : (ids ++ reg :: h.size :: ids').Perm (h.size :: (ids ++ reg :: ids')) := by
    simpa using @perm_middle _ h.size (ids ++ [reg]) ids'
  constructor
  case nodup => exact hperm.nodup_iff.mpr (nodup_cons.mpr ⟨hnot, hv.nodup⟩)
  case lt =>
    intro i hi
    cases mem_cons.mp (hperm.mem_iff.mp hi)
    case inl hi => rw [hi, cut_size]; exact Nat.lt_succ_self _
    case inr hi => rw [cut_size]; exact Nat.lt_succ_of_lt (hv.lt i hi)

@[simp]
theorem regionsOf_append : h.regionsOf (ids ++ ids') = h.regionsOf ids ++ h.regionsOf ids' :=
  map_append

@[simp]
theorem regionsOf_cons : h.regionsOf (i :: ids) = (h.node i).toRegion :: h.regionsOf ids :=
  rfl

@[simp]
theorem regionsOf_nil : h.regionsOf [] = [] :=
  rfl

@[simp]
theorem regionsOf_length : (h.regionsOf ids).length = ids.length :=
  length_map _

theorem cut_blocksOf (hv : h.Valid (ids ++ reg :: ids')) (hlen : len ≤ (h.node reg).len)
    (hb : (h.node reg).block + len < 2 ^ 32) (hn : n = lenSum (h.regionsOf ids) + len) :
    (h.cut reg len).blocksOf (ids ++ [reg]) = (h.blocksOf (ids ++ reg :: ids')).take n ∧
      (h.cut reg len).blocksOf (h.size :: ids') = (h.blocksOf (ids ++ reg :: ids')).drop n := by
  have hsame (js : List Nat) (hjs : ∀ i ∈ js, i ∈ ids ∨ i ∈ ids') :
      (h.cut reg len).regionsOf js = h.regionsOf js :=
    regionsOf_congr fun i hi => by rw [cut_node_of_mem hv (hjs i hi)]
  have hblocks : (h.node reg).blocks = range' (h.node reg).block len
      ++ range' ((h.node reg).block + len) ((h.node reg).len - len) := by
    rw [Region.blocks, range'_append_1, Nat.add_sub_cancel' hlen]
  have hall : h.blocksOf (ids ++ reg :: ids')
      = (h.blocksOf ids ++ range' (h.node reg).block len)
        ++ (range' ((h.node reg).block + len) ((h.node reg).len - len) ++ h.blocksOf ids') := by
    rw [blocksOf, regionsOf_append, regionBlocks_append, regionsOf_cons, regionBlocks_cons, hblocks]
    simp only [append_assoc, blocksOf]
  have hl : (h.blocksOf ids ++ range' (h.node reg).block len).length = n := by
    simp [blocksOf, hn]
  rw [hall, take_left' hl, drop_left' hl]
  constructor
  case left =>
    rw [blocksOf, regionsOf_append, hsame ids fun i hi => .inl hi, regionsOf_cons, cut_node_self]
    simp [blocksOf, Region.blocks]
  case right =>
    rw [blocksOf, regionsOf_cons, hsame ids' fun i hi => .inr hi, cut_node_new (hv.lt reg (by simp))]
    simp [blocksOf, Region.blocks, u32_of_lt hb]

end Heap

-- An allocation with the cursor in the first of the regions ahead, which is linked back to the one before
-- it.
structure Aligned (a : LinkedAllocation) (behind ahead oob : List Nat) : Prop where
  path : Path RegionNode.next a.heap.node a.list.first (behind ++ ahead) none
  iter : a.list.iter = ahead.head?
  prev : ∀ i, ahead.head? = some i → (a.heap.node i).prev = behind.getLast?
  oobs : Path RegionNode.next a.heap.node a.oobList.first oob none
  last : a.oobList.last = oob.getLast?
  valid : a.heap.Valid (behind ++ ahead ++ oob)
  pos : ∀ i ∈ ahead, 0 < (a.heap.node i).len
  numbers : ∀ i ∈ ahead, (a.heap.node i).block + (a.heap.node i).len < 2 ^ 32

section Aligned

variable {a a' : LinkedAllocation} {behind ahead oob js ks : List Nat}

namespace Aligned

section

variable (hal : Aligned a behind ahead oob)

include hal

theorem path_ahead : Path next a.heap.node a.list.iter ahead none := by
  obtain ⟨r, _, hp⟩ := Path.append_iff.mp hal.path
  rwa [hal.iter, hp.head?_eq]

theorem valid_ahead : a.heap.Valid ahead :=
  hal.valid.left.right

theorem regions_iter : a.heap.regions a.list.iter = a.heap.regionsOf ahead :=
  regions_eq hal.path_ahead hal.valid_ahead

theorem chain_iter : a.heap.chain a.list.iter = ahead :=
  chain_eq hal.path_ahead hal.valid_ahead

end

theorem doSplit_inside (hal : Aligned a behind (js ++ reg :: ks) oob)
    (hn : n = lenSum (a.heap.regionsOf js) + len) (hlen : len < (a.heap.node reg).len) (hpos : 0 < len) :
    doSplitAllocation a.heap a.list n
      = (a.heap.cut reg len, { a.list with iter := some a.heap.size }, a.list.iter) := by
  have hskip : RegionList.skip (a.heap.regions a.list.iter) n = (js.length, len) := by
    rw [hal.regions_iter, hn, regionsOf_append, regionsOf_cons, skip_eq hlen, regionsOf_length]
  simp [doSplitAllocation, hskip, hal.chain_iter, hpos]

theorem doSplit_boundary (hal : Aligned a behind (js ++ reg :: ks) oob)
    (hn : n = lenSum (a.heap.regionsOf js)) :
    doSplitAllocation a.heap a.list n = (a.heap, a.list, some reg) := by
  have hpos := hal.pos reg (by simp)
  have hskip : RegionList.skip (a.heap.regions a.list.iter) n = (js.length, 0) := by
    rw [hal.regions_iter, hn, regionsOf_append, regionsOf_cons, ← add_zero (lenSum _),
      skip_eq hpos, regionsOf_length]
  simp [doSplitAllocation, hskip, hal.chain_iter]

theorem doSplit_end (hal : Aligned a behind ahead oob) (hn : lenSum (a.heap.regionsOf ahead) ≤ n) :
    doSplitAllocation a.heap a.list n = (a.heap, a.list, none) := by
  simp [doSplitAllocation, hal.regions_iter, skip_of_le hn, hal.chain_iter]

theorem first_eq (hal : Aligned a behind ahead oob) (hf : a.list.first = some i) (hi : i ∈ ahead) :
    behind = [] := by
  have hhead := hal.path.head?_eq
  obtain _ | ⟨j, behind⟩ := behind
  · rfl
  rw [hf, cons_append, head?_cons, some.injEq] at hhead
  have hn := (nodup_append.mp hal.valid.nodup).left
  rw [cons_append, nodup_cons] at hn
  exact absurd (hhead ▸ mem_append_right behind hi) hn.left

theorem cut_node (hal : Aligned a behind (js ++ reg :: ks) oob) (hi : i ∈ behind ∨ i ∈ oob) :
    (a.heap.cut reg len).node i = a.heap.node i := by
  have hlt : i < a.heap.size := hal.valid.lt i (by simp only [mem_append]; tauto)
  refine cut_node_of_ne ?_ hlt
  rintro rfl
  cases hi
  case inl hi => exact hal.valid.left.notMem hi (by simp)
  case inr hi => exact hal.valid.notMem (by simp) hi

theorem movable_inside (hal : Aligned a behind (js ++ reg :: ks) oob) (len : Nat) :
    Movable ⟨a.heap.cut reg len, { a.list with iter := some a.heap.size, partialIter := 0 }, a.oobList⟩
      a.list.iter (js ++ [reg]) oob behind.getLast? (some a.heap.size) := by
  have hn := hal.valid.nodup
  have hhead : (js ++ [reg]).head? = (js ++ reg :: ks).head? := by
    cases js <;> rfl
  have hmem (i : Nat) (hi : i ∈ js ++ [reg]) : i ∈ js ++ reg :: ks := by
    simp only [mem_append, mem_cons] at hi ⊢
    tauto
  have hlt (i : Nat) (hi : i ∈ js ++ [reg]) : i < a.heap.size := hal.valid_ahead.lt i (hmem i hi)
  constructor
  case path =>
    have hcut : Path next (a.heap.cut reg len).node a.list.iter ((js ++ [reg]) ++ a.heap.size :: ks)
        none := by
      simpa using cut_path hal.path_ahead hal.valid_ahead
    obtain ⟨r, hp, hr⟩ := Path.append_iff.mp hcut
    rwa [hr.left] at hp
  case ends => rfl
  case iter =>
    intro i hi he
    exact ne_of_gt (hlt i hi) (some.inj he)
  case first =>
    intro i hi hf
    have hb := hal.first_eq hf (hmem i hi)
    rw [hhead, ← hf, ← hal.path.head?_eq, hb, nil_append]
  case prev =>
    intro i hi
    have : ((a.heap.cut reg len).node i).prev = (a.heap.node i).prev :=
      cut_prev (hlt i (mem_of_head? hi))
    rw [this, hal.prev i (hhead ▸ hi)]
  case back =>
    intro i hi
    have hb := mem_of_getLast? hi
    exact ⟨fun hr => hal.valid.left.notMem hb (hmem i hr), hal.valid.notMem (mem_append_left _ hb)⟩
  case oobs =>
    refine hal.oobs.congr fun i hi => ?_
    have : (a.heap.cut reg len).node i = a.heap.node i := hal.cut_node (.inr hi)
    rw [this]
  case last => exact hal.last
  case nodup =>
    have hsub : (js ++ [reg]).Sublist (js ++ reg :: ks) := List.Sublist.append_left (by simp) js
    exact hal.valid.nodup.sublist ((hsub.trans (sublist_append_right _ _)).append_right _)

end Aligned

-- What is left when the next `n` blocks were moved, by the addresses of regions.
structure Reserved (a : LinkedAllocation) (behind ahead oob : List Nat) (n : Nat) (a' : LinkedAllocation) :
    Prop where
  main   : a'.heap.blocks a'.list.first = a.heap.blocksOf behind ++ (a.heap.blocksOf ahead).drop n
  oobs   : a'.heap.blocks a'.oobList.first = a.heap.blocksOf oob ++ (a.heap.blocksOf ahead).take n
  iter   : a'.heap.blocks a'.list.iter = (a.heap.blocksOf ahead).drop n
  offset : a'.list.partialIter = 0

theorem Heap.blocksOf_congr {h' : Heap} (hr : ∀ i ∈ ids, (h'.node i).toRegion = (h.node i).toRegion) :
    h'.blocksOf ids = h.blocksOf ids := by
  rw [blocksOf, regionsOf_congr hr, blocksOf]

theorem Heap.mem_blocksOf (hi : i ∈ ids) (hb : block ∈ (h.node i).blocks) : block ∈ h.blocksOf ids :=
  mem_flatMap.mpr ⟨_, mem_map_of_mem hi, hb⟩

@[simp]
theorem Heap.blocksOf_append : h.blocksOf (ids ++ ids') = h.blocksOf ids ++ h.blocksOf ids' := by
  simp [blocksOf]

namespace Aligned

variable (hal : Aligned a behind (js ++ reg :: ks) oob)

include hal

theorem valid_cut (len : Nat) :
    (a.heap.cut reg len).Valid (behind ++ a.heap.size :: ks ++ (oob ++ (js ++ [reg]))) := by
  have hv : a.heap.Valid ((behind ++ js) ++ reg :: (ks ++ oob)) := by
    simpa using hal.valid
  refine (cut_valid hv).perm ?_
  refine perm_iff_count.mpr fun i => ?_
  simp only [count_append, count_cons, count_nil]
  omega

variable (hm : MovedOob ⟨a.heap.cut reg len, { a.list with iter := some a.heap.size, partialIter := 0 },
  a.oobList⟩ (js ++ [reg]) oob behind.getLast? (some a.heap.size) a')

include hm

theorem path_inside :
    Path next a'.heap.node a'.list.first (behind ++ a.heap.size :: ks) none ∧
      Path next a'.heap.node a'.list.iter (a.heap.size :: ks) none := by
  have hv := hal.valid_cut len
  have hcut : Path next (a.heap.cut reg len).node a.list.first
      (behind ++ ((js ++ [reg]) ++ a.heap.size :: ks)) none := by
    have hp : Path next a.heap.node a.list.first ((behind ++ js) ++ reg :: ks) none := by
      simpa using hal.path
    simpa using cut_path hp (by simpa using hal.valid.left)
  obtain ⟨r, hbehind, hahead⟩ := Path.append_iff.mp hcut
  obtain ⟨r', _, hrest⟩ := Path.append_iff.mp hahead
  rw [hrest.left] at hrest
  -- The links of the regions ahead are as after the split.
  have hrest' : Path next a'.heap.node (some a.heap.size) (a.heap.size :: ks) none := by
    refine hrest.congr fun i hi => ?_
    have hb : behind.getLast? ≠ some i := fun hb => hv.left.notMem (mem_of_getLast? hb) hi
    have hnot := hv.notMem (mem_append_right _ hi)
    rw [mem_append, not_or] at hnot
    rw [hm.next i hnot.right hnot.left]
    simp [hb]
  refine ⟨?_, by rwa [hm.iter]⟩
  have hhead : (js ++ [reg]).head? = (js ++ reg :: ks).head? := by
    cases js <;> rfl
  have hne : js ++ [reg] ≠ [] := by simp
  rcases eq_nil_or_concat' behind with hnil | ⟨init, last, hinit⟩
  · subst hnil
    have hfirst : a.list.first = (js ++ [reg]).head? := by
      rw [hhead, ← hal.path.head?_eq, nil_append]
    rw [hm.first, if_pos ⟨hne, hfirst⟩]
    exact hrest'
  subst hinit
  have hback : (init ++ [last]).getLast? = some last := by simp
  have hfirst : a.list.first ≠ (js ++ [reg]).head? := by
    intro hf
    obtain ⟨i, hi⟩ := ne_none_iff_exists'.mp (mt head?_eq_none_iff.mp hne)
    have hmem := mem_of_head? (hhead ▸ hi)
    have := hal.first_eq (hf.trans hi) hmem
    simp at this
  have hnext (i : Nat) (hi : i ∈ init ++ [last]) : (a'.heap.node i).next
      = if some last = some i then some a.heap.size else ((a.heap.cut reg len).node i).next := by
    have hnot := hv.notMem (mem_append_left _ hi)
    rw [mem_append, not_or] at hnot
    rw [hm.next i hnot.right hnot.left, hback]
    simp [hne]
  rw [hm.first, if_neg fun hc => hfirst hc.right]
  refine (hbehind.redirect ?_ ?_).append hrest'
  · intro i hi
    have hl : last ≠ i := fun hl => hv.left.left.notMem hi (by simp [hl])
    rw [hnext i (by simp [hi]), if_neg (by simpa using hl)]
  · rw [hnext last (by simp), if_pos rfl]

theorem reserved_inside (hn : n = lenSum (a.heap.regionsOf js) + len) (hlen : len < (a.heap.node reg).len) :
    Reserved a behind (js ++ reg :: ks) oob n a' := by
  have hnum := hal.numbers reg (by simp)
  obtain ⟨htake, hdrop⟩ := cut_blocksOf hal.valid_ahead (le_of_lt hlen) (by omega) hn
  have hsame (ids : List Nat) : a'.heap.blocksOf ids = (a.heap.cut reg len).blocksOf ids :=
    blocksOf_congr fun i _ => hm.region i
  have hkeep (ids : List Nat) (hids : ∀ i ∈ ids, i ∈ behind ∨ i ∈ oob) :
      (a.heap.cut reg len).blocksOf ids = a.heap.blocksOf ids :=
    blocksOf_congr fun i hi => by rw [hal.cut_node (hids i hi)]
  obtain ⟨hmain, hiter⟩ := hal.path_inside hm
  have hv : a'.heap.Valid (behind ++ a.heap.size :: ks ++ (oob ++ (js ++ [reg]))) :=
    (hal.valid_cut len).of_size hm.size
  constructor
  case main =>
    rw [blocks_eq hmain hv.left, blocksOf_append, hsame, hsame, hdrop, hkeep behind fun i hi => .inl hi]
  case oobs =>
    rw [blocks_eq hm.oobs hv.right, blocksOf_append, hsame, hsame, htake, hkeep oob fun i hi => .inr hi]
  case iter => rw [blocks_eq hiter hv.left.right, hsame, hdrop]
  case offset => rw [hm.offset]

-- The cursor is in the region that was cut off, and the next call finds the lists as this one did.
theorem aligned_inside (hlen : len < (a.heap.node reg).len) :
    Aligned a' behind (a.heap.size :: ks) (oob ++ (js ++ [reg])) := by
  have hreg : reg < a.heap.size := hal.valid_ahead.lt reg (by simp)
  have hnum := hal.numbers reg (by simp)
  have hnew : (a'.heap.node a.heap.size).toRegion = ((a.heap.cut reg len).node a.heap.size).toRegion :=
    hm.region _
  rw [cut_node_new hreg] at hnew
  have hks (i : Nat) (hi : i ∈ ks) : (a'.heap.node i).toRegion = (a.heap.node i).toRegion := by
    rw [hm.region, cut_node_of_mem hal.valid_ahead (.inr hi)]
  constructor
  case path => exact (hal.path_inside hm).left
  case iter => exact hm.iter
  case prev =>
    intro i hi
    rw [← some.inj hi, hm.prev _ rfl, if_neg (by simp)]
  case oobs => exact hm.oobs
  case last => exact hm.last
  case valid => exact (hal.valid_cut len).of_size hm.size
  case pos =>
    intro i hi
    cases mem_cons.mp hi
    case inl hi =>
      rw [hi, hnew]
      exact Nat.sub_pos_of_lt hlen
    case inr hi =>
      rw [hks i hi]
      exact hal.pos i (by simp [hi])
  case numbers =>
    intro i hi
    cases mem_cons.mp hi
    case inl hi =>
      rw [hi, hnew]
      dsimp only
      rw [u32_of_lt (by omega)]
      omega
    case inr hi =>
      rw [hks i hi]
      exact hal.numbers i (by simp [hi])

end Aligned

theorem exists_region (hn : n < lenSum (h.regionsOf ids)) : ∃ js reg ks len, ids = js ++ reg :: ks ∧
    n = lenSum (h.regionsOf js) + len ∧ len < (h.node reg).len := by
  induction ids generalizing n
  case nil => simp at hn
  case cons i ids ih =>
    by_cases hi : n < (h.node i).len
    case pos => exact ⟨[], i, ids, n, rfl, by simp, hi⟩
    simp only [regionsOf_cons, lenSum_cons] at hn
    obtain ⟨js, reg, ks, len, hids, hn', hlen⟩ := @ih (n - (h.node i).len) (by omega)
    exact ⟨i :: js, reg, ks, len, by rw [hids, cons_append], by simp; omega, hlen⟩

end Aligned
end Ext4
