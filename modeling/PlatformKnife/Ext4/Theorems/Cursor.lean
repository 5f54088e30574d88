import PlatformKnife.Ext4.Theorems.RegionSplit

namespace Ext4

open CInt LinkedPath LinkedAllocation List Option

variable {a b a' : LinkedAllocation} {h : Heap} {list : ListRef} {i n reg len : Nat}
variable {behind ahead oob js ks ids main : List Nat}

-- The allocation that `split_allocation` has when its list was split at the cursor.
structure SplitAt (a b : LinkedAllocation) : Prop where
  split : ∃ x, doSplitAllocation a.heap a.list a.list.partialIter = (b.heap, b.list, x)
  oobs  : b.oobList = a.oobList

theorem SplitAt.reserve (hs : SplitAt a b) (hn : n < 2 ^ 32)
    (hd : doSplitAllocation b.heap b.list n = (h, list, some reg))
    (hm : moveOob h.size ⟨h, { list with partialIter := 0 }, b.oobList⟩ (some reg) = .ok a') :
    a.reserveOobBlocks n = .ok (a', true) := by
  have hu : toU32 (n : Int) = n := by rw [toU32_natCast, u32_of_lt hn]
  obtain ⟨⟨x, hs⟩, hb⟩ := hs
  rw [hb] at hm
  simp only [LinkedAllocation.reserveOobBlocks, splitAllocation, hu, hs, hd, hm, Except.ok_bind,
    Except.pure_eq_ok]

theorem SplitAt.failed (hs : SplitAt a b) (hn : n < 2 ^ 32)
    (hd : doSplitAllocation b.heap b.list n = (h, list, none)) :
    ∃ a', a.reserveOobBlocks n = .ok (a', false) := by
  have hu : toU32 (n : Int) = n := by rw [toU32_natCast, u32_of_lt hn]
  obtain ⟨⟨x, hs⟩, hb⟩ := hs
  refine ⟨{ a with heap := h, list := { list with partialIter := 0 } }, ?_⟩
  simp only [LinkedAllocation.reserveOobBlocks, splitAllocation, hu, hs, hd, Except.pure_eq_ok]

namespace Aligned

theorem fails (hal : Aligned b behind ahead oob) (hs : SplitAt a b) (hn : n < 2 ^ 32)
    (hle : lenSum (b.heap.regionsOf ahead) ≤ n) : ∃ a', a.reserveOobBlocks n = .ok (a', false) :=
  hs.failed hn (hal.doSplit_end hle)

theorem reserves_inside (hal : Aligned b behind (js ++ reg :: ks) oob) (hs : SplitAt a b)
    (hn : n < 2 ^ 32) (hn' : n = lenSum (b.heap.regionsOf js) + len)
    (hlen : len < (b.heap.node reg).len) (hpos : 0 < len) :
    ∃ a', a.reserveOobBlocks n = .ok (a', true) ∧ Reserved b behind (js ++ reg :: ks) oob n a' ∧
      Aligned a' behind (b.heap.size :: ks) (oob ++ (js ++ [reg])) ∧
      (a'.heap.node b.heap.size).len = (b.heap.node reg).len - len := by
  have hf : (js ++ [reg]).length < (b.heap.cut reg len).size := by
    have := length_le_of_lt hal.valid_ahead.nodup hal.valid_ahead.lt
    simp only [length_append, length_cons, length_nil, Heap.cut_size] at *
    omega
  obtain ⟨a', hmove, hmoved⟩ := moveOob_movedOob (hal.movable_inside len) hf
  have hd := hal.doSplit_inside hn' hlen hpos
  obtain ⟨i, hi⟩ : ∃ i, b.list.iter = some i := by
    rw [hal.iter]
    cases js <;> exact ⟨_, rfl⟩
  rw [hi] at hd hmove
  refine ⟨a', hs.reserve hn hd hmove, hal.reserved_inside hmoved hn' hlen,
    hal.aligned_inside hmoved hlen, ?_⟩
  rw [hmoved.region, Heap.cut_node_new (hal.valid_ahead.lt reg (by simp))]

theorem appendable (hal : Aligned b behind ahead oob) :
    b.oobList.first = none ∨ b.oobList.last ≠ none := by
  have hh := hal.oobs.head?_eq
  have hl := hal.last
  cases oob
  case nil => exact .inl hh.symm
  case cons => exact .inr (by simp [hl])

theorem reserves_boundary (hal : Aligned b behind (js ++ reg :: ks) oob) (hs : SplitAt a b)
    (hn : n < 2 ^ 32) (hn' : n = lenSum (b.heap.regionsOf js)) :
    ∃ a', a.reserveOobBlocks n = .ok (a', true) ∧
      Kept { b with list := { b.list with partialIter := 0 } } a' := by
  obtain ⟨a', hmove, hk⟩ := @moveOob_kept ⟨b.heap, { b.list with partialIter := 0 }, b.oobList⟩
    hal.appendable b.heap.size (some reg)
  exact ⟨a', hs.reserve hn (hal.doSplit_boundary hn') hmove, hk⟩

theorem reserves_zero (hal : Aligned b behind (reg :: ks) oob) (hs : SplitAt a b) :
    ∃ a', a.reserveOobBlocks (0 : Nat) = .ok (a', true) ∧ Reserved b behind (reg :: ks) oob 0 a' := by
  have hd := @doSplit_boundary 0 reg b behind oob [] ks hal rfl
  have hmove : moveOob b.heap.size ⟨b.heap, { b.list with partialIter := 0 }, b.oobList⟩ (some reg)
      = .ok ⟨b.heap, { b.list with partialIter := 0 }, b.oobList⟩ := by
    cases b.heap.size
    case zero => rfl
    case succ _ => exact if_pos hal.iter
  refine ⟨_, hs.reserve (by decide) hd hmove, ?_⟩
  constructor
  case main => rw [Heap.blocks_eq hal.path hal.valid.left]; simp
  case oobs => rw [Heap.blocks_eq hal.oobs hal.valid.right]; simp
  case iter => rw [Heap.blocks_eq hal.path_ahead hal.valid_ahead]; simp
  case offset => rfl

theorem cut (hal : Aligned a behind (reg :: ks) oob) (hlen : len < (a.heap.node reg).len) :
    Aligned ⟨a.heap.cut reg len, { a.list with iter := some a.heap.size }, a.oobList⟩ (behind ++ [reg])
      (a.heap.size :: ks) oob := by
  have hreg : reg < a.heap.size := hal.valid.lt reg (by simp)
  have hnum := hal.numbers reg (by simp)
  have hnew : (a.heap.cut reg len).node a.heap.size = _ := Heap.cut_node_new hreg
  have hks (i : Nat) (hi : i ∈ ks) : (a.heap.cut reg len).node i = a.heap.node i :=
    @Heap.cut_node_of_mem _ _ _ [] ks _ hal.valid_ahead (.inr hi)
  constructor
  case path =>
    simpa using Heap.cut_path hal.path hal.valid.left
  case iter => rfl
  case prev =>
    intro i hi
    rw [head?_cons, some.injEq] at hi
    rw [← hi]
    simp [hnew]
  case oobs =>
    refine hal.oobs.congr fun i hi => ?_
    rw [@cut_node _ _ _ _ _ [] ks _ hal (.inr hi)]
  case last => exact hal.last
  case valid =>
    have hv : a.heap.Valid (behind ++ reg :: (ks ++ oob)) := by
      simpa using hal.valid
    simpa using Heap.cut_valid hv
  case pos =>
    intro i hi
    cases mem_cons.mp hi
    case inl hi => rw [hi]; simp only [hnew]; omega
    case inr hi => simp only [hks i hi]; exact hal.pos i (by simp [hi])
  case numbers =>
    intro i hi
    cases mem_cons.mp hi
    case inl hi =>
      rw [hi]
      simp only [hnew]
      rw [u32_of_lt (by omega)]
      omega
    case inr hi => simp only [hks i hi]; exact hal.numbers i (by simp [hi])

end Aligned

theorem Aligned.exists_splitAt (hal : Aligned a behind (reg :: ks) oob)
    (hlt : a.list.partialIter < (a.heap.node reg).len) :
    ∃ b behind' reg' , SplitAt a b ∧ Aligned b behind' (reg' :: ks) oob ∧
      b.heap.blocksOf behind'
        = a.heap.blocksOf behind ++ (a.heap.blocksOf (reg :: ks)).take a.list.partialIter ∧
      b.heap.blocksOf (reg' :: ks) = (a.heap.blocksOf (reg :: ks)).drop a.list.partialIter ∧
      b.heap.blocksOf oob = a.heap.blocksOf oob ∧
      (b.heap.node reg').len + a.list.partialIter = (a.heap.node reg).len ∧
      b.heap.regionsOf ks = a.heap.regionsOf ks := by
  by_cases hz : a.list.partialIter = 0
  case pos =>
    have hd := @Aligned.doSplit_boundary 0 reg a behind oob [] ks hal rfl
    refine ⟨a, behind, reg, ⟨⟨some reg, by rwa [hz]⟩, rfl⟩, hal, ?_⟩
    simp [hz]
  have hd := @Aligned.doSplit_inside _ reg a.list.partialIter a behind oob [] ks hal (by simp; rfl)
    hlt (pos_of_ne_zero hz)
  have hnum := hal.numbers reg (by simp)
  have hreg : reg < a.heap.size := hal.valid.lt reg (by simp)
  obtain ⟨htake, hdrop⟩ :=
    @Heap.cut_blocksOf _ _ _ _ [] ks hal.valid_ahead (le_of_lt hlt) (by omega) rfl
  have hkeep (ids : List Nat) (hids : ∀ i ∈ ids, i ∈ behind ∨ i ∈ oob) :
      (a.heap.cut reg a.list.partialIter).blocksOf ids = a.heap.blocksOf ids :=
    Heap.blocksOf_congr fun i hi => by
      rw [@Aligned.cut_node _ _ _ _ _ [] ks _ hal (hids i hi)]
  have hks : (a.heap.cut reg a.list.partialIter).regionsOf ks = a.heap.regionsOf ks :=
    Heap.regionsOf_congr fun i hi => by
      rw [@Heap.cut_node_of_mem _ _ _ [] ks _ hal.valid_ahead (.inr hi)]
  simp only [nil_append, Heap.regionsOf_nil, lenSum_nil, zero_add] at htake hdrop
  refine ⟨⟨a.heap.cut reg a.list.partialIter, { a.list with iter := some a.heap.size }, a.oobList⟩,
    behind ++ [reg], a.heap.size, ⟨⟨_, hd⟩, rfl⟩, hal.cut hlt, ?_, hdrop,
    hkeep oob fun i hi => .inr hi, ?_, hks⟩
  · rw [Heap.blocksOf_append, htake, hkeep behind fun i hi => .inl hi]
  · simp only [Heap.cut_node_new hreg]
    omega

namespace Proper

section

variable (hp : Proper a main oob)

include hp

theorem aligned (hiter : a.list.iter = some reg) : ∃ behind ks, main = behind ++ reg :: ks ∧
    Aligned a behind (reg :: ks) oob ∧ a.list.partialIter < (a.heap.node reg).len := by
  obtain ⟨behind, ks, hmain, hprev, hlt⟩ := hp.cursor reg hiter
  refine ⟨behind, ks, hmain, ?_, hlt⟩
  constructor
  case path => rw [← hmain]; exact hp.list
  case iter => exact hiter
  case prev =>
    intro i hi
    rw [← some.inj hi, hprev]
  case oobs  => exact hp.oobs
  case last  => exact hp.last
  case valid => rw [← hmain]; exact hp.valid
  case pos =>
    intro i hi
    exact hp.pos i (by rw [hmain]; exact mem_append_right _ hi)
  case numbers =>
    intro i hi
    have hmem : i ∈ main := by rw [hmain]; exact mem_append_right _ hi
    have hpos := hp.pos i hmem
    have hlast : (a.heap.node i).block + ((a.heap.node i).len - 1) ∈ a.heap.blocksOf main :=
      Heap.mem_blocksOf hmem (by simp [Region.blocks, mem_range'_1, hpos])
    have := hp.numbers _ hlast
    simp only [ext4AllocateFailed] at this
    omega

theorem length_lt : (a.heap.blocksOf main).length < 2 ^ 32 := by
  have := length_le_of_lt hp.nodup hp.numbers
  simp only [ext4AllocateFailed] at this
  omega

theorem blocks_first : a.blocks = a.heap.blocksOf main :=
  Heap.blocks_eq hp.list hp.valid.left

theorem blocks_oob : a.oobBlocks = a.heap.blocksOf oob :=
  Heap.blocks_eq hp.oobs hp.valid.right

theorem blocks_iter_suffix : a.heap.blocks a.list.iter <:+ a.heap.blocksOf main := by
  rcases hi : a.list.iter with _ | reg
  · simp [Heap.blocks, Heap.regions, Heap.chain]
  obtain ⟨behind, ks, hmain, hal, _⟩ := hp.aligned hi
  rw [← hi, Heap.blocks_eq hal.path_ahead hal.valid_ahead, hmain, Heap.blocksOf_append]
  exact suffix_append _ _

theorem getBlock_eq (i : Nat) :
    a.getBlock i = (a.heap.blocks a.list.iter)[u32 (i + a.list.partialIter)]?.getD ext4AllocateFailed :=
  blockAt_eq_getD fun block hb => hp.numbers block (hp.blocks_iter_suffix.subset hb)

theorem map_getBlock (hn : n ≤ a.ahead.length) : (range n).map a.getBlock = a.ahead.take n := by
  have hl := hp.blocks_iter_suffix.length_le
  have hlt := hp.length_lt
  simp only [LinkedAllocation.ahead, length_drop] at hn
  apply ext_getElem
  case hl => simp [LinkedAllocation.ahead, hn]
  case h =>
    intro i h₁ h₂
    simp only [length_map, length_range] at h₁
    have hi : i + a.list.partialIter < (a.heap.blocks a.list.iter).length := by omega
    have hu : u32 (i + a.list.partialIter) = i + a.list.partialIter := u32_of_lt (by omega)
    simp only [getElem_map, getElem_range, hp.getBlock_eq, hu, getElem?_eq_getElem hi,
      getD_some, LinkedAllocation.ahead, getElem_take, getElem_drop]
    simp only [add_comm]

theorem behind_eq (hmain : main = behind ++ reg :: ks) (hal : Aligned a behind (reg :: ks) oob) :
    a.behind = a.heap.blocksOf behind ++ (a.heap.blocksOf (reg :: ks)).take a.list.partialIter := by
  have hahead : a.ahead = (a.heap.blocksOf (reg :: ks)).drop a.list.partialIter := by
    rw [LinkedAllocation.ahead, Heap.blocks_eq hal.path_ahead hal.valid_ahead]
  have hall : a.blocks
      = (a.heap.blocksOf behind ++ (a.heap.blocksOf (reg :: ks)).take a.list.partialIter) ++ a.ahead := by
    rw [hp.blocks_first, hmain, Heap.blocksOf_append, hahead, append_assoc, take_append_drop]
  rw [LinkedAllocation.behind, hall, length_append, Nat.add_sub_cancel, take_left]

end

-- A moved region is told by those at the cursor, also after the split there.
theorem endsRegion_iff (hiter : a.heap.regions a.list.iter = r :: regs)
    (hlen : len + a.list.partialIter = r.len) (hn : 0 < n) (r' : Region) (hr' : r'.len = len) :
    a.EndsRegion n ↔ ∃ k, lenSum ((r' :: regs).take k) = n := by
  simp only [EndsRegion, hiter]
  constructor
  case mp =>
    rintro ⟨k, hk⟩
    cases k
    case zero => simp at hk; omega
    case succ k => exact ⟨k + 1, by simp only [take_succ_cons, lenSum_cons] at *; omega⟩
  case mpr =>
    rintro ⟨k, hk⟩
    cases k
    case zero => simp at hk; omega
    case succ k => exact ⟨k + 1, by simp only [take_succ_cons, lenSum_cons] at *; omega⟩

end Proper

theorem lenSum_take_ne (hpos : 0 < len) (hlen : len < r.len) :
    lenSum ((regs ++ r :: regs').take k) ≠ lenSum regs + len := by
  induction regs generalizing k
  case nil =>
    cases k
    case zero => simp; omega
    case succ k => simp; omega
  case cons r' regs ih =>
    obtain _ | k := k
    · simp; omega
    have := @ih k
    simp only [cons_append, take_succ_cons, lenSum_cons]
    omega

theorem Reserved.reservesNext (hp : Proper a main oob) (hmain : main = behind ++ reg :: ks)
    (hal : Aligned a behind (reg :: ks) oob) (hr : Reserved b behind' ahead' oob n a')
    (hle : n ≤ a.ahead.length) (hbehind : b.heap.blocksOf behind'
      = a.heap.blocksOf behind ++ (a.heap.blocksOf (reg :: ks)).take a.list.partialIter)
    (hahead : b.heap.blocksOf ahead' = a.ahead) (hoob : b.heap.blocksOf oob = a.heap.blocksOf oob) :
    ReservesNext a n a' where
  oob    := by rw [oobBlocks, hr.oobs, hoob, hahead, hp.blocks_oob, hp.map_getBlock hle]
  blocks := by rw [blocks, hr.main, hbehind, hahead, hp.behind_eq hmain hal]
  cursor := by rw [LinkedAllocation.ahead, hr.iter, hr.offset, drop_zero, hahead]

theorem reserveLaw_iff_of_ok (h : a.reserveOobBlocks n = .ok (a', true)) :
    ReserveLaw a n ↔ ReservesNext a n a' := by
  constructor
  case mp  => exact fun hl => hl a' h
  case mpr =>
    intro hr a₁ h₁
    rw [h, Except.ok.injEq, Prod.mk.injEq] at h₁
    exact h₁.left ▸ hr

theorem reserveLaw_of_failed (h : a.reserveOobBlocks n = .ok (a', false)) : ReserveLaw a n := by
  intro a₁ h₁
  simp [h] at h₁

theorem reserveOobBlocks_none (hi : a.list.iter = none) :
    ∃ a', a.reserveOobBlocks n = .ok (a', false) := by
  have hd (n : Nat) : doSplitAllocation a.heap a.list n = (a.heap, a.list, none) := by
    simp [doSplitAllocation, hi, Heap.chain]
  exact ⟨_, by simp [LinkedAllocation.reserveOobBlocks, splitAllocation, hd]; rfl⟩

-- The cursor stays where it is, on the first of the next blocks.
theorem not_reservesNext (hp : Proper a main oob) (h₀ : 0 < n) (hlt : n < a.ahead.length)
    (hh : a'.ahead.head? = a.ahead.head?) : ¬ReservesNext a n a' := by
  intro hr
  have hnodup : a.ahead.Nodup :=
    (hp.nodup.sublist hp.blocks_iter_suffix.sublist).sublist (drop_sublist _ _)
  rw [hr.cursor, head?_drop, head?_eq_getElem?, getElem?_eq_getElem hlt,
    getElem?_eq_getElem (by omega), Option.some.injEq, hnodup.getElem_inj_iff] at hh
  omega

theorem head?_regionBlocks (hl : 0 < r.len) : (regionBlocks (r :: regs)).head? = some r.block := by
  simp [regionBlocks, Region.blocks, head?_range', ne_of_gt hl]

theorem Heap.head?_blocks (hs : 0 < h.size) (hl : 0 < (h.node reg).len) :
    (h.blocks (some reg)).head? = some (h.node reg).block := by
  obtain ⟨size, hs⟩ := Nat.exists_eq_add_of_lt hs
  rw [Heap.blocks, Heap.regions, Heap.chain, hs, walk, map_cons, head?_regionBlocks hl]

theorem reserveLaw_iff (hp : Proper a main oob) (hn : n < 2 ^ 32) :
    ReserveLaw a n ↔ n = 0 ∨ a.ahead.length ≤ n ∨ ¬a.EndsRegion n := by
  rcases hi : a.list.iter with _ | reg
  · obtain ⟨a', hfail⟩ := @reserveOobBlocks_none a n hi
    have hahead : a.ahead = [] := by
      simp [LinkedAllocation.ahead, hi, Heap.blocks, Heap.regions, Heap.chain]
    exact iff_of_true (reserveLaw_of_failed hfail) (.inr (.inl (by simp [hahead])))
  obtain ⟨_, ks, hmain, hal₀, hcur⟩ := hp.aligned hi
  obtain ⟨b, behind', reg', hs, hal, hbehind, hahead, hoob, hlen, hks⟩ := hal₀.exists_splitAt hcur
  have hahead' : b.heap.blocksOf (reg' :: ks) = a.ahead := by
    rw [hahead, LinkedAllocation.ahead, Heap.blocks_eq hal₀.path_ahead hal₀.valid_ahead]
  have hsum : lenSum (b.heap.regionsOf (reg' :: ks)) = a.ahead.length := by
    rw [← hahead', Heap.blocksOf, regionBlocks_length]
  have hends (hpos : 0 < n) :
      a.EndsRegion n ↔ ∃ k, lenSum ((b.heap.regionsOf (reg' :: ks)).take k) = n := by
    rw [Heap.regionsOf_cons, hks]
    exact Proper.endsRegion_iff hal₀.regions_iter hlen hpos _ rfl
  by_cases hle : a.ahead.length ≤ n
  case pos =>
    obtain ⟨a₁, hfail⟩ := hal.fails hs hn (hsum ▸ hle)
    exact iff_of_true (reserveLaw_of_failed hfail) (.inr (.inl hle))
  have hlt := Nat.lt_of_not_le hle
  obtain ⟨js, r, ks', len, hids, hn', hlen'⟩ := exists_region (hsum ▸ hlt)
  by_cases hz : n = 0
  case pos =>
    subst hz
    obtain ⟨a', hok, hr⟩ := hal.reserves_zero hs
    have hnext := hr.reservesNext hp hmain hal₀ (Nat.zero_le _) hbehind hahead' hoob
    exact iff_of_true ((reserveLaw_iff_of_ok hok).mpr hnext) (.inl rfl)
  have hpos := pos_of_ne_zero hz
  have hreg := hal.pos reg' mem_cons_self
  have hcell := hal.valid.lt reg' (by simp)
  have hiter := hal.iter
  have hhead : a.ahead.head? = some (b.heap.node reg').block := by
    rw [← hahead']
    exact head?_regionBlocks hreg
  rw [hids] at hal hahead' hends
  by_cases hlz : len = 0
  case pos =>
    subst hlz
    obtain ⟨a', hok, hk⟩ := hal.reserves_boundary hs hn hn'
    have hh : a'.ahead.head? = a.ahead.head? := by
      have hblock := @Heap.head?_blocks a'.heap reg' (by rw [hk.size]; exact Nat.zero_lt_of_lt hcell)
        (by rw [hk.region]; exact hreg)
      rw [LinkedAllocation.ahead, hk.iter, hk.offset, drop_zero, hiter, head?_cons, hblock,
        hk.region, hhead]
    refine iff_of_false (mt (reserveLaw_iff_of_ok hok).mp (not_reservesNext hp hpos hlt hh)) ?_
    have hk : a.EndsRegion n := (hends hpos).mpr ⟨js.length, by simp [take_left', hn']⟩
    tauto
  have hlpos := pos_of_ne_zero hlz
  obtain ⟨a', hok, hr, _⟩ := hal.reserves_inside hs hn hn' hlen' hlpos
  have hnext := hr.reservesNext hp hmain hal₀ (le_of_lt hlt) hbehind hahead' hoob
  refine iff_of_true ((reserveLaw_iff_of_ok hok).mpr hnext) (.inr (.inr ?_))
  rw [hends hpos]
  rintro ⟨k, hk⟩
  rw [Heap.regionsOf_append, Heap.regionsOf_cons, hn'] at hk
  exact lenSum_take_ne hlpos hlen' hk

theorem advanceFrom_zero (hn : n < 2 ^ 31) (hregs : lenSum regs < 2 ^ 32) :
    (advanceFrom regs 0 n).2 = decide (n ≤ lenSum regs) ∧ (advanceFrom regs 0 n).1 ≤ n := by
  induction regs generalizing n
  case nil => simp [advanceFrom]
  case cons r regs ih =>
    rw [lenSum_cons] at hregs
    have hu : u32 (0 + toU32 (n : Int)) = n := by
      rw [zero_add, toU32_natCast, u32_u32, u32_of_lt (by omega)]
    simp only [advanceFrom, hu]
    by_cases hz : n = 0
    case pos => simp [hz]
    rw [if_pos (by omega)]
    split
    case isTrue hlt =>
      simp only [lenSum_cons, le_refl, and_true, Bool.true_eq, decide_eq_true_eq]
      omega
    case isFalse hle =>
      have hsub : i32 ((n : Int) - (subU32 r.len 0 : Nat)) = ((n - r.len : Nat) : Int) := by
        rw [subU32_of_le (Nat.zero_le _) (by omega), i32_of_mem (by omega) (by omega)]
        omega
      obtain ⟨h₁, h₂⟩ := @ih (n - r.len) (by omega) (by omega)
      rw [hsub, h₁, lenSum_cons]
      exact ⟨decide_eq_decide.mpr (by omega), by omega⟩

theorem advanceLaw_iff_of_ok
    (h : advanceFrom (a.heap.regions a.list.iter) a.list.partialIter n = (p, true)) :
    AdvanceLaw a n ↔
      ∀ i, RegionList.blockAt (a.heap.regions a.list.iter) (u32 (i + p)) = a.getBlock (n + i) := by
  simp [AdvanceLaw, advanceBlocks, advanceListPtr, h, getBlock]

theorem advanceLaw_of_failed
    (h : (advanceFrom (a.heap.regions a.list.iter) a.list.partialIter n).2 = false) :
    AdvanceLaw a n := by
  intro a' ha
  simp [advanceBlocks, advanceListPtr, h] at ha

theorem getD_ne {blocks : List Nat} (hn : blocks.Nodup)
    (hb : ∀ block ∈ blocks, block < ext4AllocateFailed) (hij : i < j) (hj : j ≤ blocks.length) :
    blocks[i]?.getD ext4AllocateFailed ≠ blocks[j]?.getD ext4AllocateFailed := by
  have hi : i < blocks.length := by omega
  rw [getElem?_eq_getElem hi, getD_some]
  by_cases hlt : j < blocks.length
  case pos =>
    rw [getElem?_eq_getElem hlt, getD_some]
    exact fun he => ne_of_lt hij ((List.Nodup.getElem_inj_iff hn).mp he)
  rw [getElem?_eq_none (by omega), getD_none]
  exact ne_of_lt (hb _ (getElem_mem hi))

theorem Proper.staysInRegion_zero (hp : Proper a main oob) : a.StaysInRegion 0 := by
  intro r hr
  rcases hi : a.list.iter with _ | reg
  · simp [hi, Heap.regions, Heap.chain] at hr
  obtain ⟨_, _, _, hal, hlt⟩ := hp.aligned hi
  rw [hal.regions_iter, Heap.regionsOf_cons, head?_cons, some.injEq] at hr
  exact hr ▸ hlt

theorem advanceLaw_iff (hp : Proper a main oob) (hn : n < 2 ^ 31) :
    AdvanceLaw a n ↔ a.ahead.length < n ∨ a.StaysInRegion n := by
  have hin := hp.staysInRegion_zero
  have hsuffix := hp.blocks_iter_suffix
  have hl := lt_of_le_of_lt hsuffix.length_le hp.length_lt
  have hahead : a.ahead.length = (a.heap.blocks a.list.iter).length - a.list.partialIter := by
    simp [LinkedAllocation.ahead]
  by_cases hz : n = 0
  case pos =>
    subst hz
    have hadv : advanceFrom (a.heap.regions a.list.iter) a.list.partialIter ((0 : Nat) : Int)
        = (a.list.partialIter, true) := by
      cases a.heap.regions a.list.iter <;> simp [advanceFrom]
    exact iff_of_true ((advanceLaw_iff_of_ok hadv).mpr fun i => by rw [zero_add]; rfl) (.inr hin)
  case neg =>
  have hu : toU32 (n : Int) = n := by rw [toU32_natCast, u32_of_lt (by omega)]
  have hpos : (n : Int) > 0 := by omega
  rcases hr : a.heap.regions a.list.iter with _ | ⟨r, regs⟩
  · have hlen : (a.heap.blocks a.list.iter).length = 0 := by simp [Heap.blocks, hr]
    refine iff_of_true (advanceLaw_of_failed ?_) (.inl (by omega))
    simp [hr, advanceFrom]
    omega
  have hlt : a.list.partialIter < r.len := hin r (by rw [hr]; rfl)
  have hlen : (a.heap.blocks a.list.iter).length = r.len + lenSum regs := by
    rw [Heap.blocks, hr, regionBlocks_length, lenSum_cons]
  have hstays : a.StaysInRegion n ↔ a.list.partialIter + n < r.len := by simp [StaysInRegion, hr]
  by_cases hc : r.len > u32 (a.list.partialIter + n)
  case pos =>
    -- The offset can only have wrapped around if there are not as many blocks.
    have hadv : advanceFrom (a.heap.regions a.list.iter) a.list.partialIter n
        = (u32 (a.list.partialIter + n), true) := by
      simp only [hr, advanceFrom, hu, if_pos hpos, if_pos hc]
    refine iff_of_true ((advanceLaw_iff_of_ok hadv).mpr fun i => ?_) ?_
    · rw [getBlock, u32_add_u32]
      congr 2
      omega
    · rw [hstays, hahead, hlen]
      simp only [u32] at hc
      omega
  have hwrap : u32 (a.list.partialIter + n) = a.list.partialIter + n := by
    simp only [u32] at *
    omega
  rw [hwrap] at hc
  obtain ⟨m, hm⟩ : ∃ m, a.list.partialIter + n = r.len + m := ⟨_, (Nat.add_sub_of_le (by omega)).symm⟩
  have hsub : i32 ((n : Int) - (subU32 r.len a.list.partialIter : Nat)) = m := by
    rw [subU32_of_le (le_of_lt hlt) (by omega), i32_of_mem (by omega) (by omega)]
    omega
  have hadv : advanceFrom (a.heap.regions a.list.iter) a.list.partialIter n = advanceFrom regs 0 m := by
    simp only [hr, advanceFrom, hu, if_pos hpos, hwrap, if_neg hc, hsub]
  obtain ⟨h₁, h₂⟩ := @advanceFrom_zero m regs (by omega) (by omega)
  rcases hq : advanceFrom regs 0 m with ⟨q, ok⟩
  rw [hq] at hadv h₁ h₂
  simp only at h₁ h₂
  subst h₁
  by_cases hle : m ≤ lenSum regs
  case neg =>
    rw [decide_eq_false hle] at hadv
    exact iff_of_true (advanceLaw_of_failed (by rw [hadv])) (.inl (by omega))
  have hnum (block : Nat) (hb : block ∈ a.heap.blocks a.list.iter) : block < ext4AllocateFailed :=
    hp.numbers block (hsuffix.subset hb)
  rw [decide_eq_true hle] at hadv
  refine iff_of_false (fun hlaw => ?_) (by rw [hstays]; omega)
  have h₀ := (advanceLaw_iff_of_ok hadv).mp hlaw 0
  rw [hp.getBlock_eq, blockAt_eq_getD hnum, u32_of_lt (by omega), u32_of_lt (by omega)] at h₀
  exact getD_ne (hp.nodup.sublist hsuffix.sublist) hnum (by omega) (by omega) h₀

-- The laws of the cursor, exactly for the moves that the code gets right.
theorem cursorLaws_iff (hp : Proper a main oob) (hn : n < 2 ^ 31) :
    (AdvanceLaw a n ↔ a.ahead.length < n ∨ a.StaysInRegion n) ∧
    (ReserveLaw a n ↔ n = 0 ∨ a.ahead.length ≤ n ∨ ¬a.EndsRegion n) :=
  ⟨advanceLaw_iff hp hn, reserveLaw_iff hp (by omega)⟩

-- Twelve blocks in one group and twenty in the next one, as they are allocated.
def twoRegions : LinkedAllocation where
  heap := {
    node
      | 0 => { block := 100, len := 12, bg := 0, next := some 1 }
      | _ => { block := 200, len := 20, bg := 1, prev := some 0 }
    size := 2
  }
  list := { first := some 0, last := some 0, iter := some 0 }

theorem twoRegions_proper : Proper twoRegions [0, 1] [] where
  list := ⟨rfl, rfl, rfl⟩
  oobs := rfl
  last := rfl
  valid := ⟨by decide, by decide⟩
  pos := by decide
  nodup := by decide
  numbers := by decide
  cursor := by
    intro i hi
    obtain rfl := some.inj hi
    exact ⟨[], [1], rfl, rfl, by decide⟩

theorem cursorLaws_twoRegions : AdvanceLaw twoRegions 5 ∧ ReserveLaw twoRegions 20 := by
  obtain ⟨hadvance, _⟩ := cursorLaws_iff twoRegions_proper (show 5 < 2 ^ 31 by decide)
  obtain ⟨_, hreserve⟩ := cursorLaws_iff twoRegions_proper (show 20 < 2 ^ 31 by decide)
  refine ⟨hadvance.mpr (.inr ?_), hreserve.mpr (.inr (.inr ?_))⟩
  · intro reg hreg
    rw [← some.inj hreg]
    decide
  · rintro ⟨k, hk⟩
    rcases k with _ | _ | k
    · exact absurd hk (by decide)
    · exact absurd hk (by decide)
    · have hlen : (twoRegions.heap.regions twoRegions.list.iter).length = 2 := rfl
      rw [take_of_length_le (by omega)] at hk
      exact absurd hk (by decide)

-- The twelve direct blocks are passed by going back to the first one, and the next twelve are not those
-- reserved.
theorem not_cursorLaws_twoRegions :
    Proper twoRegions [0, 1] [] ∧ ¬AdvanceLaw twoRegions 12 ∧ ¬ReserveLaw twoRegions 12 := by
  refine ⟨twoRegions_proper, ?_, ?_⟩
  · exact fun h => absurd (h _ rfl 0) (by decide)
  · exact fun h => absurd (h _ rfl).oob (by decide)

end Ext4
