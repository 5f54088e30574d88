import PlatformKnife.Ext4.Simg
import PlatformKnife.Ext4.Theorems.Geometry
import Mathlib.Data.Nat.Bitwise

namespace Ext4

open CInt Runs BuildSparseExt List Nat Except

variable {info : FsInfo} {aux : FsAuxInfo} {filename : String} {bitmap : List UInt8}
variable {queued : List Queued} {bitmaps : Nat → List UInt8} {first n i k : Nat}

section Group

theorem and_bit_ne_zero (byte : UInt8) (hj : j < 8) :
    ((byte &&& 1 <<< UInt8.ofNat j) != 0) = byte.toNat.testBit j := by
  have h : (1 <<< UInt8.ofNat j : UInt8).toNat = 2 ^ j := by
    interval_cases j <;> rfl
  rw [Bool.eq_iff_iff, bne_iff_ne, ne_eq, ← UInt8.toNat_inj, UInt8.toNat_and, h, and_two_pow]
  cases byte.toNat.testBit j <;> simp

theorem bitmapGetBit_eq (h : k < 8 * bitmap.length) : bitmapGetBit bitmap k = .ok (bitSet bitmap k) := by
  have hk : k / 8 < bitmap.length := by omega
  rw [bitmapGetBit, getElem?_eq_getElem hk]
  simp only [bitSet, getD_eq_getElem _ _ hk]
  rw [and_bit_ne_zero _ (mod_lt _ (by decide))]

def runCall (info : FsInfo) (filename : String) (first : Nat) (r : Nat × Nat) : Queued :=
  addFile info filename (u32 (first + r.fst)) (r.snd - r.fst)

def toState (info : FsInfo) (filename : String) (first : Nat) (queued : List Queued) (s : Scan) :
    State where
  startContiguousBlock := s.fst.elim (-1) (fun a => (a : Int))
  queued := queued ++ s.snd.map (runCall info filename first)

theorem toState_close (ha : a ≤ n) (hn : n < 2 ^ 31) :
    (toState info filename first queued (some a, l)).close info filename first n
      = queued ++ (l ++ [(a, n)]).map (runCall info filename first) := by
  have htu : toU32 (a : Int) = a := by rw [toU32_natCast, u32_of_lt (by omega)]
  simp only [State.close, toState, Option.elim_some, htu, subU32_of_le ha (by omega), map_append,
    map_singleton, runCall, append_assoc]

theorem scanBlock_toState (hb : k < 8 * bitmap.length) (hk : k < 2 ^ 31)
    (hs : ∀ a, s.fst = some a → a ≤ k) :
    scanBlock info filename first bitmap (toState info filename first queued s) k
      = .ok (toState info filename first queued (step (bitSet bitmap) s k)) := by
  rw [scanBlock, bitmapGetBit_eq hb]
  obtain ⟨_ | a, l⟩ := s <;> cases hp : bitSet bitmap k
  case none.false => simp [toState, step, hp]
  case none.true  => simp [toState, step, hp, toI32_of_lt hk]
  case some.true  => simp [toState, step, hp]
  case some.false =>
    simp only [toState_close (hs a rfl) hk, step, hp, ok_bind]
    simp [toState]

theorem foldlM_scanBlock (hb : n ≤ 8 * bitmap.length) (hn : n < 2 ^ 31) :
    (range n).foldlM (scanBlock info filename first bitmap) ⟨-1, queued⟩
      = .ok (toState info filename first queued (scan (bitSet bitmap) n)) := by
  induction n
  case zero => simp [toState, scan]
  case succ n hi =>
    have hs : ∀ a, (scan (bitSet bitmap) n).fst = some a → a ≤ n :=
      fun a ha => ((scanned (bitSet bitmap) n).opened a ha).lt.le
    rw [range_succ, foldlM_append, hi (by omega) (by omega)]
    simp only [ok_bind, foldlM_cons, foldlM_nil, scan,
      scanBlock_toState (show n < 8 * bitmap.length by omega) (show n < 2 ^ 31 by omega) hs]
    rfl

theorem scanGroup_eq (hb : n ≤ 8 * bitmap.length) (hn : n < 2 ^ 31) :
    scanGroup info filename first n bitmap queued
      = .ok (queued ++ (runs (bitSet bitmap) n).map (runCall info filename first)) := by
  have hs := scanned (bitSet bitmap) n
  rw [scanGroup, foldlM_scanBlock hb hn, runs]
  generalize scan (bitSet bitmap) n = s at hs
  obtain ⟨_ | a, l⟩ := s
  case none => simp [toState, close]
  case some =>
    simp only [ok_bind, toState_close (hs.opened a rfl).lt.le hn]
    simp [toState, close]

end Group

section Groups

variable {image : List UInt8} {bgDesc : List GroupDesc}
variable {bgDesc : List GroupDesc}

theorem length_of_readBlockBitmap (h : readBlockBitmap image info bgDesc i = .ok bitmap) :
    bitmap.length = info.blockSize := by
  rw [readBlockBitmap] at h
  split at h
  · cases h
  · dsimp only at h
    split at h
    case isTrue hl  => exact ok.inj h ▸ hl
    case isFalse hl => cases h

theorem lastBlock_le (info : FsInfo) (aux : FsAuxInfo) (i : Nat) :
    lastBlock info aux i ≤ info.blocksPerGroup :=
  le_trans (u32_le _) (min_le_left _ _)

-- The calls before the groups, and those for a group.

def firstCalls (filename : String) (info : FsInfo) (aux : FsAuxInfo) : List Queued :=
  if aux.firstDataBlock > 0 then [addFile info filename 0 aux.firstDataBlock] else []

def groupCalls (filename : String) (info : FsInfo) (aux : FsAuxInfo) (bitmaps : Nat → List UInt8)
    (i : Nat) : List Queued :=
  (runs (bitSet (bitmaps i)) (lastBlock info aux i)).map (runCall info filename (firstBlock info aux i))

theorem buildSparseExt_eq (g : BitmapGeometry info aux)
    (hb : ∀ i < aux.groups, readBlockBitmap image info bgDesc i = .ok (bitmaps i)) :
    buildSparseExt image filename info aux bgDesc
      = .ok (firstCalls filename info aux
          ++ (range aux.groups).flatMap (groupCalls filename info aux bitmaps)) := by
  rw [buildSparseExt]
  change foldlM _ (firstCalls filename info aux) _ = _
  generalize firstCalls filename info aux = queued
  have key (n : Nat) (hn : n ≤ aux.groups) : (range n).foldlM (fun queued i => do
      let bitmap ← readBlockBitmap image info bgDesc i
      scanGroup info filename (firstBlock info aux i) (lastBlock info aux i) bitmap queued) queued
      = .ok (queued ++ (range n).flatMap (groupCalls filename info aux bitmaps)) := by
    induction n
    case zero => simp
    case succ n hi =>
      have hr := hb n hn
      have hl := length_of_readBlockBitmap hr
      have hle := lastBlock_le info aux n
      have hbs := g.blockSize_le
      have hpg := g.blocksPerGroup_le
      rw [ext4MaxBlockSize] at hbs
      rw [range_succ, foldlM_append, hi (by omega)]
      simp only [ok_bind, foldlM_cons, foldlM_nil, hr,
        scanGroup_eq (show lastBlock info aux n ≤ 8 * (bitmaps n).length by omega)
          (show lastBlock info aux n < 2 ^ 31 by omega)]
      simp [groupCalls]
  exact key aux.groups (le_refl _)

end Groups

section Pieces

-- The runs of blocks, where their numbers have 32 bits.

def groupStart (info : FsInfo) (aux : FsAuxInfo) (i : Nat) : Nat :=
  aux.firstDataBlock + i * info.blocksPerGroup

theorem firstBlock_eq (info : FsInfo) (aux : FsAuxInfo) (i : Nat) :
    firstBlock info aux i = u32 (groupStart info aux i) := by
  rw [firstBlock, u32_add_u32, groupStart]

theorem lastBlock_eq (g : BitmapGeometry info aux) (hi : i < aux.groups)
    (h32 : groupStart info aux i < 2 ^ 32) : lastBlock info aux i = groupBlocks info aux i := by
  have hl := g.lt_lenBlocks i hi
  have h64 := g.lenBlocks_lt
  have hp := info.blocksPerGroup_lt
  rw [lastBlock, firstBlock_eq, u32_of_lt h32, groupBlocks]
  simp only [u64, u32, groupStart] at *
  omega

theorem groupStart_lt (g : BitmapGeometry info aux) (h32 : blocksInGroups info aux ≤ 2 ^ 32)
    (hi : i < aux.groups) : groupStart info aux i < 2 ^ 32 := by
  have hl := g.lt_lenBlocks i hi
  have hf := g.firstDataBlock_lt
  have hm := Nat.mul_le_mul_right info.blocksPerGroup (succ_le_of_lt hi)
  rw [succ_mul] at hm
  simp only [groupStart, blocksInGroups] at *
  by_cases hp : info.blocksPerGroup = 0
  case pos => simp [hp]; omega
  case neg => omega

def groupPieces (info : FsInfo) (aux : FsAuxInfo) (bitmaps : Nat → List UInt8) (i : Nat) :
    List (Nat × Nat) :=
  (runs (bitSet (bitmaps i)) (groupBlocks info aux i)).map fun r =>
    (groupStart info aux i + r.fst, groupStart info aux i + r.snd)

def firstPieces (aux : FsAuxInfo) : List (Nat × Nat) :=
  if aux.firstDataBlock > 0 then [(0, aux.firstDataBlock)] else []

def pieces (info : FsInfo) (aux : FsAuxInfo) (bitmaps : Nat → List UInt8) : List (Nat × Nat) :=
  firstPieces aux ++ (List.range aux.groups).flatMap (groupPieces info aux bitmaps)

def pieceCall (info : FsInfo) (filename : String) (r : Nat × Nat) : Queued :=
  addFile info filename r.fst (r.snd - r.fst)

theorem mem_firstPieces : r ∈ firstPieces aux ↔ 0 < aux.firstDataBlock ∧ r = (0, aux.firstDataBlock) := by
  rw [firstPieces]
  split <;> simp_all

theorem mem_pieces : r ∈ pieces info aux bitmaps ↔
    r ∈ firstPieces aux ∨ ∃ i < aux.groups, r ∈ groupPieces info aux bitmaps i := by
  simp [pieces]

theorem mem_groupPieces : r ∈ groupPieces info aux bitmaps i ↔
    ∃ a b, IsRun (bitSet (bitmaps i)) (groupBlocks info aux i) a b ∧
      r = (groupStart info aux i + a, groupStart info aux i + b) := by
  simp only [groupPieces, mem_map, Prod.exists, mem_runs_iff, eq_comm]

theorem bounds_of_mem_groupPieces (h : r ∈ groupPieces info aux bitmaps i) :
    groupStart info aux i ≤ r.fst ∧ r.fst < r.snd ∧
      r.snd ≤ groupStart info aux i + groupBlocks info aux i := by
  obtain ⟨a, b, hrun, rfl⟩ := mem_groupPieces.mp h
  have := hrun.lt
  have := hrun.le
  dsimp only
  omega

theorem groupStart_add_le (h : i < j) :
    groupStart info aux i + groupBlocks info aux i ≤ groupStart info aux j := by
  have hm := Nat.mul_le_mul_right info.blocksPerGroup (succ_le_of_lt h)
  rw [succ_mul] at hm
  simp only [groupStart, groupBlocks]
  omega

theorem groupStart_add_le_blocksInGroups (g : BitmapGeometry info aux) (hi : i < aux.groups) :
    groupStart info aux i + groupBlocks info aux i ≤ blocksInGroups info aux := by
  have hl := g.lt_lenBlocks i hi
  have hm := Nat.mul_le_mul_right info.blocksPerGroup (succ_le_of_lt hi)
  rw [succ_mul] at hm
  simp only [groupStart, groupBlocks, blocksInGroups] at *
  omega

theorem groupCalls_eq (g : BitmapGeometry info aux) (h32 : blocksInGroups info aux ≤ 2 ^ 32)
    (hi : i < aux.groups) :
    groupCalls filename info aux bitmaps i
      = (groupPieces info aux bitmaps i).map (pieceCall info filename) := by
  have hs := groupStart_lt g h32 hi
  have hN := groupStart_add_le_blocksInGroups g hi
  rw [groupCalls, groupPieces, lastBlock_eq g hi hs, firstBlock_eq, u32_of_lt hs, map_map]
  apply map_congr_left
  intro r hr
  have hrun := isRun_of_mem hr
  have := hrun.lt
  have := hrun.le
  have hr32 : groupStart info aux i + r.fst < 2 ^ 32 := by omega
  simp only [runCall, pieceCall, Function.comp, u32_of_lt hr32, Nat.add_sub_add_left]

theorem calls_eq (g : BitmapGeometry info aux) (h32 : blocksInGroups info aux ≤ 2 ^ 32) :
    firstCalls filename info aux ++ (range aux.groups).flatMap (groupCalls filename info aux bitmaps)
      = (pieces info aux bitmaps).map (pieceCall info filename) := by
  have hf : firstCalls filename info aux = (firstPieces aux).map (pieceCall info filename) := by
    simp only [firstCalls, firstPieces]
    split <;> rfl
  rw [pieces, map_append, map_flatMap, hf]
  congr 1
  apply flatMap_congr
  intro i hi
  exact groupCalls_eq g h32 (mem_range.mp hi)

theorem pieces_sorted (info : FsInfo) (aux : FsAuxInfo) (bitmaps : Nat → List UInt8) :
    (pieces info aux bitmaps).Pairwise fun r r' => r.snd ≤ r'.fst := by
  rw [pieces, pairwise_append]
  refine ⟨?_, ?_, ?_⟩
  · rw [firstPieces]
    split <;> simp
  · rw [pairwise_flatMap]
    constructor
    · intro i _
      rw [groupPieces, pairwise_map]
      exact (runs_sorted _ _).imp fun h => Nat.add_le_add_left h.le _
    · refine pairwise_lt_range.imp ?_
      intro i j hij r hr r' hr'
      have := bounds_of_mem_groupPieces hr
      have := bounds_of_mem_groupPieces hr'
      have := @groupStart_add_le info aux _ _ hij
      omega
  · intro r hr r' hr'
    obtain ⟨_, rfl⟩ := mem_firstPieces.mp hr
    obtain ⟨i, _, hr'⟩ := mem_flatMap.mp hr'
    have := bounds_of_mem_groupPieces hr'
    simp only [groupStart] at this
    dsimp only
    omega

theorem used_iff : Used info aux bitmaps b ↔
    ∃ i < aux.groups, ∃ k < groupBlocks info aux i, b = groupStart info aux i + k ∧
      bitSet (bitmaps i) k := by
  simp only [Used, groupBlocks, groupStart]
  constructor
  case mp =>
    rintro ⟨hb, i, hi, k, hk, rfl, hbit⟩
    exact ⟨i, hi, k, by omega, rfl, hbit⟩
  case mpr =>
    rintro ⟨i, hi, k, hk, rfl, hbit⟩
    exact ⟨by omega, i, hi, k, by omega, rfl, hbit⟩

theorem exists_mem_pieces_iff : (∃ r ∈ pieces info aux bitmaps, r.fst ≤ b ∧ b < r.snd) ↔
    b < aux.firstDataBlock ∨ Used info aux bitmaps b := by
  rw [used_iff]
  constructor
  case mp =>
    rintro ⟨r, hr, h₁, h₂⟩
    obtain hr | ⟨i, hi, hr⟩ := mem_pieces.mp hr
    · obtain ⟨_, rfl⟩ := mem_firstPieces.mp hr
      exact .inl h₂
    obtain ⟨a, b', hrun, rfl⟩ := mem_groupPieces.mp hr
    have := hrun.le
    dsimp only at h₁ h₂
    refine .inr ⟨i, hi, b - groupStart info aux i, by omega, by omega, hrun.all _ ?_ ?_⟩
    all_goals omega
  case mpr =>
    rintro (hb | ⟨i, hi, k, hk, rfl, hbit⟩)
    · exact ⟨_, mem_pieces.mpr (.inl (mem_firstPieces.mpr ⟨by omega, rfl⟩)), zero_le _, hb⟩
    · obtain ⟨⟨a, b⟩, hr, h₁, h₂⟩ := exists_mem_runs_iff.mpr ⟨hk, hbit⟩
      have hp := mem_groupPieces.mpr ⟨a, b, mem_runs_iff.mp hr, rfl⟩
      exact ⟨_, mem_pieces.mpr (.inr ⟨i, hi, hp⟩), Nat.add_le_add_left h₁ _, Nat.add_lt_add_left h₂ _⟩

theorem callBlocks_le (hs : 0 < info.blockSize) (n : Nat) :
    (u32 (info.blockSize * n) + info.blockSize - 1) / info.blockSize ≤ n := by
  have := u32_le (info.blockSize * n)
  rw [div_le_iff_le_mul_add_pred hs]
  omega

theorem le_callBlocks_iff (hs : 0 < info.blockSize) :
    n ≤ (u32 (info.blockSize * n) + info.blockSize - 1) / info.blockSize ↔
      info.blockSize * n < 2 ^ 32 := by
  have hlt := info.blockSize_lt
  rw [le_div_iff_mul_le hs, mul_comm n]
  simp only [u32]
  omega

theorem mem_pieceCall_blocks : b ∈ (pieceCall info filename r).blocks info ↔ r.fst ≤ b ∧
    b < r.fst + (u32 (info.blockSize * (r.snd - r.fst)) + info.blockSize - 1) / info.blockSize := by
  simp [pieceCall, addFile, Queued.blocks]

theorem pieceCall_blocks_subset (hs : 0 < info.blockSize) (hr : r.fst < r.snd) :
    {b | b ∈ (pieceCall info filename r).blocks info} ⊆ Set.Ico r.fst r.snd := by
  intro b hb
  obtain ⟨h₁, h₂⟩ := mem_pieceCall_blocks.mp hb
  have := callBlocks_le hs (r.snd - r.fst)
  exact ⟨h₁, by omega⟩

theorem subset_pieceCall_blocks_iff (hs : 0 < info.blockSize) (hr : r.fst < r.snd) :
    Set.Ico r.fst r.snd ⊆ {b | b ∈ (pieceCall info filename r).blocks info} ↔
      info.blockSize * (r.snd - r.fst) < 2 ^ 32 := by
  rw [← le_callBlocks_iff hs]
  constructor
  case mp =>
    intro h
    have hlast : r.snd - 1 ∈ Set.Ico r.fst r.snd := ⟨by omega, by omega⟩
    have := (mem_pieceCall_blocks.mp (h hlast)).right
    omega
  case mpr =>
    rintro h b ⟨h₁, h₂⟩
    exact mem_pieceCall_blocks.mpr ⟨h₁, by omega⟩

theorem lt_of_mem_pieces (h : r ∈ pieces info aux bitmaps) : r.fst < r.snd := by
  obtain h | ⟨i, _, h⟩ := mem_pieces.mp h
  · obtain ⟨hpos, rfl⟩ := mem_firstPieces.mp h
    exact hpos
  · exact (bounds_of_mem_groupPieces h).right.left

theorem runsFit_iff : RunsFit info aux bitmaps ↔
    ∀ r ∈ pieces info aux bitmaps, info.blockSize * (r.snd - r.fst) < 2 ^ 32 := by
  constructor
  case mp =>
    intro h r hr
    obtain hr | ⟨i, hi, hr⟩ := mem_pieces.mp hr
    · obtain ⟨_, rfl⟩ := mem_firstPieces.mp hr
      exact h.first
    obtain ⟨a, b, hrun, rfl⟩ := mem_groupPieces.mp hr
    rw [Nat.add_sub_add_left]
    exact h.group i hi a b hrun
  case mpr =>
    intro h
    constructor
    case first =>
      by_cases hpos : 0 < aux.firstDataBlock
      case pos => exact h _ (mem_pieces.mpr (.inl (mem_firstPieces.mpr ⟨hpos, rfl⟩)))
      case neg => simp [show aux.firstDataBlock = 0 by omega]
    case group =>
      intro i hi a b hrun
      have hp := h _ (mem_pieces.mpr (.inr ⟨i, hi, mem_groupPieces.mpr ⟨a, b, hrun, rfl⟩⟩))
      rwa [Nat.add_sub_add_left] at hp

theorem copiesUsed_iff (hs : 0 < info.blockSize) :
    CopiesUsed filename info aux bitmaps ((pieces info aux bitmaps).map (pieceCall info filename)) ↔
      RunsFit info aux bitmaps := by
  have hsub : ∀ r ∈ pieces info aux bitmaps,
      {b | b ∈ (pieceCall info filename r).blocks info} ⊆ Set.Ico r.fst r.snd :=
    fun r hr => pieceCall_blocks_subset hs (lt_of_mem_pieces hr)
  have hdis : (pieces info aux bitmaps).Pairwise fun r r' =>
      Disjoint (Set.Ico r.fst r.snd) (Set.Ico r'.fst r'.snd) :=
    (pieces_sorted info aux bitmaps).imp fun h => Set.Ico_disjoint_Ico.mpr (by omega)
  have hunion : (∀ b, (∃ q ∈ (pieces info aux bitmaps).map (pieceCall info filename),
      b ∈ q.blocks info) ↔ b < aux.firstDataBlock ∨ Used info aux bitmaps b) ↔
      RunsFit info aux bitmaps := by
    have hfit : (∀ r ∈ pieces info aux bitmaps,
        Set.Ico r.fst r.snd ⊆ {b | b ∈ (pieceCall info filename r).blocks info}) ↔
        ∀ r ∈ pieces info aux bitmaps, info.blockSize * (r.snd - r.fst) < 2 ^ 32 :=
      forall₂_congr fun r hr => subset_pieceCall_blocks_iff hs (lt_of_mem_pieces hr)
    rw [runsFit_iff, ← hfit, ← union_eq_iff hsub hdis]
    simp only [mem_map, exists_exists_and_eq_and, Set.mem_ofPred_eq, Set.mem_Ico, exists_mem_pieces_iff]
  constructor
  case mp  => exact fun h => hunion.mp h.union
  case mpr =>
    intro h
    refine ⟨?_, ?_, hunion.mpr h⟩
    · rw [pairwise_map]
      refine hdis.imp_of_mem fun hr hr' hd b hb hb' => ?_
      exact Set.disjoint_left.mp hd (hsub _ hr hb) (hsub _ hr' hb')
    · intro q hq
      obtain ⟨r, _, rfl⟩ := mem_map.mp hq
      rfl

end Pieces

def CopiesExactly (image : List UInt8) (filename : String) (info : FsInfo) (aux : FsAuxInfo)
    (bgDesc : List GroupDesc) (bitmaps : Nat → List UInt8) : Prop :=
  ∃ queued, buildSparseExt image filename info aux bgDesc = .ok queued ∧
    CopiesUsed filename info aux bitmaps queued

theorem copiesExactly_iff (g : BitmapGeometry info aux) (h32 : blocksInGroups info aux ≤ 2 ^ 32)
    (hb : ∀ i < aux.groups, readBlockBitmap image info bgDesc i = .ok (bitmaps i)) :
    CopiesExactly image filename info aux bgDesc bitmaps ↔ RunsFit info aux bitmaps := by
  simp only [CopiesExactly, buildSparseExt_eq g hb, calls_eq g h32, ok.injEq, exists_eq_left',
    copiesUsed_iff g.blockSize_pos]

section Large

-- A filesystem with a single block in use, whose number does not have 32 bits.

def oneBit (n k : Nat) : List UInt8 :=
  (List.replicate n 0).set (k / 8) (1 <<< UInt8.ofNat (k % 8))

theorem oneBit_length (n k : Nat) : (oneBit n k).length = n := by
  simp [oneBit]

theorem bitSet_oneBit (hk : k < 8 * n) : bitSet (oneBit n k) j = decide (j = k) := by
  have hbit : (1 <<< UInt8.ofNat (k % 8) : UInt8).toNat = 2 ^ (k % 8) := by
    have := mod_lt k (show 0 < 8 by decide)
    generalize k % 8 = m at *
    interval_cases m <;> rfl
  rw [bitSet, oneBit, getD_eq_getElem?_getD, getElem?_set, length_replicate]
  by_cases hj : k / 8 = j / 8
  case pos =>
    rw [if_pos hj, if_pos (by omega), Option.getD_some, hbit, testBit_two_pow, decide_eq_decide]
    omega
  rw [if_neg hj, getElem?_replicate]
  have : j ≠ k := fun h => hj (h ▸ rfl)
  split <;> simp [this]

theorem bitSet_replicate_zero (n k : Nat) : bitSet (replicate n 0) k = false := by
  rw [bitSet, getD_eq_getElem?_getD, getElem?_replicate]
  split <;> simp

-- An image with the bitmaps one after the other, from a block on.

def bitmapImage (info : FsInfo) (block : Nat) (bitmaps : Nat → List UInt8) (n : Nat) : List UInt8 :=
  List.replicate (info.blockSize * block) 0 ++ (List.range n).flatMap bitmaps

def bitmapDescs (block n : Nat) : List GroupDesc :=
  (List.range n).map fun i => ⟨block + i, 0, 0, 0, 0, 0⟩

theorem length_flatMap_bitmaps (hl : ∀ i, (bitmaps i).length = info.blockSize) (n : Nat) :
    ((range n).flatMap bitmaps).length = info.blockSize * n := by
  induction n
  case zero => rfl
  case succ m hm =>
    rw [range_succ, flatMap_append, length_append, hm]
    simp [hl, mul_succ]

theorem readBlockBitmap_bitmapImage (block : Nat) (hl : ∀ i, (bitmaps i).length = info.blockSize)
    (hi : i < n) :
    readBlockBitmap (bitmapImage info block bitmaps n) info (bitmapDescs block n) i = .ok (bitmaps i) := by
  obtain ⟨m, rfl⟩ : ∃ m, n = i + (m + 1) := ⟨n - i - 1, by omega⟩
  have hrange : range (i + (m + 1)) = range i ++ (i :: (range m).map (i + 1 + ·)) := by
    rw [range_add, range_succ_eq_map]
    simp [Function.comp_def, add_assoc, add_comm 1]
  have hd : (bitmapDescs block (i + (m + 1)))[i]? = some ⟨block + i, 0, 0, 0, 0, 0⟩ := by
    rw [bitmapDescs, getElem?_map, getElem?_range hi, Option.map_some]
  have hslice := Slice.slice_append
    (replicate (info.blockSize * block) 0 ++ (range i).flatMap bitmaps) (bitmaps i)
    (((range m).map (i + 1 + ·)).flatMap bitmaps)
  rw [length_append, length_replicate, length_flatMap_bitmaps hl, hl, ← mul_add] at hslice
  simp only [readBlockBitmap, hd, bitmapImage, hrange, flatMap_append, flatMap_cons,
    ← append_assoc] at hslice ⊢
  simp only [hslice, hl, if_true]

theorem bounds_of_mem_runCall (hs : 0 < info.blockSize)
    (hb : b ∈ (runCall info filename first r).blocks info) :
    ∃ start < 2 ^ 32, start ≤ b ∧ b < start + (r.snd - r.fst) := by
  have hle := callBlocks_le hs (r.snd - r.fst)
  simp only [runCall, addFile, Queued.blocks, mem_range'_1] at hb
  exact ⟨_, u32_lt _, hb.left, by omega⟩

theorem not_copiesExactly_of_single (g : BitmapGeometry info aux)
    (hb : ∀ i < aux.groups, readBlockBitmap image info bgDesc i = .ok (bitmaps i))
    (hone : ∀ i k k', bitSet (bitmaps i) k → bitSet (bitmaps i) k' → k = k')
    (hu : Used info aux bitmaps x) (hx : 2 ^ 32 ≤ x) :
    ¬ CopiesExactly image filename info aux bgDesc bitmaps := by
  rintro ⟨queued, heq, hc⟩
  have hf := g.firstDataBlock_lt
  rw [buildSparseExt_eq g hb, ok.injEq] at heq
  subst heq
  obtain ⟨q, hq, hxq⟩ := (hc.union x).mpr (.inr hu)
  obtain hq | hq := mem_append.mp hq
  case inl =>
    have hle := callBlocks_le g.blockSize_pos aux.firstDataBlock
    rw [firstCalls] at hq
    split at hq
    case isFalse => simp at hq
    rw [mem_singleton.mp hq] at hxq
    simp only [addFile, Queued.blocks, mem_range'_1] at hxq
    omega
  case inr =>
    obtain ⟨i, _, hq⟩ := mem_flatMap.mp hq
    obtain ⟨r, hr, rfl⟩ := mem_map.mp hq
    have hrun := isRun_of_mem hr
    have := hrun.lt
    -- The run has a single block, which is the one at which the call starts.
    obtain ⟨start, hlt, h₁, h₂⟩ := bounds_of_mem_runCall g.blockSize_pos hxq
    have ha := hrun.all r.fst (by omega) (by omega)
    have hz := hrun.all (r.snd - 1) (by omega) (by omega)
    have := hone i _ _ ha hz
    omega

theorem not_copiesExactly_of_large (filename : String) (g : BitmapGeometry info aux)
    (h : 2 ^ 32 < blocksInGroups info aux) :
    ∃ image bgDesc bitmaps, (∀ i < aux.groups, readBlockBitmap image info bgDesc i = .ok (bitmaps i)) ∧
      ¬ CopiesExactly image filename info aux bgDesc bitmaps := by
  have hf := g.firstDataBlock_lt
  have hpg := g.blocksPerGroup_le
  -- The last block of the groups.
  let y := blocksInGroups info aux - 1 - aux.firstDataBlock
  have hN : blocksInGroups info aux ≤ aux.firstDataBlock + aux.groups * info.blocksPerGroup :=
    min_le_right _ _
  have hlen : blocksInGroups info aux ≤ aux.lenBlocks := min_le_left _ _
  have hpos : 0 < info.blocksPerGroup := by
    by_contra hc
    simp only [Nat.eq_zero_of_not_pos hc, mul_zero] at hN
    omega
  let bitmaps i := if i = y / info.blocksPerGroup
    then oneBit info.blockSize (y % info.blocksPerGroup)
    else replicate info.blockSize 0
  have hl : ∀ i, (bitmaps i).length = info.blockSize := by
    intro i
    simp only [bitmaps]
    split <;> simp [oneBit_length]
  have hmod := mod_lt y hpos
  have hbit : ∀ i k, bitSet (bitmaps i) k ↔ i = y / info.blocksPerGroup ∧ k = y % info.blocksPerGroup := by
    intro i k
    simp only [bitmaps]
    split
    case isTrue hi  =>
      simp [bitSet_oneBit (show y % info.blocksPerGroup < 8 * info.blockSize by omega), hi]
    case isFalse hi => simp [bitSet_replicate_zero, hi]
  have hb : ∀ i < aux.groups, _ := fun i hi => readBlockBitmap_bitmapImage 0 hl hi
  have hu : Used info aux bitmaps (aux.firstDataBlock + y) := by
    have hset := (hbit _ _).mpr ⟨rfl, rfl⟩
    refine ⟨by omega, y / info.blocksPerGroup, ?_, y % info.blocksPerGroup, hmod, ?_, hset⟩
    · rw [Nat.div_lt_iff_lt_mul hpos]
      omega
    · rw [add_assoc, mul_comm, div_add_mod]
  refine ⟨_, _, bitmaps, hb, not_copiesExactly_of_single g hb ?_ hu (by omega)⟩
  intro i k k' hk hk'
  rw [((hbit i k).mp hk).right, ((hbit i k').mp hk').right]

end Large

theorem FsInfo.lt_remainingBlocks (hp : 0 < info.blocksPerGroup) (hb : info.firstBlock < info.blocks)
    (hi : i < info.remainingGroups) :
    info.firstBlock + i * info.blocksPerGroup < info.remainingBlocks := by
  have hB := div_add_mod info.blocks info.blocksPerGroup
  have hW : info.blocksPerGroup * info.wholeGroups + info.tail = info.blocks - info.firstBlock :=
    div_add_mod ..
  have hr := mod_lt info.blocks hp
  have hf : info.firstBlock ≤ 1 := by
    rw [FsInfo.firstBlock]
    split <;> omega
  have hle : info.wholeGroups ≤ info.blocks / info.blocksPerGroup :=
    Nat.div_le_div_right (sub_le _ _)
  have hmul := Nat.mul_le_mul_left info.blocksPerGroup hle
  have hmi {n : Nat} (h : i < n) :
      i * info.blocksPerGroup + info.blocksPerGroup ≤ info.blocksPerGroup * n := by
    rw [← succ_mul, mul_comm]
    exact Nat.mul_le_mul_left _ h
  rw [remainingGroups, allGroups] at hi
  rw [remainingBlocks]
  by_cases htr : info.Trimmed
  case pos =>
    have hpos := htr.left
    rw [if_pos htr] at hi ⊢
    have hw : i < info.wholeGroups := by
      by_cases hz : info.tail = 0
      case pos => rw [if_pos hz] at hi; omega
      case neg => rw [if_neg hz] at hi; omega
    have := hmi hw
    omega
  rw [if_neg htr] at hi ⊢
  by_cases hz : info.tail = 0
  case pos =>
    rw [if_pos hz] at hi
    have := hmi hi
    omega
  rw [if_neg hz] at hi
  have := hmi hi
  rw [mul_succ] at this
  omega

theorem BitmapGeometry.of_create (h : ext4CreateFsAuxInfo info = .ok aux)
    (hb : info.firstBlock < info.blocks) (hs : info.blockSize ≤ ext4MaxBlockSize)
    (hp : info.blocksPerGroup ≤ 8 * info.blockSize) : BitmapGeometry info aux := by
  obtain ⟨hspos, hppos, haux⟩ := ext4CreateFsAuxInfo_eq h hb.le
  have hg : 0 < info.allGroups := by
    have hW : info.blocksPerGroup * info.wholeGroups + info.tail = info.blocks - info.firstBlock :=
      div_add_mod ..
    rw [FsInfo.allGroups]
    by_cases hz : info.tail = 0
    case neg => simp [hz]
    rw [if_pos hz]
    by_contra h0
    rw [Nat.eq_zero_of_not_pos h0] at hW
    omega
  rw [trimLastGroup_untrimmed hg] at haux
  subst haux
  have hlen := info.blocks_lt
  refine ⟨hspos, hs, hp, fun i hi => ?_, ?_, ?_⟩
  · exact FsInfo.lt_remainingBlocks hppos hb (lt_of_lt_of_le hi (u32_le _))
  · change info.firstBlock < 2 ^ 32
    rw [FsInfo.firstBlock]
    split <;> omega
  · change info.remainingBlocks < 2 ^ 64
    rw [FsInfo.remainingBlocks]
    split <;> omega

theorem runsFit_of_lt (bitmaps : Nat → List UInt8) (hf : info.blockSize * aux.firstDataBlock < 2 ^ 32)
    (hp : info.blockSize * info.blocksPerGroup < 2 ^ 32) : RunsFit info aux bitmaps := by
  refine ⟨hf, fun i _ a b hrun => lt_of_le_of_lt (Nat.mul_le_mul_left _ ?_) hp⟩
  have := hrun.le
  simp only [groupBlocks] at this
  omega

-- The calls are right exactly when no run of blocks has 2^32 bytes or more, if block numbers have 32
-- bits. In a larger filesystem they are wrong for some bitmaps.
theorem buildSparseExt_iff (filename : String) (g : BitmapGeometry info aux) :
    (blocksInGroups info aux ≤ 2 ^ 32 → ∀ image bgDesc bitmaps,
      (∀ i < aux.groups, readBlockBitmap image info bgDesc i = .ok (bitmaps i)) →
      (CopiesExactly image filename info aux bgDesc bitmaps ↔ RunsFit info aux bitmaps)) ∧
    (2 ^ 32 < blocksInGroups info aux → ∃ image bgDesc bitmaps,
      (∀ i < aux.groups, readBlockBitmap image info bgDesc i = .ok (bitmaps i)) ∧
      ¬ CopiesExactly image filename info aux bgDesc bitmaps) :=
  ⟨fun h32 _ _ _ hb => copiesExactly_iff g h32 hb, not_copiesExactly_of_large filename g⟩

namespace Simg

-- Two groups, of which the last one is short.
def twoGroups : FsInfo :=
  .ofNats (10241 * 1024) 1024 8192 1280 256 1 0 (Eq.refl true)

def twoBitmaps (i : Nat) : List UInt8 :=
  List.replicate 1024 (if i = 0 then 0xf0 else 0x0f)

theorem buildSparseExt_twoGroups : ∃ aux, ext4CreateFsAuxInfo twoGroups = .ok aux ∧
    blocksInGroups twoGroups aux = 10241 ∧
    CopiesExactly (bitmapImage twoGroups 3 twoBitmaps 2) "image" twoGroups aux (bitmapDescs 3 2)
      twoBitmaps := by
  obtain ⟨aux, haux⟩ : ∃ aux, ext4CreateFsAuxInfo twoGroups = .ok aux := ⟨_, rfl⟩
  have g := BitmapGeometry.of_create haux (by decide) (by decide) (by decide)
  obtain rfl := ok.inj haux
  have hb := fun i (hi : i < 2) =>
    @readBlockBitmap_bitmapImage twoGroups twoBitmaps 2 i 3 (fun _ => length_replicate) hi
  exact ⟨_, rfl, rfl, ((buildSparseExt_iff "image" g).left (by decide) _ _ _ hb).mpr
    (runsFit_of_lt twoBitmaps (by decide) (by decide))⟩

-- A full filesystem of 4 GiB with blocks of 64 KiB. The one call is for no bytes.
def fullGroup : FsInfo :=
  .ofNats (65536 * 65536) 65536 524288 8192 256 1 0 (Eq.refl true)

def fullBitmap : List UInt8 :=
  List.replicate 65536 0xff

def fullAux : FsAuxInfo where
  firstDataBlock := 0
  lenBlocks := 65536
  inodeTableBlocks := 32
  groups := 1
  bgDescBlocks := 1
  blocksPerInd := 16384

theorem bitSet_fullBitmap (hk : k < 524288) : bitSet fullBitmap k := by
  have hd : k / 8 < 65536 := by omega
  have hm := mod_lt k (show 0 < 8 by decide)
  rw [bitSet, fullBitmap, getD_eq_getElem?_getD, getElem?_replicate, if_pos hd]
  generalize k % 8 = m at *
  interval_cases m <;> rfl

theorem not_buildSparseExt_fullGroup : ext4CreateFsAuxInfo fullGroup = .ok fullAux ∧
    BitmapGeometry fullGroup fullAux ∧ Used fullGroup fullAux (fun _ => fullBitmap) 0 ∧
    buildSparseExt (bitmapImage fullGroup 2 (fun _ => fullBitmap) 1) "image" fullGroup fullAux
      (bitmapDescs 2 1) = .ok [⟨0, 0, .file "image" 0⟩] := by
  have haux : ext4CreateFsAuxInfo fullGroup = .ok fullAux := rfl
  have g := BitmapGeometry.of_create haux (by decide) (by decide) (by decide)
  refine ⟨haux, g, ⟨by decide, 0, by decide, 0, by decide, rfl, bitSet_fullBitmap (by decide)⟩, ?_⟩
  have hb := fun i (hi : i < 1) => @readBlockBitmap_bitmapImage fullGroup (fun _ => fullBitmap) 1 i 2
    (fun _ => length_replicate) hi
  have hruns : runs (bitSet fullBitmap) 65536 = [(0, 65536)] :=
    runs_of_all (fun k hk => bitSet_fullBitmap (by omega)) (by decide)
  have hlast : lastBlock fullGroup fullAux 0 = 65536 := rfl
  rw [buildSparseExt_eq g hb, show fullAux.groups = 1 from rfl]
  simp only [firstCalls, range_one, flatMap_cons, flatMap_nil, groupCalls, hlast, hruns]
  rfl

end Simg
end Ext4
