import PlatformKnife.Sparse.Theorems.Partition

-- When the loop of `sparse_file_resparse` ends.

namespace Sparse

open CInt BackedBlockList SparseFile List

variable {l : List BackedBlock} {bb : BackedBlock} {bs len fresh : Nat} {cost : BackedBlock → Int}

section Group

def remaining (l : List BackedBlock) : Nat :=
  l.length + (l.map (·.len)).sum

@[simp]
theorem remaining_cons (bb : BackedBlock) (l : List BackedBlock) :
    remaining (bb :: l) = bb.len + 1 + remaining l := by
  simp only [remaining, length_cons, map_cons, sum_cons]
  omega

theorem takeGroup_remaining (cost : BackedBlock → Int) (bs len fresh : Nat) (fileLen : Int) (first : Bool)
    (l : List BackedBlock) :
    remaining (takeGroup cost bs len fresh fileLen first l).rest ≤ remaining l := by
  induction l generalizing fileLen first
  case nil => exact le_refl _
  case cons bb l hi =>
    unfold takeGroup
    split
    case isFalse =>
      refine (hi _ _).trans ?_
      simp
    split
    case isFalse => exact le_refl _
    dsimp only
    split
    case isTrue  => simp [BackedBlock.back]
    case isFalse => simp

-- A round makes progress if it can take its first chunk, or a block of it.
def Advances (cost : BackedBlock → Int) (bs len : Nat) (bb : BackedBlock) : Prop :=
  bb.len = 0 ∨ cost bb ≤ len ∨ bs ≤ len

variable (hb : 0 < bs) (hl : len < 2 ^ 32)

theorem toU32_sub_zero (hl : len < 2 ^ 32) : toU32 ((len : Int) - 0) = len := by
  rw [toU32]
  omega

include hb hl in
theorem takeGroup_lt (h : Advances cost bs len bb) :
    remaining (takeGroup cost bs len fresh 0 true (bb :: l)).rest < remaining (bb :: l) := by
  unfold takeGroup
  split
  case isTrue hc =>
    simp only [true_or, if_true, toU32_sub_zero hl]
    split
    case isTrue hm =>
      have hpos : 0 < alignDown len bs := by
        rcases h with h | h | h
        · omega
        · omega
        · exact hb.trans_le (alignDown_pos hb h)
      simp only [remaining_cons, BackedBlock.back]
      omega
    case isFalse =>
      simp only [remaining_cons]
      omega
  case isFalse =>
    have hle := takeGroup_remaining cost bs len fresh (0 + cost bb) false l
    rw [remaining_cons]
    exact hle.trans_lt (by omega)

include hl in
theorem takeGroup_of_not_advances (fresh : Nat) (l : List BackedBlock) (h : ¬ Advances cost bs len bb) :
    ∃ hm, takeGroup cost bs len fresh 0 true (bb :: l) =
      ⟨[bb.front 0 hm], bb.back bs fresh 0 :: l, true, fresh + 1⟩ := by
  simp only [Advances, not_or, not_le] at h
  obtain ⟨h₀, hc, hs⟩ := h
  refine ⟨pos_of_ne_zero h₀, ?_⟩
  unfold takeGroup
  rw [if_pos (by omega), if_pos (.inl rfl)]
  simp only [toU32_sub_zero hl, alignDown_eq_zero hs, pos_of_ne_zero h₀, dif_pos]

-- A chunk of which no round can take a block, when a block is too large.
def Stuck (cost : BackedBlock → Int) (len : Nat) (bb : BackedBlock) : Prop :=
  bb.len ≠ 0 ∧ len < cost bb

include hl in
-- A round whose limit is less than a block cuts no part off a chunk, and it ends in front of a chunk
-- that is stuck.
theorem takeGroup_of_lt (fresh : Nat) (first : Bool) {fileLen : Int} (hbs : len < bs)
    (hF : 0 ≤ fileLen ∧ fileLen ≤ len) (hpos : ∀ bb ∈ l, 0 ≤ cost bb) :
    let g := takeGroup cost bs len fresh fileLen first l
    (∀ bb ∈ g.rest, bb ∈ l ∨ ∃ a ∈ l, bb = a.back bs fresh 0) ∧
      ∀ bb ∈ l, Stuck cost len bb → g.more ∧ (bb ∈ g.rest ∨ bb.back bs fresh 0 ∈ g.rest) := by
  induction l generalizing fileLen first
  case nil => simp [takeGroup]
  case cons a l hi =>
    rw [forall_mem_cons] at hpos
    unfold takeGroup
    split
    case isFalse hc =>
      obtain ⟨hrest, hstuck⟩ := @hi false (fileLen + cost a) (by omega) hpos.right
      refine ⟨fun bb hbb => ?_, fun bb hbb hs => ?_⟩
      · rcases hrest bb hbb with h | ⟨b, hb, h⟩
        · exact .inl (mem_cons_of_mem _ h)
        · exact .inr ⟨b, mem_cons_of_mem _ hb, h⟩
      · rcases mem_cons.mp hbb with rfl | hbb
        · exact absurd hs.right (by omega)
        · exact hstuck bb hbb hs
    split
    case isFalse => exact ⟨fun bb hbb => .inl hbb, fun bb hbb _ => ⟨rfl, .inl hbb⟩⟩
    have hz : alignDown (toU32 (len - fileLen)) bs = 0 := by
      refine alignDown_eq_zero ?_
      have := toU32_of_nonneg (n := len - fileLen) (by omega) (by omega)
      omega
    simp only [hz]
    split
    case isFalse hm =>
      refine ⟨fun bb hbb => .inl (mem_cons_of_mem _ hbb), fun bb hbb hs => ⟨rfl, .inl ?_⟩⟩
      rcases mem_cons.mp hbb with rfl | hbb
      · exact absurd hs.left (by omega)
      · exact hbb
    refine ⟨fun bb hbb => ?_, fun bb hbb _ => ⟨rfl, ?_⟩⟩
    · rcases mem_cons.mp hbb with rfl | hbb
      · exact .inr ⟨a, mem_cons_self, rfl⟩
      · exact .inl (mem_cons_of_mem _ hbb)
    · rcases mem_cons.mp hbb with rfl | hbb
      · exact .inr mem_cons_self
      · exact .inl (mem_cons_of_mem _ hbb)

end Group

section Loop

-- The states at the start of a round.
inductive RoundState (env : Env) (maxLen : Nat) (outCount : Int) (s : SparseFile) : Resparse → Prop
  | init : RoundState env maxLen outCount s ⟨0, s, new s.blockSize s.len, []⟩
  | next {r : Resparse} : RoundState env maxLen outCount s r → (resparseRound env maxLen outCount r).1 →
      RoundState env maxLen outCount s (resparseRound env maxLen outCount r).2

variable {env : Env} {maxLen : Nat} {outCount : Int} {r : Resparse} {s : SparseFile}

theorem resparseRound_in (maxLen : Nat) (outCount : Int) (hc : env.calloc (i32 r.in_.blockSize))
    (ha : Addrs r.in_.backedBlockList.fresh r.in_.dataBlocks) :
    let g := r.in_.group env maxLen
    let m := resparseRound env maxLen outCount r
    m.1 = g.more ∧ m.2.in_.dataBlocks = g.rest ∧ m.2.in_.backedBlockList.fresh = g.fresh ∧
      m.2.in_.blockSize = r.in_.blockSize ∧ m.2.in_.len = r.in_.len := by
  intro g m
  have hmv : let mv := moveChunksUpToLen env r.in_ (new r.in_.blockSize r.in_.len) maxLen
      mv.1 = g.more ∧ Moved r.in_ (new r.in_.blockSize r.in_.len) mv.2.1 mv.2.2 g :=
    moveChunksUpToLen_spec hc ha (new_blockSize r.in_) rfl
  obtain ⟨hm, hrest, -, hfresh, ⟨hbs, -⟩, ⟨hl, -⟩⟩ := hmv
  simp only [m, resparseRound]
  split
  case isTrue  => exact ⟨hm, hrest, hfresh, hbs, hl⟩
  case isFalse => exact ⟨hm, hrest, hfresh, hbs, hl⟩

-- The first chunk left in a file, if any, can be taken in full or in part.
def SparseFile.Advances (env : Env) (maxLen : Nat) (s : SparseFile) : Prop :=
  ∀ bb ∈ s.dataBlocks.head?,
    Sparse.Advances (chunkCount env s.blockSize s.len) s.blockSize (toU32 (maxLen - overhead)) bb

theorem chunkCount_back (env : Env) (bs imageLen addr : Nat) (bb : BackedBlock) :
    chunkCount env bs imageLen (bb.back bs addr 0) = chunkCount env bs imageLen bb := by
  have hsource : (bb.back bs addr 0).source = bb.source := by
    cases h : bb.source <;> simp [BackedBlock.back, Source.advance, h]
  have hlen : (bb.back bs addr 0).len = bb.len := rfl
  simp only [chunkCount, writeBlock, hsource, hlen]

theorem Addrs.rest (env : Env) (maxLen : Nat) (ha : Addrs s.backedBlockList.fresh s.dataBlocks) :
    Addrs (s.group env maxLen).fresh (s.group env maxLen).rest := by
  have h : Addrs (s.group env maxLen).fresh
      ([] ++ ((s.group env maxLen).taken ++ (s.group env maxLen).rest)) :=
    takeGroup_addrs _ 0 true ha
  exact h.of_sublist (by simp)

-- The rule for a loop that does not end: each round leaves more to do, and the next one starts alike.
theorem resparseLoop_of_inv (inv : Resparse → Prop) (h : inv r)
    (hi : ∀ r, inv r → (resparseRound env maxLen outCount r).1 ∧ inv (resparseRound env maxLen outCount r).2)
    (fuel : Nat) : resparseLoop env maxLen outCount fuel r = none := by
  induction fuel generalizing r
  case zero => rfl
  case succ fuel ih =>
    obtain ⟨hm, h⟩ := hi r h
    rw [resparseLoop]
    simp only [hm, if_true]
    exact ih h

-- The states whose first chunk no round takes a block of.
structure Halted (env : Env) (maxLen : Nat) (r : Resparse) : Prop where
  calloc : env.calloc (i32 r.in_.blockSize)
  addrs  : Addrs r.in_.backedBlockList.fresh r.in_.dataBlocks
  halted : ¬r.in_.Advances env maxLen

theorem Halted.round (outCount : Int) (h : Halted env maxLen r) :
    let m := resparseRound env maxLen outCount r
    m.1 ∧ Halted env maxLen m.2 := by
  obtain ⟨hm, hrest, hfresh, hbs, hlen⟩ := resparseRound_in maxLen outCount h.calloc h.addrs
  have hnot := h.halted
  simp only [SparseFile.Advances, not_forall] at hnot
  obtain ⟨bb, hbb, hnot⟩ := hnot
  obtain ⟨l, hd⟩ : ∃ l, r.in_.dataBlocks = bb :: l := by
    cases hd : r.in_.dataBlocks <;> simp_all
  obtain ⟨_, hg⟩ := takeGroup_of_not_advances (toU32_lt _) r.in_.backedBlockList.fresh l hnot
  have ha' := h.addrs.rest env maxLen
  rw [SparseFile.group, hd] at hm hrest hfresh ha'
  rw [hg] at hm hrest hfresh ha'
  refine ⟨hm, hbs ▸ h.calloc, by rw [hfresh, hrest]; exact ha', ?_⟩
  simp only [SparseFile.Advances, hrest, hbs, hlen, head?_cons, Option.mem_def, Option.some.injEq,
    forall_eq', Sparse.Advances, chunkCount_back]
  exact hnot

theorem resparseLoop_of_halted (h : Halted env maxLen r) (fuel : Nat) :
    resparseLoop env maxLen outCount fuel r = none :=
  resparseLoop_of_inv _ h (fun _ h => h.round outCount) fuel

theorem RoundState.addrs (hc : env.calloc (i32 s.blockSize))
    (ha : Addrs s.backedBlockList.fresh s.dataBlocks) (h : RoundState env maxLen outCount s r) :
    Addrs r.in_.backedBlockList.fresh r.in_.dataBlocks ∧ r.in_.blockSize = s.blockSize := by
  induction h
  case init => exact ⟨ha, rfl⟩
  case next r _ _ hi =>
    obtain ⟨-, hrest, hfresh, hbs, -⟩ := resparseRound_in maxLen outCount (hi.2 ▸ hc) hi.1
    refine ⟨?_, hbs.trans hi.2⟩
    rw [hfresh, hrest]
    exact hi.1.rest env maxLen

theorem RoundState.isSome (h : RoundState env maxLen outCount s r)
    (hs : ∃ fuel, (resparse env fuel s maxLen outCount).isSome) :
    ∃ fuel, (resparseLoop env maxLen outCount fuel r).isSome := by
  induction h
  case init =>
    obtain ⟨fuel, hs⟩ := hs
    refine ⟨fuel, ?_⟩
    rw [resparse] at hs
    split at hs
    · contradiction
    case h_2 r hr => rw [hr]; rfl
  case next r _ hm hi =>
    obtain ⟨fuel, hf⟩ := hi
    obtain _ | fuel := fuel
    · contradiction
    rw [resparseLoop] at hf
    simp only [hm, if_true] at hf
    exact ⟨fuel, hf⟩

theorem resparseLoop_of_advances (hb : 0 < s.blockSize) (hc : env.calloc (i32 s.blockSize))
    (ha : Addrs s.backedBlockList.fresh s.dataBlocks)
    (hadv : ∀ r, RoundState env maxLen outCount s r → r.in_.Advances env maxLen)
    (h : RoundState env maxLen outCount s r) :
    ∃ fuel, (resparseLoop env maxLen outCount fuel r).isSome := by
  -- each round leaves less of the file
  induction hn : remaining r.in_.dataBlocks using Nat.strong_induction_on generalizing r
  case h n hi =>
    obtain ⟨ha', hbs⟩ := h.addrs hc ha
    obtain ⟨hm, hrest, -, -, -⟩ := resparseRound_in maxLen outCount (hbs ▸ hc) ha'
    cases hmore : (resparseRound env maxLen outCount r).1
    case false => exact ⟨1, by simp [resparseLoop, hmore]⟩
    case true =>
      have hlt : remaining (resparseRound env maxLen outCount r).2.in_.dataBlocks < n := by
        rw [hrest, ← hn]
        rcases hd : r.in_.dataBlocks with _ | ⟨bb, l⟩
        · rw [hmore, SparseFile.group, hd] at hm
          contradiction
        rw [SparseFile.group, hd]
        exact takeGroup_lt (hbs ▸ hb) (toU32_lt _) (hadv r h bb (by rw [hd]; rfl))
      obtain ⟨fuel, hf⟩ := hi _ hlt (.next h hmore) rfl
      exact ⟨fuel + 1, by simp [resparseLoop, hmore, hf]⟩

theorem RoundState.advances (hc : env.calloc (i32 s.blockSize))
    (ha : Addrs s.backedBlockList.fresh s.dataBlocks) (hl : s.blockSize ≤ toU32 (maxLen - overhead))
    (h : RoundState env maxLen outCount s r) : r.in_.Advances env maxLen := by
  intro bb _
  rw [(h.addrs hc ha).2]
  exact .inr (.inr hl)

-- The states of a call for `s` with a chunk that no round gets past.
structure Blocked (env : Env) (maxLen : Nat) (s : SparseFile) (r : Resparse) : Prop where
  calloc    : env.calloc (i32 s.blockSize)
  addrs     : Addrs r.in_.backedBlockList.fresh r.in_.dataBlocks
  blockSize : r.in_.blockSize = s.blockSize
  len       : r.in_.len = s.len
  nonneg    : ∀ bb ∈ r.in_.dataBlocks, 0 ≤ chunkCount env s.blockSize s.len bb
  stuck     : ∃ bb ∈ r.in_.dataBlocks,
                Stuck (chunkCount env s.blockSize s.len) (toU32 (maxLen - overhead)) bb

section Small

-- What stays true of the chunks if the limit is less than a block.
variable (hlt : toU32 (maxLen - overhead) < s.blockSize)

include hlt

theorem Blocked.round (outCount : Int) (h : Blocked env maxLen s r) :
    let m := resparseRound env maxLen outCount r
    m.1 ∧ Blocked env maxLen s m.2 := by
  obtain ⟨hc, ha, hbs₀, hlen₀, hpos, bb, hbb, hs⟩ := h
  obtain ⟨hm, hrest, hfresh, hbs, hlen⟩ := resparseRound_in maxLen outCount (hbs₀ ▸ hc) ha
  obtain ⟨hmem, hstuck⟩ := takeGroup_of_lt (toU32_lt _) r.in_.backedBlockList.fresh true hlt
    ⟨Int.le_refl 0, by omega⟩ hpos
  have ha' := ha.rest env maxLen
  rw [SparseFile.group, hbs₀, hlen₀] at hm hrest hfresh ha'
  obtain ⟨hmore, hbb⟩ := hstuck bb hbb hs
  refine ⟨hm.trans hmore, hc, by rw [hfresh, hrest]; exact ha', hbs.trans hbs₀, hlen.trans hlen₀, ?_, ?_⟩
  case refine_1 =>
    rw [hrest]
    intro b hb
    rcases hmem b hb with h | ⟨a, h, rfl⟩
    · exact hpos b h
    · rw [chunkCount_back]; exact hpos a h
  case refine_2 =>
    rw [hrest]
    rcases hbb with h | h
    · exact ⟨bb, h, hs⟩
    · exact ⟨_, h, hs.left, by rw [chunkCount_back]; exact hs.right⟩

theorem RoundState.not_stuck (hc : env.calloc (i32 s.blockSize))
    (ha : Addrs s.backedBlockList.fresh s.dataBlocks)
    (hs : ∀ bb ∈ s.dataBlocks, 0 ≤ chunkCount env s.blockSize s.len bb ∧
      ¬Stuck (chunkCount env s.blockSize s.len) (toU32 (maxLen - overhead)) bb)
    (h : RoundState env maxLen outCount s r) :
    r.in_.len = s.len ∧ ∀ bb ∈ r.in_.dataBlocks, 0 ≤ chunkCount env s.blockSize s.len bb ∧
      ¬Stuck (chunkCount env s.blockSize s.len) (toU32 (maxLen - overhead)) bb := by
  induction h
  case init => exact ⟨rfl, hs⟩
  case next r hr _ hi =>
    obtain ⟨ha', hbs⟩ := hr.addrs hc ha
    obtain ⟨-, hrest, -, -, hlen⟩ := resparseRound_in maxLen outCount (hbs ▸ hc) ha'
    obtain ⟨hmem, -⟩ := takeGroup_of_lt (toU32_lt _) r.in_.backedBlockList.fresh true hlt
      ⟨Int.le_refl 0, by omega⟩ fun bb hbb => (hi.right bb hbb).left
    rw [SparseFile.group, hbs, hi.left] at hrest
    refine ⟨hlen.trans hi.left, fun b hb => ?_⟩
    rw [hrest] at hb
    rcases hmem b hb with h | ⟨a, h, rfl⟩
    · exact hi.right b h
    simp only [Stuck, chunkCount_back]
    exact hi.right a h

end Small

theorem chunkCount_nonneg (env : Env) (imageLen : Nat) (hb : 0 < bs) (hbs : bs < 2 ^ 31)
    (hl : bb.len < 2 ^ 31) : 0 ≤ chunkCount env bs imageLen bb := by
  rw [chunkCount_eq, dataCount_of_lt hb hbs hl]
  split
  case isTrue  => split <;> omega
  case isFalse => exact Int.le_refl 0

-- The call returns unless a round starts with a chunk of which not even one block fits. Without memory
-- for the counter, there is only one round.
theorem resparse_advances_iff (hb : 0 < s.blockSize) (ha : Addrs s.backedBlockList.fresh s.dataBlocks) :
    (∃ fuel, (resparse env fuel s maxLen outCount).isSome) ↔
      ∀ r, RoundState env maxLen outCount s r → env.calloc (i32 s.blockSize) → r.in_.Advances env maxLen := by
  constructor
  · intro hs r hr hc
    by_contra hnot
    obtain ⟨ha', hbs⟩ := hr.addrs hc ha
    obtain ⟨fuel, hf⟩ := hr.isSome hs
    rw [resparseLoop_of_halted ⟨hbs ▸ hc, ha', hnot⟩] at hf
    contradiction
  · intro hadv
    have hloop : ∃ fuel,
        (resparseLoop env maxLen outCount fuel ⟨0, s, new s.blockSize s.len, []⟩).isSome := by
      by_cases hc : env.calloc (i32 s.blockSize)
      · exact resparseLoop_of_advances hb hc ha (fun r hr => hadv r hr hc) .init
      refine ⟨1, ?_⟩
      have hm : (resparseRound env maxLen outCount ⟨0, s, new s.blockSize s.len, []⟩).1 = false := by
        simp only [resparseRound, moveChunksUpToLen, new_blockSize, if_neg hc]
        split <;> rfl
      simp [resparseLoop, hm]
    obtain ⟨fuel, hf⟩ := hloop
    obtain ⟨r, hr⟩ := Option.isSome_iff_exists.mp hf
    exact ⟨fuel, by rw [resparse, hr]; rfl⟩

-- A call ends if and only if a block fits, or each chunk that is not empty. With chunks of 2 GiB, of which
-- the count is negative, it depends on the rounds.
theorem resparse_ends_iff (hb : 0 < s.blockSize) (ha : Addrs s.backedBlockList.fresh s.dataBlocks) :
    ((∃ fuel, (resparse env fuel s maxLen outCount).isSome) ↔
      ∀ r, RoundState env maxLen outCount s r → env.calloc (i32 s.blockSize) →
        r.in_.Advances env maxLen) ∧
    ((∀ bb ∈ s.dataBlocks, bb.len < 2 ^ 31) →
      ((∃ fuel, (resparse env fuel s maxLen outCount).isSome) ↔
        (env.calloc (i32 s.blockSize) → s.blockSize ≤ toU32 (maxLen - overhead) ∨
          ∀ bb ∈ s.dataBlocks, bb.len = 0 ∨
            chunkCount env s.blockSize s.len bb ≤ toU32 (maxLen - overhead)))) := by
  refine ⟨resparse_advances_iff hb ha, fun hl => ?_⟩
  have hpos (hc : env.calloc (i32 s.blockSize)) (bb : BackedBlock) (hbb : bb ∈ s.dataBlocks) :
      0 ≤ chunkCount env s.blockSize s.len bb :=
    chunkCount_nonneg env s.len hb (blockSize_lt_of_calloc hc s.backedBlockList.blockSize_lt) (hl bb hbb)
  constructor
  case mp =>
    rintro ⟨fuel, hf⟩ hc
    by_contra hnot
    simp only [not_or, not_forall, not_le] at hnot
    obtain ⟨hlt, bb, hbb, hstuck⟩ := hnot
    have hloop : resparseLoop env maxLen outCount fuel ⟨0, s, new s.blockSize s.len, []⟩ = none :=
      resparseLoop_of_inv (Blocked env maxLen s) ⟨hc, ha, rfl, rfl, hpos hc, bb, hbb, hstuck⟩
        (fun _ h => h.round hlt outCount) fuel
    rw [resparse, hloop] at hf
    contradiction
  case mpr =>
    intro h
    refine (resparse_advances_iff hb ha).mpr fun r hr hc => ?_
    by_cases hlt : toU32 (maxLen - overhead) < s.blockSize
    case neg => exact hr.advances hc ha (not_lt.mp hlt)
    have hsmall := (h hc).resolve_left (not_le.mpr hlt)
    obtain ⟨hlen, hnot⟩ := hr.not_stuck hlt hc ha fun bb hbb => by
      refine ⟨hpos hc bb hbb, fun hs => ?_⟩
      rcases hsmall bb hbb with h | h
      · exact hs.left h
      · exact absurd hs.right (Int.not_lt.mpr h)
    intro bb hbb
    have hs := (hnot bb (mem_of_mem_head? hbb)).right
    rw [(hr.addrs hc ha).2, hlen]
    simp only [Stuck, not_and, Int.not_lt] at hs
    by_cases hz : bb.len = 0
    case pos => exact .inl hz
    case neg => exact .inr (.inl (hs hz))

theorem dataAndFill_addrs : Addrs dataAndFill.backedBlockList.fresh dataAndFill.dataBlocks :=
  ⟨by decide, by decide⟩

theorem resparse_ends_dataAndFill :
    (∀ r, RoundState .withoutFiles 100 2 dataAndFill r → r.in_.Advances .withoutFiles 100) ∧
      ∃ fuel, (resparse .withoutFiles fuel dataAndFill 100 2).isSome := by
  have hadv : ∀ r, RoundState .withoutFiles 100 2 dataAndFill r → r.in_.Advances .withoutFiles 100 :=
    fun r hr => hr.advances (by decide) dataAndFill_addrs (by decide)
  exact ⟨hadv, (resparse_ends_iff (by decide) dataAndFill_addrs).left.mpr fun r hr _ => hadv r hr⟩

-- With 83 bytes there are 3 for the data, but a block has 4.
theorem not_resparse_ends_dataAndFill :
    ¬ ∃ fuel, (resparse .withoutFiles fuel dataAndFill 83 2).isSome := by
  rintro ⟨fuel, h⟩
  have hnot : ¬ dataAndFill.Advances .withoutFiles 83 := by
    intro hadv
    rcases hadv _ rfl with h | h | h
    · exact absurd h (by decide)
    · exact absurd h (by decide +kernel)
    · exact absurd h (by decide)
  have hloop : resparseLoop .withoutFiles 83 2 fuel
      ⟨0, dataAndFill, new dataAndFill.blockSize dataAndFill.len, []⟩ = none :=
    resparseLoop_of_halted ⟨by decide, dataAndFill_addrs, hnot⟩ fuel
  rw [resparse, hloop] at h
  contradiction

end Loop

end Sparse
