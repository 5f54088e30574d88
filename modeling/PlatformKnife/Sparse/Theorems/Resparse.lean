import PlatformKnife.Sparse.Theorems.ChunkCount

-- Resparsing cuts the list of a file into groups: the list function that the loops of
-- `move_chunks_up_to_len` and `sparse_file_resparse` compute by relinking nodes.

namespace Sparse

open CInt BackedBlockList SparseFile Nat

variable {l l₁ l₂ pre : List BackedBlock} {bb : BackedBlock} {bs len fresh addr : Nat}

-- The chunks that one round moves, those that it leaves, whether there is another round, and the next
-- address.
structure Group where
  taken : List BackedBlock
  rest  : List BackedBlock
  more  : Bool
  fresh : Nat

-- The loop of `move_chunks_up_to_len`, where `first` tells that there is no `last_bb` yet.
def takeGroup (cost : BackedBlock → Int) (bs len fresh : Nat) :
    (fileLen : Int) → (first : Bool) → List BackedBlock → Group
  | _, _, [] => ⟨[], [], false, fresh⟩
  | fileLen, first, bb :: l =>
    if fileLen + cost bb > len then
      if first ∨ len - fileLen > (len / 8 : Nat) then
        let maxLen := alignDown (toU32 (len - fileLen)) bs
        if h : maxLen < bb.len
        then ⟨[bb.front maxLen h], bb.back bs fresh maxLen :: l, true, fresh + 1⟩
        else ⟨[bb], l, true, fresh⟩
      else
        ⟨[], bb :: l, true, fresh⟩
    else
      let g := takeGroup cost bs len fresh (fileLen + cost bb) false l
      { g with taken := bb :: g.taken }

-- The groups of all rounds, and the next address after them.
def groups (cost : BackedBlock → Int) (bs len : Nat) :
    (fuel fresh : Nat) → List BackedBlock → Option (List (List BackedBlock) × Nat)
  | 0, _, _ => none
  | fuel + 1, fresh, l =>
    let g := takeGroup cost bs len fresh 0 true l
    if g.more
    then (groups cost bs len fuel g.fresh g.rest).map fun (gs, fresh) => (g.taken :: gs, fresh)
    else some ([g.taken], g.fresh)

-- The nodes of a list are distinct, and their addresses are not handed out again.
structure Addrs (fresh : Nat) (l : List BackedBlock) : Prop where
  nodup : (l.map (·.addr)).Nodup
  lt    : ∀ bb ∈ l, bb.addr < fresh

section Lists

theorem locate_append_cons (h : bb.addr ∉ l₁.map (·.addr)) :
    locate bb.addr (l₁ ++ bb :: l₂) = some (l₁, bb, l₂) := by
  induction l₁
  case nil => simp [locate]
  case cons a l₁ hi =>
    simp only [List.map_cons, List.mem_cons, not_or] at h
    simp [locate, hi h.right, Ne.symm h.left]

theorem takeThrough_append_cons (h : bb.addr ∉ l₁.map (·.addr)) :
    takeThrough bb.addr (l₁ ++ bb :: l₂) = (l₁ ++ [bb], l₂) := by
  induction l₁
  case nil => simp [takeThrough]
  case cons a l₁ hi =>
    simp only [List.map_cons, List.mem_cons, not_or] at h
    simp [takeThrough, hi h.right, Ne.symm h.left]

theorem splice_of_le (h : ∀ bb ∈ l, bb.block ≤ block) : splice block seg l = l ++ seg := by
  induction l
  case nil => rfl
  case cons bb l hi =>
    obtain _ | ⟨bb', l⟩ := l
    · rfl
    simp only [List.forall_mem_cons] at h hi
    simp [splice, not_lt.mpr h.right.left, hi h.right]

theorem Addrs.not_mem (h : Addrs fresh (l₁ ++ bb :: l₂)) : bb.addr ∉ l₁.map (·.addr) := by
  have h := h.nodup
  simp only [List.map_append, List.map_cons, List.nodup_append, List.mem_cons] at h
  exact fun hm => h.right.right _ hm _ (.inl rfl) rfl

theorem takeThrough_getLast (h : Addrs fresh (l₁ ++ l₂)) (hl : l₁.getLast? = some bb) :
    takeThrough bb.addr (l₁ ++ l₂) = (l₁, l₂) := by
  obtain ⟨l, rfl⟩ := List.getLast?_eq_some_iff.mp hl
  rw [List.append_assoc] at h ⊢
  exact takeThrough_append_cons h.not_mem

end Lists

section Split

variable {bbl : BackedBlockList}

theorem split_eq (h : bbl.dataBlocks = pre ++ bb :: l) (ha : Addrs fresh bbl.dataBlocks) :
    bbl.split bb.addr n =
      if hm : alignDown n bbl.blockSize < bb.len then
        { bbl with
          dataBlocks := pre ++ bb.front _ hm ::
            bb.back bbl.blockSize bbl.fresh (alignDown n bbl.blockSize) :: l
          fresh := bbl.fresh + 1
        }
      else
        bbl := by
  rw [h] at ha
  simp only [split, h, locate_append_cons ha.not_mem]

theorem Addrs.split (h : Addrs fresh (pre ++ bb :: l)) (hm : m < bb.len) :
    Addrs (fresh + 1) (pre ++ bb.front m hm :: bb.back bs fresh m :: l) := by
  have hn := h.nodup
  have hl := h.lt
  simp only [List.mem_append, List.mem_cons, or_imp, forall_and, forall_eq] at hl
  obtain ⟨hp, hbb, hl⟩ := hl
  constructor
  case nodup =>
    have perm : (pre ++ bb.front m hm :: bb.back bs fresh m :: l).map (·.addr) |>.Perm
        (fresh :: (pre ++ bb :: l).map (·.addr)) := by
      simp only [List.map_append, List.map_cons, BackedBlock.front, BackedBlock.back]
      exact (List.perm_middle.trans (.cons _ List.perm_middle)).trans (.swap ..) |>.trans
        (.cons _ List.perm_middle.symm)
    refine perm.nodup_iff.mpr (List.nodup_cons.mpr ⟨?_, hn⟩)
    intro hf
    obtain ⟨x, hx, he⟩ := List.mem_map.mp hf
    have := h.lt x hx
    omega
  case lt =>
    intro x hx
    simp only [List.mem_append, List.mem_cons] at hx
    rcases hx with hx | rfl | rfl | hx
    · exact lt_succ_of_lt (hp x hx)
    · exact lt_succ_of_lt hbb
    · exact lt_succ_self _
    · exact lt_succ_of_lt (hl x hx)

end Split

section Round

variable {env : Env} {bbl : BackedBlockList} {fileLen : Int}

-- What the loop of `move_chunks_up_to_len` finds in a list of which it has passed `pre`.
structure CutAt (bbl : BackedBlockList) (pre : List BackedBlock) (c : Cut) (g : Group) : Prop where
  more   : c.bb.isSome = g.more
  lastBb : c.lastBb = (pre ++ g.taken).getLast?.map (·.addr)
  list   : splitAt bbl c = { bbl with dataBlocks := pre ++ g.taken ++ g.rest, fresh := g.fresh }

theorem CutAt.of_not_split (hg : g.fresh = bbl.fresh) (hd : bbl.dataBlocks = pre ++ g.taken ++ g.rest)
    (hs : splitAt bbl c = bbl) (hm : c.bb.isSome = g.more)
    (hl : c.lastBb = (pre ++ g.taken).getLast?.map (·.addr)) : CutAt bbl pre c g where
  more   := hm
  lastBb := hl
  list   := by rw [hs, ← hd, hg]

theorem cut_spec (hd : bbl.dataBlocks = pre ++ l) (ha : Addrs bbl.fresh bbl.dataBlocks) :
    CutAt bbl pre (cut env bbl.blockSize imageLen len fileLen (pre.getLast?.map (·.addr)) l)
      (takeGroup (chunkCount env bbl.blockSize imageLen) bbl.blockSize len bbl.fresh fileLen
        pre.isEmpty l) := by
  have hn : pre.getLast?.map (·.addr) = none ↔ pre.isEmpty := by simp
  induction l generalizing pre fileLen
  case nil => exact .of_not_split rfl (by simpa [takeGroup] using hd) rfl rfl (by simp [cut, takeGroup])
  case cons bb l hi =>
    unfold cut takeGroup
    simp only [hn]
    split
    case isFalse =>
      have h := @hi (pre ++ [bb]) (fileLen + chunkCount env bbl.blockSize imageLen bb)
        (by simp [hd]) (by simp)
      rw [List.getLast?_concat, Option.map_some, show (pre ++ [bb]).isEmpty = false by simp] at h
      obtain ⟨hm, hl, hs⟩ := h
      simp only [List.append_assoc, List.cons_append, List.nil_append] at hl hs
      exact ⟨hm, hl, by simpa using hs⟩
    split
    case isFalse => exact .of_not_split rfl (by simpa using hd) rfl rfl (by simp)
    have hs := split_eq (n := toU32 (len - fileLen)) hd ha
    split
    case isTrue hm =>
      rw [dif_pos hm] at hs
      constructor
      case more => rfl
      case lastBb => simp [BackedBlock.front]
      case list => simp [splitAt, hs]
    case isFalse hm =>
      rw [dif_neg hm] at hs
      exact .of_not_split rfl (by simpa using hd) hs rfl (by simp)

section

variable (cost : BackedBlock → Int)

theorem takeGroup_addrs (fileLen : Int) (first : Bool) (h : Addrs fresh (pre ++ l)) :
    let g := takeGroup cost bs len fresh fileLen first l
    Addrs g.fresh (pre ++ (g.taken ++ g.rest)) := by
  induction l generalizing pre fileLen first
  case nil => exact h
  case cons bb l hi =>
    unfold takeGroup
    split
    case isFalse =>
      rw [List.append_cons] at h
      simpa using hi _ _ h
    split
    case isFalse => exact h
    dsimp only
    split
    case isTrue hm => exact h.split hm
    case isFalse => exact h

theorem takeGroup_head :
    (takeGroup cost bs len fresh fileLen true l).taken.head?.map (·.addr) = l.head?.map (·.addr) := by
  obtain _ | ⟨bb, l⟩ := l
  · rfl
  unfold takeGroup
  simp only [true_or, if_true]
  split
  case isTrue  => split <;> rfl
  case isFalse => rfl

theorem takeGroup_rest_eq_nil (h : (takeGroup cost bs len fresh fileLen true l).taken = []) :
    (takeGroup cost bs len fresh fileLen true l).rest = [] := by
  have hh : (takeGroup cost bs len fresh fileLen true l).taken.head?.map (·.addr) = _ :=
    takeGroup_head cost
  cases l
  case nil  => rfl
  case cons => simp [h] at hh

end

theorem move_front {src dst : BackedBlockList} (hs : src.dataBlocks = (bb :: l₁) ++ l₂)
    (ha : Addrs fresh src.dataBlocks) (hd : dst.dataBlocks = []) :
    src.move dst (some bb.addr) ((bb :: l₁).getLast?.map (·.addr)) =
      ({ src with dataBlocks := l₂, lastUsed := none },
       { dst with dataBlocks := bb :: l₁, lastUsed := none, fresh := max src.fresh dst.fresh }) := by
  have hl := List.getLast?_eq_some_getLast (List.cons_ne_nil bb l₁)
  have hf : (bb :: l₁ ++ l₂).span (·.addr ≠ bb.addr) = ([], bb :: l₁ ++ l₂) := by
    simp [List.span_eq_takeWhile_dropWhile]
  rw [hs] at ha
  simp only [move, hs, hf, hl, Option.map_some, takeThrough_getLast ha hl, hd, splice, List.nil_append]

-- One call of `move_chunks_up_to_len` with an empty file to move to.
structure Moved (src dst src' dst' : SparseFile) (g : Group) : Prop where
  rest : src'.dataBlocks = g.rest
  taken : dst'.dataBlocks = g.taken
  fresh : src'.backedBlockList.fresh = g.fresh
  blockSize : src'.blockSize = src.blockSize ∧ dst'.blockSize = dst.blockSize
  len : src'.len = src.len ∧ dst'.len = dst.len

theorem CutAt.moved {src dst : SparseFile} (h : CutAt src.backedBlockList [] c g)
    (ha : Addrs fresh (g.taken ++ g.rest)) (hd : dst.dataBlocks = [])
    (hh : g.taken.head?.map (·.addr) = src.dataBlocks.head?.map (·.addr))
    (hr : g.taken = [] → g.rest = []) :
    let r := (splitAt src.backedBlockList c).move dst.backedBlockList
      (src.dataBlocks.head?.map (·.addr)) c.lastBb
    Moved src dst { src with backedBlockList := r.1 } { dst with backedBlockList := r.2 } g := by
  obtain ⟨_, hl, hs⟩ := h
  simp only [List.nil_append] at hl hs
  rw [← hh, hs, hl]
  rcases ht : g.taken with _ | ⟨bb, l⟩
  · have hr := hr ht
    simp only [hr, List.append_nil]
    exact ⟨hr.symm, hd.trans ht.symm, rfl, ⟨rfl, rfl⟩, ⟨rfl, rfl⟩⟩
  rw [ht] at ha
  simp only [List.head?_cons, Option.map_some]
  rw [move_front rfl ha hd]
  exact ⟨rfl, ht.symm, rfl, ⟨rfl, rfl⟩, ⟨rfl, rfl⟩⟩

theorem moveChunksUpToLen_spec {src dst : SparseFile} {maxLen : Nat} (hc : env.calloc (i32 src.blockSize))
    (ha : Addrs src.backedBlockList.fresh src.dataBlocks) (hb : dst.blockSize = src.blockSize)
    (he : dst.dataBlocks = []) :
    let g := takeGroup (chunkCount env src.blockSize dst.len) src.blockSize
      (toU32 (maxLen - overhead)) src.backedBlockList.fresh 0 true src.dataBlocks
    let m := moveChunksUpToLen env src dst maxLen
    m.1 = g.more ∧ Moved src dst m.2.1 m.2.2 g := by
  intro g m
  have h : CutAt src.backedBlockList [] _ g := cut_spec rfl ha
  have ha : Addrs g.fresh ([] ++ (g.taken ++ g.rest)) := takeGroup_addrs _ 0 true ha
  simp only [m, moveChunksUpToLen, hb, if_pos hc]
  exact ⟨h.more, h.moved ha he (takeGroup_head _) (takeGroup_rest_eq_nil _)⟩

end Round

section Pieces

open BackedBlock

-- Each chunk ends before those that follow, and all have valid block numbers.
structure Separated (bs : Nat) (l : List BackedBlock) : Prop where
  endBlock_le : l.Pairwise fun a b => a.endBlock bs ≤ b.block
  le_max : ∀ bb ∈ l, bb.endBlock bs ≤ 2 ^ 32

-- One list is another one, up to a chunk that was cut in two.
inductive Splits (bs : Nat) : List BackedBlock → List BackedBlock → Prop
  | refl {l : List BackedBlock} : Splits bs l l
  | split {pre l : List BackedBlock} {bb : BackedBlock} {addr : Nat} (h : alignDown n bs < bb.len) :
    Splits bs (pre ++ bb :: l) (pre ++ bb.front _ h :: bb.back bs addr (alignDown n bs) :: l)

def Refines (bs : Nat) : List BackedBlock → List BackedBlock → Prop :=
  Relation.ReflTransGen (Splits bs)

theorem Splits.append_left (h : Splits bs l₁ l₂) (l : List BackedBlock) :
    Splits bs (l ++ l₁) (l ++ l₂) := by
  cases h
  case refl => exact .refl
  case split h =>
    simp only [← List.append_assoc]
    exact .split h

theorem Refines.append_left (h : Refines bs l₁ l₂) (l : List BackedBlock) :
    Refines bs (l ++ l₁) (l ++ l₂) :=
  h.lift _ fun _ _ h => h.append_left l

theorem takeGroup_splits (cost : BackedBlock → Int) (fileLen : Int) (first : Bool) :
    let g := takeGroup cost bs len fresh fileLen first l
    Splits bs l (g.taken ++ g.rest) := by
  induction l generalizing fileLen first
  case nil => exact .refl
  case cons bb l hi =>
    unfold takeGroup
    split
    case isFalse => exact (hi ..).append_left [bb]
    split
    case isFalse => exact .refl
    dsimp only
    split
    case isTrue h => exact (.split h : Splits bs ([] ++ bb :: l) _)
    case isFalse  => exact .refl

theorem takeGroup_rest_of_not_more (cost : BackedBlock → Int) (fileLen : Int) (first : Bool)
    (h : (takeGroup cost bs len fresh fileLen first l).more = false) :
    (takeGroup cost bs len fresh fileLen first l).rest = [] := by
  induction l generalizing fileLen first
  case nil => rfl
  case cons bb l hi =>
    unfold takeGroup at h ⊢
    split at h
    case isFalse hc =>
      rw [if_neg hc]
      exact hi _ _ h
    split at h
    case isTrue  => dsimp only at h; split at h <;> contradiction
    case isFalse => contradiction

theorem groups_eq_some_iff : let g := takeGroup cost bs len fresh 0 true l
    groups cost bs len (fuel + 1) fresh l = some (gs, fresh') ↔
      (g.more = false ∧ gs = [g.taken] ∧ fresh' = g.fresh) ∨
      (g.more ∧ ∃ gs', groups cost bs len fuel g.fresh g.rest = some (gs', fresh') ∧
        gs = g.taken :: gs') := by
  intro g
  simp only [groups]
  split
  case isTrue hm =>
    simp only [g, hm, Option.map_eq_some_iff, Prod.exists, Prod.mk.injEq]
    grind
  case isFalse hm =>
    simp only [g, hm, Option.some.injEq, Prod.mk.injEq]
    grind

theorem groups_refines (h : groups cost bs len fuel fresh l = some (gs, fresh')) :
    Refines bs l gs.flatten := by
  induction fuel generalizing fresh l gs
  case zero => contradiction
  case succ fuel hi =>
    have hs : let g := takeGroup cost bs len fresh 0 true l; Splits bs l (g.taken ++ g.rest) :=
      takeGroup_splits cost 0 true
    dsimp only at hs
    rcases groups_eq_some_iff.mp h with ⟨hm, rfl, _⟩ | ⟨_, gs', hg, rfl⟩
    case inl =>
      rw [takeGroup_rest_of_not_more cost 0 true hm, List.append_nil] at hs
      rw [List.flatten_singleton]
      exact .single hs
    rw [List.flatten_cons]
    exact .head hs ((hi hg).append_left _)

variable (hb : 0 < bs) (h : alignDown n bs < bb.len)

include hb h

theorem front_blocks : (bb.front _ h).blocks bs = n / bs :=
  blocks_eq_of_len_eq hb (mul_comm ..)

theorem lt_blocks_of_alignDown_lt : n / bs < bb.blocks bs := by
  rw [lt_blocks_iff hb, mul_comm]
  exact h

theorem front_endBlock : (bb.front _ h).endBlock bs = bb.block + n / bs := by
  rw [endBlock, front_blocks hb h]
  rfl

theorem back_block (addr : Nat) (hm : bb.endBlock bs ≤ 2 ^ 32) :
    (bb.back bs addr (alignDown n bs)).block = bb.block + n / bs := by
  have := lt_blocks_of_alignDown_lt hb h
  simp only [endBlock] at hm
  simp only [back, alignDown, Nat.mul_div_cancel_left _ hb]
  exact u32_of_lt (by omega)

theorem back_blocks (addr : Nat) : (bb.back bs addr (alignDown n bs)).blocks bs + n / bs = bb.blocks bs := by
  rw [blocks, blocks, back, ← add_mul_div_left _ _ hb]
  congr 1
  simp only [alignDown] at h ⊢
  omega

theorem back_endBlock (addr : Nat) (hm : bb.endBlock bs ≤ 2 ^ 32) :
    (bb.back bs addr (alignDown n bs)).endBlock bs = bb.endBlock bs := by
  rw [endBlock, back_block hb h addr hm, endBlock, ← back_blocks hb h addr]
  omega

theorem front_backing (hi : i < n / bs) : (bb.front _ h).backing bs i = bb.backing bs i := by
  have : i * bs + bs ≤ alignDown n bs := by
    rw [← succ_mul, alignDown, mul_comm]
    exact Nat.mul_le_mul_left _ hi
  simp only [backing, front, Backing.mk.injEq, true_and]
  omega

omit h in
theorem back_backing : (bb.back bs addr (alignDown n bs)).backing bs i = bb.backing bs (n / bs + i) := by
  simp only [backing, back, Source.advance_advance, add_mul, alignDown, mul_comm bs,
    Backing.mk.injEq, true_and]
  omega

theorem split_backs_iff (addr : Nat) (hm : bb.endBlock bs ≤ 2 ^ 32) :
    (bb.front _ h).Backs bs k v ∨ (bb.back bs addr (alignDown n bs)).Backs bs k v ↔ bb.Backs bs k v := by
  have hl := lt_blocks_of_alignDown_lt hb h
  have hk := back_blocks hb h addr
  constructor
  case mp =>
    rintro (⟨i, hi, rfl, rfl⟩ | ⟨i, hi, rfl, rfl⟩)
    case inl =>
      rw [front_blocks hb h] at hi
      exact ⟨i, by omega, rfl, front_backing hb h hi⟩
    case inr =>
      exact ⟨n / bs + i, by omega, by rw [back_block hb h addr hm, add_assoc], back_backing hb⟩
  case mpr =>
    rintro ⟨i, hi, rfl, rfl⟩
    by_cases hn : i < n / bs
    case pos =>
      refine .inl ⟨i, ?_, rfl, (front_backing hb h hn).symm⟩
      rwa [front_blocks hb h]
    obtain ⟨j, rfl⟩ := Nat.exists_eq_add_of_le (not_lt.mp hn)
    refine .inr ⟨j, by omega, ?_, (back_backing hb).symm⟩
    rw [back_block hb h addr hm, add_assoc]

omit h

theorem Splits.separated (h : Splits bs l₁ l₂) (hs : Separated bs l₁) : Separated bs l₂ := by
  cases h
  case refl => exact hs
  case split n pre l bb addr h =>
    obtain ⟨hp, hm⟩ := hs
    have hbb := hm bb (by simp)
    have hl := lt_blocks_of_alignDown_lt hb h
    have hf := front_endBlock hb h
    have hk := back_block hb h addr hbb
    have he := back_endBlock hb h addr hbb
    generalize n / bs = q at hl hf hk
    simp only [List.pairwise_append, List.pairwise_cons, List.forall_mem_cons] at hp
    obtain ⟨hp₁, ⟨hbl, hp₂⟩, hp₃⟩ := hp
    constructor
    case endBlock_le =>
      simp only [List.pairwise_append, List.pairwise_cons, List.forall_mem_cons]
      refine ⟨hp₁, ⟨⟨by omega, fun c hc => ?_⟩, fun c hc => ?_, hp₂⟩, fun c hc => ⟨?_, ?_, ?_⟩⟩
      · have := hbl c hc; simp only [endBlock] at *; omega
      · rw [he]; exact hbl c hc
      · exact (hp₃ c hc).left
      · have := (hp₃ c hc).left; omega
      · exact (hp₃ c hc).right
    case le_max =>
      intro c hc
      simp only [List.mem_append, List.mem_cons] at hc hm
      rcases hc with hc | rfl | rfl | hc
      · exact hm c (.inl hc)
      · simp only [endBlock] at *; omega
      · rwa [he]
      · exact hm c (.inr (.inr hc))

theorem Splits.backs_iff (h : Splits bs l₁ l₂) (hs : Separated bs l₁) :
    Backs bs l₂ k v ↔ Backs bs l₁ k v := by
  cases h
  case refl => rfl
  case split addr h =>
    have hm := hs.le_max _ (List.mem_append_right _ (List.mem_cons_self ..))
    simp only [backs_append, backs_cons, ← split_backs_iff hb h addr hm, or_assoc]

theorem Refines.separated (h : Refines bs l₁ l₂) (hs : Separated bs l₁) : Separated bs l₂ := by
  induction h
  case refl => exact hs
  case tail h hi => exact h.separated hb hi

theorem Refines.backs_iff (h : Refines bs l₁ l₂) (hs : Separated bs l₁) :
    Backs bs l₂ k v ↔ Backs bs l₁ k v := by
  induction h
  case refl => rfl
  case tail hr h hi => rw [h.backs_iff hb (Refines.separated hb hr hs), hi]

end Pieces

section Loop

variable {env : Env} {r r' : Resparse} {maxLen : Nat} {outCount : Int}

theorem move_all_fresh (src dst : BackedBlockList) : dst.fresh ≤ (src.move dst none none).2.fresh := by
  cases h : src.dataBlocks <;> simp [move, h]

theorem move_all_blockSize (src dst : BackedBlockList) :
    (src.move dst none none).2.blockSize = dst.blockSize := by
  cases h : src.dataBlocks <;> simp [move, h]

theorem move_all {src dst : BackedBlockList} (h : Separated bs (dst.dataBlocks ++ src.dataBlocks)) :
    (src.move dst none none).2.dataBlocks = dst.dataBlocks ++ src.dataBlocks := by
  rcases hs : src.dataBlocks with _ | ⟨bb, l⟩
  · simp [move, hs]
  have hp := h.endBlock_le
  rw [hs, List.pairwise_append] at hp
  simp only [move, hs]
  exact splice_of_le fun a ha => BackedBlock.le_endBlock.trans (hp.right.right a ha bb (by simp))

abbrev SparseFile.groups (env : Env) (maxLen fuel : Nat) (s : SparseFile) :
    Option (List (List BackedBlock) × Nat) :=
  Sparse.groups (chunkCount env s.blockSize s.len) s.blockSize (toU32 (maxLen - overhead)) fuel
    s.backedBlockList.fresh s.dataBlocks

abbrev SparseFile.group (env : Env) (maxLen : Nat) (s : SparseFile) : Group :=
  takeGroup (chunkCount env s.blockSize s.len) s.blockSize (toU32 (maxLen - overhead))
    s.backedBlockList.fresh 0 true s.dataBlocks

-- The states between two rounds.
structure SparseFile.Resparse.Valid (env : Env) (r : Resparse) : Prop where
  calloc : env.calloc (i32 r.in_.blockSize)
  pos : 0 < r.in_.blockSize
  addrs : Addrs r.in_.backedBlockList.fresh (r.tmp.dataBlocks ++ r.in_.dataBlocks)
  separated : Separated r.in_.blockSize (r.tmp.dataBlocks ++ r.in_.dataBlocks)

-- What a number of rounds does to the state, given the groups that they move.
structure SparseFile.Resparse.Moves (outCount : Int) (r r' : Resparse)
    (gs : List (List BackedBlock)) : Prop where
  count : r'.count = r.count + gs.length
  tmp   : r'.tmp.dataBlocks = r.tmp.dataBlocks ++ (gs.drop (outCount - r.count).toNat).flatten
  out   : ∃ outs, r'.out = r.out ++ outs ∧
    outs.map (·.dataBlocks) = gs.take (outCount - r.count).toNat ∧
    ∀ s ∈ outs, s.blockSize = r.in_.blockSize ∧ s.len = r.in_.len
  same  : r'.in_.blockSize = r.in_.blockSize ∧ r'.in_.len = r.in_.len

theorem new_blockSize (s : SparseFile) : (new s.blockSize s.len).blockSize = s.blockSize :=
  u32_of_lt s.backedBlockList.blockSize_lt

theorem Addrs.of_sublist (h : Addrs fresh l₂) (hs : l₁.Sublist l₂) : Addrs fresh l₁ where
  nodup := h.nodup.sublist (hs.map _)
  lt    := fun bb hb => h.lt bb (hs.subset hb)

theorem Addrs.mono (h : Addrs fresh l) (hf : fresh ≤ fresh') : Addrs fresh' l where
  nodup := h.nodup
  lt    := fun bb hb => (h.lt bb hb).trans_le hf

theorem Separated.of_sublist (h : Separated bs l₂) (hs : l₁.Sublist l₂) : Separated bs l₁ where
  endBlock_le := h.endBlock_le.sublist hs
  le_max := fun bb hb => h.le_max bb (hs.subset hb)

theorem resparseRound_spec (maxLen : Nat) (outCount : Int) (hv : r.Valid env) :
    let g := r.in_.group env maxLen
    let m := resparseRound env maxLen outCount r
    m.1 = g.more ∧ r.Moves outCount m.2 [g.taken] ∧ m.2.in_.dataBlocks = g.rest ∧
      m.2.in_.backedBlockList.fresh = g.fresh ∧ m.2.Valid env := by
  intro g m
  obtain ⟨hc, hp, ha, hs⟩ := hv
  have hmv : let mv := moveChunksUpToLen env r.in_ (new r.in_.blockSize r.in_.len) maxLen
      mv.1 = g.more ∧ Moved r.in_ (new r.in_.blockSize r.in_.len) mv.2.1 mv.2.2 g :=
    moveChunksUpToLen_spec hc (ha.of_sublist (by simp)) (new_blockSize r.in_) rfl
  have hs' : Separated r.in_.blockSize (r.tmp.dataBlocks ++ (g.taken ++ g.rest)) :=
    ((takeGroup_splits _ 0 true).append_left _).separated hp hs
  have ha' : Addrs g.fresh (r.tmp.dataBlocks ++ (g.taken ++ g.rest)) := takeGroup_addrs _ 0 true ha
  simp only [m, resparseRound]
  generalize moveChunksUpToLen _ _ _ _ = mv at hmv
  clear_value g
  obtain ⟨more, in_, s⟩ := mv
  obtain ⟨hm, hrest, htaken, hfresh, ⟨hbs, hbs'⟩, ⟨hl, hl'⟩⟩ := hmv
  dsimp only at *
  rw [new_blockSize] at hbs'
  split
  case isTrue h =>
    obtain ⟨n, hn⟩ : ∃ n, (outCount - r.count).toNat = n + 1 :=
      ⟨(outCount - r.count - 1).toNat, by omega⟩
    refine ⟨hm, ⟨rfl, ?_, ⟨[s], rfl, ?_, ?_⟩, hbs, hl⟩, hrest, hfresh, ⟨?_, ?_, ?_, ?_⟩⟩
    · simp [hn]
    · simp [hn, htaken]
    · simpa using ⟨hbs', hl'⟩
    · rwa [hbs]
    · rwa [hbs]
    · rw [hrest, hfresh]; exact ha'.of_sublist (by simp)
    · rw [hrest, hbs]; exact hs'.of_sublist (by simp)
  case isFalse h =>
    have hn : (outCount - r.count).toNat = 0 := by omega
    have ht : (s.backedBlockList.move r.tmp.backedBlockList none none).2.dataBlocks =
        r.tmp.dataBlocks ++ g.taken := by
      rw [← htaken] at hs' ⊢
      exact move_all (hs'.of_sublist (by simp))
    refine ⟨hm, ⟨rfl, ?_, ⟨[], by simp, ?_, by simp⟩, hbs, hl⟩, hrest, hfresh, ⟨?_, ?_, ?_, ?_⟩⟩
    · simpa [hn] using ht
    · simp [hn]
    · rwa [hbs]
    · rwa [hbs]
    · rw [hrest, hfresh, SparseFile.dataBlocks, ht, List.append_assoc]; exact ha'
    · rw [hrest, hbs, SparseFile.dataBlocks, ht, List.append_assoc]; exact hs'

theorem SparseFile.Resparse.Moves.append (h₁ : r.Moves outCount r₁ [l])
    (h₂ : r₁.Moves outCount r₂ gs) : r.Moves outCount r₂ (l :: gs) := by
  obtain ⟨hc₁, ht₁, ⟨outs₁, ho₁, hm₁, hs₁⟩, hb₁⟩ := h₁
  obtain ⟨hc₂, ht₂, ⟨outs₂, ho₂, hm₂, hs₂⟩, hb₂⟩ := h₂
  have hn : (outCount - r₁.count).toNat = (outCount - r.count).toNat - 1 := by
    rw [hc₁, List.length_singleton]
    omega
  rw [hn] at ht₂ hm₂
  rw [hb₁.left, hb₁.right] at hs₂ hb₂
  constructor
  case count => rw [hc₂, hc₁, List.length_singleton, List.length_cons]; omega
  case same => exact hb₂
  case tmp =>
    rw [ht₂, ht₁]
    cases (outCount - r.count).toNat <;> simp
  case out =>
    refine ⟨outs₁ ++ outs₂, by rw [ho₂, ho₁, List.append_assoc], ?_, ?_⟩
    · rw [List.map_append, hm₁, hm₂]
      cases (outCount - r.count).toNat <;> simp
    · intro s hs
      exact (List.mem_append.mp hs).elim (hs₁ s) (hs₂ s)

theorem resparseLoop_spec (outCount : Int) (hv : r.Valid env)
    (h : r.in_.groups env maxLen fuel = some (gs, fresh)) :
    ∃ r', resparseLoop env maxLen outCount fuel r = some r' ∧ r.Moves outCount r' gs ∧
      r'.in_.dataBlocks = [] ∧ r'.Valid env := by
  induction fuel generalizing r gs
  case zero => contradiction
  case succ fuel hi =>
    obtain ⟨hm, hr, hrest, hfresh, hv'⟩ := resparseRound_spec maxLen outCount hv
    unfold resparseLoop
    generalize resparseRound _ _ _ _ = m at *
    dsimp only
    rcases groups_eq_some_iff.mp h with ⟨hn, rfl, _⟩ | ⟨hn, gs', hg, rfl⟩
    case inl =>
      rw [hn] at hm
      rw [if_neg (by simp [hm])]
      refine ⟨_, rfl, hr, ?_, hv'⟩
      rw [hrest]
      exact takeGroup_rest_of_not_more _ 0 true hn
    rw [hn] at hm
    rw [if_pos hm]
    have hg : m.2.in_.groups env maxLen fuel = some (gs', fresh) := by
      rw [SparseFile.groups, hr.same.left, hr.same.right, hfresh, hrest]
      exact hg
    obtain ⟨r', hl, hr', he, hv'⟩ := hi hv' hg
    exact ⟨r', hl, hr.append hr', he, hv'⟩

theorem resparseLoop_eq_none (outCount : Int) (hv : r.Valid env) (h : r.in_.groups env maxLen fuel = none) :
    resparseLoop env maxLen outCount fuel r = none := by
  induction fuel generalizing r
  case zero => rfl
  case succ fuel hi =>
    obtain ⟨hm, hr, hrest, hfresh, hv'⟩ := resparseRound_spec maxLen outCount hv
    unfold resparseLoop
    generalize resparseRound _ _ _ _ = m at *
    dsimp only
    simp only [groups, Sparse.groups] at h
    split at h
    case isFalse => contradiction
    case isTrue hn =>
      rw [hn] at hm
      rw [if_pos hm]
      apply hi hv'
      rw [SparseFile.groups, hr.same.left, hr.same.right, hfresh, hrest]
      exact Option.map_eq_none_iff.mp h

-- The files that resparsing works on: their chunks are sorted and do not overlap.
structure SparseFile.Valid (env : Env) (s : SparseFile) : Prop where
  calloc : env.calloc (i32 s.blockSize)
  pos : 0 < s.blockSize
  addrs : Addrs s.backedBlockList.fresh s.dataBlocks
  separated : Separated s.blockSize s.dataBlocks

-- The result of a call that cuts the file into the given groups.
structure SparseFile.Resparsed (outCount : Int) (s : SparseFile) (gs : List (List BackedBlock))
    (n : Nat) (s' : SparseFile) (outs : List SparseFile) : Prop where
  count : n = gs.length
  out   : outs.map (·.dataBlocks) = gs.take outCount.toNat
  rest  : s'.dataBlocks = (gs.drop outCount.toNat).flatten
  same  : ∀ o ∈ s' :: outs, o.blockSize = s.blockSize ∧ o.len = s.len
  addrs : Addrs s'.backedBlockList.fresh s'.dataBlocks

theorem SparseFile.Valid.resparse {s : SparseFile} (hv : s.Valid env) (outCount : Int)
    (h : s.groups env maxLen fuel = some (gs, fresh)) :
    ∃ n s' outs, resparse env fuel s maxLen outCount = some (n, s', outs) ∧
      s.Resparsed outCount gs n s' outs := by
  obtain ⟨hc, hp, ha, hs⟩ := hv
  obtain ⟨r, hl, ⟨hcount, htmp, ⟨outs, hout, hmap, hsame⟩, hb⟩, he, hv'⟩ :=
    resparseLoop_spec outCount (r := ⟨0, s, new s.blockSize s.len, []⟩) ⟨hc, hp, ha, hs⟩ h
  simp only [List.nil_append, zero_add, cast_zero, Int.sub_zero] at hcount hout hmap htmp
  have hm : (r.tmp.backedBlockList.move r.in_.backedBlockList none none).2.dataBlocks =
      r.tmp.dataBlocks := by
    have hi : r.in_.backedBlockList.dataBlocks = [] := he
    have hs : Separated r.in_.blockSize (r.in_.dataBlocks ++ r.tmp.dataBlocks) :=
      hv'.separated.of_sublist (by simp [he])
    rw [move_all hs, hi, List.nil_append]
  refine ⟨_, _, _, by rw [SparseFile.resparse, hl], ?_⟩
  constructor
  case count => exact hcount
  case out => rw [hout]; exact hmap
  case rest => exact hm.trans htmp
  case same =>
    simp only [List.forall_mem_cons, hout]
    exact ⟨⟨(move_all_blockSize ..).trans hb.left, hb.right⟩, hsame⟩
  case addrs =>
    rw [SparseFile.dataBlocks, hm]
    exact (hv'.addrs.of_sublist (by simp)).mono (move_all_fresh ..)

theorem SparseFile.Valid.exists_groups (hv : s.Valid env)
    (h : SparseFile.resparse env fuel s maxLen outCount = some (n, s', outs)) :
    ∃ gs fresh, s.groups env maxLen fuel = some (gs, fresh) ∧ s.Resparsed outCount gs n s' outs := by
  rcases hg : s.groups env maxLen fuel with _ | g
  · obtain ⟨hc, hp, ha, hs⟩ := hv
    have hn := resparseLoop_eq_none outCount (r := ⟨0, s, new s.blockSize s.len, []⟩) ⟨hc, hp, ha, hs⟩ hg
    simp [SparseFile.resparse, hn] at h
  obtain ⟨n', s'', outs', hr, hd⟩ := hv.resparse outCount hg
  rw [hr, Option.some.injEq, Prod.mk.injEq, Prod.mk.injEq] at h
  obtain ⟨rfl, rfl, rfl⟩ := h
  exact ⟨g.1, g.2, rfl, hd⟩

end Loop

end Sparse
