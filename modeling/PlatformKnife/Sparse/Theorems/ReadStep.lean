import PlatformKnife.Sparse.Theorems.Accept

-- A single chunk of an arbitrary file, as it is read.

namespace Sparse

open CInt Bytes BackedBlockList

variable {st st' : ReadState} {fd : Int} {hdr : SparseHeader} {c : ChunkHeader}

-- A chunk that stands for a number of blocks.
def ChunkHeader.HasBlocks (c : ChunkHeader) : Prop :=
  c.chunkType = CHUNK_TYPE_RAW ∨ c.chunkType = CHUNK_TYPE_FILL ∨ c.chunkType = CHUNK_TYPE_DONT_CARE

namespace ReadState

section

variable (st : ReadState)

def header : ChunkHeader :=
  .decode (st.file.rest.take CHUNK_HEADER_LEN)

def atData (hdr : SparseHeader) : ReadState :=
  { st with file := (st.file.seekCur CHUNK_HEADER_LEN).seekCur (hdr.chunkHdrSz - CHUNK_HEADER_LEN) }

def dataSize (hdr : SparseHeader) : Nat :=
  toU32 (st.header.totalSz - hdr.chunkHdrSz)

def newBb (fd : Int) (hdr : SparseHeader) : Option BackedBlock :=
  let file := (st.atData hdr).file
  let len := st.header.chunkSz * st.blockSize
  if st.header.chunkType = CHUNK_TYPE_RAW then
    some (st.backedBlockList.alloc (.fd fd file.pos) (u32 len) st.curBlock)
  else if st.header.chunkType = CHUNK_TYPE_FILL then
    some (st.backedBlockList.alloc (.fill (UInt32.ofNat (fromLe (file.rest.take 4)))) len st.curBlock)
  else
    none

end

def queue (bbl : BackedBlockList) : Option BackedBlock → Except Fault BackedBlockList
  | none => .ok bbl
  | some bb => queueBb { bbl with fresh := bbl.fresh + 1 } bb

-- The size of the next chunk is the one that its type asks for.
def WellSized (st : ReadState) (hdr : SparseHeader) : Prop :=
  if st.header.chunkType = CHUNK_TYPE_RAW then
    st.dataSize hdr % st.blockSize = 0 ∧ st.dataSize hdr / st.blockSize = st.header.chunkSz
  else if st.header.chunkType = CHUNK_TYPE_FILL then
    st.dataSize hdr = 4
  else if st.header.chunkType = CHUNK_TYPE_DONT_CARE then
    st.dataSize hdr = 0
  else
    True

-- The bytes that are read behind the header of a chunk.
def needed (st : ReadState) : Nat :=
  if st.header.chunkType = CHUNK_TYPE_RAW then
    if st.crc32 = none then 0 else u32 (st.header.chunkSz * st.blockSize)
  else if st.header.chunkType = CHUNK_TYPE_FILL then
    4
  else
    0

end ReadState

section Raw

theorem readAll_eq (f : File) (n : Nat) : readAll f n =
    if n ≤ f.rest.length then .ok (f.rest.take n, f.seekCur n) else .error (.errno .einval) := by
  by_cases h : n ≤ f.bytes.length - f.pos <;> simp [readAll, File.read, File.rest, h]

theorem crcRaw_cases (h : len ≤ fuel) (f : File) (crc : UInt32) :
    if len ≤ f.rest.length then ∃ r, crcRaw fuel len f crc = .ok r
    else crcRaw fuel len f crc = .error (.errno .einval) := by
  induction fuel generalizing len f crc
  case zero =>
    obtain rfl := Nat.le_zero.mp h
    exact ⟨_, rfl⟩
  case succ fuel hi =>
    by_cases hz : len = 0
    case pos => simp [crcRaw, hz]
    have hm : 0 < min len COPY_BUF_SIZE := by
      simp only [COPY_BUF_SIZE]
      omega
    have hl : len - min len COPY_BUF_SIZE ≤ fuel := by omega
    simp only [crcRaw, if_neg hz, readAll_eq]
    by_cases hr : min len COPY_BUF_SIZE ≤ f.rest.length
    case neg => rw [if_neg (by omega), if_neg hr]
    have hi := hi hl (f.seekCur (min len COPY_BUF_SIZE))
      (sparseCrc32 crc (f.rest.take (min len COPY_BUF_SIZE)))
    rw [File.seekCur_rest, List.length_drop] at hi
    simp only [if_pos hr]
    have hc : len ≤ f.rest.length ↔
        len - min len COPY_BUF_SIZE ≤ f.rest.length - min len COPY_BUF_SIZE := by omega
    rw [if_congr hc rfl rfl]
    exact hi

end Raw

namespace ReadState

section Simp

@[simp]
theorem atData_backedBlockList : (st.atData hdr).backedBlockList = st.backedBlockList :=
  rfl

@[simp]
theorem atData_curBlock : (st.atData hdr).curBlock = st.curBlock :=
  rfl

@[simp]
theorem atData_crc32 : (st.atData hdr).crc32 = st.crc32 :=
  rfl

@[simp]
theorem atData_blockSize : (st.atData hdr).blockSize = st.blockSize :=
  rfl

end Simp

theorem header_chunkSz_lt : st.header.chunkSz < 2 ^ 32 := by
  refine (fromLe_lt _).trans_le ?_
  rw [show (2 : Nat) ^ 32 = 256 ^ 4 from rfl]
  exact Nat.pow_le_pow_right (by decide) (List.length_take_le ..)

theorem readChunk_eq_processChunk (h : CHUNK_HEADER_LEN ≤ st.file.rest.length) :
    st.readChunk fd hdr =
      ((st.atData hdr).processChunk fd (st.atData hdr).file.pos hdr.chunkHdrSz st.header).map
        (st.header, ·) := by
  simp only [readChunk, readAll_eq, if_pos h]
  split <;> simp_all [atData, header, Except.map]

theorem readChunk_eof (h : ¬CHUNK_HEADER_LEN ≤ st.file.rest.length) :
    st.readChunk fd hdr = .error (.errno .einval) := by
  simp only [readChunk, readAll_eq, if_neg h]

-- The conditions on which a chunk can be read without a fault.
structure NoFault (st : ReadState) (fd : Int) (hdr : SparseHeader) : Prop where
  raw   : st.header.chunkType = CHUNK_TYPE_RAW → st.blockSize ≠ 0
  fill  : st.header.chunkType = CHUNK_TYPE_FILL → st.header.chunkSz * st.blockSize < 2 ^ 63
  skip  : st.header.chunkType = CHUNK_TYPE_DONT_CARE → st.WellSized hdr → st.crc32 ≠ none →
            st.header.chunkSz * st.blockSize < 2 ^ 63
  crc32 : st.header.chunkType = CHUNK_TYPE_CRC32 → st.crc32 ≠ none
  queue : st.WellSized hdr →
            (st.header.chunkType = CHUNK_TYPE_FILL → st.needed ≤ (st.atData hdr).file.rest.length) →
            ∀ bb ∈ st.newBb fd hdr, st.backedBlockList.Accepts bb

-- The conditions on which a chunk that stands for blocks is accepted.
structure Reads (st : ReadState) (hdr : SparseHeader) : Prop where
  sized  : st.WellSized hdr
  needed : st.needed ≤ (st.atData hdr).file.rest.length
  blocks : st.header.chunkSz < 2 ^ 31

-- What can come of a chunk.
inductive Outcome (st : ReadState) (fd : Int) (hdr : SparseHeader) :
    Exec (ChunkHeader × ReadState) → Prop
  | fault (h : ¬st.NoFault fd hdr) : Outcome st fd hdr (.error (.fault f))
  | refused (h : st.NoFault fd hdr) (hr : st.header.HasBlocks → ¬st.Reads hdr) :
    Outcome st fd hdr (.error (.errno e))
  | read {st' : ReadState} (h : st.NoFault fd hdr) (hr : st.header.HasBlocks → st.Reads hdr)
    (hq : queue st.backedBlockList (st.newBb fd hdr) = .ok st'.backedBlockList) :
    Outcome st fd hdr (.ok (st.header, st'))

theorem queue_eq_ok_iff (hs : bbl.Sorted) (bb : BackedBlock) :
    (∃ bbl', queue bbl (some bb) = .ok bbl') ↔ bbl.Accepts bb := by
  have hs' : Sorted { bbl with fresh := bbl.fresh + 1 } := hs
  constructor
  case mp =>
    rintro ⟨bbl', h⟩
    obtain ⟨ha, _⟩ := queueBb_spec hs' h
    exact ⟨ha.unused, ha.cache, ha.types⟩
  case mpr =>
    intro h
    have ha : Accepts { bbl with fresh := bbl.fresh + 1 } bb := ⟨h.unused, h.cache, h.types⟩
    exact ha.queueBb hs'

section Outcome

theorem Outcome.of_queue {r : Exec ReadState} (hs : st.backedBlockList.Sorted)
    (hn : (∀ bb ∈ st.newBb fd hdr, st.backedBlockList.Accepts bb) ↔ st.NoFault fd hdr)
    (herr : ∀ f, queue st.backedBlockList (st.newBb fd hdr) = .error f → r = .error (.fault f))
    (hok : ∀ bbl, queue st.backedBlockList (st.newBb fd hdr) = .ok bbl →
      (∃ st', r = .ok st' ∧ st'.backedBlockList = bbl ∧ st.Reads hdr) ∨
      (∃ e, r = .error (.errno e)) ∧ ¬st.Reads hdr) :
    st.Outcome fd hdr (r.map (st.header, ·)) := by
  have hq' : (∃ bbl, queue st.backedBlockList (st.newBb fd hdr) = .ok bbl) ↔ st.NoFault fd hdr := by
    rw [← hn]
    cases st.newBb fd hdr
    case none => simp [queue]
    case some bb => simpa using queue_eq_ok_iff hs bb
  cases hq : queue st.backedBlockList (st.newBb fd hdr)
  case error f =>
    rw [herr f hq]
    exact .fault fun hn => by simpa [hq] using hq'.mpr hn
  case ok bbl =>
    have hn := hq'.mp ⟨bbl, hq⟩
    rcases hok bbl hq with ⟨st', rfl, rfl, hr⟩ | ⟨⟨e, rfl⟩, hr⟩
    case inl => exact .read hn (fun _ => hr) hq
    case inr => exact .refused hn (fun _ => hr)

theorem advance_cases (st' : ReadState) (n : Nat) (h : n < 2 ^ 32) :
    (∃ st'', st'.advance n = .ok st'' ∧ st''.backedBlockList = st'.backedBlockList ∧ n < 2 ^ 31) ∨
      (∃ e, st'.advance n = .error (.errno e)) ∧ ¬n < 2 ^ 31 := by
  rw [advance_eq h]
  by_cases hn : n < 2 ^ 31
  case pos => exact .inl ⟨_, if_pos hn, rfl, hn⟩
  case neg => exact .inr ⟨⟨_, if_neg hn⟩, hn⟩

variable (hs : st.backedBlockList.Sorted) (h : CHUNK_HEADER_LEN ≤ st.file.rest.length)

include hs h

theorem outcome_raw (ht : st.header.chunkType = CHUNK_TYPE_RAW) :
    st.Outcome fd hdr (st.readChunk fd hdr) := by
  have hwell : st.WellSized hdr ↔ st.dataSize hdr % st.blockSize = 0 ∧
      st.dataSize hdr / st.blockSize = st.header.chunkSz := by rw [WellSized, if_pos ht]
  have hneed : st.needed = if st.crc32 = none then 0 else u32 (st.header.chunkSz * st.blockSize) :=
    if_pos ht
  have hnew : st.newBb fd hdr = some (st.backedBlockList.alloc (.fd fd (st.atData hdr).file.pos)
    (u32 (st.header.chunkSz * st.blockSize)) st.curBlock) := if_pos ht
  -- The conditions for other types do not matter.
  have noFault (hb : st.blockSize ≠ 0) : (st.WellSized hdr →
      ∀ bb ∈ st.newBb fd hdr, st.backedBlockList.Accepts bb) ↔ st.NoFault fd hdr := by
    constructor
    case mpr => exact fun hn hw => hn.queue hw (fun ht' => by rw [ht] at ht'; cases ht')
    case mp =>
      refine fun hq => ⟨fun _ => hb, ?_, ?_, ?_, fun hw _ => hq hw⟩
      all_goals
        intro ht'
        rw [ht] at ht'
        cases ht'
  rw [readChunk_eq_processChunk h, processChunk, if_pos ht, processRawChunk]
  by_cases hb : st.blockSize = 0
  case pos =>
    rw [if_pos (by exact hb)]
    exact .fault fun hn => hn.raw ht hb
  rw [if_neg (by exact hb)]
  by_cases h₁ : st.dataSize hdr % st.blockSize = 0
  case neg =>
    have hw : ¬st.WellSized hdr := fun hw => h₁ (hwell.mp hw).left
    rw [if_pos (by exact h₁)]
    exact .refused ((noFault hb).mp fun hw' => absurd hw' hw) fun _ hr => hw hr.sized
  rw [if_neg (by exact not_not.mpr h₁)]
  by_cases h₂ : st.dataSize hdr / st.blockSize = st.header.chunkSz
  case neg =>
    have hw : ¬st.WellSized hdr := fun hw => h₂ (hwell.mp hw).right
    rw [if_pos (by exact h₂)]
    exact .refused ((noFault hb).mp fun hw' => absurd hw' hw) fun _ hr => hw hr.sized
  have hw := hwell.mpr ⟨h₁, h₂⟩
  rw [if_neg (by exact not_not.mpr h₂)]
  have hadd : st.backedBlockList.addFd fd (st.atData hdr).file.pos
      (u32 (st.header.chunkSz * st.blockSize)) st.curBlock =
      queue st.backedBlockList (st.newBb fd hdr) := by rw [hnew]; rfl
  have hreads : st.Reads hdr ↔ st.needed ≤ (st.atData hdr).file.rest.length ∧
      st.header.chunkSz < 2 ^ 31 := ⟨fun hr => ⟨hr.needed, hr.blocks⟩, fun hr => ⟨hw, hr.left, hr.right⟩⟩
  refine Outcome.of_queue hs ((forall_prop_of_true hw).symm.trans (noFault hb)) ?err ?ok
  case err =>
    intro f hq
    simp only [atData_backedBlockList, atData_curBlock, atData_blockSize, hadd.trans hq]
  case ok =>
    intro bbl hq
    have hsz : st.header.chunkSz < 2 ^ 32 := header_chunkSz_lt
    simp only [atData_backedBlockList, atData_curBlock, atData_blockSize, atData_crc32,
      hadd.trans hq, hreads, hneed]
    rcases hc : st.crc32 with _ | crc
    · simpa using advance_cases _ _ hsz
    have hraw := crcRaw_cases (le_refl (u32 (st.header.chunkSz * st.blockSize))) (st.atData hdr).file crc
    by_cases hl : u32 (st.header.chunkSz * st.blockSize) ≤ (st.atData hdr).file.rest.length
    case pos =>
      obtain ⟨⟨file, crc'⟩, hraw⟩ := if_pos hl ▸ hraw
      simpa [hraw, hl] using advance_cases _ _ hsz
    rw [if_neg hl] at hraw
    simp [hraw, hl]

theorem outcome_fill (ht : st.header.chunkType = CHUNK_TYPE_FILL) :
    st.Outcome fd hdr (st.readChunk fd hdr) := by
  have hr : ¬st.header.chunkType = CHUNK_TYPE_RAW := by rw [ht]; decide
  have hwell : st.WellSized hdr ↔ st.dataSize hdr = 4 := by rw [WellSized, if_neg hr, if_pos ht]
  have hneed : st.needed = 4 := by rw [needed, if_neg hr, if_pos ht]
  have hnew : st.newBb fd hdr = some (st.backedBlockList.alloc
      (.fill (UInt32.ofNat (fromLe ((st.atData hdr).file.rest.take 4))))
      (st.header.chunkSz * st.blockSize) st.curBlock) := by
    rw [newBb]
    simp only [if_neg hr, if_pos ht]
  have noFault (hb : st.header.chunkSz * st.blockSize < 2 ^ 63) : (st.WellSized hdr →
      st.needed ≤ (st.atData hdr).file.rest.length →
      ∀ bb ∈ st.newBb fd hdr, st.backedBlockList.Accepts bb) ↔ st.NoFault fd hdr := by
    constructor
    case mpr => exact fun hn hw hl => hn.queue hw fun _ => hl
    case mp =>
      refine fun hq => ⟨?_, fun _ => hb, ?_, ?_, fun hw hl => hq hw (hl ht)⟩
      all_goals
        intro ht'
        rw [ht] at ht'
        cases ht'
  rw [readChunk_eq_processChunk h, processChunk, if_neg hr, if_pos ht, processFillChunk]
  by_cases hb : 2 ^ 63 ≤ st.header.chunkSz * st.blockSize
  case pos =>
    rw [if_pos (by exact hb)]
    exact .fault fun hn => not_lt.mpr hb (hn.fill ht)
  rw [if_neg (by exact hb)]
  have hb := not_le.mp hb
  by_cases hw : st.dataSize hdr = 4
  case neg =>
    rw [if_pos (by exact hw)]
    exact .refused ((noFault hb).mp fun hw' => absurd (hwell.mp hw') hw) fun _ hr => hw (hwell.mp hr.sized)
  rw [if_neg (by exact not_not.mpr hw), readAll_eq]
  by_cases hl : 4 ≤ (st.atData hdr).file.rest.length
  case neg =>
    rw [if_neg hl]
    exact .refused ((noFault hb).mp fun _ hl' => absurd (hneed ▸ hl') hl)
      fun _ hr => hl (hneed ▸ hr.needed)
  have hadd : st.backedBlockList.addFill (UInt32.ofNat (fromLe ((st.atData hdr).file.rest.take 4)))
      (st.header.chunkSz * st.blockSize) st.curBlock =
      queue st.backedBlockList (st.newBb fd hdr) := by rw [hnew]; rfl
  have hreads : st.Reads hdr ↔ st.header.chunkSz < 2 ^ 31 :=
    ⟨Reads.blocks, fun hr => ⟨hwell.mpr hw, hneed ▸ hl, hr⟩⟩
  have hn := (noFault hb)
  rw [forall_prop_of_true (hwell.mpr hw), forall_prop_of_true (hneed ▸ hl)] at hn
  rw [if_pos hl]
  refine Outcome.of_queue hs hn ?err ?ok
  case err =>
    intro f hq
    simp only [atData_backedBlockList, atData_curBlock, atData_blockSize, hadd.trans hq]
  case ok =>
    intro bbl hq
    simp only [atData_backedBlockList, atData_curBlock, atData_blockSize, hadd.trans hq, hreads]
    simpa using advance_cases _ _ header_chunkSz_lt

theorem outcome_skip (ht : st.header.chunkType = CHUNK_TYPE_DONT_CARE) :
    st.Outcome fd hdr (st.readChunk fd hdr) := by
  have hr : ¬st.header.chunkType = CHUNK_TYPE_RAW := by rw [ht]; decide
  have hf : ¬st.header.chunkType = CHUNK_TYPE_FILL := by rw [ht]; decide
  have hwell : st.WellSized hdr ↔ st.dataSize hdr = 0 := by
    rw [WellSized, if_neg hr, if_neg hf, if_pos ht]
  have hneed : st.needed = 0 := by rw [needed, if_neg hr, if_neg hf]
  have hnew : st.newBb fd hdr = none := by
    rw [newBb]
    simp only [if_neg hr, if_neg hf]
  have noFault : (st.WellSized hdr → st.crc32 ≠ none → st.header.chunkSz * st.blockSize < 2 ^ 63) ↔
      st.NoFault fd hdr := by
    constructor
    case mpr => exact fun hn => hn.skip ht
    case mp =>
      refine fun hq => ⟨?_, ?_, fun _ => hq, ?_, by simp [hnew]⟩
      all_goals
        intro ht'
        rw [ht] at ht'
        cases ht'
  rw [readChunk_eq_processChunk h, processChunk, if_neg hr, if_neg hf, if_pos ht, processSkipChunk]
  by_cases hw : st.dataSize hdr = 0
  case neg =>
    rw [if_pos (by exact hw)]
    exact .refused (noFault.mp fun hw' => absurd (hwell.mp hw') hw) fun _ hr => hw (hwell.mp hr.sized)
  have hreads : st.Reads hdr ↔ st.header.chunkSz < 2 ^ 31 :=
    ⟨Reads.blocks, fun hr => ⟨hwell.mpr hw, hneed ▸ Nat.zero_le _, hr⟩⟩
  rw [if_neg (by exact not_not.mpr hw)]
  rw [forall_prop_of_true (hwell.mpr hw)] at noFault
  by_cases hb : st.crc32 ≠ none ∧ 2 ^ 63 ≤ st.header.chunkSz * st.blockSize
  case pos =>
    obtain ⟨crc, hc⟩ := Option.ne_none_iff_exists'.mp hb.left
    simp only [atData_crc32, hc]
    rw [if_pos (by exact hb.right)]
    exact .fault fun hn => not_lt.mpr hb.right (noFault.mpr hn hb.left)
  have hn := noFault.mp fun hc => not_le.mp fun hl => hb ⟨hc, hl⟩
  refine Outcome.of_queue hs (by simp [hnew, hn]) (by simp [hnew, queue]) fun bbl hq => ?_
  obtain rfl : st.backedBlockList = bbl := by simpa [hnew, queue] using hq
  rw [hreads]
  rcases hc : st.crc32 with _ | crc
  · simpa [hc] using advance_cases (st.atData hdr) _ header_chunkSz_lt
  have hl : ¬2 ^ 63 ≤ st.header.chunkSz * st.blockSize := fun hl => hb ⟨by simp [hc], hl⟩
  simp only [atData_crc32, hc]
  rw [if_neg (by exact hl)]
  exact advance_cases _ _ header_chunkSz_lt

omit hs in
theorem outcome_other (ht : ¬st.header.HasBlocks) : st.Outcome fd hdr (st.readChunk fd hdr) := by
  simp only [ChunkHeader.HasBlocks, not_or] at ht
  obtain ⟨hr, hf, hd⟩ := ht
  have hnew : st.newBb fd hdr = none := by
    rw [newBb]
    simp only [if_neg hr, if_neg hf]
  have noFault (hc : st.header.chunkType = CHUNK_TYPE_CRC32 → st.crc32 ≠ none) : st.NoFault fd hdr :=
    ⟨fun h => absurd h hr, fun h => absurd h hf, fun h => absurd h hd, hc, by simp [hnew]⟩
  have none (h : st.header.HasBlocks) : False := by
    simp only [ChunkHeader.HasBlocks] at h
    tauto
  rw [readChunk_eq_processChunk h, processChunk, if_neg hr, if_neg hf, if_neg hd]
  split
  case isTrue hc =>
    rcases hcrc : st.crc32 with _ | crc
    · simp only [atData_crc32, hcrc]
      exact .fault fun hn => hn.crc32 hc hcrc
    have hn := noFault fun _ => by simp [hcrc]
    have refused (e : Errno) : st.Outcome fd hdr (.error (.errno e)) :=
      .refused hn fun h => (none h).elim
    simp only [atData_crc32, hcrc, processCrc32Chunk, readAll_eq]
    split
    case isTrue => exact refused _
    by_cases hl : 4 ≤ (st.atData hdr).file.rest.length
    case neg => rw [if_neg hl]; exact refused _
    rw [if_pos hl]
    dsimp only
    split
    case isTrue  => exact refused _
    case isFalse => exact .read hn (fun h => (none h).elim) (by simp [hnew, queue])
  case isFalse hc =>
    exact .read (noFault fun h => absurd h hc) (fun h => (none h).elim) (by simp [hnew, queue])

theorem readChunk_outcome : st.Outcome fd hdr (st.readChunk fd hdr) := by
  by_cases hr : st.header.chunkType = CHUNK_TYPE_RAW
  case pos => exact outcome_raw hs h hr
  by_cases hf : st.header.chunkType = CHUNK_TYPE_FILL
  case pos => exact outcome_fill hs h hf
  by_cases hd : st.header.chunkType = CHUNK_TYPE_DONT_CARE
  case pos => exact outcome_skip hs h hd
  case neg => exact outcome_other h (by simp [ChunkHeader.HasBlocks, hr, hf, hd])

end Outcome

section Run

theorem readChunk_eq_ok (hs : st.backedBlockList.Sorted) (h : st.readChunk fd hdr = .ok (c, st')) :
    c = st.header ∧ (st.header.HasBlocks → st.Reads hdr) ∧ st.NoFault fd hdr ∧
      queue st.backedBlockList (st.newBb fd hdr) = .ok st'.backedBlockList := by
  by_cases hl : CHUNK_HEADER_LEN ≤ st.file.rest.length
  case neg => simp [readChunk_eof hl] at h
  have ho := @readChunk_outcome st fd hdr hs hl
  rw [h] at ho
  cases ho
  case read hn hr hq => exact ⟨rfl, hr, hn, hq⟩

theorem queue_sorted (hs : bbl.Sorted)
    (h : queue bbl o = .ok bbl') : bbl'.Sorted ∧ bbl'.blockSize = bbl.blockSize := by
  obtain _ | bb := o
  · cases h; exact ⟨hs, rfl⟩
  have hs' : Sorted { bbl with fresh := bbl.fresh + 1 } := hs
  have hb := @queueBb_blockSize { bbl with fresh := bbl.fresh + 1 } _ _ h
  exact ⟨(queueBb_spec hs' h).right.sorted hs', hb⟩

theorem readChunk_sorted (hs : st.backedBlockList.Sorted) (h : st.readChunk fd hdr = .ok (c, st')) :
    st'.backedBlockList.Sorted ∧ st'.blockSize = st.blockSize :=
  queue_sorted hs (readChunk_eq_ok hs h).right.right.right

-- Each chunk of a file is read in a state that satisfies `p`.
def Along (p : ReadState → Prop) (fd : Int) (hdr : SparseHeader) : Nat → ReadState → Prop
  | 0, _ => True
  | n + 1, st => p st ∧ ∀ c st', st.readChunk fd hdr = .ok (c, st') → Along p fd hdr n st'

end Run

end ReadState

section File

def fileHdr (d : List UInt8) : SparseHeader :=
  .decode (d.take SPARSE_HEADER_LEN)

def fileStart (s : SparseFile) (d : List UInt8) (crc : Bool) : ReadState :=
  s.readStart ⟨d, SPARSE_HEADER_LEN⟩ (fileHdr d) crc

theorem readSparse_eq (s : SparseFile) (d : List UInt8) (crc : Bool) :
    s.readSparse fd ⟨d, 0⟩ crc =
      if SPARSE_HEADER_LEN ≤ d.length ∧ (fileHdr d).Valid then
        match (fileStart s d crc).readChunks fd (fileHdr d) (fileHdr d).totalChunks with
        | .error e => .error e
        | .ok st =>
          if (fileHdr d).totalBlks ≠ st.curBlock
          then .error (.errno .einval)
          else .ok { s with backedBlockList := st.backedBlockList }
      else
        .error (.errno .einval) := by
  have hrest : File.rest ⟨d, 0⟩ = d := rfl
  simp only [SparseFile.readSparse, readAll_eq, hrest]
  by_cases hl : SPARSE_HEADER_LEN ≤ d.length
  case neg => simp [hl]
  simp only [hl, true_and]
  rfl

end File

end Sparse
