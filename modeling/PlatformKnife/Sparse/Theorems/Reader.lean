import PlatformKnife.Sparse.Theorems.Append
import PlatformKnife.Sparse.Theorems.Writer

-- Reading a file in the sparse format makes one call for each chunk with contents.

namespace Sparse

open Bytes CInt List Option File Call BackedBlockList Exec Except Chunk SparseFile ReadState

variable {bs fuel pos cur n : Nat} {fd : Int} {c : Chunk} {cs : List Chunk} {d r : List UInt8}
variable {f : File} {crc : UInt32} {st st' : ReadState} {hdr : SparseHeader}

section Checksum

theorem readAll_of_rest_eq (h : f.rest = d ++ r) : readAll f d.length = .ok (d, f.seekCur d.length) := by
  rw [readAll, read_of_rest_eq h]

theorem crcRaw_eq (h : f.rest = d ++ r) (hf : d.length ≤ fuel) :
    crcRaw fuel d.length f crc = .ok (f.seekCur d.length, sparseCrc32 crc d) := by
  induction fuel generalizing d f crc
  case zero =>
    obtain rfl := length_eq_zero_iff.mp (Nat.le_zero.mp hf)
    rw [crcRaw, sparseCrc32_nil]
    rfl
  case succ fuel hi =>
    rw [crcRaw]
    split
    case isTrue h₀ =>
      obtain rfl := length_eq_zero_iff.mp h₀
      rw [sparseCrc32_nil]
      rfl
    case isFalse h₀ =>
      have hl : (d.take COPY_BUF_SIZE).length = min d.length COPY_BUF_SIZE := by
        rw [length_take, Nat.min_comm]
      have hd : d.length - (d.take COPY_BUF_SIZE).length = (d.drop COPY_BUF_SIZE).length := by
        rw [hl, length_drop]
        omega
      have h₁ : f.rest = d.take COPY_BUF_SIZE ++ (d.drop COPY_BUF_SIZE ++ r) := by
        rw [h, ← append_assoc, take_append_drop]
      have h₂ : (f.seekCur (d.take COPY_BUF_SIZE).length).rest = d.drop COPY_BUF_SIZE ++ r := by
        rw [seekCur_rest, h₁, drop_left]
      have hle : (d.drop COPY_BUF_SIZE).length ≤ fuel := by
        rw [length_drop, COPY_BUF_SIZE]
        omega
      rw [← hl, readAll_of_rest_eq h₁]
      dsimp only
      rw [hd, hi h₂ hle, ← sparseCrc32_append, take_append_drop, seekCur_seekCur,
        ← length_append, take_append_drop]

theorem crcCopyBuf_eq (h : ∀ i, buf (COPY_BUF_SIZE + i) = buf i) (hf : n ≤ fuel) :
    crcCopyBuf buf fuel n crc = sparseCrc32 crc (ofPtr buf n) := by
  induction fuel generalizing n crc
  case zero =>
    obtain rfl := Nat.le_zero.mp hf
    rw [crcCopyBuf, ofPtr_zero, sparseCrc32_nil]
  case succ fuel hi =>
    rw [crcCopyBuf]
    split
    case isTrue h₀ => rw [h₀, ofPtr_zero, sparseCrc32_nil]
    case isFalse h₀ =>
      dsimp only
      rw [hi (by rw [COPY_BUF_SIZE]; omega), ← sparseCrc32_append]
      by_cases hn : n ≤ COPY_BUF_SIZE
      case pos => rw [min_eq_left hn, Nat.sub_self, ofPtr_zero, append_nil]
      have hp : ofPtr buf (n - COPY_BUF_SIZE) =
          ofPtr (fun i => buf (COPY_BUF_SIZE + i)) (n - COPY_BUF_SIZE) :=
        ofPtr_congr fun i _ => (h i).symm
      rw [min_eq_right (Nat.le_of_not_le hn), hp, ← ofPtr_add, Nat.add_sub_of_le (Nat.le_of_not_le hn)]

theorem fillByte_add (h : 4 ∣ n) (val : UInt32) (i : Nat) : fillByte val (n + i) = fillByte val i := by
  rw [fillByte, fillByte, Nat.add_mod, Nat.mod_eq_zero_of_dvd h, zero_add, Nat.mod_mod]

end Checksum

def Chunk.call (fd : Int) (bs pos cur : Nat) : Chunk → Option Call
  | raw data => some (.addFd fd (pos + CHUNK_HEADER_LEN) (.ofNat data.length) (.ofNat cur))
  | fill val blocks => some (.addFill val (.ofNat (blocks * bs)) (.ofNat cur))
  | skip _ => none
  | crc32 _ => none

theorem addFd_eq_apply (bbl : BackedBlockList) (fd : Int) (offset len block : Nat) :
    bbl.addFd fd offset len block = (Call.addFd fd offset (.ofNat len) (.ofNat block)).apply bbl := by
  have h : bbl.alloc (.fd fd offset) len block = bbl.alloc (.fd fd offset) (u32 len) (u32 block) := by
    ext1 <;> simp [BackedBlockList.alloc]
  rw [BackedBlockList.addFd, BackedBlockList.add, h]
  rfl

theorem addFill_eq_apply (bbl : BackedBlockList) (val : UInt32) (len block : Nat) :
    bbl.addFill val len block = (Call.addFill val (.ofNat len) (.ofNat block)).apply bbl := by
  have h : bbl.alloc (.fill val) len block = bbl.alloc (.fill val) (u32 len) (u32 block) := by
    ext1 <;> simp [BackedBlockList.alloc]
  rw [BackedBlockList.addFill, BackedBlockList.add, h]
  rfl

namespace ReadState

def after (st : ReadState) (bs : Nat) (c : Chunk) (bbl : BackedBlockList) : ReadState where
  file := st.file.seekCur (c.encode bs).length
  backedBlockList := bbl
  curBlock := u32 (st.curBlock + c.size bs)
  crc32 := st.crc32.map (sparseCrc32 · (c.expand bs))

-- What reading a chunk with contents comes down to.
def readCall (st : ReadState) (fd : Int) (bs : Nat) (c : Chunk) : Exec ReadState :=
  match st.backedBlockList.run (c.call fd bs st.file.pos st.curBlock).toList with
  | .error f => .error (.fault f)
  | .ok bbl  => if c.size bs < 2 ^ 31 then .ok (st.after bs c bbl) else .error (.errno .einval)

theorem run_singleton (bbl : BackedBlockList) (c : Call) : bbl.run [c] = c.apply bbl := by
  simp only [BackedBlockList.run]
  split <;> simp_all

theorem advance_eq (h : n < 2 ^ 32) : st.advance n =
    if n < 2 ^ 31 then .ok { st with curBlock := u32 (st.curBlock + n) } else .error (.errno .einval) := by
  rw [advance]
  split
  case isTrue hn =>
    rw [if_neg]
    intro hlt
    rw [i32_of_lt hlt] at hn
    omega
  case isFalse hn => rw [if_pos (lt_of_i32_nonneg h (Int.not_lt.mp hn))]

section Step

theorem dataSize_eq (h : n < 2 ^ 32) :
    toU32 ((u32 (CHUNK_HEADER_LEN + n) : Int) - CHUNK_HEADER_LEN) = n := by
  simp only [toU32, u32, CHUNK_HEADER_LEN]
  omega

variable (hb : st.blockSize = bs) (h₀ : 0 < bs)

include hb

include h₀ in
theorem processRawChunk_eq (hn : n * bs = d.length) (hd : d.length < 2 ^ 32) (hf : st.file.rest = d ++ r) :
    st.processRawChunk fd d.length pos n cur =
      (ofFault ((addFd fd pos (.ofNat d.length) (.ofNat cur)).apply st.backedBlockList)).map
        fun bbl => { st with
          file := st.file.seekCur d.length
          backedBlockList := bbl
          crc32 := st.crc32.map (sparseCrc32 · d)
        } := by
  have hm : d.length % st.blockSize = 0 := by rw [hb, ← hn, Nat.mul_mod_left]
  have hq : d.length / st.blockSize = n := by rw [hb, ← hn, Nat.mul_div_cancel _ h₀]
  have hl : u32 (n * st.blockSize) = d.length := by rw [hb, hn, u32_of_lt hd]
  simp only [processRawChunk, hl, hm, hq, ne_eq, not_true_eq_false, if_false, addFd_eq_apply]
  rw [if_neg (by omega)]
  cases (addFd fd pos (.ofNat d.length) (.ofNat cur)).apply st.backedBlockList
  case error => rfl
  case ok bbl =>
    cases hc : st.crc32
    case none => simp only [Exec.ofFault, Except.map, map_none]
    case some crc =>
      simp only [crcRaw_eq hf (le_refl _), Exec.ofFault, Except.map, map_some]

theorem processFillChunk_eq (hn : n * bs < 2 ^ 63) (hf : st.file.rest = le 4 val.toNat ++ r) :
    st.processFillChunk 4 n cur =
      (ofFault ((addFill val (.ofNat (n * bs)) (.ofNat cur)).apply st.backedBlockList)).map
        fun bbl => { st with
          file := st.file.seekCur 4
          backedBlockList := bbl
          crc32 := st.crc32.map (sparseCrc32 · (ofPtr (fillByte val) (n * bs)))
        } := by
  have hr : readAll st.file 4 = .ok (le 4 val.toNat, st.file.seekCur 4) := by
    have := readAll_of_rest_eq hf
    rwa [le_length] at this
  simp only [processFillChunk, hb, if_neg (not_le.mpr hn), ne_eq, not_true_eq_false, if_false, hr,
    fromLe_le_toNat, addFill_eq_apply]
  cases (addFill val (.ofNat (n * bs)) (.ofNat cur)).apply st.backedBlockList
  case error => rfl
  case ok =>
    simp only [crcCopyBuf_eq (fillByte_add (by decide) val) (le_refl _), Exec.ofFault, Except.map]

theorem processSkipChunk_eq (hn : n * bs < 2 ^ 63) :
    st.processSkipChunk 0 n =
      .ok { st with crc32 := st.crc32.map (sparseCrc32 · (replicate (n * bs) 0)) } := by
  have hz (crc : UInt32) : crcCopyBuf (fun _ => 0) (n * bs) (n * bs) crc =
      sparseCrc32 crc (replicate (n * bs) 0) := by
    rw [crcCopyBuf_eq (fun _ => rfl) (le_refl _)]
    exact congrArg _ (OutputFile.ofPtr_zeroBuf _)
  obtain ⟨_, _, _, crc⟩ := st
  simp only [processSkipChunk, hb, ne_eq, not_true_eq_false, if_false, if_neg (not_le.mpr hn), hz]
  cases crc <;> rfl

include h₀ in
theorem processChunk_eq (hv : c.Valid bs) (hc : ∀ crc, c ≠ .crc32 crc) (hbs : bs < 2 ^ 31)
    (hf : st.file.rest = c.payload ++ r) :
    st.processChunk fd (pos + CHUNK_HEADER_LEN) CHUNK_HEADER_LEN (c.readHeader bs) =
      match ofFault (st.backedBlockList.run (c.call fd bs pos st.curBlock).toList) with
      | .error e => .error e
      | .ok bbl  =>
        if c.size bs < 2 ^ 31
        then .ok {
          file := st.file.seekCur c.payload.length
          backedBlockList := bbl
          curBlock := u32 (st.curBlock + c.size bs)
          crc32 := st.crc32.map (sparseCrc32 · (c.expand bs))
        }
        else .error (.errno .einval) := by
  have hs := u32_of_lt hv.size_lt
  have hlt : c.size bs * bs < 2 ^ 63 :=
    (Nat.mul_lt_mul_of_lt_of_le hv.size_lt hbs.le (by decide)).trans_eq (by decide)
  cases c
  case crc32 crc => exact absurd rfl (hc crc)
  case raw d =>
    have hw := hv.whole d rfl
    have hl := hv.len_lt d rfl
    simp only [readHeader, payload, type, processChunk, dataSize_eq hl, if_true, hs]
    rw [processRawChunk_eq hb h₀ hw hl hf, call, toList_some, run_singleton]
    cases ofFault ((addFd fd _ _ _).apply st.backedBlockList)
    case error => rfl
    case ok => exact advance_eq hv.size_lt
  case fill v n =>
    simp only [size] at hs hlt
    simp only [readHeader, payload, type, size, processChunk, le_length,
      dataSize_eq (by decide : 4 < 2 ^ 32), hs]
    rw [if_neg (by decide), if_pos trivial, processFillChunk_eq hb hlt hf, call,
      toList_some, run_singleton]
    cases Exec.ofFault ((Call.addFill _ _ _).apply st.backedBlockList)
    case error => rfl
    case ok => exact advance_eq hv.size_lt
  case skip n =>
    simp only [readHeader, payload, type, processChunk, length_nil,
      dataSize_eq (by decide : 0 < 2 ^ 32), hs]
    rw [if_neg (by decide), if_neg (by decide), if_pos trivial, processSkipChunk_eq hb hlt]
    exact advance_eq hv.size_lt

omit hb in
theorem readChunk_eq (fd : Int) (hh : hdr.chunkHdrSz = CHUNK_HEADER_LEN)
    (hf : st.file.rest = c.encode bs ++ r) :
    (st.file.seekCur CHUNK_HEADER_LEN).rest = c.payload ++ r ∧
    st.readChunk fd hdr =
      (processChunk { st with file := st.file.seekCur CHUNK_HEADER_LEN } fd
        (st.file.pos + CHUNK_HEADER_LEN) CHUNK_HEADER_LEN (c.readHeader bs)).map
        (c.readHeader bs, ·) := by
  rw [encode, append_assoc] at hf
  have hl : (c.header bs).encode.length = CHUNK_HEADER_LEN := ChunkHeader.encode_length _
  have hr := readAll_of_rest_eq hf
  rw [hl] at hr
  have hd : ChunkHeader.decode (c.header bs).encode = c.readHeader bs := by
    rw [← append_nil (c.header bs).encode, header_decode]
  have hz : (st.file.seekCur CHUNK_HEADER_LEN).seekCur 0 = st.file.seekCur CHUNK_HEADER_LEN := rfl
  constructor
  case left  => rw [seekCur_rest, hf, ← hl, drop_left]
  case right =>
    simp only [readChunk, hr, hh, Nat.sub_self, hd, hz, seekCur_pos]
    cases processChunk { st with file := st.file.seekCur CHUNK_HEADER_LEN } fd
      (st.file.pos + CHUNK_HEADER_LEN) CHUNK_HEADER_LEN (c.readHeader bs) <;> rfl

include h₀ in
theorem readChunk_encode (hv : c.Valid bs) (hc : ∀ crc, c ≠ .crc32 crc) (hbs : bs < 2 ^ 31)
    (hh : hdr.chunkHdrSz = CHUNK_HEADER_LEN) (hf : st.file.rest = c.encode bs ++ r) :
    st.readChunk fd hdr = (st.readCall fd bs c).map (c.readHeader bs, ·) := by
  obtain ⟨hf', hr⟩ := readChunk_eq fd hh hf
  rw [hr, processChunk_eq (by exact hb) h₀ hv hc hbs (by exact hf'), readCall]
  cases st.backedBlockList.run (c.call fd bs st.file.pos st.curBlock).toList
  case error  => rfl
  case ok bbl =>
    simp only [ofFault, after, encode_length, seekCur_seekCur]

omit hb in
theorem readChunk_crc32 (hh : hdr.chunkHdrSz = CHUNK_HEADER_LEN)
    (hf : st.file.rest = (Chunk.crc32 v).encode bs ++ r) (hcrc : st.crc32 = some crc) :
    st.readChunk fd hdr = if v = crc
      then .ok ((Chunk.crc32 v).readHeader bs, { st with file := st.file.seekCur 16 })
      else .error (.errno .einval) := by
  obtain ⟨hf', hr⟩ := readChunk_eq fd hh hf
  have hr' : readAll (st.file.seekCur CHUNK_HEADER_LEN) 4 = .ok (le 4 v.toNat, st.file.seekCur 16) := by
    have := readAll_of_rest_eq hf'
    rwa [Chunk.payload, le_length] at this
  rw [hr]
  simp only [processChunk, Chunk.readHeader, Chunk.type, Chunk.payload, le_length,
    dataSize_eq (by decide : 4 < 2 ^ 32), hcrc, processCrc32Chunk, hr', Chunk.fromLe_le_toNat]
  rw [if_neg (by decide), if_neg (by decide), if_neg (by decide), if_pos trivial, if_neg (by decide)]
  by_cases hv : v = crc
  case pos => simp only [hv, ne_eq, not_true_eq_false, if_false, if_true, Except.map]
  case neg => simp only [hv, ne_eq, not_false_eq_true, if_false, if_true, Except.map]

end Step

end ReadState

def readCalls (fd : Int) (bs : Nat) : (pos cur : Nat) → List Chunk → List Call
  | _, _, [] => []
  | pos, cur, c :: cs =>
    (c.call fd bs pos cur).toList ++
      readCalls fd bs (pos + (c.encode bs).length) (u32 (cur + c.size bs)) cs

section

variable {bbl bbl' : BackedBlockList}

theorem BackedBlockList.run_append_eq_ok_iff : bbl.run (calls ++ calls') = .ok bbl' ↔
      ∃ bbl'', bbl.run calls = .ok bbl'' ∧ bbl''.run calls' = .ok bbl' := by
  cases h : bbl.run calls
  case error => simp [run_append_error h]
  case ok => simp [run_append h]

theorem BackedBlockList.queueBb_blockSize
    (h : bbl.queueBb newBb = .ok bbl') : bbl'.blockSize = bbl.blockSize := by
  unfold queueBb at h
  split at h
  · cases h; rfl
  · split at h
    case isTrue => cases h; rfl
    case isFalse =>
      split at h
      · cases h
      · dsimp only at h
        split at h <;> cases h
        rfl

theorem BackedBlockList.run_blockSize (h : bbl.run calls = .ok bbl') : bbl'.blockSize = bbl.blockSize := by
  induction calls generalizing bbl
  case nil => cases h; rfl
  case cons c calls hi =>
    simp only [run] at h
    split at h
    · cases h
    case h_2 bbl'' ha =>
      rw [c.apply_eq] at ha
      have hs := queueBb_blockSize ha
      exact (hi h).trans hs

end

namespace ReadState

def afterAll (st : ReadState) (bs : Nat) (cs : List Chunk) (bbl : BackedBlockList) : ReadState where
  file := st.file.seekCur (cs.flatMap (·.encode bs)).length
  backedBlockList := bbl
  curBlock := u32 (st.curBlock + (cs.map (·.size bs)).sum)
  crc32 := st.crc32.map (sparseCrc32 · (cs.flatMap (·.expand bs)))

theorem afterAll_nil (h : st.curBlock < 2 ^ 32) : st.afterAll bs [] st.backedBlockList = st := by
  obtain ⟨⟨_, _⟩, _, _, crc⟩ := st
  cases crc <;> simp [afterAll, seekCur, u32_of_lt h]

theorem after_afterAll (bbl bbl' : BackedBlockList) :
    (st.after bs c bbl).afterAll bs cs bbl' = st.afterAll bs (c :: cs) bbl' := by
  simp only [after, afterAll, seekCur_seekCur, flatMap_cons, length_append,
    map_cons, sum_cons, Option.map_map, Function.comp_def, sparseCrc32_append,
    add_comm (u32 _), u32_add_u32]
  congr 2
  omega

theorem readChunks_encode (hb : st.blockSize = bs) (h₀ : 0 < bs) (hbs : bs < 2 ^ 31)
    (hh : hdr.chunkHdrSz = CHUNK_HEADER_LEN) (hv : ∀ c ∈ cs, c.Valid bs)
    (hc : ∀ crc, .crc32 crc ∉ cs) (hcur : st.curBlock < 2 ^ 32)
    (hf : st.file.rest = cs.flatMap (·.encode bs) ++ r) :
    st.readChunks fd hdr cs.length = .ok st' ↔ (∀ c ∈ cs, c.size bs < 2 ^ 31) ∧
      ∃ bbl, st.backedBlockList.run (readCalls fd bs st.file.pos st.curBlock cs) = .ok bbl ∧
        st' = st.afterAll bs cs bbl := by
  induction cs generalizing st
  case nil => simp [readChunks, readCalls, BackedBlockList.run, afterAll_nil hcur, eq_comm]
  case cons c cs hi =>
    simp only [mem_cons, forall_eq_or_imp, not_or] at hv hc ⊢
    rw [flatMap_cons, append_assoc] at hf
    have hcc : ∀ crc, c ≠ .crc32 crc := fun crc he => (hc crc).left he.symm
    rw [length_cons, readChunks, readChunk_encode hb h₀ hv.left hcc hbs hh hf, readCalls, readCall]
    simp only [run_append_eq_ok_iff]
    cases hr : st.backedBlockList.run (c.call fd bs st.file.pos st.curBlock).toList
    case error => simp [Except.map]
    case ok bbl =>
      have hf' : (st.after bs c bbl).file.rest = cs.flatMap (·.encode bs) ++ r := by
        rw [after, seekCur_rest, hf, drop_left]
      have hb' : (st.after bs c bbl).blockSize = bs := (run_blockSize hr).trans hb
      have hi := hi hb' hv.right (fun crc => (hc crc).right) (u32_lt _) hf'
      by_cases hs : c.size bs < 2 ^ 31
      case neg => simp only [hs, if_false, Except.map, reduceCtorEq, false_and]
      simp only [hs, if_true, Except.map, hi, after_afterAll]
      simp [after]

theorem readChunks_add (m n : Nat) : st.readChunks fd hdr (m + n) = .ok st' ↔
    ∃ st'', st.readChunks fd hdr m = .ok st'' ∧ st''.readChunks fd hdr n = .ok st' := by
  induction m generalizing st
  case zero => simp [readChunks]
  case succ m hi =>
    rw [Nat.succ_add, readChunks, readChunks]
    split
    · simp
    · exact hi

-- What is read behind the chunks with contents.
theorem readChunks_crc32 (fd : Int) (crc : Bool) (hh : hdr.chunkHdrSz = CHUNK_HEADER_LEN)
    (hf : st.file.rest = (if crc then [Chunk.crc32 v] else []).flatMap (·.encode bs))
    (hcrc : st.crc32 = if crc then some x else none) (st' : ReadState) :
    st.readChunks fd hdr crc.toNat = .ok st' ↔
      (crc → v = x) ∧ st' = { st with file := st.file.seekCur (16 * crc.toNat) } := by
  cases crc
  case false => exact ⟨fun h => ⟨nofun, (ok.inj h).symm⟩, fun h => congrArg ok h.2.symm⟩
  case true =>
    rw [if_pos rfl, flatMap_singleton, ← append_nil (encode _ _)] at hf
    simp only [Bool.toNat_true, readChunks, readChunk_crc32 hh hf hcrc]
    by_cases hv : v = x
    case pos => simp [hv, eq_comm]
    case neg => simp [hv]

end ReadState

def readStart (bs blocks n : Nat) (crc : Bool) (cs : List Chunk) : ReadState where
  file := ⟨encodeFile bs blocks n cs, SPARSE_HEADER_LEN⟩
  backedBlockList := .new bs
  curBlock := 0
  crc32 := if crc then some 0 else none

theorem readStart_rest (crc : Bool) :
    (readStart bs blocks n crc cs).file.rest = cs.flatMap (·.encode bs) :=
  encodeFile_drop

theorem import_encodeFile (hbs : bs < 2 ^ 31) (blocks n : Nat) (crc : Bool) (s : SparseFile) :
    import_ fd (encodeFile bs blocks n cs) crc = .ok s ↔
      ∃ st, (readStart bs blocks n crc cs).readChunks fd (fileHeader bs (u32 blocks) (u32 n)) (u32 n) =
          .ok st ∧ u32 blocks = st.curBlock ∧
        s = { SparseFile.new bs (u32 blocks * bs) with backedBlockList := st.backedBlockList } := by
  have hb : bs < 2 ^ 32 := by omega
  have hr : readAll ⟨encodeFile bs blocks n cs, 0⟩ SPARSE_HEADER_LEN =
      .ok ((fileHeader bs blocks n).encode, ⟨encodeFile bs blocks n cs, SPARSE_HEADER_LEN⟩) := by
    have hf : rest ⟨encodeFile bs blocks n cs, 0⟩ =
        (fileHeader bs blocks n).encode ++ cs.flatMap (·.encode bs) := rfl
    have := readAll_of_rest_eq hf
    rwa [SparseHeader.encode_length] at this
  have hd : SparseHeader.decode (fileHeader bs blocks n).encode = fileHeader bs (u32 blocks) (u32 n) := by
    rw [← append_nil (fileHeader bs blocks n).encode, fileHeader_decode hb]
  have hlt : u32 blocks * bs < 2 ^ 63 :=
    (Nat.mul_lt_mul_of_lt_of_le (u32_lt _) hbs.le (by decide)).trans_eq (by decide)
  have hz : seekSet ⟨encodeFile bs blocks n cs, SPARSE_HEADER_LEN⟩ 0 =
    ⟨encodeFile bs blocks n cs, 0⟩ := rfl
  have hs : (new bs (u32 blocks * bs)).readStart
      ⟨encodeFile bs blocks n cs, SPARSE_HEADER_LEN⟩ (fileHeader bs (u32 blocks) (u32 n)) crc =
    readStart bs blocks n crc cs := rfl
  simp only [SparseFile.import_, hr, hd, if_pos fileHeader_valid, hz]
  rw [if_neg (by exact not_le.mpr hlt), SparseFile.read, if_neg (by simp), if_pos rfl]
  simp only [SparseFile.readSparse, hr, hd, if_pos fileHeader_valid]
  simp only [fileHeader_blkSz, fileHeader_totalBlks, fileHeader_totalChunks, hs]
  cases (readStart bs blocks n crc cs).readChunks fd (fileHeader bs (u32 blocks) (u32 n)) (u32 n)
  case error => simp
  case ok st =>
    by_cases he : u32 blocks = st.curBlock
    case pos => simp [he, eq_comm]
    case neg => simp [he]

section Import

variable (h₀ : 0 < bs) (hbs : bs < 2 ^ 31) (hv : ∀ c ∈ cs, c.Valid bs) (hc : ∀ crc, .crc32 crc ∉ cs)

include h₀ hbs hv hc

theorem readStart_readChunks (fd : Int) (blocks n : Nat) (crc : Bool) (cs' : List Chunk)
    (st' : ReadState) :
    (readStart bs blocks n crc (cs ++ cs')).readChunks fd (fileHeader bs (u32 blocks) (u32 n))
        cs.length = .ok st' ↔
      (∀ c ∈ cs, c.size bs < 2 ^ 31) ∧
      ∃ bbl, (BackedBlockList.new bs).run (readCalls fd bs SPARSE_HEADER_LEN 0 cs) = .ok bbl ∧
        st' = (readStart bs blocks n crc (cs ++ cs')).afterAll bs cs bbl := by
  have hf : (readStart bs blocks n crc (cs ++ cs')).file.rest =
      cs.flatMap (·.encode bs) ++ cs'.flatMap (·.encode bs) := by
    rw [readStart_rest, flatMap_append]
  exact ReadState.readChunks_encode (u32_of_lt (by omega)) h₀ hbs rfl hv hc (by decide : 0 < 2 ^ 32) hf

theorem import_chunks_iff (crc : Bool) (hn : cs.length + crc.toNat < 2 ^ 32) (blocks : Nat) (v : UInt32)
    (s : SparseFile) :
    import_ fd (encodeFile bs blocks (cs.length + crc.toNat) (cs ++ if crc then [.crc32 v] else [])) crc =
        .ok s ↔
      (∀ c ∈ cs, c.size bs < 2 ^ 31) ∧ u32 blocks = u32 (cs.map (·.size bs)).sum ∧
      (crc → v = sparseCrc32 0 (cs.flatMap (·.expand bs))) ∧
      ∃ bbl, (BackedBlockList.new bs).run (readCalls fd bs SPARSE_HEADER_LEN 0 cs) = .ok bbl ∧
        s = { SparseFile.new bs (u32 blocks * bs) with backedBlockList := bbl } := by
  generalize hcs : (if crc then [Chunk.crc32 v] else []) = cs'
  have hr := readStart_readChunks h₀ hbs hv hc fd blocks (cs.length + crc.toNat) crc cs'
  rw [import_encodeFile hbs, u32_of_lt hn]
  simp only [u32_of_lt hn] at hr
  simp only [readChunks_add, hr]
  have hf (bbl : BackedBlockList) :
      ((readStart bs blocks (cs.length + crc.toNat) crc (cs ++ cs')).afterAll bs cs bbl).file.rest =
        (if crc then [Chunk.crc32 v] else []).flatMap (·.encode bs) := by
    rw [afterAll, seekCur_rest, readStart_rest, flatMap_append, drop_left, hcs]
  have hlast (bbl : BackedBlockList) := readChunks_crc32 fd crc
    (by rfl : (fileHeader bs (u32 blocks) (cs.length + crc.toNat)).chunkHdrSz = _) (hf bbl)
    (x := sparseCrc32 0 (cs.flatMap (·.expand bs))) (by cases crc <;> rfl)
  constructor
  case mp =>
    rintro ⟨st, ⟨_, ⟨hs, bbl, hrun, rfl⟩, hl⟩, hcur, rfl⟩
    obtain ⟨hv, hst⟩ := (hlast bbl st).mp hl
    refine ⟨hs, ?_, hv, bbl, hrun, by rw [hst]; rfl⟩
    rw [hst] at hcur
    simpa [afterAll, readStart] using hcur
  case mpr =>
    rintro ⟨hs, hcur, hv, bbl, hrun, rfl⟩
    refine ⟨_, ⟨_, ⟨hs, bbl, hrun, rfl⟩, (hlast bbl _).mpr ⟨hv, rfl⟩⟩, ?_, rfl⟩
    simpa [afterAll, readStart] using hcur

end Import

end Sparse
