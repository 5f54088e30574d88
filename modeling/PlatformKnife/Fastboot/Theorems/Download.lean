import PlatformKnife.Fastboot.Theorems.DataPhase

namespace Fastboot

open Bytes CInt CString Fallible Phase
open Sparse (Env SparseFile OutputFileOps OutCounter)

variable {u : Usb} {env : Env} {s : SparseFile} {len : Int}

-- The data phase of a download of `n` bytes, complete when the connection is still open.
def Streams (n : Nat) (u u' : Usb) : Prop :=
  ∃ ds, Writes u u' ds ∧ (u'.closed = false → ds.flatten.length = n) ∧
    (u.Accepting → u'.closed = false)

theorem Lost.streams (h : Lost u u') (n : Nat) : Streams n u u' := by
  obtain ⟨hc, ha, ds, hw⟩ := h
  exact ⟨ds, hw, by simp [hc], fun h => absurd h ha⟩

theorem Takes.streams (h : Takes n u u') (hb : u.usbBuf = []) (hb' : u'.usbBuf = []) : Streams n u u' := by
  obtain ⟨ho, _, ds, hw, hn⟩ := h
  exact ⟨ds, hw, fun _ => by simpa [hb, hb'] using hn, fun _ => ho⟩

theorem fbDownloadDataSparseFlush_silent (u : Usb) : Silent u (fbDownloadDataSparseFlush u).snd := by
  rw [fbDownloadDataSparseFlush, get_bind]
  split
  case isTrue  => exact .bind (commandData_silent _ _ _) fun _ _ h => ⟨h, rfl, rfl⟩
  case isFalse => exact .refl u

theorem Takes.flush (h : Takes n u u₁) (hb : u.usbBuf = []) :
    Streams n u (fbDownloadDataSparseFlush u₁).snd := by
  have ht := h
  obtain ⟨ho, hu, _⟩ := ht
  rw [fbDownloadDataSparseFlush, get_bind]
  split
  case isFalse hl => exact h.streams hb (List.eq_nil_of_length_eq_zero (by omega))
  case isTrue hl =>
    obtain ⟨hs, hg⟩ | ⟨_, hg⟩ := writeBuf_goes ho hl hu
    · refine (h.trans hg).streams hb ?_
      obtain ⟨r, hr⟩ := Option.isSome_iff_exists.mp hs
      obtain ⟨_, _, _, hm⟩ := bind_eq_some_iff.mp (Prod.ext hr rfl)
      exact (congrArg Usb.usbBuf (Prod.mk.inj hm).right).symm
    · exact (Lost.trans h hg).streams n

theorem write_header (ho : u.usbBuf = []) (hd : d.length = Sparse.SPARSE_HEADER_LEN) :
    (OutputFileOps.write u (toPtr d) d.length).2 := by
  have hr : writeWhole (fun i => toPtr d (0 + i)) d.length u = (some 0, u) := by
    rw [writeWhole, get_bind, if_neg (by rw [hd]; decide)]
    rfl
  show (fbDownloadDataSparseWrite _ _ u).fst.isSome = true
  rw [fbDownloadDataSparseWrite, bind_of_some (fillBuf_of_nil ho), bind_of_some (writeFullBuf_of_nil ho)]
  simp only [Int.toNat_natCast, Nat.sub_zero]
  rw [bind_of_some hr, keepRest, if_pos (by rw [hd]; decide), if_neg (by rw [hd]; decide)]
  rfl

theorem fileLen_eq_ok (h : s.fileLen env true false = .ok len) :
    s.writeTo env (⟨0⟩ : OutCounter) true false = .ok ⟨len⟩ := by
  rw [SparseFile.fileLen] at h
  split at h
  · cases h
  case h_2 out hw =>
    cases h
    exact hw

section

variable (hl : s.fileLen env true false = .ok len)
variable (hf : ∀ bb ∈ s.dataBlocks, SparseFile.ChunkFits s.blockSize bb) (ho : u.closed = false)
variable (hb : u.usbBuf = [])

include hl hf ho hb

theorem writeTo_takes :
    ∃ u₁, sparseFileCallback env s u = (some (), u₁) ∧
      (Lost u u₁ ∨ ∃ n : Nat, Takes n u u₁ ∧ len = n) := by
  have hr : Counts u u ⟨0⟩ := ⟨0, .refl ho (by simp [hb]), rfl⟩
  obtain ⟨u₁, hw, h₁⟩ := SparseFile.writeTo_beside (parallel_counter u) hr hf
    (fun d hd => write_header hb hd) (fileLen_eq_ok hl)
  refine ⟨u₁, ?_, h₁⟩
  rw [sparseFileCallback, hw]

theorem sparse_streams :
    ∃ u₁, sparseFileCallback env s u = (some (), u₁) ∧
      Streams len.toNat u (fbDownloadDataSparseFlush u₁).snd := by
  obtain ⟨u₁, hc, h⟩ := writeTo_takes hl hf ho hb
  refine ⟨u₁, hc, ?_⟩
  obtain h | ⟨n, h, rfl⟩ := h
  · exact (h.silent (fbDownloadDataSparseFlush_silent u₁)).streams _
  · exact h.flush hb

end

def fresh (responses : List Packet) (accepts : List Event → Nat → Int) : Usb where
  responses := responses
  accepts := accepts
  log := []
  closed := false
  usbBuf := []
  response := []
  error := none
  fault := none

theorem fileLen_nonneg (hl : s.fileLen env true false = .ok len)
    (hf : ∀ bb ∈ s.dataBlocks, SparseFile.ChunkFits s.blockSize bb) : 0 ≤ len := by
  obtain ⟨_, _, h⟩ := writeTo_takes (u := fresh [] fun _ n => n) hl hf rfl rfl
  obtain ⟨_, h, _⟩ | ⟨n, _, rfl⟩ := h
  · exact absurd (fun _ _ => rfl) h
  · exact Int.natCast_nonneg n

theorem commandStart_answers (ho : u.closed = false) (hc : cmd.length ≤ 64)
    (ha : u.accepts u.log cmd.length = (cmd.length : Int)) (size : Nat) :
    Answers u (.command cmd :: heard u.responses) (verdict size (reply u.responses))
      (commandStart cmd size u) := by
  have hw : usbWrite (.command cmd) cmd.length { u with response := [] } =
      (some (cmd.length : Int), { u with response := [], log := u.log ++ [.command cmd] }) := by
    simp [usbWrite, ho, ha]
  rw [commandStart, modify_bind, if_neg (by omega), bind_of_some hw, if_neg (by simp)]
  let u₁ := { u with response := [], log := u.log ++ [Event.command cmd] }
  exact (checkResponse_answers (u := u₁) ho size).extend rfl rfl rfl

theorem commandStart_refused (ho : u.closed = false) (hc : cmd.length ≤ 64)
    (ha : u.accepts u.log cmd.length ≠ (cmd.length : Int)) (size : Nat) :
    Answers u [.command cmd] none (commandStart cmd size u) := by
  have hw : usbWrite (.command cmd) cmd.length { u with response := [] } =
      (some (u.accepts u.log cmd.length), { u with response := [], log := u.log ++ [.command cmd] }) := by
    simp [usbWrite, ho]
  rw [commandStart, modify_bind, if_neg (by omega), bind_of_some hw, if_pos ha]
  exact .of_nil (abandon_answers _ _) (by rfl) rfl rfl

def finalLog (u : Usb) : List Event :=
  if u.closed then u.log else u.log ++ heard u.responses

theorem checkResponse_closed (hc : u.closed) (size : Nat) : (checkResponse size u).snd.log = u.log := by
  have hr : usbRead u = (some none, u) := by simp [usbRead, hc]
  rw [checkResponse, get_bind, checkResponseLoop, bind_of_some hr]
  rfl

theorem commandEnd_log (u : Usb) : (commandEnd u).snd.log = finalLog u := by
  have hl : (commandEnd u).snd.log = (checkResponse 0 u).snd.log := by
    rw [commandEnd, bind_apply]
    split
    case h_2 h => rw [h]
    case h_1 h =>
      rw [h]
      split <;> rfl
  rw [hl, finalLog]
  split
  case isTrue hc  => exact checkResponse_closed hc 0
  case isFalse hc => exact (checkResponse_answers (Bool.eq_false_iff.mpr hc) 0).log

theorem reply_of_verdict (h : verdict size (reply l) = some r) :
    ∃ p, reply l = some p ∧ (p.tag = okay ∧ r = 0 ∨
      p.tag = data ∧ p.dsize ≤ size ∧ r = toI32 p.dsize) := by
  rcases hr : reply l with _ | p
  · simp [hr, verdict] at h
  refine ⟨p, rfl, ?_⟩
  rw [hr, verdict] at h
  split at h
  case isTrue hk => exact .inl ⟨hk, (Option.some.inj h).symm⟩
  split at h
  case isTrue => cases h
  split at h
  case isFalse => cases h
  case isTrue hd =>
    split at h
    case isTrue => cases h
    case isFalse hs =>
      cases h
      exact .inr ⟨hd.left, Nat.le_of_not_gt hs, rfl⟩

theorem follows_finalLog (hl : idle.run u.log = some (.after (some p))) (hs : Streams n u u') :
    (announced p = some n → Follows (finalLog u')) ∧
    (0 < n → u'.closed = false → Follows (finalLog u') → announced p = some n) := by
  obtain ⟨ds, ⟨hn, hw, _⟩, hc, _⟩ := hs
  constructor
  case left =>
    intro ha
    rw [after, ha] at hl
    have hd : idle.run u'.log = some (.data n ds.flatten.length) := by
      rw [hw, run_append, hl, Option.bind_some, run_data_data, zero_add]
    rw [finalLog, Follows]
    split
    case isTrue => rw [hd]; rfl
    case isFalse ho =>
      rw [run_append, hd, Option.bind_some, run_data_heard, if_pos (hc (Bool.eq_false_iff.mpr ho))]
      rfl
  case right =>
    intro h₀ ho hf
    rw [finalLog, ho, if_neg (by simp), Follows, hw, run_append, run_append, hl] at hf
    have hds : ds ≠ [] := by
      intro he
      have := hc ho
      simp [he] at this
      omega
    obtain ⟨d, rest, he⟩ := List.exists_cons_of_ne_nil hds
    rcases ha : announced p with _ | m
    · have hd := hn d (he ▸ List.mem_cons_self)
      rw [after, ha, Option.bind_some, he, run_finished_data hd] at hf
      simp at hf
    rw [after, ha, Option.bind_some, run_data_data, Option.bind_some,
      run_data_heard, zero_add, hc ho] at hf
    by_cases hm : n = m
    · rw [hm]
    · simp [hm] at hf

theorem run_started (cmd : List UInt8) (l : List Packet) :
    idle.run (.command cmd :: heard l) = some (.after (reply l)) :=
  run_command_heard l

-- The response is not OKAY, and announces no other number of bytes if what is read of that number is not
-- too large.
def Matches (size n : Nat) (p : Packet) : Prop :=
  p.tag ≠ okay ∧ ∀ m, announced p = some m → p.dsize ≤ size → m = n

theorem Matches.announced (h : Matches size n p)
    (hv : p.tag = okay ∧ r = 0 ∨ p.tag = data ∧ p.dsize ≤ size ∧ r = toI32 p.dsize) :
    announced p = some n := by
  obtain ⟨hd, hs, _⟩ := hv.resolve_left fun hk => h.left hk.left
  have ha : Fastboot.announced p = some (valueOf 16 (p.bytes.drop 4)) := if_pos hd
  rw [ha, h.right _ ha hs]

-- A download that goes on with its data phase after a response.
def started (cmd : List UInt8) (size : Nat) (body : Int → Link α) : Link α := do
  let r ← commandStart cmd size
  if r < 0 then fail else body r

variable {body : Int → Link α} {accepts : List Event → Nat → Int} {l : List Packet}

theorem started_refused (hc : cmd.length ≤ 64) (ha : accepts [] cmd.length ≠ (cmd.length : Int)) :
    Follows (started cmd size body (fresh l accepts)).snd.log := by
  have h := commandStart_refused (u := fresh l accepts) rfl hc ha size
  rw [started, bind_of_none (Prod.ext h.result rfl), h.log]
  rfl

theorem started_stopped (hc : cmd.length ≤ 64) (ha : accepts [] cmd.length = (cmd.length : Int))
    (hv : ∀ r, verdict size (reply l) = some r → r < 0) :
    Follows (started cmd size body (fresh l accepts)).snd.log := by
  have h := commandStart_answers (u := fresh l accepts) rfl hc ha size
  have hl : Follows (commandStart cmd size (fresh l accepts)).snd.log := by
    rw [h.log, Follows]
    exact run_started cmd l ▸ rfl
  rw [started]
  rcases hr : verdict size (reply l) with _ | r
  · rwa [bind_of_none (Prod.ext (h.result.trans hr) rfl)]
  rw [bind_of_some (Prod.ext (h.result.trans hr) rfl), if_pos (hv r hr)]
  exact hl

theorem started_data (body : Int → Link α) (accepts : List Event → Nat → Int)
    (hc : cmd.length ≤ 64) (ha : accepts [] cmd.length = (cmd.length : Int))
    (hv : verdict size (reply l) = some r) (hr : 0 ≤ r) :
    ∃ u, u.log = .command cmd :: heard l ∧ u.closed = false ∧ u.usbBuf = [] ∧ u.accepts = accepts ∧
      (started cmd size body (fresh l accepts)).snd = (body r u).snd := by
  have h := commandStart_answers (u := fresh l accepts) rfl hc ha size
  refine ⟨_, h.log, h.opened (Option.isSome_iff_exists.mpr ⟨r, hv⟩), h.usbBuf, h.accepts, ?_⟩
  rw [started, bind_of_some (Prod.ext (h.result.trans hv) rfl), if_neg (by omega)]

theorem started_quiet (hb : ∀ r u, (body r u).snd.log = u.log) (hc : cmd.length ≤ 64)
    (accepts : List Event → Nat → Int) :
    Follows (started cmd size body (fresh l accepts)).snd.log := by
  by_cases ha : accepts [] cmd.length = (cmd.length : Int)
  · by_cases hv : ∀ r, verdict size (reply l) = some r → r < 0
    · exact started_stopped hc ha hv
    · obtain ⟨r, hr⟩ := not_forall.mp hv
      obtain ⟨hr, hn⟩ := Classical.not_imp.mp hr
      obtain ⟨u, hl, _, _, _, he⟩ := started_data body accepts hc ha hr (by omega)
      rw [he, hb, hl, Follows, run_started]
      rfl
  · exact started_refused hc ha

theorem verdict_nonneg (hs : size < 2 ^ 31) (hv : verdict size (reply l) = some r) : 0 ≤ r := by
  obtain ⟨p, _, hp⟩ := reply_of_verdict hv
  obtain ⟨_, rfl⟩ | ⟨_, hd, rfl⟩ := hp
  · exact le_rfl
  · exact toI32_nonneg (by omega)

theorem verdict_of_announced (h : announced p = some m) (h₀ : 0 < size) (hm : p.dsize ≤ size) :
    verdict size (some p) = some (toI32 p.dsize) := by
  have ht : p.tag = data := by
    by_contra ht
    simp [announced, ht] at h
  rw [verdict, if_neg (ht ▸ by decide +kernel), if_neg (ht ▸ by decide +kernel), if_pos ⟨ht, h₀⟩,
    if_neg (by omega)]

theorem follows_started (hc : cmd.length ≤ 64) (hs : size < 2 ^ 31) (h₀ : 0 < size) (hn : 0 < n)
    (hb : ∀ r u, u.closed = false → u.usbBuf = [] →
      ∃ u', Streams n u u' ∧ (body r u).snd.log = finalLog u') (l : List Packet) :
    (∀ accepts, Follows (started cmd size body (fresh l accepts)).snd.log) ↔
      ∀ p, reply l = some p → Matches size n p := by
  constructor
  case mp =>
    intro h p hp
    have h := h fun _ n => n
    -- The packet is taken as the start of the data phase.
    have go {r} (hv : verdict size (reply l) = some r) : announced p = some n := by
      obtain ⟨u, hl, ho, hu, ha, he⟩ :=
        started_data body (fun _ n => n) hc rfl hv (verdict_nonneg hs hv)
      obtain ⟨u', hst, hlog⟩ := hb r u ho hu
      rw [he, hlog] at h
      have hrun : idle.run u.log = some (.after (some p)) := by
        rw [hl, run_started, hp]
      have hf := follows_finalLog hrun hst
      obtain ⟨_, _, _, hacc⟩ := hst
      exact hf.right hn (hacc fun _ _ => by rw [ha]) h
    refine ⟨fun hk => ?_, fun m hm hle => ?_⟩
    · have := go (r := 0) (by rw [hp, verdict, if_pos hk])
      simp [announced_of_okay hk] at this
    · have := go (hp ▸ verdict_of_announced hm h₀ hle)
      exact Option.some.inj (hm.symm.trans this)
  case mpr =>
    intro h accepts
    by_cases ha : accepts [] cmd.length = (cmd.length : Int)
    · cases hv : verdict size (reply l)
      case none => exact started_stopped hc ha (by simp [hv])
      case some r =>
        obtain ⟨u, hl, ho, hu, _, he⟩ := started_data body accepts hc ha hv (verdict_nonneg hs hv)
        obtain ⟨u', hst, hlog⟩ := hb r u ho hu
        obtain ⟨p, hp, hk⟩ := reply_of_verdict hv
        rw [he, hlog]
        have hrun : idle.run u.log = some (.after (some p)) := by
          rw [hl, run_started, hp]
        exact (follows_finalLog hrun hst).left ((h p hp).announced hk)
    · exact started_refused hc ha

-- The two kinds of data that are downloaded.
inductive Download
  | data (ptr : Nat → UInt8) (size : UInt32)
  | sparse (env : Env) (s : SparseFile)

namespace Download

def log (l : List Packet) (accepts : List Event → Nat → Int) : Download → List Event
  | data ptr size => (fbDownloadData ptr size.toNat (fresh l accepts)).snd.log
  | sparse env s  => (fbDownloadDataSparse env s (fresh l accepts)).snd.log

-- The size in the command and the number of bytes that there are, for a download that sends data. A size
-- that is negative as an `int` does not.
def offer : Download → Option (Nat × Nat)
  | data _ size  =>
    if 0 < size.toNat ∧ size.toNat < 2 ^ 31 then some (size.toNat, size.toNat) else none
  | sparse env s =>
    match s.fileLen env true false with
    | .error _ => none
    | .ok len  => if 0 < toI32 (toU32 len) then some (toU32 len, len.toNat) else none

-- The chunks of a sparse file have lengths that are not negative as an `int`.
def Fits : Download → Prop
  | data _ _ => True
  | sparse _ s => ∀ bb ∈ s.dataBlocks, SparseFile.ChunkFits s.blockSize bb

end Download

theorem download_length (size : Nat) : (download size).length ≤ 64 := by
  rw [download, List.length_append, hex8, List.length_map, List.length_range,
    show (ofString "download:").length = 9 by decide +kernel]
  omega

def sendData (ptr : Nat → UInt8) (size : Nat) (_ : Int) : Link Int := do
  let _ ← commandData ptr size
  let _ ← commandEnd
  pure size

theorem fbDownloadData_log (h₀ : size ≠ 0) (ptr : Nat → UInt8) (u : Usb) :
    (fbDownloadData ptr size u).snd.log = (started (download size) size (sendData ptr size) u).snd.log := by
  rw [fbDownloadData, bind_pure_snd, commandSend, if_neg h₀]
  rfl

theorem sendData_streams (h₀ : 0 < size) (hs : size < 2 ^ 31) (ho : u.closed = false)
    (hb : u.usbBuf = []) (ptr : Nat → UInt8) (r : Int) :
    ∃ u', Streams size u u' ∧ (sendData ptr size r u).snd.log = finalLog u' := by
  have hg := commandData_goes ho hb h₀ hs ptr
  refine ⟨(commandData ptr size u).snd, ?_, ?_⟩
  · obtain ⟨h, ht⟩ | ⟨_, h⟩ := hg
    · obtain ⟨_, hc⟩ | ⟨_, e, hc⟩ := commandData_cases ho hs ptr
      · exact ht.streams hb (by rw [hc]; exact hb)
      · simp [hc] at h
    · exact h.streams size
  · rw [sendData]
    obtain ⟨_, hc⟩ | ⟨_, e, hc⟩ := commandData_cases ho hs ptr
    · rw [bind_of_some hc, bind_pure_snd, commandEnd_log, hc]
    rw [bind_of_none hc, hc]
    rfl

theorem sendData_large (hs : toI32 size < 0) (ptr : Nat → UInt8) (r : Int) (u : Usb) :
    (sendData ptr size r u).snd.log = u.log := by
  rw [sendData, commandData, if_pos hs]
  rfl

def sendSparse (env : Env) (s : SparseFile) (_ : Int) : Link Int := do
  sparseFileCallback env s
  ignore fbDownloadDataSparseFlush
  commandEnd

theorem fbDownloadDataSparse_eq (hl : s.fileLen env true false = .ok len) (h₀ : 0 < toI32 (toU32 len)) :
    fbDownloadDataSparse env s = started (download (toU32 len)) (toU32 len) (sendSparse env s) := by
  rw [fbDownloadDataSparse, hl]
  dsimp only
  rw [if_neg (by omega)]
  rfl

theorem sendSparse_streams (hl : s.fileLen env true false = .ok len)
    (hf : ∀ bb ∈ s.dataBlocks, SparseFile.ChunkFits s.blockSize bb) (ho : u.closed = false)
    (hb : u.usbBuf = []) (r : Int) :
    ∃ u', Streams len.toNat u u' ∧ (sendSparse env s r u).snd.log = finalLog u' := by
  obtain ⟨u₁, hc, hst⟩ := sparse_streams hl hf ho hb
  refine ⟨_, hst, ?_⟩
  rw [sendSparse, bind_of_some hc, ignore_bind, commandEnd_log]

theorem follows_data (ptr : Nat → UInt8) (size : UInt32) (l : List Packet) :
    (∀ accepts, Follows ((Download.data ptr size).log l accepts)) ↔
      (0 < size.toNat ∧ size.toNat < 2 ^ 31 →
        ∀ p, reply l = some p → Matches size.toNat size.toNat p) := by
  have hl := download_length size.toNat
  by_cases h₀ : size.toNat = 0
  · refine iff_of_true (fun accepts => ?_) fun h => absurd h₀ h.left.ne'
    rw [Download.log, fbDownloadData, commandSend, if_pos h₀]
    rfl
  by_cases hs : size.toNat < 2 ^ 31
  · simp only [Download.log, fbDownloadData_log h₀]
    rw [follows_started hl hs (by omega) (by omega) fun r u ho hb =>
      sendData_streams (by omega) hs ho hb ptr r]
    exact ⟨fun h _ => h, fun h => h ⟨by omega, hs⟩⟩
  refine iff_of_true (fun accepts => ?_) fun h => absurd h.right hs
  rw [Download.log, fbDownloadData_log h₀]
  have hneg : toI32 size.toNat < 0 := by
    have := size.toNat_lt
    rw [toI32, if_neg hs]
    omega
  exact started_quiet (sendData_large hneg ptr) hl accepts

theorem follows_sparse (hf : ∀ bb ∈ s.dataBlocks, SparseFile.ChunkFits s.blockSize bb)
    (hl : s.fileLen env true false = .ok len) (h₀ : 0 < toI32 (toU32 len)) (l : List Packet) :
    (∀ accepts, Follows ((Download.sparse env s).log l accepts)) ↔
      ∀ p, reply l = some p → Matches (toU32 len) len.toNat p := by
  have hs : toU32 len < 2 ^ 31 := by
    by_contra hs
    have := toU32_lt len
    rw [toI32, if_neg hs] at h₀
    omega
  have hn := fileLen_nonneg hl hf
  have hp : 0 < len.toNat := by
    rw [toI32, if_pos hs, toU32] at h₀
    omega
  simp only [Download.log, fbDownloadDataSparse_eq hl h₀]
  refine follows_started (download_length _) hs ?_ hp (fun r u ho hb => sendSparse_streams hl hf ho hb r) l
  rw [toI32, if_pos hs] at h₀
  omega

-- The device has to answer with DATA and the number of bytes to be sent.
theorem follows_iff (d : Download) (hf : d.Fits) (l : List Packet) :
    (∀ accepts, Follows (d.log l accepts)) ↔
      ∀ size n, d.offer = some (size, n) → ∀ p, reply l = some p → Matches size n p := by
  cases d
  case data ptr size =>
    rw [follows_data, Download.offer]
    split
    case isTrue h =>
      constructor
      case mp =>
        intro hm _ _ he
        cases he
        exact hm h
      case mpr => exact fun hm _ => hm _ _ rfl
    case isFalse h => exact ⟨fun _ _ _ he => (nomatch he), fun _ hs => absurd hs h⟩
  case sparse env s =>
    rw [Download.offer]
    cases hl : s.fileLen env true false
    case error e =>
      refine iff_of_true (fun accepts => ?_) fun _ _ he => nomatch he
      rw [Download.log, fbDownloadDataSparse, hl]
      rfl
    case ok len =>
      dsimp only
      split
      case isTrue h₀ =>
        rw [follows_sparse hf hl h₀]
        constructor
        case mp =>
          intro hm _ _ he
          cases he
          exact hm
        case mpr => exact fun hm => hm _ _ rfl
      case isFalse h₀ =>
        refine iff_of_true (fun accepts => ?_) fun _ _ he => nomatch he
        rw [Download.log, fbDownloadDataSparse, hl]
        dsimp only
        rw [if_pos (by omega)]
        rfl

-- A sparse file of one block of data, which takes 28 + 12 + 4 bytes.
def oneBlock : SparseFile where
  len := 4
  backedBlockList := .ofUInts [.ofUInts 0 0 4 (.data 0)] (some 0) 4 1

def packet (s : String) (h : (ofString s).length ≤ 64) : Packet where
  bytes := ofString s
  length_le := h

def okayPacket : Packet := packet "OKAY" (by decide +kernel)
def noData     : Packet := packet "DATA00000000" (by decide +kernel)
def data44     : Packet := packet "DATA0000002c" (by decide +kernel)

theorem follows_oneBlock :
    Follows ((Download.sparse .withoutFiles oneBlock).log [data44] fun _ n => n) := by
  refine (follows_iff _ ?_ _).mpr (fun size n ho p hp => ?_) _
  · intro bb hb _
    rw [List.mem_singleton.mp hb]
    exact ⟨by decide, by decide⟩
  · have ho' : (Download.sparse .withoutFiles oneBlock).offer = some (44, 44) := by decide +kernel
    have hp' : reply [data44] = some data44 := by decide +kernel
    cases ho.symm.trans ho'
    cases hp.symm.trans hp'
    refine ⟨by decide +kernel, fun m hm _ => ?_⟩
    have : announced data44 = some 44 := by decide +kernel
    exact Option.some.inj (hm.symm.trans this)

-- The device finishes the command at once, or is not ready for data. It is sent all the same.
theorem not_follows_okay :
    ¬ Follows ((Download.data (fun _ => 0) 1).log [okayPacket] fun _ n => n) ∧
    ¬ Follows ((Download.data (fun _ => 0) 1).log [noData] fun _ n => n) := by
  rw [Follows, Follows]
  decide +kernel

end Fastboot
