import PlatformKnife.Adb.Sync.Client
import PlatformKnife.Adb.Sync.Theorems.Status

namespace Adb.Sync

open CInt CString Fallible List Nat Client Sync Header FsCall
open FsConfig (skipSlash)
open Printf (printInt)

variable {env : Env} {path : List UInt8} {s s' : Service}

-- The messages that carry the content of a file, cut up in this way.
def dataMessages (chunks : List (List UInt8)) : List UInt8 :=
  chunks.flatMap fun bytes => Header.encode ⟨idData, bytes.length⟩ ++ bytes

-- All that the client writes for a SEND request.
def sendBytes (rpath : List UInt8) (mode mtime : Nat) (chunks : List (List UInt8)) : List UInt8 :=
  Header.encode ⟨idSend, (sendName rpath mode).length⟩ ++ sendName rpath mode ++
    dataMessages chunks ++ Header.encode ⟨idDone, mtime⟩

namespace Client

variable {c c' : Client}

theorem writex_of_connected (h : c.device = none) :
    writex bytes c = (some (), { c with output := c.output ++ bytes }) := by
  rw [writex, h]

theorem writex_bind (f : Unit → Talk α) (h : c.device = none) :
    (writex bytes >>= f) c = f () { c with output := c.output ++ bytes } :=
  bind_of_some (writex_of_connected h)

theorem writeChunks_eq (h : c.device = none) :
    writeChunks (chunks.map .ok) c = (some (), { c with output := c.output ++ dataMessages chunks }) := by
  induction chunks generalizing c
  case nil => simp [writeChunks, dataMessages, pure_apply]
  case cons bytes chunks hi =>
    rw [map_cons, writeChunks, bind_of_some (writex_of_connected h)]
    refine Eq.trans (hi h) ?_
    simp [dataMessages]

theorem readx_keeps_output (n : Nat) : Keeps output (readx n) := by
  intro c
  rw [readx]
  split <;> rfl

theorem readInto_keeps_output (len : Int) : Keeps output (readInto len) :=
  .bind (fun _ => rfl) fun _ => .ite .fail (.bind (fun _ => rfl) fun _ => readx_keeps_output _)

theorem readStatus_keeps_output : Keeps output readStatus := by
  refine .bind (readx_keeps_output 8) fun l => .ite (.pure _) (.ite ?_ .fail)
  exact .bind (readInto_keeps_output _) fun _ => .fail

end Client

theorem syncSend_output {c : Client} (hc : c.device = none) (hl : rpath.length ≤ 1024)
    (hm : sIsreg mode) (hr : host.reads lpath = some (chunks.map .ok)) :
    (syncSend host lpath rpath mtime mode c).snd.output =
      c.output ++ sendBytes rpath mode mtime chunks := by
  have hw : ∀ c' : Client, c'.device = none → (writeDataFile host lpath c').snd =
      { c' with output := c'.output ++ dataMessages chunks } := by
    intro c' h
    rw [writeDataFile, hr]
    exact congrArg Prod.snd (writeChunks_eq h)
  rw [syncSend, if_neg (by omega)]
  simp only [writex_bind, hc, hm, ignore_bind, hw, if_true]
  rw [readStatus_keeps_output]
  simp only [sendBytes, sendName, append_assoc, length_append]

-- A device on which no call fails.
structure Healthy (env : Env) : Prop where
  reply : ∀ calls c, ∃ n, env.reply calls c = .ok n
  room  : ∀ calls, env.storageFull calls = false

theorem Healthy.call (h : Healthy env) (c : FsCall) (s : Service) :
    ∃ n, env.reply s.calls c = .ok n ∧
      call env c s = (some (some n), { s with calls := s.calls ++ [c] }) := by
  obtain ⟨n, hn⟩ := h.reply s.calls c
  exact ⟨n, hn, by rw [Sync.call, hn]⟩

theorem readx_append (h : s.input = l ++ rest) (hn : l.length = n) :
    readx n s = (some l, { s with input := rest }) := by
  rw [readx, if_pos (by simp [h, ← hn]), h, ← hn]
  simp

theorem Healthy.writeFile (h : Healthy env) (hb : bytes ≠ []) :
    writeFile env path doUnlink bytes (some fd) s =
      (some (some fd), { s with calls := s.calls ++ [.write fd bytes] }) := by
  obtain ⟨n, _, hn⟩ := h.call (.write fd bytes) s
  rw [← if_neg (c := bytes = []) (t := pure (some 0)) (e := Sync.call env (.write fd bytes)) hb] at hn
  exact bind_of_some hn

theorem receiveData_eq (he : Healthy env) (hc : ∀ b ∈ chunks, b ≠ [] ∧ b.length ≤ syncDataMax)
    (hs : s.input = dataMessages chunks ++ (encode ⟨idDone, mtime⟩ ++ rest))
    (ht : mtime < 256 ^ 4) (hn : chunks.length < n) :
    receiveData env path doUnlink n (some fd) s = (some (some fd, mtime),
      { s with input := rest, calls := s.calls ++ chunks.map (.write fd) }) := by
  induction chunks generalizing s n
  case nil =>
    obtain ⟨n, hn⟩ := exists_eq_add_one_of_ne_zero (ne_of_gt hn)
    have hs : s.input = encode ⟨idDone, mtime⟩ ++ rest := hs
    have hr := readx_append hs (encode_length _)
    rw [hn, receiveData, bind_of_some (onFail_eq_some_iff.mpr hr),
      decode_encode (show idDone < 256 ^ 4 by decide) ht, if_pos rfl]
    simp [pure_apply]
  case cons bytes chunks hi =>
    obtain ⟨hb, hc⟩ := forall_mem_cons.mp hc
    obtain ⟨n, rfl⟩ := exists_eq_add_one_of_ne_zero (ne_of_gt (zero_lt_of_lt hn))
    have hlt : bytes.length < 256 ^ 4 := lt_of_le_of_lt hb.right (by decide)
    have hs : s.input = encode ⟨idData, bytes.length⟩ ++ (bytes ++ (dataMessages chunks ++
        (encode ⟨idDone, mtime⟩ ++ rest))) := by
      rw [hs, dataMessages, flatMap_cons, append_assoc, append_assoc]
      rfl
    have hr := readx_append hs (encode_length _)
    rw [receiveData, bind_of_some (onFail_eq_some_iff.mpr hr),
      decode_encode (show idData < 256 ^ 4 by decide) hlt,
      if_neg (show idData ≠ idDone by decide), if_neg (show ¬idData ≠ idData by simp),
      if_neg (not_lt.mpr hb.right)]
    have hr := readx_append (s := { s with
      input := bytes ++ (dataMessages chunks ++ (encode ⟨idDone, mtime⟩ ++ rest)) }) rfl rfl
    rw [bind_of_some (onFail_eq_some_iff.mpr hr), bind_of_some (he.writeFile hb.left)]
    refine (hi hc rfl (by simpa using hn)).trans ?_
    simp

theorem openFile_of_ok (hr : env.reply s.calls (.openNew path mode) = .ok fd) :
    openFile env path mode s = (some (some fd), { s with calls := s.calls ++ [.openNew path mode] }) := by
  have hc : call env (.openNew path mode) s =
      (some (some fd), { s with calls := s.calls ++ [.openNew path mode] }) := by
    rw [call, hr]
  have hn : openNewFile env path mode s =
      (some (some fd), { s with calls := s.calls ++ [.openNew path mode] }) :=
    bind_of_some hc
  exact bind_of_some hn

theorem Healthy.prepareFile (h : Healthy env) :
    prepareFile env uid gid mode (some fd) s =
      (some (), { s with calls := s.calls ++ [.fchown fd uid gid, .fchmod fd mode] }) := by
  obtain ⟨n, _, h₁⟩ := h.call (.fchown fd uid gid) s
  obtain ⟨m, _, h₂⟩ := h.call (.fchmod fd mode) { s with calls := s.calls ++ [.fchown fd uid gid] }
  rw [Sync.prepareFile, bind_of_some h₁, if_neg (by simp)]
  refine (bind_of_some h₂).trans ?_
  simp [pure_apply]

theorem Healthy.finishFile (h : Healthy env) (hc : s.client = none) :
    finishFile env path mtime (some fd) s = (some (), { s with
      output := s.output ++ [.okay]
      calls  := s.calls ++ [.close fd, .restorecon path, .utime path mtime] }) := by
  obtain ⟨_, _, h₁⟩ := h.call (.close fd) s
  obtain ⟨_, _, h₂⟩ := h.call (.restorecon path) { s with calls := s.calls ++ [.close fd] }
  obtain ⟨_, _, h₃⟩ := h.call (.utime path mtime)
    { s with calls := s.calls ++ [.close fd] ++ [.restorecon path] }
  have hk : closeFile env fd s = (some (), { s with calls := s.calls ++ [.close fd] }) :=
    bind_of_some h₁
  rw [Sync.finishFile, bind_of_some hk, bind_of_some h₂, bind_of_some h₃]
  simp [send, hc]

theorem chunks_length_le (chunks : List (List UInt8)) : chunks.length ≤ (dataMessages chunks).length := by
  induction chunks
  case nil => simp
  case cons bytes chunks hi =>
    simp only [dataMessages, flatMap_cons, length_append, encode_length] at hi ⊢
    simp only [length_cons]
    omega

def fileCalls (path : List UInt8) (uid gid mode fd mtime : Nat) (chunks : List (List UInt8)) :
    List FsCall :=
  [.openNew path mode, .fchown fd uid gid, .fchmod fd mode] ++ chunks.map (.write fd) ++
    [.close fd, .restorecon path, .utime path mtime]

theorem handleSendFile_eq (he : Healthy env) (hl : s.client = none)
    (hc : ∀ b ∈ chunks, b ≠ [] ∧ b.length ≤ syncDataMax)
    (hs : s.input = dataMessages chunks ++ (encode ⟨idDone, mtime⟩ ++ rest))
    (ht : mtime < 256 ^ 4) :
    ∃ fd, env.reply s.calls (.openNew path mode) = .ok fd ∧
      handleSendFile env path uid gid mode doUnlink s = (some (), { s with
        input := rest
        output := s.output ++ [.okay]
        calls := s.calls ++ fileCalls path uid gid mode fd mtime chunks }) := by
  obtain ⟨fd, hf⟩ := he.reply s.calls (.openNew path mode)
  have hn : chunks.length < s.input.length + 1 := by
    have := chunks_length_le chunks
    simp only [hs, length_append]
    omega
  refine ⟨fd, hf, ?_⟩
  rw [handleSendFile, bind_of_some (openFile_of_ok hf), bind_of_some he.prepareFile, get_bind]
  have hd := @receiveData_eq env path { s with
    calls := s.calls ++ [.openNew path mode] ++ [.fchown fd uid gid, .fchmod fd mode] }
    chunks mtime rest _ doUnlink fd he hc hs ht hn
  refine (bind_of_some hd).trans ?_
  refine Eq.trans (he.finishFile (by exact hl)) ?_
  simp [fileCalls]

theorem Healthy.removeOld (h : Healthy env) (t : Target) (s : Service) :
    ∃ b l, removeOld env t s = (some b, { s with calls := s.calls ++ l }) ∧
      (l = [] ∨ l = [.unlink t.path]) := by
  rw [Sync.removeOld, get_bind]
  split
  case isTrue => exact ⟨true, [], by simp [pure_apply], .inl rfl⟩
  split
  case isFalse => exact ⟨false, [], by simp [pure_apply], .inl rfl⟩
  obtain ⟨_, _, hc⟩ := h.call (.unlink t.path) s
  exact ⟨true, [.unlink t.path], bind_of_some hc, .inr rfl⟩

theorem readRequest_append (h : s.input = encode ⟨n, name.length⟩ ++ (name ++ rest))
    (hi : n < 256 ^ 4) (hn : name.length < 256 ^ 4) :
    readRequest s = if name.length ≤ 1024 then (some (n, ofBuffer name), { s with input := rest })
      else onFail fail (failMessage (ofString "invalid namelen")) { s with input := name ++ rest } := by
  have hr := readx_append h (encode_length _)
  rw [readRequest, bind_of_some (onFail_eq_some_iff.mpr hr), decode_encode hi hn]
  split
  case isTrue hl  => rw [if_neg (not_le.mpr hl)]
  case isFalse hl =>
    rw [if_pos (not_lt.mp hl)]
    have hr := @readx_append { s with input := name ++ rest } name rest _ rfl rfl
    exact bind_of_some (onFail_eq_some_iff.mpr hr)

-- A regular file: the type bits say so, and there are no bits above them.
structure RegularMode (mode : Nat) : Prop where
  regular : sIsreg mode
  bits    : mode < 2 ^ 16

namespace RegularMode

variable {mode : Nat}

theorem ge (h : RegularMode mode) : 0o100000 ≤ mode := by
  have hr : mode &&& sIfmt = 0o100000 := by simpa [sIsreg] using h.regular
  exact hr ▸ and_le_left

theorem sendName_eq (h : RegularMode mode) : sendName rpath mode = rpath ++ comma :: decimal mode := by
  have hb := h.bits
  rw [sendName, i32_of_lt (by omega), printInt, if_neg (by omega), Int.natAbs_natCast]

theorem sendName_length (h : RegularMode mode) : (sendName rpath mode).length = rpath.length + 6 := by
  have hl : log 10 mode = 4 := by
    have := h.ge
    have := h.bits
    exact log_eq_of_pow_le_of_lt_pow (by omega) (by omega)
  rw [h.sendName_eq, length_append, length_cons, decimal_length (by have := h.ge; omega), hl]

theorem not_zero_mem_sendName (h : RegularMode mode) (hz : 0 ∉ rpath) : 0 ∉ sendName rpath mode := by
  rw [h.sendName_eq]
  intro hm
  cases mem_append.mp hm
  case inl hm => exact hz hm
  case inr hm =>
    cases mem_cons.mp hm
    case inl hm => exact absurd hm (by decide)
    case inr hm => exact absurd (mem_decimal hm).left (by decide)

theorem target_sendName (env : Env) (h : RegularMode mode) :
    target env (sendName rpath mode) = ⟨rpath, mode % 0o1000, false, true⟩ := by
  have hb := h.bits
  have hg := h.ge
  have hc : comma ∉ decimal mode := fun hm => absurd (mem_decimal hm).left (by decide)
  have hm := strtoul_decimal (show mode ≠ 0 by omega)
    (le_trans (show mode ≤ 2 ^ 32 - 1 by omega) env.ulongMax_ge)
  have hl : sIslnk mode = false := by
    have hr : mode &&& sIfmt = 0o100000 := by simpa [sIsreg] using h.regular
    simp [sIslnk, hr]
  rw [target, h.sendName_eq, splitLast_append _ hc]
  simp only [hm, u32_of_lt (show mode < 2 ^ 32 by omega), hl]
  rfl

end RegularMode

def FsCall.opens : FsCall → Bool
  | openNew .. | openOld .. | openRead .. => true
  | _ => false

def FsCall.written : FsCall → Option (Nat × List UInt8)
  | write fd bytes => some (fd, bytes)
  | _ => none

-- Between two states, only this file was opened, with this mode, and only this content written to it.
def Stores (env : Env) (s s' : Service) (path : List UInt8) (mode : Nat) (content : List UInt8) :
    Prop :=
  ∃ before after fd, ∃ chunks : List (List UInt8),
    s'.calls = s.calls ++ (before ++ .openNew path mode :: after) ∧
    env.reply (s.calls ++ before) (.openNew path mode) = .ok fd ∧
    (before ++ after).filter FsCall.opens = [] ∧
    (before ++ after).filterMap FsCall.written = chunks.map (fd, ·) ∧ chunks.flatten = content

def openMode (env : Env) (rpath : List UInt8) (mode : Nat) : Nat :=
  (configured env rpath (skipSlash rpath) false (copyPermissions (mode % 0o1000))).2.2

-- The mode of a file in the table.
def fileMode (env : Env) (path : List UInt8) : Nat :=
  match env.tables.androidFiles.entries.find? fun pc => pc.fits false path with
  | some pc => pc.mode
  | none => env.tables.androidFiles.mode

-- What the user may do the group may do, and what the group may do all may do.
def Widening (mode : Nat) : Prop :=
  ∀ i < 3, (mode.testBit (6 + i) → mode.testBit (3 + i)) ∧ (mode.testBit (3 + i) → mode.testBit i)

-- The permissions of the mode are those in the table, or for other paths ones that are the same after
-- they are copied.
def KeepsMode (env : Env) (rpath : List UInt8) (mode : Nat) : Prop :=
  if isOnSystem rpath || isOnVendor rpath then
    fileMode env (skipSlash (skipSlash rpath)) = mode % 0o1000
  else
    Widening mode

theorem copyPermissions_spec : ∀ mode < 0o1000, copyPermissions mode < 0o1000 ∧
    (copyPermissions mode = mode ↔ ∀ i < 3, (mode.testBit (6 + i) → mode.testBit (3 + i)) ∧
      (mode.testBit (3 + i) → mode.testBit i)) := by
  decide +kernel

theorem widening_mod (mode : Nat) : Widening (mode % 0o1000) ↔ Widening mode := by
  have hb (i : Nat) (hi : i < 9) : (mode % 2 ^ 9).testBit i = mode.testBit i := by
    rw [testBit_mod_two_pow, decide_eq_true hi, Bool.true_and]
  refine forall₂_congr fun i hi => ?_
  rw [show 0o1000 = 2 ^ 9 from rfl, hb _ (by omega), hb _ (by omega), hb _ (by omega)]

theorem fsConfig_mode (h : mode < 0o10000) :
    (FsConfig.fsConfig env.tables path false mode).2.2 = fileMode env (skipSlash path) := by
  rw [FsConfig.fsConfig, fileMode, mod_eq_of_lt h, Nat.sub_self, if_neg Bool.false_ne_true]
  cases env.tables.androidFiles.entries.find? fun pc => pc.fits false (skipSlash path)
  case none    => exact zero_or _
  case some pc => exact zero_or _

theorem openMode_eq_iff : openMode env rpath mode = mode % 0o1000 ↔ KeepsMode env rpath mode := by
  have hlt : mode % 0o1000 < 0o1000 := mod_lt _ (by decide)
  obtain ⟨hc, he⟩ := copyPermissions_spec _ hlt
  rw [openMode, configured, KeepsMode]
  split
  case isTrue  => rw [fsConfig_mode (by omega)]
  case isFalse => exact he.trans (widening_mod mode)

theorem Stores.mode_unique (h₁ : Stores env s s' path mode₁ c₁) (h₂ : Stores env s s' path mode₂ c₂) :
    mode₁ = mode₂ := by
  obtain ⟨b₁, a₁, _, _, hc₁, _, ho₁, _⟩ := h₁
  obtain ⟨b₂, a₂, _, _, hc₂, _, ho₂, _⟩ := h₂
  have ho₂ := filter_eq_nil_iff.mp ho₂
  rw [hc₁] at hc₂
  have he := append_cancel_left hc₂
  have hm : openNew path mode₁ ∈ b₂ ++ .openNew path mode₂ :: a₂ := by simp [← he]
  cases mem_append.mp hm
  case inl hm => exact absurd rfl (ho₂ _ (mem_append_left _ hm))
  case inr hm =>
    cases mem_cons.mp hm
    case inl hm => exact (openNew.inj hm).right
    case inr hm => exact absurd rfl (ho₂ _ (mem_append_right _ hm))

theorem stores_fileCalls (hl : l = [] ∨ l = [.unlink path])
    (hf : env.reply (s.calls ++ l) (.openNew path mode) = .ok fd)
    (hs : s'.calls = s.calls ++ l ++ fileCalls path uid gid mode fd mtime chunks) :
    Stores env s s' path mode chunks.flatten := by
  refine ⟨l, [.fchown fd uid gid, .fchmod fd mode] ++ chunks.map (.write fd) ++
    [.close fd, .restorecon path, .utime path mtime], fd, chunks, ?_, hf, ?_, ?_, rfl⟩
  · simp [hs, fileCalls]
  · have hw : (chunks.map (write fd)).filter opens = [] := by
      simp [filter_map, Function.comp_def, opens]
    have hl : l.filter opens = [] := by
      cases hl
      case inl hl => rw [hl]; rfl
      case inr hl => rw [hl]; rfl
    rw [filter_append, filter_append, filter_append, hw, hl]
    rfl
  · have hw : (chunks.map (write fd)).filterMap written = chunks.map (fd, ·) := by
      simp [filterMap_map, Function.comp_def, written]
    have hl : l.filterMap written = [] := by
      cases hl
      case inl hl => rw [hl]; rfl
      case inr hl => rw [hl]; rfl
    rw [filterMap_append, filterMap_append, filterMap_append, hw, hl]
    exact append_nil _

theorem sendBytes_append (h : s.input = sendBytes rpath mode mtime chunks ++ rest) :
    s.input = encode ⟨idSend, (sendName rpath mode).length⟩ ++ (sendName rpath mode ++
      (dataMessages chunks ++ (encode ⟨idDone, mtime⟩ ++ rest))) := by
  rw [h, sendBytes]
  simp only [append_assoc]

theorem serveRequest_sendBytes (he : Healthy env) (hs : s.client = none) (hm : RegularMode mode)
    (hz : 0 ∉ rpath) (hc : ∀ b ∈ chunks, b ≠ [] ∧ b.length ≤ syncDataMax) (ht : mtime < 256 ^ 4)
    (hi : s.input = sendBytes rpath mode mtime chunks ++ rest) (hl : rpath.length + 6 ≤ 1024) :
    ∃ s', serveRequest env s = (some (), s') ∧ s'.input = rest ∧
      Stores env s s' rpath (openMode env rpath mode) chunks.flatten := by
  have hn := @RegularMode.sendName_length mode rpath hm
  have hr := readRequest_append (sendBytes_append hi) (by decide) (by omega)
  rw [if_pos (by omega), ofBuffer_of_not_mem (hm.not_zero_mem_sendName hz)] at hr
  obtain ⟨b, l, hu, hl⟩ := he.removeOld ⟨rpath, mode % 0o1000, false, true⟩
    { s with input := dataMessages chunks ++ (encode ⟨idDone, mtime⟩ ++ rest) }
  rw [serveRequest, bind_of_some hr]
  simp only [show idSend ≠ idStat by decide, show idSend ≠ idList by decide, ite_false, ite_true]
  rw [doSend, get_bind, if_neg (by simp [he.room]), hm.target_sendName, bind_of_some hu]
  let ids := configured env rpath (skipSlash rpath) false (copyPermissions (mode % 0o1000))
  obtain ⟨fd, hf, hh⟩ := @handleSendFile_eq env rpath { s with
      input := dataMessages chunks ++ (encode ⟨idDone, mtime⟩ ++ rest)
      calls := s.calls ++ l } chunks mtime rest ids.2.2 ids.1 ids.2.1 b he hs hc rfl ht
  exact ⟨_, hh, rfl, stores_fileCalls hl hf rfl⟩

theorem serveRequest_long (hm : RegularMode mode) (ha : rpath.length ≤ 1024)
    (hi : s.input = sendBytes rpath mode mtime chunks ++ rest) (hl : 1018 < rpath.length) :
    (serveRequest env s).fst = none := by
  have hn := @RegularMode.sendName_length mode rpath hm
  have hr := readRequest_append (sendBytes_append hi) (by decide) (by omega)
  rw [if_neg (by omega)] at hr
  rw [serveRequest, bind_apply, hr]
  rfl

-- The device opens exactly this path with the permissions of the mode, writes exactly the content, and is
-- left at the next request.
def Pushes (env : Env) (s : Service) (rpath : List UInt8) (mode : Nat) (content rest : List UInt8) :
    Prop :=
  ∃ s', serveRequest env s = (some (), s') ∧ s'.input = rest ∧
    Stores env s s' rpath (mode % 0o1000) content

-- A local file whose content is read in these pieces, and a request to send it.
structure Sends (host : Host) (lpath rpath : List UInt8) (mode mtime : Nat)
    (chunks : List (List UInt8)) : Prop where
  reads : host.reads lpath = some (chunks.map .ok)
  chunk : ∀ b ∈ chunks, b ≠ [] ∧ b.length ≤ syncDataMax
  mode : RegularMode mode
  mtime : mtime < 2 ^ 32
  string : 0 ∉ rpath
  accepted : rpath.length ≤ 1024

theorem pushes_iff {c : Client} (h : Sends host lpath rpath mode mtime chunks)
    (hd : c.device = none) (ho : c.output = []) (he : Healthy env) (hc : s.client = none)
    (hi : s.input = (syncSend host lpath rpath mtime mode c).snd.output ++ rest) :
    Pushes env s rpath mode chunks.flatten rest ↔
      rpath.length ≤ 1018 ∧ KeepsMode env rpath mode := by
  rw [syncSend_output hd h.accepted h.mode.regular h.reads, ho, nil_append] at hi
  constructor
  case mp =>
    rintro ⟨s', hs, _, ht⟩
    have hn : rpath.length ≤ 1018 := by
      by_contra hn
      have hf := @serveRequest_long env _ _ _ _ _ _ h.mode h.accepted hi (not_le.mp hn)
      simp [hs] at hf
    obtain ⟨s₁, hs₁, _, ht₁⟩ := serveRequest_sendBytes he hc h.mode h.string h.chunk h.mtime hi (by omega)
    rw [hs] at hs₁
    obtain rfl : s' = s₁ := (Prod.mk.inj hs₁).right
    exact ⟨hn, openMode_eq_iff.mp (ht₁.mode_unique ht)⟩
  case mpr =>
    rintro ⟨hn, hm⟩
    rw [Pushes, ← openMode_eq_iff.mpr hm]
    exact serveRequest_sendBytes he hc h.mode h.string h.chunk h.mtime hi (by omega)

-- A machine with a file that holds one byte.
def oneByteHost : Host where
  reply _ _  := true
  reads _    := some [.ok [1]]
  readlink _ := none

def newClient : Client where
  input  := []
  output := []
  device := none
  calls  := []
  heard  := []
  huge   := false

def sentTo (rpath : List UInt8) : Service where
  input  := (syncSend oneByteHost (ofString "f") rpath 0 0o100777 newClient).snd.output
  output := []
  client := none
  errno  := 0
  calls  := []

theorem sends_oneByte (h₁ : 0 ∉ rpath) (h₂ : rpath.length ≤ 1024) :
    Sends oneByteHost (ofString "f") rpath 0o100777 0 [[1]] where
  reads := rfl
  chunk := by simp [syncDataMax]
  mode := ⟨by decide, by decide⟩
  mtime := by decide
  string := h₁
  accepted := h₂

theorem healthy_deviceOf : Healthy (deviceOf fun _ => .ok 3) where
  reply _ _ := ⟨3, rfl⟩
  room _    := rfl

theorem pushes_oneByte :
    Pushes (deviceOf fun _ => .ok 3) (sentTo (ofString "/a,b")) (ofString "/a,b") 0o100777 [1] [] :=
  (pushes_iff (sends_oneByte (by decide +kernel) (by decide +kernel)) rfl rfl healthy_deviceOf rfl
    (append_nil _).symm).mpr ⟨by decide +kernel, openMode_eq_iff.mp (by decide +kernel)⟩

theorem not_pushes_of_long (hz : 0 ∉ rpath) (ha : rpath.length ≤ 1024) (hl : 1018 < rpath.length) :
    ¬Pushes (deviceOf fun _ => .ok 3) (sentTo rpath) rpath 0o100777 [1] [] := by
  have h := sends_oneByte hz ha
  have hi : (sentTo rpath).input = sendBytes rpath 0o100777 0 [[1]] ++ [] := by
    have ho := @syncSend_output 0o100777 oneByteHost (ofString "f") rpath 0 [[1]] newClient rfl ha
      h.mode.regular h.reads
    rw [show newClient.output = [] from rfl, nil_append] at ho
    rw [append_nil, sentTo, ho]
  rintro ⟨s', hs, _⟩
  have hf := @serveRequest_long (deviceOf fun _ => .ok 3) _ _ _ _ _ _ h.mode h.accepted hi hl
  rw [hs] at hf
  exact Option.some_ne_none _ hf

theorem not_pushes_replicate (ha : n ≤ 1024) (hl : 1018 < n) :
    ¬Pushes (deviceOf fun _ => .ok 3) (sentTo (replicate n 97)) (replicate n 97) 0o100777 [1] [] := by
  have hn : (replicate n (97 : UInt8)).length = n := length_replicate
  have hz : 0 ∉ replicate n (97 : UInt8) := by simp
  exact not_pushes_of_long hz (hn.symm ▸ ha) (hn.symm ▸ hl)

-- A path of 1019 bytes, which the client accepts.
theorem not_pushes_longPath :
    ¬Pushes (deviceOf fun _ => .ok 3) (sentTo (List.replicate 1019 97)) (List.replicate 1019 97)
      0o100777 [1] [] :=
  not_pushes_replicate (by decide) (by decide)

end Adb.Sync
