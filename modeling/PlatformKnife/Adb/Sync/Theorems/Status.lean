import PlatformKnife.Adb.Sync.Service

namespace Adb.Sync

open CString Fallible

variable {env : Env} {path : List UInt8} {s s' s₁ : Service} {fd fd' : Option Nat}

-- The steps of the service that send nothing.
structure Silent (s s' : Service) : Prop where
  output : s'.output = s.output
  client : s'.client = s.client

namespace Silent

@[refl]
theorem refl (s : Service) : Silent s s :=
  ⟨rfl, rfl⟩

@[trans]
theorem trans (h₁ : Silent s s₁) (h₂ : Silent s₁ s') : Silent s s' :=
  ⟨h₂.output.trans h₁.output, h₂.client.trans h₁.client⟩

end Silent

theorem call_silent (env : Env) (c : FsCall) (s : Service) : Silent s (call env c s).snd := by
  rw [call]
  split <;> exact ⟨rfl, rfl⟩

theorem call_some (h : call env c s = (some r, s')) : Silent s s' := by
  have hs := call_silent env c s
  rw [h] at hs
  exact hs

theorem closeFile_silent (h : closeFile env fd₁ s = (some (), s')) : Silent s s' := by
  obtain ⟨_, s₁, hc, h⟩ := bind_eq_some_iff.mp h
  exact (pure_eq_some_iff.mp h).right ▸ call_some hc

theorem writexFile_silent (h : writexFile env fd₁ bytes s = (some r, s')) : Silent s s' := by
  rw [writexFile] at h
  split at h
  case isTrue  => rw [(pure_eq_some_iff.mp h).right]
  case isFalse => exact call_some h

theorem mkdirsLoop_silent (h : mkdirsLoop env ids front l s = (some b, s')) : Silent s s' := by
  induction l generalizing ids front s
  case nil =>
    rw [mkdirsLoop, pure_eq_some_iff] at h
    rw [h.right]
  case cons c l hi =>
    rw [mkdirsLoop] at h
    split at h
    case isFalse => exact hi h
    obtain ⟨r, s₁, hr, h⟩ := bind_eq_some_iff.mp h
    rw [get_bind] at h
    refine (call_some hr).trans ?_
    split at h
    case isTrue => rw [(pure_eq_some_iff.mp h).right]
    split at h
    case isFalse => exact hi h
    obtain ⟨r, s₂, hr, h⟩ := bind_eq_some_iff.mp h
    refine (call_some hr).trans ?_
    split at h
    case isTrue  => rw [(pure_eq_some_iff.mp h).right]
    obtain ⟨_, s₃, hr, h⟩ := bind_eq_some_iff.mp h
    exact (call_some hr).trans (hi h)

theorem mkdirs_silent (h : mkdirs env path s = (some b, s')) : Silent s s' := by
  unfold mkdirs at h
  split at h
  case h_1 => rw [(pure_eq_some_iff.mp h).right]
  case h_2 =>
    split at h
    case isTrue  => exact mkdirsLoop_silent h
    case isFalse => rw [(pure_eq_some_iff.mp h).right]

-- A number of status messages, and nothing else, was sent between two states.
def Emits (s s' : Service) (n : Nat) : Prop :=
  ∃ l, s'.output = s.output ++ l ∧ (∀ r ∈ l, r.isStatus) ∧ l.length = n

namespace Emits

theorem of_silent (h : Silent s s') : Emits s s' 0 :=
  ⟨[], by simp [h.output], by simp, rfl⟩

theorem trans (h₁ : Emits s s₁ m) (h₂ : Emits s₁ s' n) : Emits s s' (m + n) := by
  obtain ⟨l₁, ho₁, hs₁, hl₁⟩ := h₁
  obtain ⟨l₂, ho₂, hs₂, hl₂⟩ := h₂
  refine ⟨l₁ ++ l₂, by rw [ho₂, ho₁, List.append_assoc], ?_, by simp [hl₁, hl₂]⟩
  intro r hr
  cases List.mem_append.mp hr
  case inl hr => exact hs₁ r hr
  case inr hr => exact hs₂ r hr

theorem unique (h₁ : Emits s s' m) (h₂ : Emits s s' n) : m = n := by
  obtain ⟨l₁, ho₁, _, hl₁⟩ := h₁
  obtain ⟨l₂, ho₂, _, hl₂⟩ := h₂
  rw [ho₁] at ho₂
  rw [← hl₁, ← hl₂, List.append_cancel_left ho₂]

end Emits

theorem send_cases (r : Reply) (s : Service) :
    (∃ s', send r s = (some (), s') ∧ s'.output = s.output ++ [r] ∧ s.client ≠ some 0) ∨
    (send r s = (none, s) ∧ s.client = some 0) := by
  rw [send]
  split
  case h_1 h => exact .inl ⟨_, rfl, rfl, by simp [h]⟩
  case h_2 h => exact .inl ⟨_, rfl, rfl, by simp [h]⟩
  case h_3 h => exact .inr ⟨rfl, h⟩

theorem send_some (hr : r.isStatus) (h : send r s = (some (), s')) : Emits s s' 1 ∧ s.client ≠ some 0 := by
  cases send_cases r s
  case inl hs =>
    obtain ⟨s₁, hs, ho, hc⟩ := hs
    rw [hs] at h
    rw [← (Prod.mk.inj h).right]
    exact ⟨⟨[r], ho, by simpa using hr, rfl⟩, hc⟩
  case inr hs => simp [hs.left] at h

theorem failErrno_some (h : failErrno env s = (some (), s')) : Emits s s' 1 ∧ s.client ≠ some 0 := by
  rw [failErrno, get_bind] at h
  exact send_some rfl h

theorem failErrno_snd (env : Env) (s : Service) :
    Emits s (failErrno env s).snd 1 ∨ (failErrno env s).snd.client = some 0 := by
  rw [failErrno, get_bind, failMessage]
  cases send_cases (.fail (env.strerror s.errno)) s
  case inl hs =>
    obtain ⟨s₁, hs, _⟩ := hs
    exact .inl (hs ▸ (send_some rfl hs).left)
  case inr hs => exact .inr (hs.left ▸ hs.right)

-- The directory of the file is missing and cannot be made.
def LacksDir (env : Env) (path : List UInt8) (mode : Nat) (s : Service) : Prop :=
  ∃ s₁ s₂, call env (.openNew path mode) s = (some none, s₁) ∧ s₁.errno = enoent ∧
    mkdirs env path s₁ = (some false, s₂)

theorem openNewFile_emits (h : openNewFile env path mode s = (some fd, s')) :
    (LacksDir env path mode s ∧ Emits s s' 1) ∨ (¬LacksDir env path mode s ∧ Silent s s') := by
  obtain ⟨r, s₁, hr, h⟩ := bind_eq_some_iff.mp h
  have hc := call_some hr
  rw [get_bind] at h
  split at h
  case isFalse hn =>
    rw [pure_eq_some_iff] at h
    refine .inr ⟨?_, h.right ▸ hc⟩
    rintro ⟨s₂, _, hr', he, _⟩
    rw [hr] at hr'
    simp_all
  case isTrue hn =>
    obtain ⟨hn, he⟩ : r = none ∧ s₁.errno = enoent := by simpa using hn
    obtain ⟨b, s₂, hb, h⟩ := bind_eq_some_iff.mp h
    have hm := mkdirs_silent hb
    split at h
    case isTrue hb' =>
      refine .inr ⟨?_, hc.trans (hm.trans (call_some h))⟩
      rintro ⟨s₃, _, hr', _, hf⟩
      rw [hr] at hr'
      simp_all
    case isFalse hb' =>
      obtain ⟨_, s₃, hf, h⟩ := bind_eq_some_iff.mp h
      have hs := (pure_eq_some_iff.mp h).right
      refine .inl ⟨⟨s₁, s₂, hn ▸ hr, he, by simpa [hb'] using hb⟩, ?_⟩
      simpa using hs ▸ (Emits.of_silent (hc.trans hm)).trans (failErrno_some hf).left

theorem openFile_emits (h : openFile env path mode s = (some fd, s')) :
    (LacksDir env path mode s ∧ Emits s s' 1) ∨ (¬LacksDir env path mode s ∧ Silent s s') := by
  obtain ⟨r, s₁, hr, h⟩ := bind_eq_some_iff.mp h
  rw [get_bind] at h
  have hs : Silent s₁ s' := by
    split at h
    case isTrue  => exact call_some h
    case isFalse => rw [(pure_eq_some_iff.mp h).right]
  cases openNewFile_emits hr
  case inl hl => exact .inl ⟨hl.left, hl.right.trans (.of_silent hs)⟩
  case inr hl => exact .inr ⟨hl.left, hl.right.trans hs⟩

-- A failure to set the owner is reported, but the file is received all the same. The report is not checked.
theorem prepareFile_some (h : prepareFile env uid gid mode (some fd₁) s = (some (), s')) :
    ((call env (.fchown fd₁ uid gid) s).fst ≠ some none ∧ Silent s s') ∨
    ((call env (.fchown fd₁ uid gid) s).fst = some none ∧ (Emits s s' 1 ∨ s'.client = some 0)) := by
  obtain ⟨r, s₁, hr, h⟩ := bind_eq_some_iff.mp h
  have hc := call_some hr
  rw [hr]
  split at h
  case isFalse hn =>
    obtain ⟨_, s₂, hm, h⟩ := bind_eq_some_iff.mp h
    refine .inl ⟨by simpa using hn, hc.trans ?_⟩
    exact (pure_eq_some_iff.mp h).right ▸ call_some hm
  case isTrue hn =>
    rw [ignore_bind, modify_bind] at h
    obtain ⟨_, s₂, hm, h⟩ := bind_eq_some_iff.mp h
    have hm := (pure_eq_some_iff.mp h).right ▸ call_some hm
    refine .inr ⟨by simpa using hn, ?_⟩
    cases failErrno_snd env s₁
    case inl he =>
      have hs := (Emits.of_silent hc).trans (he.trans (.of_silent ⟨hm.output, hm.client⟩))
      exact .inl (by simpa using hs)
    case inr he => exact .inr (hm.client.trans he)

theorem finishFile_some (h : finishFile env path t (some fd₁) s = (some (), s')) :
    Emits s s' 1 ∧ s.client ≠ some 0 := by
  obtain ⟨_, s₁, h₁, h⟩ := bind_eq_some_iff.mp h
  obtain ⟨_, s₂, h₂, h⟩ := bind_eq_some_iff.mp h
  obtain ⟨_, s₃, h₃, h⟩ := bind_eq_some_iff.mp h
  have hs := (closeFile_silent h₁).trans ((call_some h₂).trans (call_some h₃))
  obtain ⟨he, hc⟩ := send_some rfl h
  exact ⟨by simpa using (Emits.of_silent hs).trans he, hs.client ▸ hc⟩

theorem writeFile_cases (h : writeFile env path doUnlink bytes fd s = (some fd', s')) :
    (fd' = fd ∧ Silent s s') ∨ (fd' = none ∧ fd ≠ none ∧ Emits s s' 1 ∧ s.client ≠ some 0) := by
  obtain _ | fd := fd
  · obtain ⟨hf, hs⟩ := pure_eq_some_iff.mp h
    exact .inl ⟨hf.symm, hs ▸ .refl s⟩
  obtain ⟨r, s₁, hr, h⟩ := bind_eq_some_iff.mp h
  have hw := writexFile_silent hr
  split at h
  case h_1 =>
    obtain ⟨hf, hs⟩ := pure_eq_some_iff.mp h
    exact .inl ⟨hf.symm, hs ▸ hw⟩
  case h_2 =>
    rw [get_bind] at h
    obtain ⟨_, s₂, hc, h⟩ := bind_eq_some_iff.mp h
    have hc := hw.trans (closeFile_silent hc)
    -- Whether the file is removed or not, the failure is reported.
    have hr {s₃ : Service} (hs : Silent s s₃) (h : (do
        modify fun s' : Service => { s' with errno := s₁.errno }
        failErrno env
        pure none : Serve (Option Nat)) s₃ = (some fd', s')) :
        fd' = none ∧ some fd ≠ none ∧ Emits s s' 1 ∧ s.client ≠ some 0 := by
      rw [modify_bind] at h
      obtain ⟨_, s₄, he, h⟩ := bind_eq_some_iff.mp h
      obtain ⟨hf, hs'⟩ := pure_eq_some_iff.mp h
      obtain ⟨he, hn⟩ := failErrno_some he
      have hm : Emits s s₄ 1 := by simpa using (Emits.of_silent ⟨hs.output, hs.client⟩).trans he
      exact ⟨hf.symm, nofun, hs' ▸ hm, hs.client ▸ hn⟩
    split at h
    case isFalse => exact .inr (hr hc h)
    obtain ⟨_, s₃, hu, h⟩ := bind_eq_some_iff.mp h
    exact .inr (hr (hc.trans (call_some hu)) h)

theorem readx_silent (h : readx n s = (some l, s')) : Silent s s' := by
  rw [readx] at h
  split at h
  case isTrue  => exact (Prod.mk.inj h).right ▸ ⟨rfl, rfl⟩
  case isFalse => simp at h

theorem receiveData_cases (h : receiveData env path doUnlink n fd s = (some (fd', t), s')) :
    (fd' = fd ∧ Silent s s') ∨ (fd' = none ∧ fd ≠ none ∧ Emits s s' 1 ∧ s.client ≠ some 0) := by
  induction n generalizing fd s
  case zero => simp [receiveData] at h
  case succ n hi =>
    obtain ⟨l, s₁, hr, h⟩ := bind_eq_some_iff.mp h
    have hr := readx_silent (onFail_eq_some_iff.mp hr)
    split at h
    case isTrue =>
      obtain ⟨hf, hs⟩ := pure_eq_some_iff.mp h
      exact .inl ⟨(Prod.mk.inj hf).left.symm, hs ▸ hr⟩
    split at h
    case isTrue => exact absurd h (by simp [onFail_eq_some_iff])
    split at h
    case isTrue => exact absurd h (by simp [onFail_eq_some_iff])
    obtain ⟨bytes, s₂, hb, h⟩ := bind_eq_some_iff.mp h
    have hb := hr.trans (readx_silent (onFail_eq_some_iff.mp hb))
    obtain ⟨fd₁, s₃, hw, h⟩ := bind_eq_some_iff.mp h
    cases writeFile_cases hw
    case inl hw =>
      have hs := hb.trans hw.right
      have hi := hw.left ▸ hi h
      cases hi
      case inl hi => exact .inl ⟨hi.left, hs.trans hi.right⟩
      case inr hi =>
        obtain ⟨hn, hf, he, hc⟩ := hi
        exact .inr ⟨hn, hf, by simpa using (Emits.of_silent hs).trans he, hs.client ▸ hc⟩
    case inr hw =>
      obtain ⟨hn, hf, he, hc⟩ := hw
      have he : Emits s s₃ 1 := by simpa using (Emits.of_silent hb).trans he
      cases hi h
      case inl hi => exact .inr ⟨hi.left.trans hn, hf, he.trans (.of_silent hi.right), hb.client ▸ hc⟩
      case inr hi => exact absurd hn hi.right.left

theorem receiveData_finishFile (hr : receiveData env path doUnlink n (some fd₁) s = (some (fd', t), s₁))
    (hf : finishFile env path t fd' s₁ = (some (), s')) : Emits s s' 1 ∧ s.client ≠ some 0 := by
  cases receiveData_cases hr
  case inl h =>
    rw [h.left] at hf
    obtain ⟨hf, hc⟩ := finishFile_some hf
    exact ⟨by simpa using (Emits.of_silent h.right).trans hf, h.right.client ▸ hc⟩
  case inr h =>
    obtain ⟨hn, _, hm, hc⟩ := h
    rw [hn] at hf
    exact ⟨(pure_eq_some_iff.mp hf).right ▸ hm, hc⟩

-- The owner of the file can be set once it is open.
def TakesOwner (env : Env) (path : List UInt8) (uid gid mode : Nat) (s : Service) : Prop :=
  ∀ fd s₁, openFile env path mode s = (some (some fd), s₁) →
    (call env (.fchown fd uid gid) s₁).fst ≠ some none

theorem handleSendFile_emits (h : handleSendFile env path uid gid mode doUnlink s = (some (), s')) :
    ∃ m n, Emits s s' (m + n + 1) ∧ (m = 0 ↔ ¬LacksDir env path mode s) ∧
      (n = 0 ↔ TakesOwner env path uid gid mode s) := by
  obtain ⟨fd, s₁, ho, h⟩ := bind_eq_some_iff.mp h
  obtain ⟨_, s₂, hp, h⟩ := bind_eq_some_iff.mp h
  rw [get_bind] at h
  obtain ⟨⟨fd', t⟩, s₃, hr, hf⟩ := bind_eq_some_iff.mp h
  obtain ⟨m, hm, hl⟩ : ∃ m, Emits s s₁ m ∧ (m = 0 ↔ ¬LacksDir env path mode s) := by
    cases openFile_emits ho
    case inl h => exact ⟨1, h.right, by simp [h.left]⟩
    case inr h => exact ⟨0, .of_silent h.right, by simp [h.left]⟩
  cases fd
  case none =>
    have hp := (failErrno_some hp).left
    cases receiveData_cases hr
    case inr h => exact absurd rfl h.right.left
    case inl h =>
      rw [h.left] at hf
      have hf := (pure_eq_some_iff.mp hf).right ▸ h.right
      refine ⟨m, 0, (hm.trans hp).trans (.of_silent hf), hl, ?_⟩
      simp [TakesOwner, ho]
  case some fd _ =>
    obtain ⟨hf, hg⟩ := receiveData_finishFile hr hf
    have ht : TakesOwner env path uid gid mode s ↔ (call env (.fchown fd uid gid) s₁).fst ≠ some none := by
      simp [TakesOwner, ho]
    cases prepareFile_some hp
    case inl hp => exact ⟨m, 0, (hm.trans (.of_silent hp.right)).trans hf, hl, by simp [ht, hp.left]⟩
    case inr hp =>
      have hp' := hp.right.resolve_right hg
      exact ⟨m, 1, (hm.trans hp').trans hf, hl, by simp [ht, hp.left]⟩

-- The next request sends a file with this name, and with a mode that is not that of a symbolic link.
structure SendsFile (env : Env) (s : Service) (name : List UInt8) (s₁ : Service) : Prop where
  request : readRequest s = (some (idSend, name), s₁)
  file    : (target env name).isLink = false

-- What one status asks of the file system: a missing directory can be made, and the owner of an open file
-- set.
def Clean (env : Env) (name : List UInt8) (s : Service) : Prop :=
  let t := target env name
  let c := configured env t.path (FsConfig.skipSlash t.path) false (copyPermissions t.mode)
  let s := (removeOld env t s).snd
  ¬LacksDir env t.path c.2.2 s ∧ TakesOwner env t.path c.1 c.2.1 c.2.2 s

theorem readRequest_silent (h : readRequest s = (some r, s')) : Silent s s' := by
  obtain ⟨l, s₁, hr, h⟩ := bind_eq_some_iff.mp h
  have hr := readx_silent (onFail_eq_some_iff.mp hr)
  split at h
  case isTrue  => exact absurd h (by simp [onFail_eq_some_iff])
  obtain ⟨name, s₂, hn, h⟩ := bind_eq_some_iff.mp h
  exact (pure_eq_some_iff.mp h).right ▸ hr.trans (readx_silent (onFail_eq_some_iff.mp hn))

theorem removeOld_silent (h : removeOld env t s = (some b, s')) : Silent s s' := by
  rw [removeOld, get_bind] at h
  split at h
  case isTrue => rw [(pure_eq_some_iff.mp h).right]
  split at h
  case isFalse => rw [(pure_eq_some_iff.mp h).right]
  obtain ⟨_, s₁, hc, h⟩ := bind_eq_some_iff.mp h
  exact (pure_eq_some_iff.mp h).right ▸ call_some hc

theorem exists_status_iff_emits : (∃ r, r.isStatus ∧ s'.output = s.output ++ [r]) ↔ Emits s s' 1 := by
  constructor
  case mp  =>
    rintro ⟨r, hr, ho⟩
    exact ⟨[r], ho, by simpa using hr, rfl⟩
  case mpr =>
    rintro ⟨l, ho, hs, hl⟩
    obtain ⟨r, hr⟩ := List.length_eq_one_iff.mp hl
    exact ⟨r, hs r (by simp [hr]), hr ▸ ho⟩

-- After a request to send a file, the service goes on with one status exactly if the file system is clean.
theorem one_status_iff (hf : SendsFile env s name s₁) (h : serveRequest env s = (some (), s')) :
    (∃ r, r.isStatus ∧ s'.output = s.output ++ [r]) ↔ Clean env name s₁ := by
  rw [serveRequest, bind_of_some hf.request] at h
  simp only [show idSend ≠ idStat by decide, show idSend ≠ idList by decide, ite_false, ite_true] at h
  rw [doSend, get_bind] at h
  split at h
  case isTrue => simp at h
  obtain ⟨doUnlink, s₂, hu, h⟩ := bind_eq_some_iff.mp h
  rw [if_neg (by simp [hf.file])] at h
  have hs := (readRequest_silent hf.request).trans (removeOld_silent hu)
  obtain ⟨m, n, he, hm, hn⟩ := handleSendFile_emits h
  have he := (Emits.of_silent hs).trans he
  have hc : Clean env name s₁ ↔ m = 0 ∧ n = 0 := by
    rw [Clean, hu]
    exact and_congr hm.symm hn.symm
  rw [exists_status_iff_emits, hc]
  constructor
  case mp =>
    intro h1
    have := he.unique h1
    omega
  case mpr =>
    rintro ⟨hm, hn⟩
    simpa [hm, hn] using he

-- A device without files, on which calls are answered in this way.
def deviceOf (reply : FsCall → Except Nat Nat) : Env where
  reply _ := reply
  lstat _ _ := none
  readdir _ _ := none
  reads _ _ := []
  strerror _    := ofString "failure"
  storageFull _ := false
  stale _ _     := []
  tables := ⟨⟨[], 0o755, 0, 0⟩, ⟨[], 0o644, 0, 0⟩⟩
  ulongMax := 2 ^ 32 - 1
  ulongMax_ge := Nat.le_refl _

-- A client that sends the byte 1 to `/a`.
def sendOneByte : Service where
  input  := Header.encode ⟨idSend, 8⟩ ++ ofString "/a,33188" ++ Header.encode ⟨idData, 1⟩ ++ [1] ++
    Header.encode ⟨idDone, 0⟩
  output := []
  client := none
  errno  := 0
  calls  := []

theorem clean_sendOneByte :
    Clean (deviceOf fun _ => .ok 3) (ofString "/a,33188") (readRequest sendOneByte).snd := by
  have hf : SendsFile (deviceOf fun _ => .ok 3) sendOneByte (ofString "/a,33188")
      (readRequest sendOneByte).snd := by
    constructor <;> decide +kernel
  have h : serveRequest (deviceOf fun _ => .ok 3) sendOneByte =
      (some (), (serveRequest (deviceOf fun _ => .ok 3) sendOneByte).snd) := by
    decide +kernel
  exact (one_status_iff hf h).mp ⟨.okay, rfl, by decide +kernel⟩

def refusesOwner : FsCall → Except Nat Nat
  | .fchown .. => .error 1
  | _ => .ok 3

-- The OKAY behind the failure is taken for the answer to the next request.
theorem two_statuses_sendOneByte :
    SendsFile (deviceOf refusesOwner) sendOneByte (ofString "/a,33188")
      (readRequest sendOneByte).snd ∧
    (serveRequest (deviceOf refusesOwner) sendOneByte).fst = some () ∧
    (serveRequest (deviceOf refusesOwner) sendOneByte).snd.output = [.fail (ofString "failure"), .okay] ∧
    ¬∃ r, r.isStatus ∧ (serveRequest (deviceOf refusesOwner) sendOneByte).snd.output =
      sendOneByte.output ++ [r] := by
  have ho : (serveRequest (deviceOf refusesOwner) sendOneByte).snd.output =
      [.fail (ofString "failure"), .okay] := by
    decide +kernel
  refine ⟨⟨?_, ?_⟩, ?_, ho, ?_⟩
  case refine_4 =>
    rintro ⟨r, _, h⟩
    rw [ho] at h
    have hl := congrArg List.length h
    simp [show sendOneByte.output = [] from rfl] at hl
  all_goals decide +kernel

end Adb.Sync
