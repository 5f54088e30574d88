import PlatformKnife.Adb.Sync.Theorems.Skip

namespace Adb.Sync

open CInt CString Fallible Client List Header Prod
open DirTree (entriesDepth)
open FsConfig (slash)

-- The pieces of a file that are read before an error.
def chunksOf : List ReadResult → List (List UInt8)
  | .ok bytes :: res => bytes :: chunksOf res
  | _ => []

-- What is sent for a file on the list. Nothing is sent for the content of one that cannot be read.
def contentOf (host : Host) (ci : CopyInfo) : List (List UInt8) :=
  if sIsreg ci.mode then
    match host.reads ci.src with
    | none => []
    | some res => chunksOf res
  else
    match host.readlink ci.src with
    | none => []
    | some target => [target.take (syncDataMax - 1) ++ [0]]

-- All that the client writes to push a file.
def sendRequest (host : Host) (ci : CopyInfo) : List UInt8 :=
  sendBytes ci.dst ci.mode ci.time (contentOf host ci)

def statRequest (ci : CopyInfo) : List UInt8 :=
  encode ⟨idStat, ci.dst.length⟩ ++ ci.dst

-- The reply of the device for the file at this place of the list.
def replyAt (input : List UInt8) (i : Nat) : List UInt8 :=
  (input.drop (16 * i)).take 16

def saysUpToDate (ci : CopyInfo) (msg : List UInt8) : Bool :=
  upToDate ci (word msg 1) (word msg 2) (word msg 3)

-- The file after the reply.
def answered (ci : CopyInfo) (msg : List UInt8) : CopyInfo :=
  if saysUpToDate ci msg then { ci with flag := true } else ci

section

variable {c c' : Client} {l l' : List CopyInfo}

theorem writex_some (h : writex bytes c = (some a, c')) : c'.output = c.output ++ bytes := by
  rw [writex] at h
  split at h
  case h_1 => rw [← (mk.inj h).right]
  case h_2 => rw [← (mk.inj h).right]
  case h_3 => simp at h

-- The bytes were written, or the device takes no more.
def Written (bytes : List UInt8) (c c' : Client) : Prop :=
  c'.output = c.output ++ bytes ∨ c'.device = some 0

theorem Written.trans (h₁ : c₁.output = c.output ++ bytes₁) (h₂ : Written bytes₂ c₁ c') :
    Written (bytes₁ ++ bytes₂) c c' :=
  h₂.imp_left fun h => by rw [h, h₁, append_assoc]

theorem writex_written (bytes : List UInt8) (c : Client) : Written bytes c (writex bytes c).snd := by
  rw [writex]
  split
  case h_1   => exact .inl rfl
  case h_2   => exact .inl rfl
  case h_3 h => exact .inr h

theorem writeChunks_written (res : List ReadResult) (c : Client) :
    Written (dataMessages (chunksOf res)) c (writeChunks res c).snd := by
  induction res generalizing c
  case nil => exact .inl (append_nil _).symm
  case cons r res hi =>
    cases r
    case error e => exact .inl (append_nil _).symm
    case ok bytes =>
      rw [writeChunks, bind_apply]
      split
      case h_1 a c₁ h => exact .trans (writex_some h) (hi c₁)
      case h_2 c₁ h =>
        have hw := writex_written (encode ⟨idData, bytes.length⟩ ++ bytes) c
        rw [writex] at h
        split at h
        case h_3 hd => exact .inr ((mk.inj h).right ▸ hd)
        all_goals simp at h

theorem writeDataFile_written (hm : sIsreg ci.mode) (c : Client) :
    Written (dataMessages (contentOf host ci)) c (writeDataFile host ci.src c).snd := by
  rw [contentOf, if_pos hm, writeDataFile]
  cases host.reads ci.src
  case none     => exact .inl (append_nil _).symm
  case some res => exact writeChunks_written res c

theorem writeDataLink_written (hm : ¬sIsreg ci.mode) (c : Client) :
    Written (dataMessages (contentOf host ci)) c (writeDataLink host ci.src c).snd := by
  rw [contentOf, if_neg hm, writeDataLink]
  obtain _ | target := host.readlink ci.src
  · exact .inl (append_nil _).symm
  simp only [dataMessages, flatMap_singleton]
  exact writex_written _ c

-- A device that takes no more does not take the end of the request either.
theorem finish_output (hw : Written bytes c c₁)
    (h : (writex (encode ⟨idDone, mtime⟩) >>= fun _ => readStatus) c₁ = (some a, c')) :
    c'.output = c.output ++ bytes ++ encode ⟨idDone, mtime⟩ := by
  obtain ⟨_, c₂, h₁, h₂⟩ := bind_eq_some_iff.mp h
  have hs : c'.output = c₂.output := by
    have hk := readStatus_keeps_output c₂
    rwa [h₂] at hk
  rw [hs, writex_some h₁]
  rcases hw with hw | hd
  case inl => rw [hw]
  case inr => simp [writex, hd] at h₁

theorem syncSend_some (h : syncSend host ci.src ci.dst ci.time ci.mode c = (some a, c')) :
    c'.output = c.output ++ sendRequest host ci := by
  rw [syncSend] at h
  split at h
  case isTrue => exact absurd h fail_ne_some
  obtain ⟨_, c₁, h₁, h⟩ := bind_eq_some_iff.mp h
  obtain ⟨_, c₂, h₂, h⟩ := bind_eq_some_iff.mp h
  obtain ⟨_, c₃, h₃, h⟩ := bind_eq_some_iff.mp h
  have hc : c₃.output = c.output ++ (encode ⟨idSend, (sendName ci.dst ci.mode).length⟩ ++
      sendName ci.dst ci.mode) := by
    rw [writex_some h₃, writex_some h₂, writex_some h₁, sendName, length_append]
    simp only [append_assoc]
  have ho : c'.output = c₃.output ++ dataMessages (contentOf host ci) ++ encode ⟨idDone, ci.time⟩ := by
    split_ifs at h with hr hl
    · rw [ignore_bind] at h
      exact finish_output (writeDataFile_written hr c₃) h
    · rw [ignore_bind] at h
      exact finish_output (writeDataLink_written hr c₃) h
    · rw [bind_of_none (fail_apply _)] at h
      simp at h
  rw [ho, hc, sendRequest, sendBytes]
  simp only [append_assoc]

theorem pushFiles_some (h : pushFiles host listonly l report c = (some report', c')) :
    report' = ⟨report.pushed ++ l.filter (!·.flag), report.skipped ++ l.filter (·.flag)⟩ ∧
    (listonly = false → c'.output = c.output ++ (l.filter (!·.flag)).flatMap (sendRequest host)) := by
  induction l generalizing report c
  case nil =>
    obtain ⟨hr, hc⟩ := pure_eq_some_iff.mp h
    simp [← hr, ← hc]
  case cons ci l hi =>
    rw [pushFiles] at h
    split_ifs at h with hf hl
    · simpa [hf] using hi h
    · simpa [hf, hl] using (hi h).left
    · obtain ⟨_, c₁, hs, h⟩ := bind_eq_some_iff.mp h
      simpa [hf, syncSend_some hs] using hi h

theorem writex_input (h : writex bytes c = (some a, c')) : c'.input = c.input := by
  rw [writex] at h
  split at h
  case h_1 => rw [← (mk.inj h).right]
  case h_2 => rw [← (mk.inj h).right]
  case h_3 => simp at h

theorem replyAt_drop (input : List UInt8) (i : Nat) :
    replyAt (input.drop 16) i = replyAt input (i + 1) := by
  rw [replyAt, replyAt, drop_drop, Nat.mul_add_one, add_comm]

theorem startReadtimes_some (h : l.forM (fun ci => syncStartReadtime ci.dst) c = (some a, c')) :
    c'.output = c.output ++ l.flatMap statRequest ∧ c'.input = c.input := by
  induction l generalizing c
  case nil =>
    rw [← (pure_eq_some_iff.mp h).right]
    exact ⟨(append_nil _).symm, rfl⟩
  case cons ci l hi =>
    obtain ⟨_, c₁, h₁, h⟩ := bind_eq_some_iff.mp h
    obtain ⟨_, c₂, h₂, h₁⟩ := bind_eq_some_iff.mp h₁
    obtain ⟨ho, hn⟩ := hi h
    rw [ho, hn, writex_some h₁, writex_some h₂, flatMap_cons, statRequest, writex_input h₁, writex_input h₂]
    exact ⟨by simp only [append_assoc], rfl⟩

theorem syncFinishReadtime_some (h : syncFinishReadtime ci c = (some ci', c')) :
    ci' = answered ci (replyAt c.input 0) ∧ c' = { c with input := c.input.drop 16 } := by
  rw [syncFinishReadtime] at h
  obtain ⟨msg, c₁, hr, h⟩ := bind_eq_some_iff.mp h
  rw [Client.readx] at hr
  split at hr
  case isFalse => simp at hr
  obtain ⟨hm, rfl⟩ := mk.inj hr
  obtain rfl := Option.some.inj hm
  split at h
  case isTrue => exact absurd h fail_ne_some
  rw [answered]
  split at h
  case isTrue hu  =>
    obtain ⟨hv, hc⟩ := pure_eq_some_iff.mp h
    exact ⟨hv ▸ (if_pos hu).symm, hc.symm⟩
  case isFalse hu =>
    obtain ⟨hv, hc⟩ := pure_eq_some_iff.mp h
    exact ⟨hv ▸ (if_neg hu).symm, hc.symm⟩

theorem finishReadtimes_some (h : finishReadtimes l c = (some l', c')) :
    l' = l.mapIdx (fun i ci => answered ci (replyAt c.input i)) ∧ c'.output = c.output := by
  induction l generalizing c l' c'
  case nil =>
    obtain ⟨hl, hc⟩ := pure_eq_some_iff.mp h
    exact ⟨hl.symm, hc ▸ rfl⟩
  case cons ci l hi =>
    rw [finishReadtimes] at h
    obtain ⟨ci', c₁, h₁, h⟩ := bind_eq_some_iff.mp h
    obtain ⟨l₁, c₂, h₂, h⟩ := bind_eq_some_iff.mp h
    obtain ⟨hl, hc⟩ := pure_eq_some_iff.mp h
    obtain ⟨rfl, rfl⟩ := syncFinishReadtime_some h₁
    obtain ⟨hl₁, ho⟩ := hi h₂
    refine ⟨?_, hc ▸ ho⟩
    rw [← hl, hl₁, mapIdx_cons]
    simp only [replyAt_drop]

-- The list after the replies.
def afterReplies (checktimestamps : Bool) (input : List UInt8) (l : List CopyInfo) : List CopyInfo :=
  if checktimestamps then l.mapIdx fun i ci => answered ci (replyAt input i) else l

def statRequests (checktimestamps : Bool) (l : List CopyInfo) : List UInt8 :=
  if checktimestamps then l.flatMap statRequest else []

theorem checkTimestamps_some (h : checkTimestamps checktimestamps l c = (some l', c')) :
    l' = afterReplies checktimestamps c.input l ∧
      c'.output = c.output ++ statRequests checktimestamps l := by
  rw [checkTimestamps] at h
  rw [afterReplies, statRequests]
  split at h
  case isTrue ht =>
    obtain ⟨_, c₁, hs, h⟩ := bind_eq_some_iff.mp h
    obtain ⟨ho, hi⟩ := startReadtimes_some hs
    obtain ⟨hl, hc⟩ := finishReadtimes_some h
    rw [if_pos ht, if_pos ht, hl, hi, hc, ho]
    exact ⟨rfl, rfl⟩
  case isFalse ht =>
    obtain ⟨hl, hc⟩ := pure_eq_some_iff.mp h
    rw [if_neg ht, if_neg ht, hl, hc, append_nil]
    exact ⟨rfl, rfl⟩

theorem answered_copies (ci : CopyInfo) (msg : List UInt8) :
    Copies lpath rpath rel (answered ci msg) ↔ Copies lpath rpath rel ci := by
  rw [answered]
  split <;> rfl

theorem afterReplies_copies (checktimestamps : Bool) (input : List UInt8) :
    (∃ ci ∈ afterReplies checktimestamps input l, Copies lpath rpath rel ci) ↔
      ∃ ci ∈ l, Copies lpath rpath rel ci := by
  rw [afterReplies]
  split
  case isFalse => rfl
  simp only [mem_mapIdx]
  constructor
  case mp =>
    rintro ⟨_, ⟨i, hi, rfl⟩, hc⟩
    exact ⟨l[i], getElem_mem hi, (answered_copies _ _).mp hc⟩
  case mpr =>
    rintro ⟨ci, hm, hc⟩
    obtain ⟨i, hi, rfl⟩ := mem_iff_getElem.mp hm
    exact ⟨_, ⟨i, hi, rfl⟩, (answered_copies _ _).mpr hc⟩

theorem afterReplies_flag {input : List UInt8} (hn : ∀ f ∈ l, f.flag = false)
    (hm : ci ∈ afterReplies checktimestamps input l) (hf : ci.flag = true) :
    checktimestamps ∧ ∃ i f, l[i]? = some f ∧ ci = { f with flag := true } ∧
      saysUpToDate f (replyAt input i) := by
  rw [afterReplies] at hm
  split at hm
  case isFalse => exact absurd hf (by simp [hn ci hm])
  case isTrue ht =>
    obtain ⟨i, hi, rfl⟩ := mem_mapIdx.mp hm
    rw [answered] at hf ⊢
    split at hf
    case isTrue hu  => exact ⟨ht, i, l[i], getElem?_eq_getElem hi, if_pos hu, hu⟩
    case isFalse => exact absurd hf (by simp [hn _ (getElem_mem hi)])

-- The report is what happened: after the STAT requests the client has written a SEND request for each of
-- the pushed files, and the reply for each of the skipped files says that the device has it.
structure Report.Honest (host : Host) (checktimestamps : Bool) (files : List CopyInfo) (report : Report)
    (c c' : Client) : Prop where
  pushed : c'.output = c.output ++ statRequests checktimestamps files ++
    report.pushed.flatMap (sendRequest host)
  skipped : ∀ ci ∈ report.skipped, checktimestamps ∧ ∃ i f, files[i]? = some f ∧
    ci = { f with flag := true } ∧ saysUpToDate f (replyAt c.input i)

theorem pushList_honest (hn : ∀ f ∈ l, f.flag = false)
    (h : pushList host checktimestamps false l c = (some report, c')) :
    report.Honest host checktimestamps l c c' := by
  obtain ⟨l₁, c₁, hl, h⟩ := bind_eq_some_iff.mp h
  obtain ⟨rfl, ho⟩ := checkTimestamps_some hl
  obtain ⟨rfl, hc⟩ := pushFiles_some h
  refine ⟨by rw [hc rfl, ho]; rfl, fun ci hm => ?_⟩
  obtain ⟨hm, hf⟩ := mem_filter.mp hm
  exact afterReplies_flag hn hm hf

-- The file was sent, or it was marked as up to date.
def Report.Covers (report : Report) (lpath rpath rel : List UInt8) : Prop :=
  ∃ ci, (ci ∈ report.pushed ∨ ci ∈ report.skipped) ∧ Copies lpath rpath rel ci

theorem pushList_covers (h : pushList host checktimestamps listonly l c = (some report, c')) :
    report.Covers lpath rpath rel ↔ ∃ ci ∈ l, Copies lpath rpath rel ci := by
  obtain ⟨l₁, c₁, hl, h⟩ := bind_eq_some_iff.mp h
  obtain ⟨rfl, _⟩ := checkTimestamps_some hl
  obtain ⟨rfl, _⟩ := pushFiles_some h
  rw [← afterReplies_copies checktimestamps c.input, Report.Covers]
  refine exists_congr fun ci => and_congr_left fun _ => ?_
  simp only [nil_append, mem_filter]
  cases ci.flag <;> simp

end

variable {failures : Failures} {root : Files} {host : Host} {lpath rpath : List UInt8} {c c' : Client}

-- The list of `copy_local_dir_remote`.
def Walks (failures : Failures) (root : Files) (lpath rpath : List UInt8) (files : List CopyInfo) : Prop :=
  localBuildList failures (entriesDepth root + 1) (withSlash lpath) (withSlash rpath) root [] =
    (some (), files)

theorem copyLocalDirRemote_some
    (h : copyLocalDirRemote failures root host lpath rpath checktimestamps listonly c =
      (some report, c')) :
    ∃ files, Walks failures root lpath rpath files ∧
      pushList host checktimestamps listonly files c = (some report, c') := by
  rw [copyLocalDirRemote] at h
  split at h
  case isTrue => exact absurd h fail_ne_some
  rcases hl : localBuildList failures (entriesDepth root + 1) (withSlash lpath) (withSlash rpath)
    root [] with ⟨_ | _, l⟩
  case none => exact absurd (hl ▸ h) fail_ne_some
  case some =>
    rw [hl] at h
    exact ⟨l, hl, h⟩

theorem Walks.copies_iff (h : Walks failures root lpath rpath files) :
    (∃ ci ∈ files, Copies (withSlash lpath) (withSlash rpath) rel ci) ↔
      Reached failures (withSlash lpath) root rel := by
  have ha := @localBuildList_adds failures (withSlash lpath) (withSlash rpath) root
    (entriesDepth root + 1) (Nat.lt_succ_self _) []
  rw [h] at ha
  constructor
  case mpr => exact ha.all rel
  case mp =>
    rintro ⟨ci, hm, hs, _⟩
    obtain ⟨rel₁, hr, hs₁, _⟩ := (ha.only ci hm).resolve_left not_mem_nil
    exact append_cancel_left (hs₁.symm.trans hs) ▸ hr

theorem Walks.listed (h : Walks failures root lpath rpath files) : ∀ ci ∈ files, Listed ci := by
  have hl := localBuildList_listed failures (entriesDepth root + 1) (withSlash lpath) (withSlash rpath)
    root [] (forall_mem_nil _)
  rwa [h] at hl

theorem push_complete_iff
    (h : copyLocalDirRemote failures root host lpath rpath checktimestamps false c =
      (some report, c')) :
    (∃ files, Walks failures root lpath rpath files ∧ report.Honest host checktimestamps files c c') ∧
    ((∀ rel, FileBelow root rel → report.Covers (withSlash lpath) (withSlash rpath) rel) ↔
      ∀ rel, FileBelow root rel → Reached failures (withSlash lpath) root rel) := by
  obtain ⟨files, hw, hp⟩ := copyLocalDirRemote_some h
  refine ⟨⟨files, hw, pushList_honest (fun f hf => ?_) hp⟩, ?_⟩
  · obtain ⟨_, hl⟩ := hw.listed f hf
    exact hl.unset
  · simp only [pushList_covers hp, hw.copies_iff]

-- A directory with a file in a directory of its own, a host that reads it, and a device that takes it.

def regular : FileStat where
  mode   := 0o100644
  mtime  := 0
  size   := 1
  notDir := by decide

def nested : Files :=
  [([dot], .dir () []), ([dot, dot], .dir () []), ([100], .dir () [([102], .leaf regular)])]

def taking : Client where
  input  := Header.encode ⟨idOkay, 0⟩
  output := []
  device := none
  calls  := []
  heard  := []
  huge   := false

def noFailures : Failures where
  opendir := fun _ => false
  lstat := fun _ => false
  lstatAgain := fun _ => false

theorem givesUp_noFailures (lpath : List UInt8) (e : List UInt8 × DirTree FileStat Unit) :
    givesUp noFailures lpath e = false := by
  obtain ⟨name, st | ⟨d, sub⟩⟩ := e
  case leaf => exact Bool.and_false _
  case dir  => rfl

theorem reached_nested (h : FileBelow nested rel) :
    Reached noFailures (withSlash (ofString "l")) nested rel := by
  rcases h with ⟨hm, _, _⟩ | ⟨hm, hd, hb⟩
  · simp [nested] at hm
  have hs := hm
  simp only [nested, mem_cons, Prod.mk.injEq, DirTree.dir.injEq, not_mem_nil, or_false] at hs
  rcases hs with ⟨rfl, _⟩ | ⟨rfl, _⟩ | ⟨rfl, _, rfl⟩
  · exact absurd hd (by decide)
  · exact absurd hd (by decide)
  rcases hb with ⟨hf, _, ht⟩ | ⟨hf, _, _⟩
  · obtain ⟨rfl, _⟩ := mk.inj (mem_singleton.mp hf)
    refine .dir rfl (fun e _ => givesUp_noFailures _ e) hm (by decide +kernel) ?_
    exact .file rfl (by simpa [givesUp_noFailures] using hf) (by decide +kernel) ht
  · simp at hf

theorem push_complete_nested :
    let r := copyLocalDirRemote noFailures nested oneByteHost (ofString "l") (ofString "r") false false
      taking
    ∃ report, r = (some report, r.snd) ∧
      r.snd.output = sendBytes (ofString "r/d/f") 0o100644 0 [[1]] ∧
      ∀ rel, FileBelow nested rel →
        report.Covers (withSlash (ofString "l")) (withSlash (ofString "r")) rel := by
  refine ⟨⟨[⟨ofString "l/d/f", ofString "r/d/f", 0, 0o100644, 1, false⟩], []⟩, ?_⟩
  have h : copyLocalDirRemote noFailures nested oneByteHost (ofString "l") (ofString "r") false false
      taking = (some ⟨[⟨ofString "l/d/f", ofString "r/d/f", 0, 0o100644, 1, false⟩], []⟩, _) :=
    Prod.ext (by decide +kernel) rfl
  exact ⟨h, by decide +kernel, (push_complete_iff h).right.mpr fun _ => reached_nested⟩

-- The directory cannot be opened: nothing is sent, and success is reported.
theorem pushed_nothing :
    let failures := { noFailures with opendir := (· = ofString "l/d/") }
    let r := copyLocalDirRemote failures nested oneByteHost (ofString "l") (ofString "r") false false taking
    r.fst = some ⟨[], []⟩ ∧ r.snd.output = [] ∧ FileBelow nested (ofString "d/f") ∧
      ¬ Report.Covers ⟨[], []⟩ (withSlash (ofString "l")) (withSlash (ofString "r")) (ofString "d/f") := by
  refine ⟨by decide +kernel, by decide +kernel, ?_, by simp [Report.Covers]⟩
  have hp : ofString "d/f" = [100] ++ slash :: [102] := by decide +kernel
  have hd : ([100], .dir () [([102], .leaf regular)]) ∈ nested := by simp [nested]
  rw [hp]
  refine .dir hd (by decide) ?_
  exact .file (mem_singleton_self _) (by decide) (by decide)

end Adb.Sync
