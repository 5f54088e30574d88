import PlatformKnife.Adb.Sync.Theorems.Pull
import PlatformKnife.Adb.Sync.Theorems.Push
import PlatformKnife.Adb.Sync.Theorems.SendFile

namespace Adb.Sync

open Bytes CInt Fallible Client List

-- The type in a mode: 8 for a regular file, 10 for a symbolic link, 12 for a socket.
def fileType (mode : Nat) : Nat :=
  mode / 2 ^ 12 % 2 ^ 4

theorem fileType_lt (mode : Nat) : fileType mode < 16 :=
  Nat.mod_lt _ (by decide)

theorem and_sIfmt (mode : Nat) : mode &&& sIfmt = fileType mode * 2 ^ 12 := by
  have hm : sIfmt = (2 ^ 4 - 1) * 2 ^ 12 := rfl
  apply Nat.eq_of_testBit_eq
  intro i
  rw [hm, Nat.testBit_and, Nat.testBit_mul_two_pow, Nat.testBit_mul_two_pow, fileType,
    Nat.testBit_two_pow_sub_one, Nat.testBit_mod_two_pow, Nat.testBit_div_two_pow]
  by_cases hi : 12 ≤ i
  · simp [hi, Bool.and_comm]
  · simp [hi]

theorem sIsreg_iff : sIsreg mode ↔ fileType mode = 8 := by
  rw [sIsreg, decide_eq_true_eq, and_sIfmt]
  omega

theorem sIslnk_iff : sIslnk mode ↔ fileType mode = 10 := by
  rw [sIslnk, decide_eq_true_eq, and_sIfmt]
  omega

theorem fileType_and (a b : Nat) : fileType (a &&& b) = fileType a &&& fileType b := by
  rw [fileType, Nat.and_div_two_pow, Nat.and_mod_two_pow, fileType, fileType]

theorem fileType_u32 (mode : Nat) : fileType (u32 mode) = fileType mode := by
  rw [fileType, fileType, u32]
  omega

-- The object on the device has the type, the size and the time of the local one.
def Identical (l : FileStat) (st : Stat) : Prop :=
  u32 st.size = u32 l.size ∧
    (sIsreg l.mode ∧ sIsreg st.mode ∧ st.mtime = l.mtime ∨
      sIslnk l.mode ∧ sIslnk st.mode ∧ l.mtime ≤ st.mtime)

-- A file as `local_build_list` puts it on the list.
structure Local (ci : CopyInfo) (l : FileStat) : Prop where
  kind  : sIsreg l.mode ∨ sIslnk l.mode
  mode  : ci.mode = u32 l.mode
  size  : ci.size = u32 l.size
  time  : ci.time = u32 l.mtime
  unset : ci.flag = false

-- Times are sent modulo this period, which is 136 years.
def period (mtime : Nat) : Nat :=
  mtime / 2 ^ 32

-- The object is told apart from others that share the bits of its type or the low bits of its time: with
-- the time that is sent for the local one, it has no type that shares its bits with that one's, and both
-- times are in one period. The types 9, 11, 13, 14 and 15 are not in use.
structure ToldApart (l : FileStat) (st : Stat) : Prop where
  regular : sIsreg l.mode → u32 st.mtime = u32 l.mtime →
    fileType st.mode ∉ [9, 10, 11, 12, 13, 14, 15] ∧ (sIsreg st.mode → period st.mtime = period l.mtime)
  link    : sIslnk l.mode →
    (u32 st.mtime = u32 l.mtime → fileType st.mode ∉ [8, 9, 12, 13]) ∧
    (u32 l.mtime ≤ u32 st.mtime → fileType st.mode ∉ [11, 14, 15] ∧
      (sIslnk st.mode → period l.mtime ≤ period st.mtime))

theorem and_regular : ∀ t < 16, (8 &&& t = 8 ↔ t ∈ [8, 9, 10, 11, 12, 13, 14, 15]) ∧ 8 &&& t ≠ 10 := by
  decide

theorem and_link : ∀ t < 16,
    (10 &&& t = 8 ↔ t ∈ [8, 9, 12, 13]) ∧ (10 &&& t = 10 ↔ t ∈ [10, 11, 14, 15]) := by
  decide

theorem upToDate_iff : upToDate ci mode size timestamp ↔ size = ci.size ∧
    (fileType ci.mode &&& fileType mode = 8 ∧ timestamp = ci.time ∨
      fileType ci.mode &&& fileType mode = 10 ∧ ci.time ≤ timestamp) := by
  simp only [upToDate, Bool.and_eq_true, Bool.or_eq_true, decide_eq_true_eq, sIsreg_iff, sIslnk_iff,
    fileType_and, ge_iff_le]

theorem eq_of_period (h₁ : u32 m = u32 n) (h₂ : period m = period n) : m = n := by
  rw [u32, u32] at h₁
  rw [period, period] at h₂
  omega

theorem le_iff_period (h : u32 m ≤ u32 n) : m ≤ n ↔ period m ≤ period n := by
  rw [u32, u32] at h
  rw [period, period]
  omega

section

variable {l : FileStat} {ci : CopyInfo} {st : Stat}

theorem identical_regular_iff (h : fileType l.mode = 8) : Identical l st ↔
    u32 st.size = u32 l.size ∧ fileType st.mode = 8 ∧ st.mtime = l.mtime := by
  simp only [Identical, sIsreg_iff, sIslnk_iff, h]
  simp

theorem identical_link_iff (h : fileType l.mode = 10) : Identical l st ↔
    u32 st.size = u32 l.size ∧ fileType st.mode = 10 ∧ l.mtime ≤ st.mtime := by
  simp only [Identical, sIsreg_iff, sIslnk_iff, h]
  simp

-- The file is marked for what is on the device.
def Marks (ci : CopyInfo) (st : Stat) : Prop :=
  upToDate ci (u32 st.mode) (u32 st.size) (u32 st.mtime)

variable (hl : Local ci l)

include hl

theorem marks_regular_iff (h : fileType l.mode = 8) : Marks ci st ↔
    u32 st.size = u32 l.size ∧ fileType st.mode ∈ [8, 9, 10, 11, 12, 13, 14, 15] ∧
      u32 st.mtime = u32 l.mtime := by
  obtain ⟨h₁, h₂⟩ := and_regular _ (fileType_lt st.mode)
  simp only [Marks, upToDate_iff, fileType_u32, hl.mode, hl.size, hl.time, h, h₁, h₂, false_and, or_false]

theorem marks_link_iff (h : fileType l.mode = 10) : Marks ci st ↔
    u32 st.size = u32 l.size ∧
      (fileType st.mode ∈ [8, 9, 12, 13] ∧ u32 st.mtime = u32 l.mtime ∨
        fileType st.mode ∈ [10, 11, 14, 15] ∧ u32 l.mtime ≤ u32 st.mtime) := by
  obtain ⟨h₁, h₂⟩ := and_link _ (fileType_lt st.mode)
  simp only [Marks, upToDate_iff, fileType_u32, hl.mode, hl.size, hl.time, h, h₁, h₂]

theorem toldApart_of_regular (h : fileType l.mode = 8)
    (hi : Marks ci st → Identical l st) (hs : u32 st.size = u32 l.size) : ToldApart l st := by
  rw [marks_regular_iff hl h, identical_regular_iff h] at hi
  refine ⟨fun _ ht => ⟨fun hm => ?_, fun hr => ?_⟩, fun hk => ?_⟩
  · have he := (hi ⟨hs, mem_cons_of_mem 8 hm, ht⟩).2.1
    rw [he] at hm
    exact absurd hm (by decide)
  · rw [sIsreg_iff] at hr
    exact congrArg period (hi ⟨hs, by rw [hr]; decide, ht⟩).2.2
  · rw [sIslnk_iff, h] at hk
    exact absurd hk (by decide)

theorem toldApart_of_link (h : fileType l.mode = 10)
    (hi : Marks ci st → Identical l st) (hs : u32 st.size = u32 l.size) : ToldApart l st := by
  rw [marks_link_iff hl h, identical_link_iff h] at hi
  refine ⟨fun hr => ?_, fun _ => ⟨fun ht hm => ?_, fun ht => ⟨fun hm => ?_, fun hk => ?_⟩⟩⟩
  · rw [sIsreg_iff, h] at hr
    exact absurd hr (by decide)
  · have he := (hi ⟨hs, .inl ⟨hm, ht⟩⟩).2.1
    rw [he] at hm
    exact absurd hm (by decide)
  · have he := (hi ⟨hs, .inr ⟨mem_cons_of_mem 10 hm, ht⟩⟩).2.1
    rw [he] at hm
    exact absurd hm (by decide)
  · rw [sIslnk_iff] at hk
    exact (le_iff_period ht).mp (hi ⟨hs, .inr ⟨by rw [hk]; decide, ht⟩⟩).2.2

theorem marks_identical_iff (st : Stat) :
    (Marks ci st → Identical l st) ↔ (u32 st.size = u32 l.size → ToldApart l st) := by
  rcases hl.kind with hk | hk
  case inl =>
    have ht := sIsreg_iff.mp hk
    refine ⟨toldApart_of_regular hl ht, fun told hu => ?_⟩
    obtain ⟨hs, hm, hu⟩ := (marks_regular_iff hl ht).mp hu
    obtain ⟨hn, hp⟩ := (told hs).regular hk hu
    have he : fileType st.mode = 8 := (mem_cons.mp hm).resolve_right hn
    exact (identical_regular_iff ht).mpr ⟨hs, he, eq_of_period hu (hp (sIsreg_iff.mpr he))⟩
  have ht := sIslnk_iff.mp hk
  refine ⟨toldApart_of_link hl ht, fun told hu => ?_⟩
  obtain ⟨hs, ⟨hm, hu⟩ | ⟨hm, hu⟩⟩ := (marks_link_iff hl ht).mp hu
  case inl => exact absurd hm (((told hs).link hk).1 hu)
  case inr =>
    obtain ⟨hn, hp⟩ := ((told hs).link hk).2 hu
    have he : fileType st.mode = 10 := (mem_cons.mp hm).resolve_right hn
    exact (identical_link_iff ht).mpr ⟨hs, he, (le_iff_period hu).mpr (hp (sIslnk_iff.mpr he))⟩

end

-- The files that are put on the list.
section

variable {failures : Failures}

def Listed (ci : CopyInfo) : Prop :=
  ∃ l, Local ci l

theorem buildNode_listed (node : DirTree FileStat Unit) (dirlist : Dirlist) (h : ∀ ci ∈ l, Listed ci) :
    ∀ ci ∈ (buildNode failures lpath rpath name dirlist node l).snd, Listed ci := by
  cases node
  case dir => exact h
  case leaf st =>
    rw [buildNode, buildFile]
    split
    case isTrue => exact h
    split
    case isTrue => exact h
    case isFalse hk =>
      have hk : sIsreg st.mode ∨ sIslnk st.mode := by
        simpa only [Bool.and_eq_true, Bool.not_eq_true', not_and_or, Bool.not_eq_false] using hk
      exact forall_mem_cons.mpr ⟨⟨st, hk, rfl, rfl, rfl, rfl⟩, h⟩

theorem buildEntry_listed (dirlist : Dirlist) (e : List UInt8 × DirTree FileStat Unit)
    (l : List CopyInfo) (h : ∀ ci ∈ l, Listed ci) :
    ∀ ci ∈ (buildEntry failures lpath rpath dirlist e l).snd, Listed ci := by
  rw [buildEntry]
  split_ifs
  · exact h
  · exact h
  · exact h
  · exact buildNode_listed e.snd dirlist h

theorem localBuildList_listed (failures : Failures) (fuel : Nat) (lpath rpath : List UInt8)
    (entries : Files) (l : List CopyInfo) (h : ∀ ci ∈ l, Listed ci) :
    ∀ ci ∈ (localBuildList failures fuel lpath rpath entries l).snd, Listed ci := by
  induction fuel generalizing lpath rpath entries l
  case zero => exact h
  case succ fuel hi =>
    let r (l l' : List CopyInfo) : Prop := (∀ ci ∈ l, Listed ci) → ∀ ci ∈ l', Listed ci
    have hr (l : List CopyInfo) : r l l := id
    have ht {l₁ l₂ l₃ : List CopyInfo} (h₁ : r l₁ l₂) (h₂ : r l₂ l₃) : r l₁ l₃ := h₂ ∘ h₁
    rw [localBuildList]
    split
    case isTrue => exact h
    refine bind_snd (r := r) ht (foldlM_snd hr ht (buildEntry_listed · · ·) entries) ?_ h
    intro dirlist l₁ _
    refine forM_snd hr ht ?_ dirlist
    rintro ⟨ci, sub⟩ l₂
    exact hi ci.src ci.dst sub l₂

end

-- What the device sends for a path.
def statReply (remote : List UInt8 → Option Stat) (path : List UInt8) : List UInt8 :=
  match remote path with
  | none => le 4 idStat ++ (le 4 0 ++ (le 4 0 ++ le 4 0))
  | some st => le 4 idStat ++ (le 4 st.mode ++ (le 4 st.size ++ le 4 st.mtime))

def marked (remote : List UInt8 → Option Stat) (ci : CopyInfo) : CopyInfo :=
  match remote ci.dst with
  | none => ci
  | some st =>
    if upToDate ci (u32 st.mode) (u32 st.size) (u32 st.mtime) then { ci with flag := true } else ci

-- The loop over the files passes over this one.
def Skips (host : Host) (listonly : Bool) (files : List CopyInfo) (c : Client) (ci : CopyInfo) : Prop :=
  ∃ front back c₁ c₂ report, checkTimestamps true files c = (some (front ++ ci :: back), c₁) ∧
    pushFiles host listonly front ⟨[], []⟩ c₁ = (some report, c₂) ∧ ci.flag = true

variable {remote : List UInt8 → Option Stat} {ci : CopyInfo} {files : List CopyInfo} {c : Client}

theorem word_le (n : Nat) (l : List UInt8) : word (le 4 n ++ l) 0 = u32 n := by
  rw [word, mul_zero, drop_zero, take_left' (le_length ..), fromLe_le]
  rfl

theorem word_le_last (n : Nat) : word (le 4 n) 0 = u32 n := by
  rw [← append_nil (le 4 n), word_le]

theorem statReply_length (path : List UInt8) : (statReply remote path).length = 16 := by
  rw [statReply]
  split <;> simp

theorem upToDate_zero (ci : CopyInfo) : upToDate ci 0 0 0 = false := by
  rw [Bool.eq_false_iff, ne_eq, upToDate_iff]
  rintro ⟨-, ⟨ht, -⟩ | ⟨ht, -⟩⟩ <;> simp [fileType] at ht

theorem syncFinishReadtime_reply (h : c.input = statReply remote ci.dst ++ rest) :
    syncFinishReadtime ci c = (some (marked remote ci), { c with input := rest }) := by
  rw [syncFinishReadtime, bind_of_some (readx_front h (statReply_length _)), statReply, marked]
  obtain _ | st := remote ci.dst
  · simp only [word_le, word_succ, word_le_last]
    rw [if_neg (by decide)]
    have hz : u32 0 = 0 := rfl
    rw [hz, upToDate_zero ci]
    rfl
  simp only [word_le, word_succ, word_le_last]
  rw [if_neg (by decide)]
  split <;> rfl

theorem finishReadtimes_replies (h : c.input = files.flatMap (fun ci => statReply remote ci.dst) ++ rest) :
    finishReadtimes files c = (some (files.map (marked remote)), { c with input := rest }) := by
  induction files generalizing c
  case nil =>
    have hc : c = { c with input := rest } := by rw [← show c.input = rest from h]
    rw [finishReadtimes, pure_apply, ← hc]
    rfl
  case cons ci files hi =>
    rw [flatMap_cons, append_assoc] at h
    rw [finishReadtimes, bind_of_some (syncFinishReadtime_reply h), bind_of_some (hi rfl)]
    rfl

theorem syncStartReadtime_connected (path : List UInt8) (hd : c.device = none) :
    ∃ output, syncStartReadtime path c = (some (), { c with output := output }) := by
  rw [syncStartReadtime, writex_bind _ hd]
  exact ⟨_, writex_of_connected hd⟩

theorem startReadtimes_connected (files : List CopyInfo) (hd : c.device = none) :
    ∃ output, files.forM (fun ci => syncStartReadtime ci.dst) c =
      (some (), { c with output := output }) := by
  induction files generalizing c
  case nil => exact ⟨c.output, rfl⟩
  case cons ci files hi =>
    obtain ⟨output₁, h₁⟩ := syncStartReadtime_connected ci.dst hd
    have hd₁ : ({ c with output := output₁ } : Client).device = none := hd
    obtain ⟨output, h⟩ := hi hd₁
    exact ⟨output, (bind_of_some h₁).trans h⟩

theorem checkTimestamps_replies (hd : c.device = none)
    (h : c.input = files.flatMap (fun ci => statReply remote ci.dst) ++ rest) :
    ∃ output, checkTimestamps true files c =
      (some (files.map (marked remote)), { c with input := rest, output := output }) := by
  obtain ⟨output, ho⟩ := startReadtimes_connected files hd
  refine ⟨output, ?_⟩
  rw [checkTimestamps, if_pos rfl, bind_of_some ho]
  exact finishReadtimes_replies h

theorem pushFiles_listonly (host : Host) (l : List CopyInfo) (report : Report) (c : Client) :
    ∃ report', pushFiles host true l report c = (some report', c) := by
  induction l generalizing report
  case nil => exact ⟨report, rfl⟩
  case cons ci l hi =>
    rw [pushFiles]
    split
    case isTrue  => exact hi _
    case isFalse => exact hi _

theorem marked_of_marks (h : remote ci.dst = some st) (hu : Marks ci st) :
    marked remote ci = { ci with flag := true } := by
  rw [marked, h]
  exact if_pos hu

theorem marked_flag (hn : ci.flag = false) (h : (marked remote ci).flag) :
    ∃ st, remote ci.dst = some st ∧ Marks ci st := by
  rw [marked] at h
  rcases hr : remote ci.dst with _ | st
  · rw [hr] at h
    exact absurd (hn.symm.trans h) (by decide)
  rw [hr] at h
  dsimp only at h
  split at h
  case isTrue hu => exact ⟨st, rfl, hu⟩
  case isFalse => exact absurd (hn.symm.trans h) (by decide)

theorem flag_inj (h₁ : ci.flag = false) (h₂ : ci'.flag = false)
    (h : { ci with flag := true } = { ci' with flag := true }) : ci = ci' := by
  cases ci
  cases ci'
  simp_all

def emptyHost : Host where
  reply _ _  := true
  reads _    := none
  readlink _ := none

-- A file is skipped only if the device has it, for all files exactly if all are told apart.
theorem skips_identical_iff {files : List (CopyInfo × FileStat)}
    (hl : ∀ f ∈ files, Local f.1 f.2) (hd : c.device = none)
    (h : c.input = (files.map Prod.fst).flatMap (fun ci => statReply remote ci.dst) ++ rest) :
    (∀ host listonly, ∀ f ∈ files,
      Skips host listonly (files.map Prod.fst) c { f.1 with flag := true } →
      ∃ st, remote f.1.dst = some st ∧ Identical f.2 st) ↔
    ∀ f ∈ files, ∀ st, remote f.1.dst = some st → u32 st.size = u32 f.2.size → ToldApart f.2 st := by
  obtain ⟨output, hc⟩ := checkTimestamps_replies hd h
  constructor
  case mp =>
    intro hp f hm st hst
    refine (marks_identical_iff (hl f hm) st).mp fun hu => ?_
    have hmem : { f.1 with flag := true } ∈ (files.map Prod.fst).map (marked remote) :=
      mem_map.mpr ⟨f.1, mem_map_of_mem hm, marked_of_marks hst hu⟩
    obtain ⟨front, back, he⟩ := append_of_mem hmem
    rw [he] at hc
    -- With `listonly` the loop gets to every file.
    obtain ⟨report, hr⟩ := pushFiles_listonly emptyHost front ⟨[], []⟩
      { c with input := rest, output := output }
    obtain ⟨st', hst', hi⟩ := hp emptyHost true f hm ⟨front, back, _, _, report, hc, hr, rfl⟩
    obtain rfl := Option.some.inj (hst.symm.trans hst')
    exact hi
  case mpr =>
    rintro hp host listonly f hfm ⟨front, back, c₁, c₂, report, hk, -, hf⟩
    have he : (files.map Prod.fst).map (marked remote) = front ++ { f.1 with flag := true } :: back :=
      Option.some.inj (congrArg Prod.fst (hc.symm.trans hk))
    have hm : { f.1 with flag := true } ∈ (files.map Prod.fst).map (marked remote) := by
      rw [he]
      exact mem_append_right front mem_cons_self
    obtain ⟨ci, hcm, hci⟩ := mem_map.mp hm
    obtain ⟨g, hgm, rfl⟩ := mem_map.mp hcm
    obtain ⟨st, hst, hu⟩ := marked_flag (hl g hgm).unset (by rw [hci])
    rw [marked_of_marks hst hu] at hci
    have hgf := flag_inj (hl g hgm).unset (hl f hfm).unset hci
    rw [hgf] at hst hu
    exact ⟨st, hst, (marks_identical_iff (hl f hfm) st).mpr (hp f hfm st hst) hu⟩

-- A regular file, for which the device has a link to nine characters that is as old.
def nineBytes : CopyInfo × FileStat where
  fst := ⟨[97], [98], 1000, 0o100644, 9, false⟩
  snd := ⟨0o100644, 1000, 9, rfl⟩

def linkOf (path : List UInt8) : Option Stat :=
  if path = [98] then some ⟨0o120777, 9, 1000⟩ else none

def answering (remote : List UInt8 → Option Stat) (files : List CopyInfo) : Client where
  input  := files.flatMap fun ci => statReply remote ci.dst
  output := []
  device := none
  calls  := []
  heard  := []
  huge   := false

theorem local_nineBytes : ∀ f ∈ [nineBytes], Local f.1 f.2 := by
  rw [forall_mem_singleton]
  exact ⟨.inl rfl, rfl, rfl, rfl, rfl⟩

-- The file is skipped, and stays a link on the device.
theorem skips_nineBytes :
    Skips emptyHost false [nineBytes.1] (answering linkOf [nineBytes.1]) { nineBytes.1 with flag := true } ∧
    ¬∃ st, linkOf nineBytes.1.dst = some st ∧ Identical nineBytes.2 st := by
  have hi : (answering linkOf [nineBytes.1]).input =
      [nineBytes.1].flatMap (fun ci => statReply linkOf ci.dst) ++ [] := (append_nil _).symm
  obtain ⟨output, hc⟩ := checkTimestamps_replies rfl hi
  have hm : [nineBytes.1].map (marked linkOf) = [] ++ { nineBytes.1 with flag := true } :: [] := by decide
  rw [hm] at hc
  refine ⟨⟨[], [], _, _, ⟨[], []⟩, hc, rfl, rfl⟩, ?_⟩
  rintro ⟨st, hst, -, ⟨-, hr, -⟩ | ⟨hl, -⟩⟩
  case inl =>
    obtain rfl := Option.some.inj hst
    exact absurd hr (by decide)
  case inr => exact absurd hl (by decide)

def regularOf (path : List UInt8) : Option Stat :=
  if path = [98] then some ⟨0o100600, 9, 1000⟩ else none

theorem skips_identical_nineBytes :
    (∀ f ∈ [nineBytes], Local f.1 f.2) ∧ (answering regularOf [nineBytes.1]).device = none ∧
    ∀ host listonly, ∀ f ∈ [nineBytes],
      Skips host listonly [nineBytes.1] (answering regularOf [nineBytes.1]) { f.1 with flag := true } →
      ∃ st, regularOf f.1.dst = some st ∧ Identical f.2 st := by
  have hi : (answering regularOf [nineBytes.1]).input =
      [nineBytes.1].flatMap (fun ci => statReply regularOf ci.dst) ++ [] := (append_nil _).symm
  refine ⟨local_nineBytes, rfl, (skips_identical_iff local_nineBytes rfl hi).mpr ?_⟩
  rw [forall_mem_singleton]
  intro st hst _
  obtain rfl := Option.some.inj hst
  exact ⟨fun _ _ => ⟨by decide, fun _ => rfl⟩, fun hl => absurd hl (by decide)⟩

end Adb.Sync
