import PlatformKnife.Adb.Sync.Push

namespace Adb.Sync

open CInt CString Fallible Client List
open DirTree (entriesDepth)
open FsConfig (slash)

def FileStat.transferable (st : FileStat) : Bool :=
  sIsreg st.mode || sIslnk st.mode

inductive FileBelow : Files → List UInt8 → Prop
  | file : (name, .leaf st) ∈ entries → isDots name = false → st.transferable → FileBelow entries name
  | dir  : (name, .dir d sub) ∈ entries → isDots name = false → FileBelow sub rel →
      FileBelow entries (name ++ slash :: rel)

-- An entry whose path is short enough and whose first `lstat` succeeds.
def seen (failures : Failures) (lpath name : List UInt8) : Bool :=
  !isDots name && decide (lpath.length + name.length + 1 ≤ pathMax) && !failures.lstat (lpath ++ name)

-- An entry at which its directory is given up, as the second `lstat` fails.
def givesUp (failures : Failures) (lpath : List UInt8) : List UInt8 × DirTree FileStat Unit → Bool
  | (name, .leaf _) => seen failures lpath name && failures.lstatAgain (lpath ++ name)
  | (_, .dir _ _) => false

-- Nothing on the way to a file fails: its directory is opened and not given up before it, and no
-- directory on the way is given up at all.
inductive Reached (failures : Failures) : List UInt8 → Files → List UInt8 → Prop
  | file : failures.opendir lpath = false →
      (name, .leaf st) ∈ entries.takeWhile (fun e => !givesUp failures lpath e) →
      seen failures lpath name → st.transferable → Reached failures lpath entries name
  | dir : failures.opendir lpath = false → (∀ e ∈ entries, givesUp failures lpath e = false) →
      (name, .dir d sub) ∈ entries → seen failures lpath name →
      Reached failures (lpath ++ name ++ [slash]) sub rel →
      Reached failures lpath entries (name ++ slash :: rel)

variable {failures : Failures} {lpath rpath : List UInt8} {entries : Files}

-- The copy of a file from one directory to the other.
def Copies (lpath rpath rel : List UInt8) (ci : CopyInfo) : Prop :=
  ci.src = lpath ++ rel ∧ ci.dst = rpath ++ rel

-- Copies of just these files have been added to a list.
structure Adds (lpath rpath : List UInt8) (p : List UInt8 → Prop) (old new : List CopyInfo) : Prop where
  keeps : old ⊆ new
  only  : ∀ ci ∈ new, ci ∈ old ∨ ∃ rel, p rel ∧ Copies lpath rpath rel ci
  all   : ∀ rel, p rel → ∃ ci ∈ new, Copies lpath rpath rel ci

namespace Adds

variable {p q : List UInt8 → Prop} {l l₁ l₂ l₃ : List CopyInfo}

theorem none (h : ∀ rel, ¬ p rel) : Adds lpath rpath p l l :=
  ⟨List.Subset.refl _, fun _ h => .inl h, fun rel hp => absurd hp (h rel)⟩

theorem trans (h₁ : Adds lpath rpath p l₁ l₂) (h₂ : Adds lpath rpath q l₂ l₃) :
    Adds lpath rpath (fun rel => p rel ∨ q rel) l₁ l₃ where
  keeps := List.Subset.trans h₁.keeps h₂.keeps
  only ci hc := by
    obtain hc | ⟨rel, hq, hc⟩ := h₂.only ci hc
    · refine (h₁.only ci hc).imp_right ?_
      rintro ⟨rel, hp, hc⟩
      exact ⟨rel, .inl hp, hc⟩
    · exact .inr ⟨rel, .inr hq, hc⟩
  all rel hr := by
    cases hr
    case inr hq => exact h₂.all rel hq
    case inl hp =>
      obtain ⟨ci, hm, hc⟩ := h₁.all rel hp
      exact ⟨ci, h₂.keeps hm, hc⟩

theorem cons (h : Copies lpath rpath rel ci) : Adds lpath rpath (· = rel) l (ci :: l) where
  keeps := subset_cons_self ..
  only ci' hc := by
    cases mem_cons.mp hc
    case inl hc => exact .inr ⟨rel, rfl, hc ▸ h⟩
    case inr hc => exact .inl hc
  all rel' hr := ⟨ci, mem_cons_self, hr ▸ h⟩

theorem congr (h : Adds lpath rpath p l₁ l₂) (hp : ∀ rel, p rel ↔ q rel) : Adds lpath rpath q l₁ l₂ :=
  funext (fun rel => propext (hp rel)) ▸ h

theorem subdir (h : Adds (lpath ++ name ++ [slash]) (rpath ++ name ++ [slash]) p l₁ l₂) :
    Adds lpath rpath (fun rel => ∃ rel₁, rel = name ++ slash :: rel₁ ∧ p rel₁) l₁ l₂ where
  keeps := h.keeps
  only ci hc := by
    refine (h.only ci hc).imp_right ?_
    rintro ⟨rel, hp, hs, hd⟩
    exact ⟨name ++ slash :: rel, ⟨rel, rfl, hp⟩, by simp [hs], by simp [hd]⟩
  all := by
    rintro _ ⟨rel, rfl, hp⟩
    obtain ⟨ci, hm, hs, hd⟩ := h.all rel hp
    exact ⟨ci, hm, by simp [hs], by simp [hd]⟩

end Adds

def FileIn (failures : Failures) (lpath : List UInt8) (entries : Files) (rel : List UInt8) : Prop :=
  ∃ st, (rel, .leaf st) ∈ entries ∧ seen failures lpath rel ∧ st.transferable

def DirIn (failures : Failures) (lpath rpath : List UInt8) (entries : Files)
    (x : CopyInfo × Files) : Prop :=
  ∃ name d, (name, .dir d x.snd) ∈ entries ∧ seen failures lpath name ∧
    x.fst = mkcopyinfo lpath rpath name true

theorem fileIn_cons :
    FileIn failures lpath (e :: entries) rel ↔
      FileIn failures lpath [e] rel ∨ FileIn failures lpath entries rel := by
  simp only [FileIn, mem_cons, not_mem_nil, or_false, or_and_right, exists_or]

theorem dirIn_cons :
    DirIn failures lpath rpath (e :: entries) x ↔
      DirIn failures lpath rpath [e] x ∨ DirIn failures lpath rpath entries x := by
  simp only [DirIn, mem_cons, not_mem_nil, or_false, or_and_right, exists_or]

theorem buildEntry_eq :
    buildEntry failures lpath rpath dirlist (name, node) =
      if seen failures lpath name then buildNode failures lpath rpath name dirlist node
      else pure dirlist := by
  rw [buildEntry, seen]
  split
  case isTrue h₁ => simp [h₁]
  case isFalse h₁ =>
    split
    case isTrue h₂ => simp [h₁, Nat.not_le_of_gt h₂]
    case isFalse h₂ =>
      split
      case isTrue h₃  => simp [h₃]
      case isFalse h₃ => simp [h₁, h₃, Nat.le_of_not_gt h₂]

theorem buildEntry_none (h : givesUp failures lpath e) (l : List CopyInfo) :
    buildEntry failures lpath rpath dirlist e l = (none, l) := by
  obtain ⟨name, st | ⟨d, sub⟩⟩ := e
  case dir => simp [givesUp] at h
  case leaf =>
    obtain ⟨hs, ha⟩ := Bool.and_eq_true_iff.mp h
    have ha : failures.lstatAgain (mkcopyinfo lpath rpath name false).src := by
      simpa [mkcopyinfo] using ha
    rw [buildEntry_eq, if_pos hs, buildNode, buildFile, if_pos ha]
    rfl

theorem not_fileIn_dir (rel : List UInt8) : ¬ FileIn failures lpath [(name, .dir d sub)] rel := by
  simp [FileIn]

theorem fileIn_leaf_iff :
    FileIn failures lpath [(name, .leaf st)] rel ↔
      rel = name ∧ seen failures lpath name ∧ st.transferable := by
  constructor
  case mp =>
    rintro ⟨st', hm, hs, ht⟩
    cases mem_singleton.mp hm
    exact ⟨rfl, hs, ht⟩
  case mpr =>
    rintro ⟨rfl, hs, ht⟩
    exact ⟨st, mem_singleton_self _, hs, ht⟩

theorem not_dirIn_leaf (x : CopyInfo × Files) : ¬ DirIn failures lpath rpath [(name, .leaf st)] x := by
  simp [DirIn]

theorem dirIn_dir_iff :
    DirIn failures lpath rpath [(name, .dir d sub)] x ↔
      seen failures lpath name ∧ x = (mkcopyinfo lpath rpath name true, sub) := by
  constructor
  case mp =>
    rintro ⟨name', d', hm, hs, hx⟩
    cases mem_singleton.mp hm
    exact ⟨hs, Prod.ext hx rfl⟩
  case mpr =>
    rintro ⟨hs, rfl⟩
    exact ⟨name, d, mem_singleton_self _, hs, rfl⟩

theorem buildEntry_some (h : givesUp failures lpath e = false) (dirlist : Dirlist) (l : List CopyInfo) :
    ∃ dirlist' l', buildEntry failures lpath rpath dirlist e l = (some dirlist', l') ∧
      Adds lpath rpath (FileIn failures lpath [e]) l l' ∧
      ∀ x, x ∈ dirlist' ↔ x ∈ dirlist ∨ DirIn failures lpath rpath [e] x := by
  obtain ⟨name, st | ⟨d, sub⟩⟩ := e
  case dir =>
    rw [buildEntry_eq]
    by_cases hs : seen failures lpath name
    · rw [if_pos hs, buildNode]
      refine ⟨_, l, rfl, .none not_fileIn_dir, fun x => ?_⟩
      rw [dirIn_dir_iff, mem_cons, or_comm]
      simp [hs]
    rw [if_neg hs]
    exact ⟨dirlist, l, rfl, .none not_fileIn_dir, fun x => by simp [dirIn_dir_iff, hs]⟩
  case leaf =>
    rw [buildEntry_eq]
    split
    case isFalse hs =>
      refine ⟨dirlist, l, rfl, .none fun rel => ?_, fun x => by simp [not_dirIn_leaf]⟩
      simp [fileIn_leaf_iff, hs]
    case isTrue hs =>
      have ha : failures.lstatAgain (mkcopyinfo lpath rpath name false).src = false := by
        simpa [givesUp, hs, mkcopyinfo] using h
      rw [buildNode, buildFile, ha, if_neg (by simp)]
      split
      case isTrue ht =>
        refine ⟨dirlist, l, rfl, .none fun rel => ?_, fun x => by simp [not_dirIn_leaf]⟩
        simp_all [fileIn_leaf_iff, FileStat.transferable]
      case isFalse ht =>
        have ht : st.transferable := by
          cases hr : sIsreg st.mode <;> simp_all [FileStat.transferable]
        refine ⟨dirlist, _, rfl, ?_, fun x => by simp [not_dirIn_leaf]⟩
        have hc : Copies lpath rpath name
            { mkcopyinfo lpath rpath name false with
              time := u32 st.mtime, mode := u32 st.mode, size := u32 st.size } := by
          simp [Copies, mkcopyinfo]
        exact (Adds.cons hc).congr fun rel => by simp [fileIn_leaf_iff, hs, ht]

theorem buildEntries_spec (entries : Files) (dirlist : Dirlist) (l : List CopyInfo) :
    ∃ r l', entries.foldlM (buildEntry failures lpath rpath) dirlist l = (r, l') ∧
      Adds lpath rpath (FileIn failures lpath (entries.takeWhile fun e => !givesUp failures lpath e)) l l' ∧
      match r with
      | none => ∃ e ∈ entries, givesUp failures lpath e
      | some dirlist' => (∀ e ∈ entries, givesUp failures lpath e = false) ∧
          ∀ x, x ∈ dirlist' ↔ x ∈ dirlist ∨ DirIn failures lpath rpath entries x := by
  induction entries generalizing dirlist l
  case nil => exact ⟨some dirlist, l, rfl, .none (by simp [FileIn]), by simp, by simp [DirIn]⟩
  case cons e entries hi =>
    rw [foldlM_cons]
    cases h : givesUp failures lpath e
    case true =>
      refine ⟨none, l, bind_of_none (buildEntry_none h l), .none ?_, e, mem_cons_self, h⟩
      simp [FileIn, h]
    case false =>
      obtain ⟨dirlist₁, l₁, hb, ha, hd⟩ := @buildEntry_some failures lpath rpath e h dirlist l
      obtain ⟨r, l₂, hr, ha₂, hm⟩ := hi dirlist₁ l₁
      refine ⟨r, l₂, (bind_of_some hb).trans hr, (ha.trans ha₂).congr fun rel => ?_, ?_⟩
      · rw [takeWhile_cons_of_pos (by simp [h])]
        exact fileIn_cons.symm
      · split at hm
        · obtain ⟨e', he, hg⟩ := hm
          exact ⟨e', mem_cons_of_mem e he, hg⟩
        · refine ⟨forall_mem_cons.mpr ⟨h, hm.left⟩, fun x => ?_⟩
          rw [hm.right, hd, or_assoc]
          exact or_congr_right dirIn_cons.symm

theorem forM_ignore_adds {f : α → Fallible (List CopyInfo) Unit} {p : α → List UInt8 → Prop}
    (xs : List α) (h : ∀ x ∈ xs, ∀ l, Adds lpath rpath (p x) l (f x l).snd) (l : List CopyInfo) :
    Adds lpath rpath (fun rel => ∃ x ∈ xs, p x rel) l (xs.forM (fun x => ignore (f x)) l).snd := by
  induction xs generalizing l
  case nil => exact .none (by simp)
  case cons x xs hi =>
    have hx := h x mem_cons_self l
    have hxs := hi (fun y hy => h y (mem_cons_of_mem x hy)) (f x l).snd
    exact (hx.trans hxs).congr fun rel => by simp

-- A file that is reached through a directory on the list.
def ReachedBy (failures : Failures) (lpath : List UInt8) (x : CopyInfo × Files)
    (rel : List UInt8) : Prop :=
  ∃ rel₁, lpath ++ rel = x.fst.src ++ rel₁ ∧ Reached failures x.fst.src x.snd rel₁

theorem reached_iff_of_givesUp (ho : failures.opendir lpath = false)
    (hg : ∃ e ∈ entries, givesUp failures lpath e) :
    Reached failures lpath entries rel ↔
      FileIn failures lpath (entries.takeWhile fun e => !givesUp failures lpath e) rel := by
  constructor
  case mpr =>
    rintro ⟨st, hm, hs, ht⟩
    exact .file ho hm hs ht
  case mp =>
    intro h
    rcases h with ⟨_, hm, hs, ht⟩ | ⟨_, hn, _, _, _⟩
    · exact ⟨_, hm, hs, ht⟩
    obtain ⟨e, he, hge⟩ := hg
    simp [hn e he] at hge

theorem reached_iff (ho : failures.opendir lpath = false)
    (hg : ∀ e ∈ entries, givesUp failures lpath e = false) (rpath : List UInt8) :
    Reached failures lpath entries rel ↔
      FileIn failures lpath (entries.takeWhile fun e => !givesUp failures lpath e) rel ∨
      ∃ x, DirIn failures lpath rpath entries x ∧ ReachedBy failures lpath x rel := by
  constructor
  case mp =>
    intro h
    rcases h with ⟨_, hm, hs, ht⟩ | ⟨_, _, hm, hs, hr⟩
    · exact .inl ⟨_, hm, hs, ht⟩
    rename_i name sub rel d _ _
    refine .inr ⟨(mkcopyinfo lpath rpath name true, sub), ⟨name, d, hm, hs, rfl⟩, rel, ?_, ?_⟩
    · simp [mkcopyinfo]
    · simpa [mkcopyinfo] using hr
  case mpr =>
    rintro (⟨st, hm, hs, ht⟩ | ⟨x, ⟨name, d, hm, hs, hx⟩, rel₁, hp, hr⟩)
    · exact .file ho hm hs ht
    · have hsrc : x.fst.src = lpath ++ (name ++ [slash]) := by simp [hx, mkcopyinfo]
      rw [hsrc, append_assoc] at hp
      rw [hsrc, ← append_assoc] at hr
      have hrel : rel = name ++ slash :: rel₁ := by
        simpa using append_cancel_left hp
      exact hrel ▸ .dir ho hg hm hs hr

theorem localBuildList_adds (hf : entriesDepth entries < fuel) (l : List CopyInfo) :
    Adds lpath rpath (Reached failures lpath entries) l
      (localBuildList failures fuel lpath rpath entries l).snd := by
  induction fuel generalizing lpath rpath entries l
  case zero => omega
  case succ fuel hi =>
    rw [localBuildList]
    split
    case isTrue ho =>
      refine .none fun rel hr => ?_
      cases hr <;> simp_all
    case isFalse ho =>
      have ho := Bool.eq_false_iff.mpr ho
      obtain ⟨r, l₁, hl, ha, hm⟩ := @buildEntries_spec failures lpath rpath entries [] l
      split at hm
      · rw [bind_of_none hl]
        exact ha.congr fun rel => (reached_iff_of_givesUp ho hm).symm
      case h_2 dirlist =>
        rw [bind_of_some hl]
        have hd : ∀ x ∈ dirlist, ∀ l, Adds lpath rpath (ReachedBy failures lpath x) l
            (localBuildList failures fuel x.fst.src x.fst.dst x.snd l).snd := by
          intro x hx l
          have hx := ((hm.right x).mp hx).resolve_left not_mem_nil
          obtain ⟨name, d, hn, hs, hc⟩ := hx
          have hlt := DirTree.entriesDepth_lt_of_mem hn
          obtain ⟨hsrc, hdst⟩ : x.fst.src = lpath ++ name ++ [slash] ∧
              x.fst.dst = rpath ++ name ++ [slash] := by simp [hc, mkcopyinfo]
          rw [hsrc, hdst]
          refine (hi (by omega) l).subdir.congr fun rel => ?_
          rw [ReachedBy, hsrc]
          simp
        refine (ha.trans (forM_ignore_adds dirlist hd l₁)).congr fun rel => ?_
        rw [reached_iff ho hm.left rpath]
        simp [hm.right]

end Adb.Sync
