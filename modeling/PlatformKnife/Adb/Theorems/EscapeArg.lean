import PlatformKnife.Adb.EscapeArg
import PlatformKnife.Lib.Shell

namespace Adb

open CString Shell List State

theorem allocLen_eq (n : Nat) (s : List UInt8) : allocLen n s = n + (escapeLoop s).length := by
  induction s generalizing n
  case nil => rfl
  case cons c s hi =>
    rw [allocLen, escapeLoop]
    split <;> simp only [hi, length_cons] <;> omega

theorem escapeLoop_eq_nil_iff : escapeLoop s = [] ↔ s = [] := by
  obtain _ | ⟨c, s⟩ := s
  · simp [escapeLoop]
  rw [escapeLoop]
  split <;> simp

theorem escapeArg_nil : escapeArg [] = [34, 34] :=
  rfl

theorem escapeArg_of_ne_nil (h : s ≠ []) : escapeArg s = escapeLoop s := by
  apply if_neg
  rw [allocLen_eq, zero_add, length_eq_zero_iff, escapeLoop_eq_nil_iff]
  exact h

-- An argument as the shell reads it, if it is one word.
def mark (s : List UInt8) : Word :=
  s.map fun c => (c, shouldEscape c)

-- The operators and starts of an expansion that are not escaped.
def stopping : List UInt8 :=
  [10, 124, 38, 59, 60, 62, 36, 96]

-- No character separates, starts an expansion or a comment, or makes a pattern.
structure Safe (s : List UInt8) : Prop where
  noStop : ∀ c ∈ s, c ∉ stopping
  noTab : 9 ∉ s
  noComment : s.head? ≠ some 35
  noTilde : ¬(s.head? = some 126 ∧ ∀ c ∈ s.takeWhile (· ≠ 47), shouldEscape c = false)
  noPattern : isPattern s = false

theorem shouldEscape_iff : shouldEscape c ↔ c ∈ [32, 39, 34, 92, 40, 41] := by
  simp [shouldEscape, or_assoc]

section

variable {st st' : State} {c : UInt8}

def weight (st : State) : Nat :=
  (st.words.map List.length).sum + (st.word.getD []).length

theorem weight_delimit (st : State) : weight st.delimit = weight st := by
  cases h : st.word <;> simp [weight, delimit, h]

theorem weight_push (st : State) (m : Mode) (w : Word) : weight (st.push m w) = weight st + w.length := by
  simp [weight, push, add_assoc]

def escaped (c : UInt8) : List UInt8 :=
  if shouldEscape c then [92, c] else [c]

theorem escapeLoop_cons (c : UInt8) (s : List UInt8) :
    escapeLoop (c :: s) = escaped c ++ escapeLoop s := by
  rw [escapeLoop, escaped]
  split <;> rfl

variable (h : st.mode = .plain)

include h

theorem run_escaped :
    st.run (escaped c) = if c = 9 then some st.delimit
      else if c ∈ stopping ∨ c = 35 ∧ st.word = none then none
      else some (st.push .plain [(c, shouldEscape c)]) := by
  rw [escaped]
  split
  case isTrue he =>
    have hm := shouldEscape_iff.mp he
    have h₁ : st.step 92 = some { st with mode := .escaped } := by simp [step, h]
    have hs : c ≠ 9 ∧ c ≠ 10 ∧ ¬(c ∈ stopping ∨ c = 35 ∧ st.word = none) := by
      simp only [mem_cons, not_mem_nil, or_false] at hm
      rcases hm with rfl | rfl | rfl | rfl | rfl | rfl <;> simp [stopping]
    rw [if_neg hs.1, if_neg hs.2.2, run_cons, h₁, Option.bind_some, run_cons]
    simp [step, hs.2.1, push, he]
  case isFalse he =>
    have hm := mt shouldEscape_iff.mpr he
    simp only [mem_cons, not_mem_nil, or_false, not_or] at hm
    obtain ⟨h₁, h₂, h₃, h₄, h₅, h₆⟩ := hm
    have hb : blank c ↔ c = 9 := by simp [blank, h₁]
    have hc : (Shell.control c || expansion c || (c = 35 && st.word.isNone)) ↔
        c ∈ stopping ∨ c = 35 ∧ st.word = none := by
      simp only [Shell.control, expansion, stopping, Bool.or_eq_true, decide_eq_true_eq,
        Bool.and_eq_true, Option.isNone_iff_eq_none, mem_cons, not_mem_nil, h₅, h₆, or_false,
        or_assoc]
    simp only [run_cons, run_nil, step, h, h₂, h₃, h₄, hb, hc, if_false, Bool.eq_false_iff.mpr he]
    split_ifs <;> rfl

theorem run_escapeLoop (hr : st.run (escapeLoop s) = some st') :
    st'.mode = .plain ∧ weight st' + s.count 9 = weight st + s.length ∧ (∀ c ∈ s, c ∉ stopping) ∧
      (st.word = none → s.head? ≠ some 35) := by
  induction s generalizing st
  case nil =>
    obtain rfl := Option.some.inj hr
    simp [h]
  case cons c s hi =>
    rw [escapeLoop_cons, run_append, run_escaped h] at hr
    split at hr
    case isTrue hc =>
      subst hc
      have hd : st.delimit.mode = .plain := h
      obtain ⟨hm, hw, hs, -⟩ := hi hd hr
      rw [weight_delimit] at hw
      refine ⟨hm, ?_, forall_mem_cons.mpr ⟨by decide, hs⟩, fun _ => by simp⟩
      rw [count_cons_self, length_cons]
      omega
    case isFalse hc =>
      split at hr
      case isTrue => cases hr
      case isFalse hn =>
        rw [not_or, not_and] at hn
        obtain ⟨hm, hw, hs, -⟩ := hi rfl hr
        rw [weight_push, length_singleton] at hw
        refine ⟨hm, ?_, forall_mem_cons.mpr ⟨hn.1, hs⟩, fun hnone h35 => ?_⟩
        · rw [count_cons_of_ne hc, length_cons]
          omega
        · exact hn.2 (by simpa using h35) hnone

theorem run_escapeArg (hn : st.word = none) (hr : st.run (escapeArg s) = some st') :
    st'.mode = .plain ∧ weight st' + s.count 9 = weight st + s.length ∧ (∀ c ∈ s, c ∉ stopping) ∧
      s.head? ≠ some 35 := by
  by_cases hs : s = []
  case neg =>
    rw [escapeArg_of_ne_nil hs] at hr
    obtain ⟨hm, hw, hstop, hc⟩ := run_escapeLoop h hr
    exact ⟨hm, hw, hstop, hc hn⟩
  subst hs
  rw [escapeArg_nil] at hr
  simp [step, h, push, hn, Option.bind] at hr
  subst hr
  simp [weight, hn]

theorem run_args {args : List (List UInt8)}
    (hr : st.run (args.flatMap fun s => 32 :: escapeArg s) = some st') :
    st'.mode = .plain ∧ weight st' + (args.map (count 9)).sum = weight st + (args.map length).sum ∧
      ∀ s ∈ args, (∀ c ∈ s, c ∉ stopping) ∧ s.head? ≠ some 35 := by
  induction args generalizing st
  case nil =>
    obtain rfl := Option.some.inj hr
    simp [h]
  case cons s args hi =>
    have hb : st.step 32 = some st.delimit := by simp [step, h, blank]
    rw [flatMap_cons, cons_append, run_cons, hb, Option.bind_some, run_append,
      Option.bind_eq_some_iff] at hr
    obtain ⟨st₁, h₁, h₂⟩ := hr
    have hd : st.delimit.mode = .plain := h
    obtain ⟨hm₁, hw₁, hs₁⟩ := run_escapeArg hd rfl h₁
    obtain ⟨hm₂, hw₂, hs₂⟩ := hi hm₁ h₂
    rw [weight_delimit] at hw₁
    refine ⟨hm₂, ?_, forall_mem_cons.mpr ⟨hs₁, hs₂⟩⟩
    simp only [map_cons, sum_cons]
    omega

theorem run_escapeLoop_of_safe (hs : ∀ c ∈ s, c ∉ stopping) (ht : 9 ∉ s)
    (hc : st.word = none → s ≠ [] ∧ s.head? ≠ some 35) :
    st.run (escapeLoop s) = some (st.push .plain (mark s)) := by
  induction s generalizing st
  case nil =>
    have hw : st.word ≠ none := fun hn => (hc hn).1 rfl
    rw [mark, map_nil, push_nil h hw]
    rfl
  case cons c s hi =>
    obtain ⟨hs₁, hs₂⟩ := forall_mem_cons.mp hs
    rw [mem_cons, not_or] at ht
    obtain ⟨ht₁, ht₂⟩ := ht
    have hn : ¬(c ∈ stopping ∨ c = 35 ∧ st.word = none) := by
      rintro (hm | ⟨rfl, hn⟩)
      · exact hs₁ hm
      · exact (hc hn).2 rfl
    rw [escapeLoop_cons, run_append, run_escaped h, if_neg (Ne.symm ht₁), if_neg hn,
      Option.bind_some, hi rfl hs₂ ht₂ (fun hw => by simp [push] at hw), push_push]
    rfl

theorem run_escapeArg_of_safe (hs : ∀ c ∈ s, c ∉ stopping) (ht : 9 ∉ s) (hc : s.head? ≠ some 35) :
    st.run (escapeArg s) = some (st.push .plain (mark s)) := by
  by_cases hn : s = []
  case neg =>
    rw [escapeArg_of_ne_nil hn, run_escapeLoop_of_safe h hs ht fun _ => ⟨hn, hc⟩]
  subst hn
  simp [escapeArg_nil, step, h, push, mark]

theorem run_args_of_safe {args : List (List UInt8)}
    (hs : ∀ s ∈ args, (∀ c ∈ s, c ∉ stopping) ∧ 9 ∉ s ∧ s.head? ≠ some 35) :
    ∃ st', st.run (args.flatMap fun s => 32 :: escapeArg s) = some st' ∧ st'.mode = .plain ∧
      st'.delimit.words = st.delimit.words ++ args.map mark := by
  induction args generalizing st
  case nil => exact ⟨st, rfl, h, by simp⟩
  case cons s args hi =>
    obtain ⟨⟨hs₁, hs₂, hs₃⟩, hs⟩ := forall_mem_cons.mp hs
    have hb : st.step 32 = some st.delimit := by simp [step, h, blank]
    have hd : st.delimit.mode = .plain := h
    have hp : (st.delimit.push .plain (mark s)).mode = .plain := rfl
    obtain ⟨st', hr, hm, hw⟩ := hi hp hs
    refine ⟨st', ?_, hm, ?_⟩
    · rw [flatMap_cons, cons_append, run_cons, hb, Option.bind_some, run_append,
        run_escapeArg_of_safe hd hs₁ hs₂ hs₃, Option.bind_some, hr]
    · rw [hw]
      simp [delimit, push]

end

theorem intercalate_cons (x : List UInt8) (l : List (List UInt8)) :
    intercalate [32] (x :: l) = x ++ l.flatMap fun y => 32 :: y := by
  induction l generalizing x
  case nil => simp [intercalate]
  case cons y l hi =>
    have hy := hi y
    rw [intercalate] at hy ⊢
    rw [intersperse_cons_cons, flatten_cons, flatten_cons, hy, flatMap_cons]
    rfl

theorem words_escapeArgs (args : List Str) :
    words (escapeArgs args) = words ((args.map Str.bytes).flatMap fun s => 32 :: escapeArg s) := by
  obtain _ | ⟨a, args⟩ := args
  · rfl
  have hj : escapeArgs (a :: args) =
      escapeArg a.bytes ++ (args.map Str.bytes).flatMap fun s => 32 :: escapeArg s := by
    rw [escapeArgs, map_cons, intercalate_cons, flatMap_map, flatMap_map]
  rw [hj, map_cons, flatMap_cons, cons_append, words_cons_blank (by decide)]

theorem keeps_escaped : Keeps fun c => if shouldEscape c then 0 else c := by
  intro c k hk
  dsimp only
  split
  case isTrue h =>
    have hm := shouldEscape_iff.mp h
    refine iff_of_false ?_ ?_
    · rintro rfl
      exact absurd hk (by decide)
    · rintro rfl
      simp only [mem_cons, not_mem_nil, or_false] at hk
      rcases hk with rfl | rfl | rfl | rfl | rfl | rfl <;> exact absurd h (by decide)
  case isFalse => exact Iff.rfl

section

variable (s : List UInt8)

theorem unquoted_mark : unquoted (mark s) = s.map fun c => if shouldEscape c then 0 else c := by
  rw [unquoted, mark, map_map]
  apply map_congr_left
  intro c _
  by_cases h : c = 47
  case neg => simp [h]
  subst h
  rfl

theorem isTilde_mark : isTilde (mark s) ↔
    s.head? = some 126 ∧ ∀ c ∈ s.takeWhile (· ≠ 47), shouldEscape c = false := by
  have h (k : UInt8) (hk : shouldEscape k = false) (c : UInt8) :
      (c, shouldEscape c) = (k, false) ↔ c = k := by
    rw [Prod.mk.injEq, and_iff_left_iff_imp]
    rintro rfl
    exact hk
  have hh : (mark s).head? = some (126, false) ↔ s.head? = some 126 := by
    cases s
    case nil => simp [mark]
    case cons c s => simp only [mark, map_cons, head?_cons, Option.some.injEq, h 126 rfl c]
  have ht : (mark s).takeWhile (· ≠ (47, false)) = mark (s.takeWhile (· ≠ 47)) := by
    rw [mark, takeWhile_map, mark]
    congr 2
    funext c
    simp only [Function.comp_apply, ne_eq, h 47 rfl c]
  rw [isTilde, ht, Bool.and_eq_true, decide_eq_true_eq, hh, all_eq_true]
  simp [mark]

theorem mark_map_fst : (mark s).map Prod.fst = s := by
  rw [mark, map_map]
  exact map_id s

theorem value_mark_iff : value (mark s) = some s ↔
    ¬(s.head? = some 126 ∧ ∀ c ∈ s.takeWhile (· ≠ 47), shouldEscape c = false) ∧ isPattern s = false := by
  rw [value_eq_some_iff, unquoted_mark, keeps_escaped.isPattern, ← isTilde_mark, mark_map_fst,
    Bool.not_eq_true]
  exact and_iff_left rfl

end

theorem words_of_safe
    {args : List (List UInt8)} (hs : ∀ s ∈ args, (∀ c ∈ s, c ∉ stopping) ∧ 9 ∉ s ∧ s.head? ≠ some 35) :
    words (args.flatMap fun s => 32 :: escapeArg s) = some (args.map mark) := by
  have hi : (⟨.plain, [], none⟩ : State).mode = .plain := rfl
  obtain ⟨st, hr, hm, hw⟩ := run_args_of_safe hi hs
  exact words_eq_some_iff.mpr ⟨st, hr, hm, hw⟩

theorem lengths_of_value (h : List.Forall₂ (fun w v => value w = some v) ws vs) :
    vs.map length = ws.map length := by
  induction h
  case nil => rfl
  case cons hv _ hi =>
    rw [map_cons, map_cons, hi, ← (value_eq_some_iff.mp hv).2, length_map]

theorem noTab_of_words
    {args : List (List UInt8)} (hw : words (args.flatMap fun s => 32 :: escapeArg s) = some ws)
    (hv : List.Forall₂ (fun w v => value w = some v) ws args) :
    ∀ s ∈ args, (∀ c ∈ s, c ∉ stopping) ∧ 9 ∉ s ∧ s.head? ≠ some 35 := by
  obtain ⟨st, hr, -, rfl⟩ := words_eq_some_iff.mp hw
  obtain ⟨-, hsum, hs⟩ := run_args rfl hr
  have hd : weight st = (st.delimit.words.map length).sum := by
    rw [← weight_delimit]
    rfl
  have hz : (args.map (count 9)).sum = 0 := by
    rw [hd, ← lengths_of_value hv] at hsum
    simpa [weight] using hsum
  intro s hm
  refine ⟨(hs s hm).1, ?_, (hs s hm).2⟩
  rw [← count_eq_zero]
  exact sum_eq_zero_iff.mp hz _ (mem_map_of_mem hm)

-- The arguments are read back exactly if each of them is safe.
theorem read_escapeArgs_iff (args : List Str) :
    Shell.read (escapeArgs args) = some (args.map Str.bytes) ↔ ∀ s ∈ args, Safe s.bytes := by
  rw [read_eq_some_iff, words_escapeArgs]
  simp only [mapM_value_eq_some_iff]
  constructor
  case mp =>
    rintro ⟨ws, hw, hv⟩
    have hs := noTab_of_words hw hv
    obtain rfl := Option.some.inj ((words_of_safe hs).symm.trans hw)
    rw [forall₂_map_left_iff, forall₂_same] at hv
    intro s hm
    have hm := mem_map_of_mem (f := Str.bytes) hm
    obtain ⟨hs₁, hs₂, hs₃⟩ := hs _ hm
    obtain ⟨ht, hp⟩ := (value_mark_iff _).mp (hv _ hm)
    exact ⟨hs₁, hs₂, hs₃, ht, hp⟩
  case mpr =>
    intro h
    have hs : ∀ s ∈ args.map Str.bytes, Safe s := by
      intro s hm
      obtain ⟨a, ha, rfl⟩ := mem_map.mp hm
      exact h a ha
    refine ⟨_, words_of_safe fun s hm => ⟨(hs s hm).noStop, (hs s hm).noTab, (hs s hm).noComment⟩, ?_⟩
    rw [forall₂_map_left_iff, forall₂_same]
    exact fun s hm => (value_mark_iff s).mpr ⟨(hs s hm).noTilde, (hs s hm).noPattern⟩

theorem zero_notMem_ampersandName : 0 ∉ ([97, 38, 98, 46, 97, 112, 107] : List UInt8) := by
  decide

def ampersandName : Str :=
  ⟨[97, 38, 98, 46, 97, 112, 107], zero_notMem_ampersandName⟩

-- The command ends at the ampersand.
theorem read_ampersandName :
    Shell.read (escapeArgs [ampersandName]) = none ∧
    Shell.read (escapeArgs [ampersandName]) ≠ some [ampersandName.bytes] :=
  ⟨rfl, nofun⟩

end Adb
