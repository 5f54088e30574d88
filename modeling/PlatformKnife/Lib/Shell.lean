import Mathlib.Tactic

-- How a POSIX shell reads the words behind the name of a command.
namespace Shell

open List

-- The characters of a word, and whether they are quoted.
abbrev Word := List (UInt8 × Bool)

inductive Mode
  | plain | escaped | single | double | doubleEscaped
  deriving DecidableEq

-- The words that are complete, and the one that has begun.
structure State where
  mode  : Mode
  words : List Word
  word  : Option Word

def blank (c : UInt8) : Bool :=
  c = 32 || c = 9

-- The newline and the characters of `|`, `&`, `;`, `<`, `>`, `(` and `)`.
def control (c : UInt8) : Bool :=
  c ∈ [10, 124, 38, 59, 60, 62, 40, 41]

-- The characters that start an expansion: the dollar sign and the backquote.
def expansion (c : UInt8) : Bool :=
  c = 36 || c = 96

namespace State

def push (s : State) (mode : Mode) (l : Word) : State :=
  { s with mode := mode, word := some (s.word.getD [] ++ l) }

def delimit (s : State) : State :=
  { s with words := s.words ++ s.word.toList, word := none }

-- One character. None follows an operator, the start of an expansion or a comment.
def step (s : State) (c : UInt8) : Option State :=
  match s.mode with
  | .plain =>
    if c = 92 then some { s with mode := .escaped }
    else if c = 39 then some (s.push .single [])
    else if c = 34 then some (s.push .double [])
    else if blank c then some s.delimit
    else if control c || expansion c || (c = 35 && s.word.isNone) then none
    else some (s.push .plain [(c, false)])
  | .escaped =>
    if c = 10 then some { s with mode := .plain } else some (s.push .plain [(c, true)])
  | .single =>
    if c = 39 then some { s with mode := .plain } else some (s.push .single [(c, true)])
  | .double =>
    if c = 34 then some { s with mode := .plain }
    else if c = 92 then some { s with mode := .doubleEscaped }
    else if expansion c then none
    else some (s.push .double [(c, true)])
  | .doubleEscaped =>
    if c = 10 then some { s with mode := .double }
    else if c = 34 || c = 92 || expansion c then some (s.push .double [(c, true)])
    else some (s.push .double [(92, true), (c, true)])

def run (s : State) (l : List UInt8) : Option State :=
  l.foldlM step s

end State

def words (l : List UInt8) : Option (List Word) :=
  match State.run ⟨.plain, [], none⟩ l with
  | none => none
  | some s => if s.mode = .plain then some s.delimit.words else none

-- A bracket is closed, before any slash.
def closes : List UInt8 → Bool
  | [] => false
  | c :: l => if c = 93 then true else if c = 47 then false else closes l

-- The first character of a list in brackets does not close it.
def closesBehind : List UInt8 → Bool
  | [] => false
  | c :: l => c ≠ 47 && closes l

def isBracketList (l : List UInt8) : Bool :=
  closesBehind (if l.head? = some 33 then l.tail else l)

def hasBracketList : List UInt8 → Bool
  | [] => false
  | c :: l => (c = 91 && isBracketList l) || hasBracketList l

-- The characters stand for a pattern of file names.
def isPattern (l : List UInt8) : Bool :=
  l.contains 42 || l.contains 63 || hasBracketList l

-- The characters with those left out that are quoted, except for slashes.
def unquoted (w : Word) : List UInt8 :=
  w.map fun c => if c.2 && c.1 ≠ 47 then 0 else c.1

def isTilde (w : Word) : Bool :=
  w.head? = some (126, false) && (w.takeWhile (· ≠ (47, false))).all (!·.2)

-- The string that a word stands for, if it is not expanded.
def value (w : Word) : Option (List UInt8) :=
  if isTilde w || isPattern (unquoted w) then none else some (w.map Prod.fst)

def read (l : List UInt8) : Option (List (List UInt8)) :=
  (words l).bind (·.mapM value)

namespace State

@[simp]
theorem run_nil (s : State) : s.run [] = some s :=
  rfl

@[simp]
theorem run_cons (s : State) (c : UInt8) (l : List UInt8) : s.run (c :: l) = (s.step c).bind (·.run l) :=
  rfl

theorem push_push (s : State) (m m' : Mode) (w w' : Word) :
    (s.push m w).push m' w' = s.push m' (w ++ w') := by
  simp [push]

theorem push_nil {s : State} (hm : s.mode = m) (hw : s.word ≠ none) : s.push m [] = s := by
  obtain ⟨w, hw⟩ := Option.ne_none_iff_exists'.mp hw
  cases s
  simp_all [push]

theorem run_append (s : State) (l₁ l₂ : List UInt8) : s.run (l₁ ++ l₂) = (s.run l₁).bind (·.run l₂) :=
  foldlM_append

end State

theorem value_eq_some_iff : value w = some l ↔
    (isTilde w = false ∧ isPattern (unquoted w) = false) ∧ w.map Prod.fst = l := by
  rw [value]
  split
  case isTrue h =>
    refine iff_of_false (by simp) fun hn => ?_
    simp [hn.1.1, hn.1.2] at h
  case isFalse h => simpa using fun _ => h

theorem words_eq_some_iff : words l = some ws ↔
    ∃ s, State.run ⟨.plain, [], none⟩ l = some s ∧ s.mode = .plain ∧ s.delimit.words = ws := by
  rw [words]
  cases State.run ⟨.plain, [], none⟩ l <;> simp

theorem words_cons_blank (h : blank c) (l : List UInt8) : words (c :: l) = words l := by
  have hs : State.step ⟨.plain, [], none⟩ c = some ⟨.plain, [], none⟩ := by
    rw [blank, Bool.or_eq_true, decide_eq_true_eq, decide_eq_true_eq] at h
    rcases h with rfl | rfl <;> rfl
  rw [words, State.run_cons, hs, Option.bind_some, words]

theorem mapM_value_eq_some_iff :
    ws.mapM value = some vs ↔ List.Forall₂ (fun w v => value w = some v) ws vs := by
  induction ws generalizing vs
  case nil => simp [eq_comm]
  case cons w ws hi =>
    simp only [mapM_cons, Option.bind_eq_bind, Option.bind_eq_some_iff, hi, forall₂_cons_left_iff]
    constructor
    case mp =>
      rintro ⟨v, hv, vs, hvs, he⟩
      exact ⟨v, vs, hv, hvs, (Option.some.inj he).symm⟩
    case mpr =>
      rintro ⟨v, vs, hv, hvs, rfl⟩
      exact ⟨v, hv, vs, hvs, rfl⟩

theorem read_eq_some_iff : read l = some vs ↔ ∃ ws, words l = some ws ∧ ws.mapM value = some vs := by
  rw [read, Option.bind_eq_some_iff]

variable {g : UInt8 → UInt8} {l : List UInt8}

-- A replacement of characters that mean nothing in a pattern.
def Keeps (g : UInt8 → UInt8) : Prop :=
  ∀ c, ∀ k ∈ ([33, 42, 47, 63, 91, 93] : List UInt8), g c = k ↔ c = k

variable (h : Keeps g)

include h

theorem Keeps.closes : closes (l.map g) = closes l := by
  induction l
  case nil => rfl
  case cons c l hi =>
    simp only [map_cons, Shell.closes, h c 93 (by decide), h c 47 (by decide), hi]

theorem Keeps.closesBehind : closesBehind (l.map g) = closesBehind l := by
  cases l
  case nil => rfl
  case cons c l => simp only [map_cons, Shell.closesBehind, ne_eq, h c 47 (by decide), h.closes]

theorem Keeps.isBracketList : isBracketList (l.map g) = isBracketList l := by
  have hh : (l.map g).head? = some 33 ↔ l.head? = some 33 := by
    cases l
    case nil => simp
    case cons c l => simpa using h c 33 (by decide)
  rw [Shell.isBracketList, Shell.isBracketList]
  simp only [hh]
  split
  case isTrue  => rw [← map_tail, h.closesBehind]
  case isFalse => exact h.closesBehind

theorem Keeps.hasBracketList : hasBracketList (l.map g) = hasBracketList l := by
  induction l
  case nil => rfl
  case cons c l hi =>
    simp only [map_cons, Shell.hasBracketList, h c 91 (by decide), h.isBracketList, hi]

theorem Keeps.contains (hk : k ∈ ([33, 42, 47, 63, 91, 93] : List UInt8)) :
    (l.map g).contains k = l.contains k := by
  rw [Bool.eq_iff_iff, contains_iff_mem, contains_iff_mem, mem_map]
  constructor
  case mp =>
    rintro ⟨c, hc, he⟩
    exact (h c k hk).mp he ▸ hc
  case mpr => exact fun hm => ⟨k, hm, (h k k hk).mpr rfl⟩

theorem Keeps.isPattern : isPattern (l.map g) = isPattern l := by
  rw [Shell.isPattern, Shell.isPattern, h.contains (by decide), h.contains (by decide), h.hasBracketList]

end Shell
