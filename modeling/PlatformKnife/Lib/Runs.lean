import Mathlib.Tactic
import Mathlib.Order.CompletePartialOrder

-- The runs of numbers below a bound with a property, found by a scan with an open run.
namespace Runs

-- A run that can not be made longer, from `a` up to but without `b`.
structure IsRun (p : Nat → Bool) (n a b : Nat) : Prop where
  lt    : a < b
  le    : b ≤ n
  all   : ∀ k, a ≤ k → k < b → p k = true
  left  : a = 0 ∨ p (a - 1) = false
  right : b = n ∨ p b = false

-- The start of the run that is open, and the runs that were closed.
abbrev Scan := Option Nat × List (Nat × Nat)

def step (p : Nat → Bool) (s : Scan) (k : Nat) : Scan :=
  match s, p k with
  | (none, l), true => (some k, l)
  | (some a, l), false => (none, l ++ [(a, k)])
  | _, _ => s

def scan (p : Nat → Bool) : Nat → Scan
  | 0 => (none, [])
  | n + 1 => step p (scan p n) n

def close (n : Nat) : Scan → List (Nat × Nat)
  | (none, l) => l
  | (some a, l) => l ++ [(a, n)]

def runs (p : Nat → Bool) (n : Nat) : List (Nat × Nat) :=
  close n (scan p n)

variable {p : Nat → Bool} {n a b a' b' k : Nat}

theorem IsRun.lt_of_lt (h : IsRun p n a b) (h' : IsRun p n a' b') (hb : b < b') : b < a' := by
  by_contra hc
  have ht := h'.all b (by omega) hb
  obtain hn | hf := h.right
  · have := h'.le
    omega
  · simp [ht] at hf

theorem IsRun.succ (h : IsRun p n a n) (hk : p n = true) : IsRun p (n + 1) a (n + 1) where
  lt    := Nat.lt_succ_of_lt h.lt
  le    := le_refl _
  all   := by
    intro k h₁ h₂
    obtain hk' | rfl : k < n ∨ k = n := by omega
    · exact h.all k h₁ hk'
    · exact hk
  left  := h.left
  right := .inl rfl

theorem IsRun.of_false (h : IsRun p n a b) (hb : p b = false) (hm : b ≤ m) : IsRun p m a b where
  lt    := h.lt
  le    := hm
  all   := h.all
  left  := h.left
  right := .inr hb

-- What a scan of the numbers below `n` has found.
structure Scanned (p : Nat → Bool) (n : Nat) (s : Scan) : Prop where
  opened : ∀ a, s.fst = some a → IsRun p n a n
  none   : s.fst = none → n = 0 ∨ p (n - 1) = false
  closed : ∀ r ∈ s.snd, IsRun p n r.fst r.snd ∧ r.snd < n
  sorted : s.snd.Pairwise fun r r' => r.snd < r'.fst
  covers : ∀ k < n, p k = true →
    (∃ r ∈ s.snd, r.fst ≤ k ∧ k < r.snd) ∨ ∃ a, s.fst = some a ∧ a ≤ k

namespace Scanned

variable {s : Scan} {l : List (Nat × Nat)}

theorem closed_succ (h : Scanned p n s) : ∀ r ∈ s.snd, IsRun p (n + 1) r.fst r.snd ∧ r.snd < n + 1 := by
  intro r hr
  obtain ⟨hrun, hlt⟩ := h.closed r hr
  have hf := hrun.right.resolve_left (by omega)
  exact ⟨hrun.of_false hf (by omega), by omega⟩

theorem open_run (h : Scanned p n (Option.none, l)) (hn : p n = true) : Scanned p (n + 1) (some n, l) where
  opened := by
    intro a ha
    obtain rfl := Option.some.inj ha
    have hall : ∀ k, n ≤ k → k < n + 1 → p k = true := fun k h₁ h₂ => (by omega : k = n) ▸ hn
    exact ⟨Nat.lt_succ_self n, le_refl _, hall, h.none rfl, .inl rfl⟩
  none   := by simp
  closed := h.closed_succ
  sorted := h.sorted
  covers := by
    refine Nat.forall_lt_succ_right.mpr ⟨fun k hk hp => ?_, fun _ => .inr ⟨n, rfl, le_refl n⟩⟩
    exact .inl <| (h.covers k hk hp).resolve_right (by simp)

theorem stay_closed (h : Scanned p n (Option.none, l)) (hn : p n = false) :
    Scanned p (n + 1) (Option.none, l) where
  opened := by simp
  none   := fun _ => .inr hn
  closed := h.closed_succ
  sorted := h.sorted
  covers := Nat.forall_lt_succ_right.mpr ⟨h.covers, by simp [hn]⟩

section

variable (h : Scanned p n (some a, l))

include h

theorem stay_open (hn : p n = true) : Scanned p (n + 1) (some a, l) where
  opened := by
    intro a' ha
    exact (h.opened a' ha).succ hn
  none   := by simp
  closed := h.closed_succ
  sorted := h.sorted
  covers := Nat.forall_lt_succ_right.mpr ⟨h.covers, fun _ => .inr ⟨a, rfl, (h.opened a rfl).lt.le⟩⟩

theorem sorted_append : (l ++ [(a, n)]).Pairwise fun r r' => r.snd < r'.fst := by
  refine List.pairwise_append.mpr ⟨h.sorted, List.pairwise_singleton .., ?_⟩
  intro r hr r' hr'
  rw [List.mem_singleton.mp hr']
  obtain ⟨hrun, hlt⟩ := h.closed r hr
  exact hrun.lt_of_lt (h.opened a rfl) hlt

theorem close_run (hn : p n = false) : Scanned p (n + 1) (Option.none, l ++ [(a, n)]) where
  opened := by simp
  none   := fun _ => .inr hn
  closed := by
    intro r hr
    rw [List.mem_append, List.mem_singleton] at hr
    obtain hr | rfl := hr
    · exact h.closed_succ r hr
    · exact ⟨(h.opened a rfl).of_false hn (Nat.le_succ n), Nat.lt_succ_self n⟩
  sorted := h.sorted_append
  covers := by
    refine Nat.forall_lt_succ_right.mpr ⟨fun k hk hp => ?_, by simp [hn]⟩
    obtain ⟨r, hr, hrk⟩ | ⟨a', ha, hak⟩ := h.covers k hk hp
    · exact .inl ⟨r, List.mem_append_left _ hr, hrk⟩
    · obtain rfl := Option.some.inj ha
      exact .inl ⟨(a, n), by simp, hak, hk⟩

end

theorem step (h : Scanned p n s) : Scanned p (n + 1) (step p s n) := by
  obtain ⟨o, l⟩ := s
  cases o <;> cases hn : p n <;> simp only [Runs.step, hn]
  case none.false => exact h.stay_closed hn
  case none.true  => exact h.open_run hn
  case some.false => exact h.close_run hn
  case some.true  => exact h.stay_open hn

end Scanned

theorem scanned (p : Nat → Bool) (n : Nat) : Scanned p n (scan p n) := by
  induction n
  case zero => exact ⟨by simp [scan], by simp, by simp [scan], by simp [scan], by simp⟩
  case succ n hi => exact hi.step

theorem mem_close : r ∈ close n s ↔ r ∈ s.snd ∨ s.fst = some r.fst ∧ r.snd = n := by
  obtain ⟨o, l⟩ := s
  cases o <;> simp [close, Prod.ext_iff, eq_comm]

theorem isRun_of_mem (h : r ∈ runs p n) : IsRun p n r.fst r.snd := by
  have hs := scanned p n
  obtain h | ⟨ho, hn⟩ := mem_close.mp h
  · exact (hs.closed r h).left
  · exact hn ▸ hs.opened _ ho

theorem runs_sorted (p : Nat → Bool) (n : Nat) : (runs p n).Pairwise fun r r' => r.snd < r'.fst := by
  have hs := scanned p n
  rw [runs]
  generalize scan p n = s at hs
  obtain ⟨_ | a, l⟩ := s
  · exact hs.sorted
  · exact hs.sorted_append

theorem exists_mem_runs_iff : (∃ r ∈ runs p n, r.fst ≤ k ∧ k < r.snd) ↔ k < n ∧ p k = true := by
  constructor
  case mp =>
    rintro ⟨r, hr, h₁, h₂⟩
    have hrun := isRun_of_mem hr
    exact ⟨lt_of_lt_of_le h₂ hrun.le, hrun.all k h₁ h₂⟩
  case mpr =>
    rintro ⟨hk, hp⟩
    obtain ⟨r, hr, hrk⟩ | ⟨a, ha, hak⟩ := (scanned p n).covers k hk hp
    · exact ⟨r, mem_close.mpr (.inl hr), hrk⟩
    · exact ⟨(a, n), mem_close.mpr (.inr ⟨ha, rfl⟩), hak, hk⟩

theorem IsRun.eq_of_mem (h : IsRun p n a b) (h' : IsRun p n a' b') (h₁ : a ≤ k) (h₂ : k < b)
    (h₁' : a' ≤ k) (h₂' : k < b') : a = a' ∧ b = b' := by
  have hb : b = b' := by
    rcases lt_trichotomy b b' with hb | hb | hb
    · have := h.lt_of_lt h' hb
      omega
    · exact hb
    · have := h'.lt_of_lt h hb
      omega
  have key {a a' b : Nat} (h : IsRun p n a b) (h' : IsRun p n a' b) : a' ≤ a := by
    by_contra hc
    have ht := h.all (a' - 1) (by omega) (by have := h'.lt; omega)
    have hf := h'.left.resolve_left (by omega)
    simp [ht] at hf
  subst hb
  exact ⟨le_antisymm (key h' h) (key h h'), rfl⟩

theorem mem_runs_iff : (a, b) ∈ runs p n ↔ IsRun p n a b := by
  constructor
  case mp  => exact isRun_of_mem
  case mpr =>
    intro h
    have hp := h.all a (le_refl a) h.lt
    obtain ⟨r, hr, h₁, h₂⟩ := exists_mem_runs_iff.mpr ⟨lt_of_lt_of_le h.lt h.le, hp⟩
    obtain ⟨ha, hb⟩ := h.eq_of_mem (isRun_of_mem hr) (le_refl a) h.lt h₁ h₂
    exact ha ▸ hb ▸ hr

theorem runs_of_all (h : ∀ k < n, p k = true) (hn : 0 < n) : runs p n = [(0, n)] := by
  have key (m : Nat) (hm : m < n) : scan p (m + 1) = (some 0, []) := by
    induction m
    case zero => simp [scan, step, h 0 hn]
    case succ m hi => rw [scan, hi (by omega)]; simp [step, h (m + 1) hm]
  have hs := key (n - 1) (by omega)
  rw [Nat.sub_add_cancel hn] at hs
  rw [runs, hs]
  rfl

theorem union_eq_iff {α β : Type*} {l : List α} {whole part : α → Set β}
    (hsub : ∀ r ∈ l, part r ⊆ whole r) (hd : l.Pairwise fun r r' => Disjoint (whole r) (whole r')) :
    (∀ x, (∃ r ∈ l, x ∈ part r) ↔ ∃ r ∈ l, x ∈ whole r) ↔ ∀ r ∈ l, whole r ⊆ part r := by
  constructor
  case mp =>
    intro h r hr x hx
    obtain ⟨r', hr', hx'⟩ := (h x).mpr ⟨r, hr, hx⟩
    by_cases he : r = r'
    case pos => exact he ▸ hx'
    have : Std.Symm fun r r' => Disjoint (whole r) (whole r') := ⟨fun _ _ h => h.symm⟩
    have hdis := hd.forall hr hr' he
    exact absurd (hsub r' hr' hx') (Set.disjoint_left.mp hdis hx)
  case mpr =>
    intro h x
    constructor
    · rintro ⟨r, hr, hx⟩
      exact ⟨r, hr, hsub r hr hx⟩
    · rintro ⟨r, hr, hx⟩
      exact ⟨r, hr, h r hr hx⟩

end Runs
