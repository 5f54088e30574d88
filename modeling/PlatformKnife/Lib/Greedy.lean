import Mathlib.Data.List.Perm.Subperm
import Mathlib.Tactic

-- A request that is met from several supplies. Each time one is taken that covers what is left or, if
-- there is none, a largest one.
namespace Greedy

open List

inductive Takes : List Nat → Nat → List Nat → Prop
  | nil  : Takes free 0 []
  | cons : 0 < len → 0 < f → free.Perm (f :: others) → (f < len → ∀ g ∈ others, g ≤ f) →
    Takes ((f - min len f) :: others) (len - min len f) takes →
    Takes free len (min len f :: takes)

variable {free others takes used : List Nat}

theorem subperm_of_cons (h : used.Subperm (f :: others)) (hf : f ∉ used) : used.Subperm others := by
  have := h.erase f
  rwa [erase_of_not_mem hf, erase_cons_head] at this

namespace Takes

theorem eq_nil (h : Takes free 0 takes) : takes = [] := by
  generalize hlen : 0 = len at h
  cases h
  case nil  => rfl
  case cons => omega

theorem perm (h : Takes free len takes) (hp : free.Perm free') : Takes free' len takes := by
  cases h
  case nil => exact .nil
  case cons hf hperm hlen hmax hrest => exact .cons hlen hf (hp.symm.trans hperm) hmax hrest

theorem len_eq_zero (h : Takes free len []) : len = 0 := by
  cases h
  rfl

theorem eq_nil_of_le (h : Takes (g :: others) (len - min len f) takes) (hle : len ≤ f) : takes = [] := by
  rw [min_eq_left hle, Nat.sub_self] at h
  exact h.eq_nil

theorem of_lt (h : Takes ((f - min len f) :: others) (len - min len f) takes) (hlt : f < len) :
    Takes (0 :: others) (len - f) takes := by
  rwa [min_eq_right (le_of_lt hlt), Nat.sub_self] at h

theorem exists_subperm (h : Takes free len takes) :
    ∃ used : List Nat, used.Subperm free ∧ used.length = takes.length ∧ len ≤ used.sum ∧ 0 ∉ used := by
  induction h
  case nil => exact ⟨[], by simp⟩
  case cons len f others takes free hlen hf hperm hmax hrest ih =>
    by_cases hle : len ≤ f
    case pos =>
      have hmem : f ∈ free := hperm.mem_iff.mpr mem_cons_self
      refine ⟨[f], (singleton_sublist.mpr hmem).subperm, ?_, by simpa using hle, ?_⟩
      · simp [hrest.eq_nil_of_le hle]
      · simp; omega
    obtain ⟨used, hsub, hlength, hsum, hzero⟩ := ih
    rw [show f - min len f = 0 by omega] at hsub
    have hsub := (subperm_cons f).mpr (subperm_of_cons hsub hzero)
    refine ⟨f :: used, hsub.trans hperm.symm.subperm, by simp [hlength], ?_, ?_⟩
    · simp only [sum_cons]; omega
    · simp only [mem_cons, hzero, or_false]; omega

-- No other choice needs fewer supplies. The largest one can be exchanged for any of those chosen.
theorem length_le (h : Takes free len takes) (hsub : used.Subperm free) (hsum : len ≤ used.sum) :
    takes.length ≤ used.length := by
  induction h generalizing used
  case nil => simp
  case cons len f others takes free hlen hf hperm hmax hrest ih =>
    have hsub := hsub.trans hperm.subperm
    obtain _ | ⟨u, used⟩ := used
    · simp at hsum; omega
    by_cases hle : len ≤ f
    case pos => simp [hrest.eq_nil_of_le hle]
    obtain ⟨used', hlength, hsub', hsum'⟩ : ∃ used' : List Nat, used'.length = used.length ∧
        used'.Subperm others ∧ len - f ≤ used'.sum := by
      by_cases hmem : f ∈ u :: used
      case pos =>
        have hp := perm_cons_erase hmem
        refine ⟨(u :: used).erase f, by simp [length_erase_of_mem hmem], ?_, ?_⟩
        · exact (subperm_cons f).mp (hp.symm.subperm.trans hsub)
        · have := hp.sum_nat
          simp only [sum_cons] at this hsum
          omega
      have hs := subperm_of_cons hsub hmem
      have hu := hmax (by omega) u (hs.subset mem_cons_self)
      refine ⟨used, rfl, (sublist_cons_self u used).subperm.trans hs, ?_⟩
      simp only [sum_cons] at hsum
      omega
    have := ih (hsub'.cons_right _) (show len - min len f ≤ used'.sum by omega)
    simp only [length_cons]
    omega

theorem length_le_iff (h : Takes free len takes) :
    takes.length ≤ n ↔ ∃ used : List Nat, used.Subperm free ∧ used.length ≤ n ∧ len ≤ used.sum := by
  constructor
  case mp =>
    intro hn
    obtain ⟨used, hsub, hlength, hsum, _⟩ := h.exists_subperm
    exact ⟨used, hsub, by omega, hsum⟩
  case mpr =>
    rintro ⟨used, hsub, hlength, hsum⟩
    exact le_trans (h.length_le hsub hsum) hlength

theorem le_of_bound (h : Takes free len takes) (hb : len ≤ b ∨ ∀ f ∈ free, f ≤ b) :
    ∀ t ∈ takes, t ≤ b := by
  induction h
  case nil => simp
  case cons len f others takes free hlen hf hperm hmax hrest ih =>
    have hmem {g} : g ∈ free ↔ g = f ∨ g ∈ others := by rw [hperm.mem_iff, mem_cons]
    intro t ht
    cases mem_cons.mp ht
    case inl ht =>
      cases hb
      case inl hb => omega
      case inr hb => have := hb f (hmem.mpr <| .inl rfl); omega
    case inr ht =>
      refine ih ?_ t ht
      cases hb
      case inl hb => exact .inl (by omega)
      case inr hb =>
        refine .inr ?_
        intro g hg
        cases mem_cons.mp hg
        case inl hg => have := hb f (hmem.mpr <| .inl rfl); omega
        case inr hg => exact hb g (hmem.mpr <| .inr hg)

theorem head_le_iff (h : Takes free len (t :: takes)) : t ≤ b ↔ len ≤ b ∨ ∀ f ∈ free, f ≤ b := by
  refine ⟨?_, fun hb => h.le_of_bound hb t mem_cons_self⟩
  cases h
  case cons f others hf hperm hlen hmax hrest =>
    intro ht
    by_cases hle : len ≤ f
    case pos => exact .inl (by omega)
    refine .inr ?_
    intro g hg
    cases mem_cons.mp (hperm.mem_iff.mp hg)
    case inl hg => omega
    case inr hg => have := hmax (by omega) g hg; omega

theorem one_lt_head_iff (h : Takes free len (t :: takes)) (hlen : 1 < len) :
    1 < t ↔ ∃ f ∈ free, 2 ≤ f := by
  have hle := @head_le_iff free takes len t 1 h
  constructor
  case mp =>
    intro ht
    by_contra hnot
    have := hle.mpr <| .inr fun f hf => Nat.le_of_not_lt fun hlt => hnot ⟨f, hf, hlt⟩
    omega
  case mpr =>
    rintro ⟨f, hf, hlt⟩
    by_contra hnot
    cases hle.mp (Nat.le_of_not_lt hnot)
    case inl hb => omega
    case inr hb => have := hb f hf; omega

-- All others are shorter than a bound that the first one may reach, unless two supplies reach it and the
-- request is for both.
theorem tail_le_iff (h : Takes free len (t :: takes)) (ht : t ≤ b + 1) :
    (∀ s ∈ takes, s ≤ b) ↔ (2 ≤ free.countP (b + 1 ≤ ·) → len < 2 * (b + 1)) := by
  cases h
  case cons f others hf hperm hlen hmax hrest =>
    rw [hperm.countP_eq, countP_cons]
    by_cases hle : len ≤ f
    case pos =>
      simp only [hrest.eq_nil_of_le hle, not_mem_nil, false_implies, implies_true, true_iff]
      omega
    have hrest := hrest.of_lt (by omega)
    have hnone : others.countP (b + 1 ≤ ·) = 0 ↔ ∀ g ∈ 0 :: others, g ≤ b := by
      simp [countP_eq_zero]
    constructor
    case mp =>
      intro hs htwo
      obtain _ | ⟨s, ss⟩ := takes
      · have := hrest.len_eq_zero; omega
      cases hrest.head_le_iff.mp (hs s mem_cons_self)
      case inl hb => omega
      case inr hb =>
        rw [hnone.mpr hb] at htwo
        split at htwo <;> omega
    case mpr =>
      intro himp
      refine hrest.le_of_bound ?_
      by_cases hzero : others.countP (b + 1 ≤ ·) = 0
      case pos => exact .inr (hnone.mp hzero)
      obtain ⟨g, hg, hbg⟩ := countP_pos_iff.mp (pos_of_ne_zero hzero)
      have hgf := hmax (by omega) g hg
      have hbf : b + 1 ≤ f := le_trans (of_decide_eq_true hbg) hgf
      have := himp (by simp only [hbf, decide_true, if_true]; omega)
      exact .inl (by omega)

end Takes
end Greedy
