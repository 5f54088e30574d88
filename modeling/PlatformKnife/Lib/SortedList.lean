import Mathlib.Tactic

-- Lists that are sorted strictly by a key.

namespace List

variable {f : α → Nat} {l l₁ l₂ : List α}

theorem cut_unique {p : α → Prop} (h : l₁ ++ l₂ = l₁' ++ l₂')
    (h₁ : ∀ a ∈ l₁, p a) (h₂ : ∀ a ∈ l₂.head?, ¬p a)
    (h₁' : ∀ a ∈ l₁', p a) (h₂' : ∀ a ∈ l₂'.head?, ¬p a) : l₁ = l₁' ∧ l₂ = l₂' := by
  induction l₁ generalizing l₁' <;> cases l₁'
  case nil.nil => exact ⟨rfl, h⟩
  case nil.cons a _ =>
    simp only [nil_append, cons_append] at h
    exact absurd (h₁' a (by simp)) (h₂ a (by simp [h]))
  case cons.nil a _ _ =>
    simp only [nil_append, cons_append] at h
    exact absurd (h₁ a (by simp)) (h₂' a (by simp [← h]))
  case cons.cons hi _ _ =>
    simp only [cons_append, cons.injEq] at h
    simp only [mem_cons, forall_eq_or_imp] at h₁ h₁'
    obtain ⟨h₁, h₂⟩ := hi h.right h₁.right h₁'.right
    exact ⟨by rw [h.left, h₁], h₂⟩

theorem exists_cut (n : Nat) (h : l.Pairwise (f · < f ·)) :
    ∃ lo hi, l = lo ++ hi ∧ (∀ a ∈ lo, f a < n) ∧ (∀ a ∈ hi, n ≤ f a) := by
  induction l
  case nil => exact ⟨[], [], by simp⟩
  case cons a l hi =>
    obtain ⟨ha, h⟩ := pairwise_cons.mp h
    by_cases hn : f a < n
    case pos =>
      obtain ⟨lo, hi, he, h₁, h₂⟩ := hi h
      exact ⟨a :: lo, hi, by simp [he], by simp [hn]; exact h₁, h₂⟩
    refine ⟨[], a :: l, rfl, by simp, ?_⟩
    simp only [mem_cons, forall_eq_or_imp]
    exact ⟨not_lt.mp hn, fun b hb => (not_lt.mp hn).trans (ha b hb).le⟩

end List
