import PlatformKnife.Lib.Exec

-- Stores to an array, each of the value that belongs to its place: `v i` at the places `i` in `s`.
structure Writes {α : Type*} (v : Nat → α) (s : Set Nat) (xs ys : List α) : Prop where
  length  : ys.length = xs.length
  written : ∀ i ∈ s, i < xs.length → ys[i]? = some (v i)
  kept    : ∀ i, i ∉ s → ys[i]? = xs[i]?

namespace Writes

variable {α : Type*} {v : Nat → α} {s t : Set Nat} {xs ys zs : List α}

theorem refl (v : Nat → α) (xs : List α) : Writes v ∅ xs xs where
  length  := rfl
  written := by simp
  kept    := by simp

theorem set (v : Nat → α) (i : Nat) (xs : List α) : Writes v {i} xs (xs.set i (v i)) where
  length  := List.length_set
  written := by
    rintro j rfl hj
    exact List.getElem?_set_self hj
  kept    := by
    intro j hj
    exact List.getElem?_set_ne fun hij => hj hij.symm

theorem trans (h₁ : Writes v s xs ys) (h₂ : Writes v t ys zs) : Writes v (s ∪ t) xs zs where
  length  := h₂.length.trans h₁.length
  written := by
    intro i hi hlt
    by_cases ht : i ∈ t
    case pos => exact h₂.written i ht (h₁.length ▸ hlt)
    case neg => exact (h₂.kept i ht).trans (h₁.written i (hi.resolve_right ht) hlt)
  kept    := by
    intro i hi
    rw [h₂.kept i fun ht => hi (.inr ht), h₁.kept i fun hs => hi (.inl hs)]

theorem congr (h : Writes v s xs ys) (hs : s = t) : Writes v t xs ys :=
  hs ▸ h

theorem foldlM {ε β : Type*} {f : List α → β → Except ε (List α)} {place : β → Set Nat} {bs : List β}
    (hf : ∀ b ∈ bs, ∀ ys : List α, ys.length = xs.length → ∃ zs, f ys b = .ok zs ∧
      Writes v (place b) ys zs) :
    ∃ zs, bs.foldlM f xs = .ok zs ∧ Writes v {i | ∃ b ∈ bs, i ∈ place b} xs zs := by
  induction bs generalizing xs
  case nil => exact ⟨xs, rfl, (refl v xs).congr (by simp)⟩
  case cons b bs hi =>
    obtain ⟨ys, hb, hw⟩ := hf b (by simp) xs rfl
    have hf' : ∀ b' ∈ bs, ∀ ys' : List α, ys'.length = ys.length → ∃ zs, f ys' b' = .ok zs ∧
        Writes v (place b') ys' zs :=
      fun b' hb' ys' hl => hf b' (by simp [hb']) ys' (hl.trans hw.length)
    obtain ⟨zs, hbs, hw'⟩ := hi hf'
    refine ⟨zs, ?_, (hw.trans hw').congr ?_⟩
    · rw [List.foldlM_cons, hb]
      exact hbs
    · ext i
      simp

theorem foldlM_pair {ε β γ δ : Type} {f : γ → β → Except ε γ} {g : δ → β → Except ε δ} {bs : List β}
    {c c' : γ} {d d' : δ} (h₁ : bs.foldlM f c = .ok c') (h₂ : bs.foldlM g d = .ok d') :
    bs.foldlM (fun s b => do return (← f s.fst b, ← g s.snd b)) (c, d) = .ok (c', d') := by
  induction bs generalizing c d
  case nil =>
    cases h₁
    cases h₂
    rfl
  case cons b bs hi =>
    rw [List.foldlM_cons] at h₁ h₂ ⊢
    cases hf : f c b
    case error => simp [hf] at h₁
    case ok c₁ =>
      cases hg : g d b
      case error => simp [hg] at h₂
      case ok d₁ =>
        rw [hf] at h₁
        rw [hg] at h₂
        exact hi h₁ h₂

end Writes
