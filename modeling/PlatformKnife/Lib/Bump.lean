import Mathlib.Tactic

-- Allocation from arenas that hand out their places in order, so a cursor tells all about one.
namespace Bump

variable {ι : Type*}

structure Arenas (ι : Type*) where
  base : ι → Nat
  size : ι → Nat
  disjoint : ∀ i j x, base i ≤ x → x < base i + size i → base j ≤ x → x < base j + size j → i = j

-- The places handed out while the cursors moved. Some that they have passed may be lost.
structure Grants (A : Arenas ι) (c c' : ι → Nat) (xs : List Nat) : Prop where
  le    : ∀ i, c i ≤ c' i
  nodup : xs.Nodup
  mem   : ∀ x ∈ xs, ∃ i, A.base i + c i ≤ x ∧ x < A.base i + c' i ∧ x < A.base i + A.size i

variable {A : Arenas ι} {c c' c'' : ι → Nat} {xs ys : List Nat} {i : ι}

namespace Grants

theorem refl (A : Arenas ι) (c : ι → Nat) : Grants A c c [] where
  le _  := le_refl _
  nodup := List.nodup_nil
  mem   := by simp

theorem trans (h : Grants A c c' xs) (h' : Grants A c' c'' ys) : Grants A c c'' (ys ++ xs) where
  le i  := le_trans (h.le i) (h'.le i)
  nodup := by
    refine List.nodup_append.mpr ⟨h'.nodup, h.nodup, ?_⟩
    intro y hy x hx hxy
    obtain ⟨j, hj₁, hj₂, hj₃⟩ := h'.mem y hy
    obtain ⟨i, hi₁, hi₂, hi₃⟩ := h.mem x hx
    subst hxy
    have hij := A.disjoint i j y (by omega) hi₃ (by omega) hj₃
    subst hij
    omega
  mem x hx := by
    cases List.mem_append.mp hx
    case inl hy =>
      obtain ⟨i, hi₁, hi₂⟩ := h'.mem x hy
      exact ⟨i, by have := h.le i; omega, hi₂⟩
    case inr hx =>
      obtain ⟨i, hi₁, hi₂, hi₃⟩ := h.mem x hx
      exact ⟨i, hi₁, by have := h'.le i; omega, hi₃⟩

theorem subperm (h : Grants A c c' xs) (hs : ys.Subperm xs) : Grants A c c' ys where
  le := h.le
  nodup := by
    obtain ⟨zs, hp, hsub⟩ := hs
    exact hp.nodup_iff.mp (hsub.nodup h.nodup)
  mem x hx := h.mem x (hs.subset hx)

theorem single [DecidableEq ι] (A : Arenas ι) (c : ι → Nat) (hn : c i + n ≤ A.size i ∨ n = 0) :
    Grants A c (Function.update c i (c i + n)) (List.range' (A.base i + c i) n) where
  le j  := by
    by_cases hj : j = i
    case pos => subst hj; simp
    case neg => simp [hj]
  nodup := List.nodup_range'
  mem x hx := by
    have := List.mem_range'_1.mp hx
    refine ⟨i, ?_⟩
    simp
    omega

theorem giveBack [DecidableEq ι] (h : Grants A c c' xs) (hc : c i < c' i) :
    Grants A c (Function.update c' i (c' i - 1)) (xs.erase (A.base i + c' i - 1)) where
  le j  := by
    by_cases hj : j = i
    case pos => subst hj; simp; omega
    case neg => simpa [hj] using h.le j
  nodup := h.nodup.erase _
  mem x hx := by
    obtain ⟨hne, hx⟩ := h.nodup.mem_erase_iff.mp hx
    obtain ⟨j, hj₁, hj₂, hj₃⟩ := h.mem x hx
    refine ⟨j, hj₁, ?_, hj₃⟩
    by_cases hj : j = i
    case pos => subst hj; simp; omega
    case neg => simpa [hj] using hj₂

theorem not_mem (h : Grants A c c' xs) (hc : c i ≤ A.size i) (hx : A.base i ≤ x)
    (hx' : x < A.base i + c i) : x ∉ xs := by
  intro hmem
  obtain ⟨j, hj₁, _, hj₃⟩ := h.mem x hmem
  have hij := A.disjoint i j x hx (by omega) (by omega) hj₃
  subst hij
  omega

end Grants
end Bump
