import Mathlib.Data.Nat.Digits.Defs
import Mathlib.Tactic

-- The product of Montgomery, taken one digit of a factor at a time.

namespace Montgomery

open Nat

-- One step adds the product of a digit and the other factor, makes the sum divisible by the base with a
-- multiple of the modulus, divides by the base and may subtract the modulus.
def Step (w n b a c c' : Nat) : Prop :=
  ∃ d < w, ∃ k, w * (c' + k * n) = c + a * b + d * n

inductive Steps (w n b : Nat) : (a : List Nat) → (c c' : Nat) → Prop
  | nil : Steps w n b [] c c
  | cons : Step w n b a c c' → Steps w n b as c' c'' → Steps w n b (a :: as) c c''

section

variable {w n b : Nat}

theorem Step.modEq (h : Step w n b a c c') : w * c' ≡ c + a * b [MOD n] := by
  obtain ⟨d, -, k, h⟩ := h
  have h₁ : w * c' ≡ w * (c' + k * n) [MOD n] := by
    rw [mul_add, ← mul_assoc]
    exact (add_mul_modulus_modEq_iff.mpr rfl).symm
  exact h₁.trans (h ▸ add_mul_modulus_modEq_iff.mpr rfl)

theorem Step.lt (h : Step w n b a c c') (ha : a < w) (hb : b < n) (hc : c < 2 * n) : c' < 2 * n := by
  obtain ⟨d, hd, k, h⟩ := h
  have hab : a * b ≤ (w - 1) * n := Nat.mul_le_mul (by omega) hb.le
  have hdn : d * n ≤ (w - 1) * n := Nat.mul_le_mul_right _ (by omega)
  have hw : w * n = (w - 1) * n + n := by
    rw [← succ_mul, succ_eq_add_one, Nat.sub_add_cancel (by omega)]
  have hlt : w * c' < w * (2 * n) := by
    calc w * c' ≤ w * (c' + k * n) := Nat.mul_le_mul_left _ (Nat.le_add_right _ _)
      _ < w * (2 * n) := by
        rw [h, mul_left_comm w 2 n]
        omega
  exact Nat.lt_of_mul_lt_mul_left hlt

theorem Steps.modEq (h : Steps w n b a c c') : w ^ a.length * c' ≡ c + ofDigits w a * b [MOD n] := by
  induction h
  case nil =>
    simp only [List.length_nil, pow_zero, one_mul, ofDigits_nil, zero_mul, add_zero]
    exact Nat.ModEq.refl _
  case cons a c c' as c'' hstep _ ih =>
    calc w ^ (as.length + 1) * c''
      _ = w * (w ^ as.length * c'') := by ring
      _ ≡ w * (c' + ofDigits w as * b) [MOD n] := ih.mul_left w
      _ = w * c' + w * ofDigits w as * b := by ring
      _ ≡ (c + a * b) + w * ofDigits w as * b [MOD n] := hstep.modEq.add_right _
      _ = c + ofDigits w (a :: as) * b := by rw [ofDigits_cons]; ring

theorem Steps.lt (h : Steps w n b a c c') (ha : ∀ x ∈ a, x < w) (hb : b < n) (hc : c < 2 * n) :
    c' < 2 * n := by
  induction h
  case nil => exact hc
  case cons hstep _ ih =>
    exact ih (fun x hx => ha x (List.mem_cons_of_mem _ hx)) (hstep.lt (ha _ List.mem_cons_self) hb hc)

end

-- The numbers that stand for others, and their products.

variable {R n : Nat}

def Form (R n x y : Nat) : Prop :=
  y ≡ x * R [MOD n]

theorem Form.enter (hR : R.Coprime n) (h : R * y ≡ x * (R ^ 2 % n) [MOD n]) : Form R n x y := by
  have h₁ : R * y ≡ R * (x * R) [MOD n] := by
    refine h.trans (((mod_modEq _ _).mul_left x).trans ?_)
    rw [show x * R ^ 2 = R * (x * R) by ring]
  exact Nat.ModEq.cancel_left_of_coprime ((coprime_comm.mp hR)) h₁

theorem Form.mul (hR : R.Coprime n) (h₁ : Form R n x₁ y₁) (h₂ : Form R n x₂ y₂)
    (h : R * y ≡ y₁ * y₂ [MOD n]) : Form R n (x₁ * x₂) y := by
  have h₃ : R * y ≡ R * (x₁ * x₂ * R) [MOD n] := by
    refine h.trans ((Nat.ModEq.mul h₁ h₂).trans ?_)
    rw [show x₁ * R * (x₂ * R) = R * (x₁ * x₂ * R) by ring]
  exact Nat.ModEq.cancel_left_of_coprime (coprime_comm.mp hR) h₃

theorem Form.leave (hR : R.Coprime n) (h₁ : Form R n x₁ y₁) (h : R * y ≡ y₁ * x₂ [MOD n]) :
    y ≡ x₁ * x₂ [MOD n] := by
  have h₃ : R * y ≡ R * (x₁ * x₂) [MOD n] := by
    refine h.trans ((h₁.mul_right x₂).trans ?_)
    rw [show x₁ * R * x₂ = R * (x₁ * x₂) by ring]
  exact Nat.ModEq.cancel_left_of_coprime (coprime_comm.mp hR) h₃

end Montgomery
