import Mathlib.AlgebraicGeometry.EllipticCurve.Affine.Point
import PlatformKnife.Lib.Primality

-- The curve P-256 and its base point.

namespace P256

open Primality WeierstrassCurve

-- The field, the order of the base point and the constant of the equation.

def p : Nat := 0xffffffff00000001000000000000000000000000ffffffffffffffffffffffff
def n : Nat := 0xffffffff00000000ffffffffffffffffbce6faada7179e84f3b9cac2fc632551
def b : Nat := 0x5ac635d8aa3a93e7b3ebbd55769886bc651d06b0cc53b0f63bce3c3e27d2604b

-- The steps down to small primes, in one computation.
theorem certificates : Certificate 34282281433 35 2 [204061199] ∧
    Certificate 46076956964474543 56 2 [704251, 78283] ∧
    Certificate 774023187263532362759620327192479577272145303 150 2 [46076956964474543, 34282281433] ∧
    Certificate 835945042244614951780389953367877943453916927241 160 2
      [774023187263532362759620327192479577272145303] ∧
    Certificate p 256 2 [835945042244614951780389953367877943453916927241] ∧
    Certificate 208150935158385979 58 2 [191039911, 3023] ∧
    Certificate 2624747550333869278416773953 92 2 [208150935158385979] ∧
    Certificate 1002328039319 40 2 [3969899] ∧
    Certificate n 256 2 [2624747550333869278416773953, 1002328039319] := by
  decide +kernel

theorem prime_p : p.Prime := by
  obtain ⟨c₁, c₂, c₃, c₄, c, _⟩ := certificates
  have h₁ := prime_of_certificate (by norm_num) (by decide) c₁
  have h₂ := prime_of_certificate (by norm_num) (by decide) c₂
  have h₃ := prime_of_certificate (by simpa using ⟨h₂, h₁⟩) (by decide) c₃
  have h₄ := prime_of_certificate (by simpa using h₃) (by decide) c₄
  exact prime_of_certificate (by simpa using h₄) (by decide) c

theorem prime_n : n.Prime := by
  obtain ⟨_, _, _, _, _, c₁, c₂, c₃, c⟩ := certificates
  have h₁ := prime_of_certificate (by norm_num) (by decide) c₁
  have h₂ := prime_of_certificate (by simpa using h₁) (by decide) c₂
  have h₃ := prime_of_certificate (by norm_num) (by decide) c₃
  exact prime_of_certificate (by simpa using ⟨h₂, h₃⟩) (by decide) c

instance : Fact p.Prime :=
  ⟨prime_p⟩

instance : Fact n.Prime :=
  ⟨prime_n⟩

abbrev F := ZMod p

def curve : WeierstrassCurve.Affine F where
  a₁ := 0
  a₂ := 0
  a₃ := 0
  a₄ := -3
  a₆ := (b : F)

theorem equation_iff (x y : F) : curve.Equation x y ↔ y ^ 2 = x ^ 3 - 3 * x + b := by
  rw [WeierstrassCurve.Affine.equation_iff]
  simp only [curve]
  constructor <;> intro h <;> linear_combination h

theorem Δ_ne_zero : curve.Δ ≠ 0 := by
  have hΔ : curve.Δ = ((1728 : Nat) : F) - ((432 * b ^ 2 : Nat) : F) := by
    simp only [WeierstrassCurve.Δ, b₂, b₄, b₆, b₈, curve]
    push_cast
    ring
  rw [hΔ, sub_ne_zero, ne_eq, ZMod.natCast_eq_natCast_iff']
  decide +kernel

theorem nonsingular_iff (x y : F) : curve.Nonsingular x y ↔ y ^ 2 = x ^ 3 - 3 * x + b := by
  rw [← WeierstrassCurve.Affine.equation_iff_nonsingular_of_Δ_ne_zero Δ_ne_zero, equation_iff]

def baseX : Nat := 0x6b17d1f2e12c4247f8bce6e563a440f277037d812deb33a0f4a13945d898c296
def baseY : Nat := 0x4fe342e2fe1a7f9b8ee7eb4a7c0f9e162bce33576b315ececbb6406837bf51f5

-- The points with coordinates that are given as numbers.

def OnCurve (x y : Nat) : Prop :=
  (y : F) ^ 2 = (x : F) ^ 3 - 3 * x + b

theorem onCurve_iff (x y : Nat) : OnCurve x y ↔ (y ^ 2 + 3 * x) % p = (x ^ 3 + b) % p := by
  rw [OnCurve, ← ZMod.natCast_eq_natCast_iff']
  push_cast
  constructor <;> intro h <;> linear_combination h

instance (x y : Nat) : Decidable (OnCurve x y) :=
  decidable_of_iff _ (onCurve_iff x y).symm

def point (h : OnCurve x y) : curve.Point :=
  .some (x : F) (y : F) ((nonsingular_iff _ _).mpr h)

def G : curve.Point :=
  point (show OnCurve baseX baseY by decide +kernel)

-- The coordinates of a point, with zeros for the one at infinity.
def affine : curve.Point → Nat × Nat
  | .zero => (0, 0)
  | .some x y _ => (x.val, y.val)

theorem affine_lt (P : curve.Point) : (affine P).1 < p ∧ (affine P).2 < p := by
  cases P
  case zero => exact ⟨prime_p.pos, prime_p.pos⟩
  case some x y h => exact ⟨ZMod.val_lt x, ZMod.val_lt y⟩

end P256
