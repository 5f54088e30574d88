import Mathlib.Tactic

namespace CInt

open Int

-- The conversion to `unsigned int`.
def u32 (n : Nat) : Nat :=
  n % 2 ^ 32

-- The conversion to `unsigned short`.
def u16 (n : Nat) : Nat :=
  n % 2 ^ 16

-- The difference of values of type `unsigned int`.
def subU32 (m n : Nat) : Nat :=
  u32 (m + (2 ^ 32 - n))

-- The conversion to a 64 bit unsigned type.
def u64 (n : Nat) : Nat :=
  n % 2 ^ 64

-- The conversion to `int`, which keeps the low 32 bits.
def i32 (n : Int) : Int :=
  n.bmod (2 ^ 32)

-- The conversion of an `unsigned int` to `int`.
def toI32 (n : Nat) : Int :=
  if n < 2 ^ 31 then n else n - 2 ^ 32

-- The conversion of a 64 bit unsigned value to the signed type.
def toI64 (n : Nat) : Int :=
  if n < 2 ^ 63 then n else n - 2 ^ 64

-- The conversion of a signed value to `unsigned int`.
def toU32 (n : Int) : Nat :=
  (n % 2 ^ 32).toNat

-- The conversion of a signed value to `size_t`.
def toU64 (n : Int) : Nat :=
  (n % 2 ^ 64).toNat

theorem u64_of_lt (h : n < 2 ^ 64) : u64 n = n :=
  Nat.mod_eq_of_lt h

theorem u32_lt (n : Nat) : u32 n < 2 ^ 32 :=
  Nat.mod_lt _ (by decide)

theorem u32_le (n : Nat) : u32 n ≤ n :=
  Nat.mod_le _ _

theorem u32_of_lt (h : n < 2 ^ 32) : u32 n = n :=
  Nat.mod_eq_of_lt h

@[simp]
theorem u32_u32 (n : Nat) : u32 (u32 n) = u32 n :=
  u32_of_lt (u32_lt n)

theorem subU32_of_le (h : n ≤ m) (hm : m < 2 ^ 32) : subU32 m n = m - n := by
  simp only [subU32, u32]
  omega

theorem u32_eq_iff : u32 n = n ↔ n < 2 ^ 32 := by
  constructor <;> intro h
  case mp  => exact h ▸ u32_lt n
  case mpr => exact u32_of_lt h

@[simp]
theorem u32_add_u32 (m n : Nat) : u32 (m + u32 n) = u32 (m + n) := by
  simp [u32]

theorem i32_of_lt (h : n < 2 ^ 31) : i32 (n : Nat) = n := by
  simp only [i32, bmod_def]
  omega

theorem i32_neg_of_le (h₁ : 2 ^ 31 ≤ n) (h₂ : n < 2 ^ 32) : i32 (n : Nat) = (n : Int) - 2 ^ 32 := by
  simp only [i32, bmod_def]
  omega

theorem i32_lt (n : Int) : i32 n < 2 ^ 31 := by
  simp only [i32, bmod_def]
  omega

theorem i32_of_mem (h₁ : -2 ^ 31 ≤ n) (h₂ : n < 2 ^ 31) : i32 n = n := by
  simp only [i32, bmod_def]
  omega

@[simp]
theorem i32_i32_sub (m n : Int) : i32 (i32 m - n) = i32 (m - n) := by
  simp only [i32, bmod_def]
  omega

theorem lt_of_i32_nonneg (h : n < 2 ^ 32) (hn : 0 ≤ i32 (n : Nat)) : n < 2 ^ 31 := by
  by_contra hc
  have := i32_neg_of_le (Nat.le_of_not_lt hc) h
  omega

theorem toI32_of_lt (h : n < 2 ^ 31) : toI32 n = n :=
  if_pos h

theorem toI32_nonneg (h : n < 2 ^ 31) : 0 ≤ toI32 n := by
  rw [toI32_of_lt h]
  exact natCast_nonneg n

theorem le_toI32 (n : Nat) : -2 ^ 31 ≤ toI32 n := by
  rw [toI32]
  split <;> omega

theorem toU32_lt (n : Int) : toU32 n < 2 ^ 32 := by
  simp only [toU32]
  omega

theorem toU64_sub (h : n ≤ m) (hm : m < 2 ^ 64) : toU64 ((m : Nat) - (n : Nat)) = m - n := by
  simp only [toU64]
  omega

theorem toI64_add (h₁ : -2 ^ 63 ≤ m + n) (h₂ : m + n < 2 ^ 63) :
    toI64 (u64 (toU64 m + toU64 n)) = m + n := by
  have hu : ((u64 (toU64 m + toU64 n) : Nat) : Int) = (m + n) % 2 ^ 64 := by
    simp only [u64, toU64]
    omega
  rw [toI64]
  split <;> omega

theorem toU32_of_nonneg (h₁ : 0 ≤ n) (h₂ : n < 2 ^ 32) : (toU32 n : Int) = n := by
  simp only [toU32]
  omega

@[simp]
theorem toU32_natCast (n : Nat) : toU32 n = u32 n := by
  simp only [toU32, u32]
  omega

@[simp]
theorem toU32_i32 (n : Nat) : toU32 (i32 n) = u32 n := by
  simp only [toU32, i32, u32, bmod_def]
  omega

theorem toU32_add_i32 (m n : Nat) : toU32 (m + i32 n) = u32 (m + n) := by
  simp only [toU32, i32, u32, bmod_def]
  omega

end CInt
