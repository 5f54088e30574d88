import Mathlib.Tactic

namespace Bytes

open List UInt8

-- The `w` low bytes of `n`, least significant first.
def le : Nat → Nat → List UInt8
  | 0, _ => []
  | w + 1, n => UInt8.ofNat n :: le w (n / 256)

def fromLe : List UInt8 → Nat
  | [] => 0
  | b :: bs => b.toNat + 256 * fromLe bs

@[simp]
theorem le_length : (w n : Nat) → (le w n).length = w
  | 0, _ => rfl
  | w + 1, n => by simp [le, le_length w]

theorem fromLe_lt : (l : List UInt8) → fromLe l < 256 ^ l.length
  | [] => by simp [fromLe]
  | b :: l => by
    have hb := b.toNat_lt
    have hl := fromLe_lt l
    simp only [fromLe, length_cons, Nat.pow_succ]
    omega

theorem fromLe_le (w n : Nat) : fromLe (le w n) = n % 256 ^ w := by
  induction w generalizing n
  case zero => simp [le, fromLe, Nat.mod_one]
  case succ w hi =>
    have hb : (ofNat n).toNat = n % 256 := by simp
    rw [le, fromLe, hi, hb, Nat.pow_succ', Nat.mod_mul]

theorem fromLe_le_of_lt (h : n < 256 ^ w) : fromLe (le w n) = n := by
  rw [fromLe_le, Nat.mod_eq_of_lt h]

theorem le_mod (w n : Nat) : le w (n % 256 ^ w) = le w n := by
  induction w generalizing n
  case zero => rfl
  case succ w hi =>
    have hd : n % 256 ^ (w + 1) / 256 = n / 256 % 256 ^ w := by
      rw [Nat.pow_succ', Nat.mod_mul_right_div_self]
    have hm : ofNat (n % 256 ^ (w + 1)) = ofNat n := by
      apply toNat.inj
      simp [Nat.pow_succ']
    rw [le, le, hd, hi, hm]

-- The same with the most significant byte first.

def be (w n : Nat) : List UInt8 :=
  (le w n).reverse

def fromBe (l : List UInt8) : Nat :=
  fromLe l.reverse

@[simp]
theorem be_length (w n : Nat) : (be w n).length = w := by
  simp [be]

theorem fromBe_be (w n : Nat) : fromBe (be w n) = n % 256 ^ w := by
  rw [fromBe, be, reverse_reverse, fromLe_le]

theorem le_add (v w n : Nat) : le (v + w) n = le v n ++ le w (n / 256 ^ v) := by
  induction v generalizing n
  case zero => simp [le]
  case succ v hi =>
    rw [Nat.succ_add, le, le, hi, cons_append, Nat.div_div_eq_div_mul, Nat.pow_succ']

theorem be_add (v w n : Nat) : be (v + w) n = be w (n / 256 ^ v) ++ be v n := by
  rw [be, le_add, reverse_append, be, be]

theorem be_mod (w n : Nat) : be w (n % 256 ^ w) = be w n := by
  rw [be, le_mod, be]

theorem fromLe_append (l₁ l₂ : List UInt8) :
    fromLe (l₁ ++ l₂) = fromLe l₁ + 256 ^ l₁.length * fromLe l₂ := by
  induction l₁
  case nil => simp [fromLe]
  case cons b l hi =>
    rw [cons_append, fromLe, fromLe, hi, length_cons, pow_succ]
    ring

@[simp]
theorem fromBe_nil : fromBe [] = 0 :=
  rfl

theorem fromBe_append (l₁ l₂ : List UInt8) :
    fromBe (l₁ ++ l₂) = fromBe l₁ * 256 ^ l₂.length + fromBe l₂ := by
  rw [fromBe, reverse_append, fromLe_append, length_reverse, fromBe, fromBe]
  ring

theorem fromBe_cons (b : UInt8) (l : List UInt8) :
    fromBe (b :: l) = b.toNat * 256 ^ l.length + fromBe l := by
  rw [← singleton_append, fromBe_append]
  simp [fromBe, fromLe]

theorem fromBe_lt (l : List UInt8) : fromBe l < 256 ^ l.length := by
  have h := fromLe_lt l.reverse
  rwa [length_reverse] at h

theorem le_fromLe : (l : List UInt8) → le l.length (fromLe l) = l
  | [] => rfl
  | b :: l => by
    have hb : ofNat (b.toNat + 256 * fromLe l) = b := toNat.inj (by simp)
    have hd : (b.toNat + 256 * fromLe l) / 256 = fromLe l := by
      have := b.toNat_lt
      omega
    rw [length_cons, le, fromLe, hb, hd, le_fromLe l]

theorem be_fromBe (l : List UInt8) : be l.length (fromBe l) = l := by
  rw [be, fromBe, ← length_reverse, le_fromLe, reverse_reverse]

theorem fromBe_replicate_zero (n : Nat) (l : List UInt8) : fromBe (replicate n 0 ++ l) = fromBe l := by
  induction n
  case zero => rfl
  case succ n hi => simp [replicate_succ, fromBe_cons, hi]

-- The bytes that a pointer `p` and a length `n` describe.
def ofPtr (p : Nat → UInt8) (n : Nat) : List UInt8 :=
  (List.range n).map p

-- A byte string seen as a pointer to its first byte.
def toPtr (l : List UInt8) : Nat → UInt8 :=
  fun i => l.getD i 0

section

variable (p : Nat → UInt8)

@[simp]
theorem ofPtr_length (n : Nat) : (ofPtr p n).length = n := by
  simp [ofPtr]

@[simp]
theorem ofPtr_zero : ofPtr p 0 = [] :=
  rfl

theorem ofPtr_getD (h : i < n) : (ofPtr p n).getD i 0 = p i := by
  simp [ofPtr, h]

theorem ofPtr_add (m n : Nat) : ofPtr p (m + n) = ofPtr p m ++ ofPtr (fun i => p (m + i)) n := by
  simp [ofPtr, range_add, Function.comp_def]

end

theorem ofPtr_congr (h : ∀ i < n, p i = q i) : ofPtr p n = ofPtr q n := by
  simp only [ofPtr, map_inj_left, mem_range]
  exact h

@[simp]
theorem ofPtr_toPtr (l : List UInt8) : ofPtr (toPtr l) l.length = l := by
  apply ext_getElem
  case hl => simp
  case h =>
    intro i _ h
    simp [ofPtr, toPtr, h]

-- The first `n` bytes, with zeros where the string is shorter than that.
def resize (l : List UInt8) (n : Nat) : List UInt8 :=
  l.take n ++ List.replicate (n - l.length) 0

@[simp]
theorem resize_length (l : List UInt8) (n : Nat) : (resize l n).length = n := by
  simp only [resize, length_append, length_take, length_replicate]
  omega

end Bytes
