import PlatformKnife.Lib.Bytes

-- Numbers as lists of digits of 32 bits, with the least significant digit first.

namespace Digits

open Bytes List Nat

def value : List UInt32 → Nat
  | [] => 0
  | d :: l => d.toNat + 2 ^ 32 * value l

@[simp]
theorem value_nil : value [] = 0 :=
  rfl

@[simp]
theorem value_cons (d : UInt32) (l : List UInt32) : value (d :: l) = d.toNat + 2 ^ 32 * value l :=
  rfl

theorem value_append (l₁ l₂ : List UInt32) :
    value (l₁ ++ l₂) = value l₁ + 2 ^ (32 * l₁.length) * value l₂ := by
  induction l₁
  case nil => simp
  case cons d l hi =>
    rw [cons_append, value_cons, value_cons, hi, length_cons, mul_succ, pow_add]
    ring

theorem value_lt (l : List UInt32) : value l < 2 ^ (32 * l.length) := by
  induction l
  case nil => simp
  case cons d l hi =>
    have hd := d.toNat_lt
    rw [value_cons, length_cons, mul_succ, pow_add]
    generalize 2 ^ (32 * l.length) = m at hi
    omega

-- The `w` digits of a number.
def digits : Nat → Nat → List UInt32
  | 0, _ => []
  | w + 1, v => UInt32.ofNat v :: digits w (v / 2 ^ 32)

theorem digits_length (w v : Nat) : (digits w v).length = w := by
  induction w generalizing v
  case zero => rfl
  case succ w hi => rw [digits, length_cons, hi]

theorem value_digits (w v : Nat) : value (digits w v) = v % 2 ^ (32 * w) := by
  induction w generalizing v
  case zero => rw [digits, value_nil, mul_zero, pow_zero, mod_one]
  case succ w hi =>
    rw [digits, value_cons, hi, UInt32.toNat_ofNat', mul_succ, add_comm (32 * w), pow_add, mod_mul]

theorem toNat_mul_add (a b c : UInt32) (x : UInt64) (hx : x.toNat < 2 ^ 32) :
    (x + a.toUInt64 * b.toUInt64 + c.toUInt64).toNat = x.toNat + a.toNat * b.toNat + c.toNat := by
  have ha := a.toNat_lt
  have hb := b.toNat_lt
  have hc := c.toNat_lt
  have hab : a.toNat * b.toNat ≤ (2 ^ 32 - 1) * (2 ^ 32 - 1) := Nat.mul_le_mul (by omega) (by omega)
  simp only [UInt64.toNat_add, UInt64.toNat_mul, UInt32.toNat_toUInt64]
  omega

theorem toNat_shiftRight (x : UInt64) : (x >>> 32).toNat = x.toNat / 2 ^ 32 := by
  simp [shiftRight_eq_div_pow]

theorem shiftRight_lt (x : UInt64) : (x >>> 32).toNat < 2 ^ 32 := by
  have hx := x.toNat_lt
  rw [toNat_shiftRight]
  omega

theorem toNat_low (x : UInt64) : x.toUInt32.toNat = x.toNat % 2 ^ 32 := by
  simp

-- The word that is made of four bytes.
def beWord (b₀ b₁ b₂ b₃ : UInt8) : UInt32 :=
  (b₀.toUInt32 <<< 24) ||| (b₁.toUInt32 <<< 16) ||| (b₂.toUInt32 <<< 8) ||| b₃.toUInt32

theorem shiftLeft_or (a : Nat) (h : b < 2 ^ i) : a <<< i ||| b = a * 2 ^ i + b := by
  rw [← shiftLeft_add_eq_or_of_lt h, shiftLeft_eq]

theorem beWord_toNat (b₀ b₁ b₂ b₃ : UInt8) : (beWord b₀ b₁ b₂ b₃).toNat = fromBe [b₀, b₁, b₂, b₃] := by
  have h₀ := b₀.toNat_lt
  have h₁ := b₁.toNat_lt
  have h₂ := b₂.toNat_lt
  have h₃ := b₃.toNat_lt
  have hs (b : UInt8) (i : Nat) (hi : i ≤ 24) : b.toNat <<< i % 2 ^ 32 = b.toNat <<< i := by
    have hb := b.toNat_lt
    have hp : 2 ^ i ≤ 2 ^ 24 := Nat.pow_le_pow_right (by decide) hi
    rw [shiftLeft_eq, mod_eq_of_lt]
    calc b.toNat * 2 ^ i < 2 ^ 8 * 2 ^ 24 := Nat.mul_lt_mul_of_lt_of_le hb hp (by decide)
      _ = 2 ^ 32 := by decide
  have hn : (beWord b₀ b₁ b₂ b₃).toNat =
      b₀.toNat <<< 24 ||| (b₁.toNat <<< 16 ||| (b₂.toNat <<< 8 ||| b₃.toNat)) := by
    simp only [beWord, UInt32.toNat_or, UInt32.toNat_shiftLeft, UInt8.toNat_toUInt32]
    rw [← hs b₀ 24 (by decide), ← hs b₁ 16 (by decide), ← hs b₂ 8 (by decide), ← Nat.or_assoc,
      ← Nat.or_assoc]
    rfl
  rw [hn, shiftLeft_or (b := b₃.toNat) _ h₃, shiftLeft_or (i := 16) _ (by omega),
    shiftLeft_or (i := 24) _ (by omega)]
  simp only [fromBe_cons, length_cons, length_nil, fromBe_nil]
  ring

-- The word at a position, and the digits of a number with the most significant byte first.

def beWordAt (src : Nat → UInt8) (p : Nat) : UInt32 :=
  beWord (src p) (src (p + 1)) (src (p + 2)) (src (p + 3))

section

variable (w : Nat) (src : Nat → UInt8)

def ofBin : List UInt32 :=
  (List.range w).map fun i => beWordAt src (4 * (w - 1 - i))

@[simp]
theorem ofBin_length : (ofBin w src).length = w := by
  simp [ofBin]

theorem ofBin_succ : ofBin (w + 1) src = ofBin w (fun i => src (4 + i)) ++ [beWordAt src 0] := by
  rw [ofBin, range_succ, map_append, map_singleton]
  have hf : ∀ i ∈ range w, beWordAt src (4 * (w + 1 - 1 - i)) =
      beWordAt (fun i => src (4 + i)) (4 * (w - 1 - i)) := by
    intro i hi
    have hi := mem_range.mp hi
    have hp : 4 * (w + 1 - 1 - i) = 4 + 4 * (w - 1 - i) := by omega
    simp only [beWordAt, hp, add_assoc]
  rw [map_congr_left hf, Nat.add_sub_cancel, Nat.sub_self]
  rfl

theorem value_ofBin : value (ofBin w src) = fromBe (ofPtr src (4 * w)) := by
  induction w generalizing src
  case zero => rfl
  case succ w hi =>
    have hp : ofPtr src 4 = [src 0, src 1, src 2, src 3] := rfl
    rw [ofBin_succ, value_append, hi, value_cons, value_nil, beWordAt, beWord_toNat, ofBin_length,
      show 4 * (w + 1) = 4 + 4 * w by ring, ofPtr_add, fromBe_append, ofPtr_length, hp]
    rw [show 32 * w = 8 * (4 * w) by ring, pow_mul 2 8 (4 * w)]
    ring

end

-- The bytes of a word and of a number, with the most significant one first.

def beBytes (d : UInt32) : List UInt8 :=
  [(d >>> 24).toUInt8, (d >>> 16).toUInt8, (d >>> 8).toUInt8, d.toUInt8]

def toBin (l : List UInt32) : List UInt8 :=
  l.reverse.flatMap beBytes

theorem beBytes_eq (d : UInt32) : beBytes d = be 4 d.toNat := by
  have hshift (i : UInt32) (hi : i.toNat < 32) :
      (d >>> i).toUInt8 = UInt8.ofNat (d.toNat / 2 ^ i.toNat) := by
    apply UInt8.toNat.inj
    simp [shiftRight_eq_div_pow, mod_eq_of_lt hi]
  have h₀ : d.toUInt8 = UInt8.ofNat d.toNat := by
    apply UInt8.toNat.inj
    simp
  rw [beBytes, hshift 24 (by decide), hshift 16 (by decide), hshift 8 (by decide), h₀]
  simp [be, le, Nat.div_div_eq_div_mul]

theorem toBin_eq (l : List UInt32) : toBin l = be (4 * l.length) (value l) := by
  induction l
  case nil => rfl
  case cons d l hi =>
    have hd := d.toNat_lt
    have hw : 4 * (d :: l).length = 4 + 4 * l.length := by
      rw [length_cons]
      ring
    rw [toBin, reverse_cons, flatMap_append, flatMap_singleton, beBytes_eq, ← toBin, hi, hw,
      value_cons, be_add]
    congr 1
    · congr 1
      omega
    · rw [← be_mod 4 (d.toNat + 2 ^ 32 * value l)]
      congr 1
      omega

end Digits
