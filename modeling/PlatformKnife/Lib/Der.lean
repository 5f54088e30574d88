import Mathlib.Data.Nat.Digits.Lemmas
import PlatformKnife.Lib.Bytes

-- The distinguished encoding of natural numbers, and of sequences.

namespace Der

open Bytes List Nat

-- The bytes of a number, the most significant one first and without zeros in front.
def magnitude (n : Nat) : List UInt8 :=
  ((Nat.digits 256 n).map UInt8.ofNat).reverse

-- A length of 128 or more has the number of its bytes in front of it.
def lengthOctets (n : Nat) : List UInt8 :=
  if n < 128 then [UInt8.ofNat n] else UInt8.ofNat (128 + (magnitude n).length) :: magnitude n

def tlv (tag : UInt8) (content : List UInt8) : List UInt8 :=
  tag :: (lengthOctets content.length ++ content)

-- A number whose first bit is set gets a zero, as it would be negative.
def integerContent (n : Nat) : List UInt8 :=
  match magnitude n with
  | [] => [0]
  | b :: l => if 128 ≤ b then 0 :: b :: l else b :: l

def integer (n : Nat) : List UInt8 :=
  tlv 0x02 (integerContent n)

def sequence (l : List (List UInt8)) : List UInt8 :=
  tlv 0x30 l.flatten

def null : List UInt8 :=
  tlv 0x05 []

def octetString (l : List UInt8) : List UInt8 :=
  tlv 0x04 l

-- The number of an object identifier, with the first bit of all but the last byte set.
def arc (n : Nat) : List UInt8 :=
  match Nat.digits 128 n with
  | [] => [0]
  | d :: l => (l.reverse.map fun d => UInt8.ofNat (128 + d)) ++ [UInt8.ofNat d]

def objectIdentifier (root branch : Nat) (arcs : List Nat) : List UInt8 :=
  tlv 0x06 (((40 * root + branch) :: arcs).flatMap arc)

theorem fromLe_digits (n : Nat) : fromLe ((digits 256 n).map UInt8.ofNat) = n := by
  have hl : ∀ l : List Nat, (∀ d ∈ l, d < 256) → fromLe (l.map UInt8.ofNat) = ofDigits 256 l := by
    intro l hl
    induction l
    case nil => rfl
    case cons d l hi =>
      have hd := hl d mem_cons_self
      rw [map_cons, fromLe, ofDigits_cons, hi fun d h => hl d (mem_cons_of_mem _ h)]
      simp [mod_eq_of_lt hd]
  rw [hl _ fun d => digits_lt_base (by decide), ofDigits_digits]

theorem fromBe_magnitude (n : Nat) : fromBe (magnitude n) = n := by
  rw [fromBe, magnitude, reverse_reverse, fromLe_digits]

theorem magnitude_length_le (h : n < 256 ^ k) : (magnitude n).length ≤ k := by
  rw [magnitude, length_reverse, length_map]
  exact (digits_length_le_iff (by decide) n).mpr h

theorem fromBe_integerContent (n : Nat) : fromBe (integerContent n) = n := by
  have hm := fromBe_magnitude n
  rw [integerContent]
  split
  case h_1 h =>
    rw [h] at hm
    rw [← hm]
    rfl
  case h_2 b l h =>
    rw [h] at hm
    split
    case isTrue  => rw [fromBe_cons, hm]; simp
    case isFalse => exact hm

theorem integerContent_length (h : n < 256 ^ k) :
    1 ≤ (integerContent n).length ∧ (integerContent n).length ≤ k + 1 := by
  have hm := magnitude_length_le h
  rw [integerContent]
  split
  · simp
  case h_2 b l h =>
    rw [h, length_cons] at hm
    split <;> simp only [length_cons] <;> omega

theorem tlv_of_lt (tag : UInt8) (h : content.length < 128) :
    tlv tag content = tag :: UInt8.ofNat content.length :: content := by
  rw [tlv, lengthOctets, if_pos h]
  rfl

end Der
