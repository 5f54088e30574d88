import PlatformKnife.Lib.Digits

namespace Mincrypt

open Bytes Digits

def P256_NDIGITS : Nat := 8
def P256_NBYTES : Nat := 32

structure P256Int where
  a : List UInt32
  length_eq : a.length = P256_NDIGITS
  deriving DecidableEq

namespace P256Int

def value (x : P256Int) : Nat :=
  Digits.value x.a

def ofNat (v : Nat) : P256Int where
  a := digits P256_NDIGITS v
  length_eq := digits_length _ _

theorem value_ofNat (h : v < 2 ^ 256) : (ofNat v).value = v := by
  rw [ofNat, value, value_digits]
  exact Nat.mod_eq_of_lt h

def fromBin (src : Nat → UInt8) : P256Int where
  a := ofBin P256_NDIGITS src
  length_eq := ofBin_length _ _

end P256Int

end Mincrypt
