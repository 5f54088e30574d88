import Mathlib.Data.Nat.Size
import PlatformKnife.Mincrypt.Rsa

namespace Adb

open CInt Mincrypt

-- The two numbers of an `RSA` key that are used here.
structure RSA where
  n : Nat
  e : Nat

-- What is called of the library.
structure OpenSSL where
  rsaSize    : RSA → Nat
  modSqr     : (a m : Nat) → Nat
  div        : (a d : Nat) → Nat × Nat
  modInverse : (a m : Nat) → Nat
  getWord    : Nat → Nat

-- The numbers are computed exactly.
structure OpenSSL.Exact (lib : OpenSSL) : Prop where
  rsaSize (rsa : RSA)  : lib.rsaSize rsa = (rsa.n.size + 7) / 8
  modSqr (a m : Nat)   : lib.modSqr a m = a ^ 2 % m
  div (a d : Nat)      : lib.div a d = (a / d, a % d)
  modInverse {a m : Nat} : a.Coprime m → 1 < m → lib.modInverse a m < m ∧ a * lib.modInverse a m % m = 1
  getWord {a : Nat}    : a < 2 ^ 64 → lib.getWord a = a

-- The loop that stores the words of `rr` and `n`.
def wordLoop (lib : OpenSSL) (r32 : Nat) : (k rr n : Nat) → List UInt32 × List UInt32
  | 0, _, _ => ([], [])
  | k + 1, rr, n =>
    let (rr, rrRem) := lib.div rr r32
    let (n, nRem)   := lib.div n r32
    let (rrs, ns)   := wordLoop lib r32 k rr n
    (UInt32.ofNat (lib.getWord rrRem) :: rrs, UInt32.ofNat (lib.getWord nRem) :: ns)

theorem wordLoop_length (lib : OpenSSL) (r32 k rr n : Nat) :
    (wordLoop lib r32 k rr n).1.length = k ∧ (wordLoop lib r32 k rr n).2.length = k := by
  induction k generalizing rr n
  case zero => exact ⟨rfl, rfl⟩
  case succ k hi => exact ⟨congrArg (· + 1) (hi _ _).1, congrArg (· + 1) (hi _ _).2⟩

def rsaToRSAPublicKey (lib : OpenSSL) (rsa : RSA) : Option RSAPublicKey :=
  if lib.rsaSize rsa ≠ RSANUMBYTES then
    none
  else
    let r32 := 2 ^ 32
    let r := 2 ^ (RSANUMWORDS * 32)
    let rr := lib.modSqr r rsa.n
    let (_, rem) := lib.div rsa.n r32
    let n0inv := lib.modInverse rem r32
    some {
      len := RSANUMWORDS
      n0inv := 0 - UInt32.ofNat (lib.getWord n0inv)
      n := (wordLoop lib r32 RSANUMWORDS rr rsa.n).2
      rr := (wordLoop lib r32 RSANUMWORDS rr rsa.n).1
      exponent := i32 (lib.getWord rsa.e)
      n_length := (wordLoop_length _ _ _ _ _).2
      rr_length := (wordLoop_length _ _ _ _ _).1
    }

end Adb
