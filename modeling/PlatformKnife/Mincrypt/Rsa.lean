import PlatformKnife.Lib.CInt
import PlatformKnife.Mincrypt.Sha

namespace Mincrypt

open Bytes CInt Digits Slice

def RSANUMBYTES : Nat := 256
def RSANUMWORDS : Nat := RSANUMBYTES / 4

structure RSAPublicKey where
  len : Int
  n0inv : UInt32
  n : List UInt32
  rr : List UInt32
  exponent : Int
  n_length : n.length = RSANUMWORDS
  rr_length : rr.length = RSANUMWORDS

namespace RSAPublicKey

-- The words of the two numbers that the loops look at.

def words (key : RSAPublicKey) : List UInt32 :=
  key.n.take key.len.toNat

def rrWords (key : RSAPublicKey) : List UInt32 :=
  key.rr.take key.len.toNat

end RSAPublicKey

-- The loop of `subM`. The sum is one of unsigned values, the accumulator is signed.
def subLoop : (n a : List UInt32) → (A : Int) → List UInt32
  | n :: ns, a :: as, A =>
    let A := toI64 (u64 (toU64 A + toU64 ((a.toNat : Int) - n.toNat)))
    UInt32.ofNat (toU32 A) :: subLoop ns as (A >>> (32 : Nat))
  | _, as, _ => as

-- `a[] -= mod`
def subM (key : RSAPublicKey) (a : List UInt32) : List UInt32 :=
  subLoop key.words a 0

-- The loop of `geM`, which starts with the most significant word.
def geLoop : List (UInt32 × UInt32) → Bool
  | [] => true
  | (a, n) :: l => if a < n then false else if a > n then true else geLoop l

-- `a[] >= mod`
def geM (key : RSAPublicKey) (a : List UInt32) : Bool :=
  geLoop (a.zip key.words).reverse

-- The loop of `montMulAdd`, with the words that it stores and both accumulators.
def montLoop (a d0 : UInt32) :
    (n b c : List UInt32) → (A B : UInt64) → List UInt32 × UInt64 × UInt64
  | n :: ns, b :: bs, c :: cs, A, B =>
    let A := (A >>> 32) + a.toUInt64 * b.toUInt64 + c.toUInt64
    let B := (B >>> 32) + d0.toUInt64 * n.toUInt64 + A.toUInt32.toUInt64
    let (low, A', B') := montLoop a d0 ns bs cs A B
    (B.toUInt32 :: low, A', B')
  | _, _, _, A, B => ([], A, B)

section

variable (key : RSAPublicKey)

-- `c[] += a * b[] / R % mod`
def montMulAdd (c : List UInt32) (a : UInt32) (b : List UInt32) : List UInt32 :=
  match key.words, b, c with
  | n :: ns, b :: bs, c :: cs =>
    let A := a.toUInt64 * b.toUInt64 + c.toUInt64
    let d0 := A.toUInt32 * key.n0inv
    let B := d0.toUInt64 * n.toUInt64 + A.toUInt32.toUInt64
    let (low, A, B) := montLoop a d0 ns bs cs A B
    let A := (A >>> 32) + (B >>> 32)
    let c := low ++ [A.toUInt32]
    if A >>> 32 ≠ 0 then subM key c else c
  | _, _, c => c

-- `c[] = a[] * b[] / R % mod`
def montMul (a b : List UInt32) : List UInt32 :=
  a.foldl (fun c a => montMulAdd key c a b) (List.replicate key.len.toNat 0)

-- The array that `aaa` points to. The pointer is `NULL` for other exponents.
def exponentiate (a : List UInt32) : Option (List UInt32) :=
  if key.exponent = 65537 then
    let aR := montMul key a key.rrWords
    let aR := Nat.iterate (fun aR => let aaR := montMul key aR aR; montMul key aaR aaR) 8 aR
    some (montMul key aR a)
  else if key.exponent = 3 then
    let aR := montMul key a key.rrWords
    let aaR := montMul key aR aR
    some (montMul key aaR a)
  else
    none

-- The bytes that are left in the buffer. There is no result if `NULL` is read.
def modpow (inout : List UInt8) : Option (List UInt8) := do
  let a := ofBin key.len.toNat (toPtr inout)
  let aaa ← exponentiate key a
  let aaa := if geM key aaa then subM key aaa else aaa
  pure (overwrite inout 0 (toBin aaa))

end

def kExpectedPadShaRsa2048 : List UInt8 :=
  [0xdc, 0xbd, 0xbe, 0x42, 0xd5, 0xf5, 0xa7, 0x2e,
   0x6e, 0xfc, 0xf5, 0x5d, 0xaf, 0x9d, 0xea, 0x68,
   0x7c, 0xfb, 0xf1, 0x67]

def kExpectedPadSha256Rsa2048 : List UInt8 :=
  [0xab, 0x28, 0x8d, 0x8a, 0xd7, 0xd9, 0x59, 0x92,
   0xba, 0xcc, 0xf8, 0x67, 0x20, 0xe1, 0x15, 0x2e,
   0x39, 0x8d, 0x80, 0x36, 0xd6, 0x6f, 0xf0, 0xfd,
   0x90, 0xe8, 0x7d, 0x8b, 0xe1, 0x7c, 0x87, 0x59]

-- The last bytes of the buffer are combined with those of the hash.
def xorTail (buf hash : List UInt8) : List UInt8 :=
  let k := buf.length - hash.length
  buf.take k ++ List.zipWith (· ^^^ ·) (buf.drop k) hash

-- `ctxBuf` is the buffer of the hash context, which nothing initialises.
def rsaVerify (key : RSAPublicKey) (signature : Nat → UInt8) (len : Int) (hash : Nat → UInt8)
    (hashLen : Int) (ctxBuf : List UInt8) : Option Nat :=
  if key.len ≠ RSANUMWORDS then some 0
  else if len ≠ RSANUMBYTES then some 0
  else if hashLen ≠ SHA_DIGEST_SIZE ∧ hashLen ≠ SHA256_DIGEST_SIZE then some 0
  else if key.exponent ≠ 3 ∧ key.exponent ≠ 65537 then some 0
  else do
    let buf ← modpow key (ofPtr signature len.toNat)
    let buf := xorTail buf (ofPtr hash hashLen.toNat)
    let (paddingHash, digest) :=
      if hashLen = SHA_DIGEST_SIZE then (kExpectedPadShaRsa2048, Sha1.alg.hash ctxBuf buf)
      else (kExpectedPadSha256Rsa2048, Sha256.alg.hash ctxBuf buf)
    let buf := overwrite buf 0 digest
    some (if buf.take hashLen.toNat = paddingHash then 1 else 0)

end Mincrypt
