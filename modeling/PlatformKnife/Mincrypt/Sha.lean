import PlatformKnife.Lib.Digits
import PlatformKnife.Lib.Slice

namespace Mincrypt

open Bytes Digits Slice

-- `HASH_CTX`, where the state has the words of the hash.
structure HashCtx (σ : Type) where
  count : UInt64
  buf   : List UInt8
  state : σ

-- What the two hashes differ in.
structure HashAlg (σ : Type) where
  init : σ
  transform : List UInt8 → σ → σ
  words : σ → List UInt32

namespace HashAlg

variable (alg : HashAlg σ)

-- The contents of the buffer are not set.
def initCtx (buf : List UInt8) : HashCtx σ where
  count := 0
  buf   := buf
  state := alg.init

def updateLoop : (i : Nat) → List UInt8 → σ → List UInt8 → List UInt8 × σ
  | _, buf, state, [] => (buf, state)
  | i, buf, state, b :: data =>
    let buf := buf.set i b
    if i + 1 = 64 then updateLoop 0 buf (alg.transform buf state) data
    else updateLoop (i + 1) buf state data

def update (ctx : HashCtx σ) (data : List UInt8) : HashCtx σ :=
  let (buf, state) := alg.updateLoop (ctx.count &&& 63).toNat ctx.buf ctx.state data
  { count := ctx.count + UInt64.ofNat data.length, buf, state }

-- The loop that adds zeros. It ends within 64 rounds.
def padLoop : (fuel : Nat) → HashCtx σ → HashCtx σ
  | 0, ctx => ctx
  | fuel + 1, ctx => if ctx.count &&& 63 ≠ 56 then padLoop fuel (alg.update ctx [0]) else ctx

-- `SHA_final` and `SHA256_final`, with the bytes that are at the start of the buffer.
def final (ctx : HashCtx σ) : List UInt8 :=
  let cnt := ctx.count * 8
  let ctx := alg.update ctx [0x80]
  let ctx := alg.padLoop 64 ctx
  let ctx := (List.range 8).foldl
    (fun ctx i => alg.update ctx [(cnt >>> UInt64.ofNat ((7 - i) * 8)).toUInt8]) ctx
  (alg.words ctx.state).flatMap beBytes

def hash (buf data : List UInt8) : List UInt8 :=
  alg.final (alg.update (alg.initCtx buf) data)

end HashAlg

-- The words of a block.
def blockWords (buf : List UInt8) : List UInt32 :=
  (List.range 16).map fun t => beWordAt (toPtr buf) (4 * t)

-- SHA-1

def SHA_DIGEST_SIZE : Nat := 20

structure Sha1State where
  A : UInt32
  B : UInt32
  C : UInt32
  D : UInt32
  E : UInt32
  deriving DecidableEq

namespace Sha1

def rol (bits value : UInt32) : UInt32 :=
  (value <<< bits) ||| (value >>> (32 - bits))

-- The words `W`, with the last one first.
def schedule : Nat → List UInt32 → List UInt32
  | 0, W => W
  | k + 1, W => schedule k (rol 1 (W.getD 2 0 ^^^ W.getD 7 0 ^^^ W.getD 13 0 ^^^ W.getD 15 0) :: W)

def mix (t : Nat) (B C D : UInt32) : UInt32 :=
  if t < 20 then (D ^^^ (B &&& (C ^^^ D))) + 0x5A827999
  else if t < 40 then (B ^^^ C ^^^ D) + 0x6ED9EBA1
  else if t < 60 then ((B &&& C) ||| (D &&& (B ||| C))) + 0x8F1BBCDC
  else (B ^^^ C ^^^ D) + 0xCA62C1D6

def rounds : (t : Nat) → List UInt32 → Sha1State → Sha1State
  | _, [], s => s
  | t, w :: W, s => rounds (t + 1) W
    { A := rol 5 s.A + s.E + w + mix t s.B s.C s.D, B := s.A, C := rol 30 s.B, D := s.C, E := s.D }

def transform (buf : List UInt8) (s : Sha1State) : Sha1State :=
  let r := rounds 0 (schedule 64 (blockWords buf).reverse).reverse s
  { A := s.A + r.A, B := s.B + r.B, C := s.C + r.C, D := s.D + r.D, E := s.E + r.E }

def alg : HashAlg Sha1State where
  init := ⟨0x67452301, 0xEFCDAB89, 0x98BADCFE, 0x10325476, 0xC3D2E1F0⟩
  transform := transform
  words s := [s.A, s.B, s.C, s.D, s.E]

end Sha1

-- SHA-256

def SHA256_DIGEST_SIZE : Nat := 32

structure Sha256State where
  A : UInt32
  B : UInt32
  C : UInt32
  D : UInt32
  E : UInt32
  F : UInt32
  G : UInt32
  H : UInt32
  deriving DecidableEq

namespace Sha256

def ror (value bits : UInt32) : UInt32 :=
  (value >>> bits) ||| (value <<< (32 - bits))

def shr (value bits : UInt32) : UInt32 :=
  value >>> bits

def K : List UInt32 :=
  [0x428a2f98, 0x71374491, 0xb5c0fbcf, 0xe9b5dba5,
   0x3956c25b, 0x59f111f1, 0x923f82a4, 0xab1c5ed5,
   0xd807aa98, 0x12835b01, 0x243185be, 0x550c7dc3,
   0x72be5d74, 0x80deb1fe, 0x9bdc06a7, 0xc19bf174,
   0xe49b69c1, 0xefbe4786, 0x0fc19dc6, 0x240ca1cc,
   0x2de92c6f, 0x4a7484aa, 0x5cb0a9dc, 0x76f988da,
   0x983e5152, 0xa831c66d, 0xb00327c8, 0xbf597fc7,
   0xc6e00bf3, 0xd5a79147, 0x06ca6351, 0x14292967,
   0x27b70a85, 0x2e1b2138, 0x4d2c6dfc, 0x53380d13,
   0x650a7354, 0x766a0abb, 0x81c2c92e, 0x92722c85,
   0xa2bfe8a1, 0xa81a664b, 0xc24b8b70, 0xc76c51a3,
   0xd192e819, 0xd6990624, 0xf40e3585, 0x106aa070,
   0x19a4c116, 0x1e376c08, 0x2748774c, 0x34b0bcb5,
   0x391c0cb3, 0x4ed8aa4a, 0x5b9cca4f, 0x682e6ff3,
   0x748f82ee, 0x78a5636f, 0x84c87814, 0x8cc70208,
   0x90befffa, 0xa4506ceb, 0xbef9a3f7, 0xc67178f2]

def schedule : Nat → List UInt32 → List UInt32
  | 0, W => W
  | k + 1, W =>
    let w₁₅ := W.getD 14 0
    let w₂  := W.getD 1 0
    let s0  := ror w₁₅ 7 ^^^ ror w₁₅ 18 ^^^ shr w₁₅ 3
    let s1  := ror w₂ 17 ^^^ ror w₂ 19 ^^^ shr w₂ 10
    schedule k ((W.getD 15 0 + s0 + W.getD 6 0 + s1) :: W)

def rounds : List (UInt32 × UInt32) → Sha256State → Sha256State
  | [], s => s
  | (k, w) :: W, s =>
    let s0  := ror s.A 2 ^^^ ror s.A 13 ^^^ ror s.A 22
    let maj := (s.A &&& s.B) ^^^ (s.A &&& s.C) ^^^ (s.B &&& s.C)
    let t2  := s0 + maj
    let s1  := ror s.E 6 ^^^ ror s.E 11 ^^^ ror s.E 25
    let ch  := (s.E &&& s.F) ^^^ (~~~s.E &&& s.G)
    let t1  := s.H + s1 + ch + k + w
    rounds W
      { A := t1 + t2, B := s.A, C := s.B, D := s.C, E := s.D + t1, F := s.E, G := s.F, H := s.G }

def transform (buf : List UInt8) (s : Sha256State) : Sha256State :=
  let r := rounds (K.zip (schedule 48 (blockWords buf).reverse).reverse) s
  { A := s.A + r.A, B := s.B + r.B, C := s.C + r.C, D := s.D + r.D,
    E := s.E + r.E, F := s.F + r.F, G := s.G + r.G, H := s.H + r.H }

def alg : HashAlg Sha256State where
  init := ⟨0x6a09e667, 0xbb67ae85, 0x3c6ef372, 0xa54ff53a, 0x510e527f, 0x9b05688c, 0x1f83d9ab,
                0x5be0cd19⟩
  transform := transform
  words s := [s.A, s.B, s.C, s.D, s.E, s.F, s.G, s.H]

end Sha256

end Mincrypt
