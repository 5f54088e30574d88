import PlatformKnife.Lib.Slice
import PlatformKnife.Mincrypt.P256

namespace Mincrypt

open Bytes Slice

-- A computation on the bytes of a buffer, without a result when it reads one outside.
abbrev Reading := Option

-- The loop of `trim_to_p256_bytes`, which looks at a byte before the length.
def skipZeros (sig : List UInt8) : (src srcLen : Nat) → Reading (Nat × Nat)
  | src, 0 => do
    let _ ← sig[src]?
    pure (src, 0)
  | src, srcLen + 1 => do
    if (← sig[src]?) = 0 then skipZeros sig (src + 1) srcLen else pure (src, srcLen + 1)

def memcpy (sig : List UInt8) (src srcLen : Nat) : Reading (List UInt8) :=
  if src + srcLen ≤ sig.length then some (slice sig src (src + srcLen)) else none

-- The bytes that `dst` is filled with, when the result is 1.
def trimToP256Bytes (sig : List UInt8) (src srcLen : Nat) : Reading (Option (List UInt8)) := do
  let (src, srcLen) ← skipZeros sig src srcLen
  if srcLen > P256_NBYTES ∨ srcLen < 1 then
    pure none
  else
    let bytes ← memcpy sig src srcLen
    pure (some (List.replicate (P256_NBYTES - srcLen) 0 ++ bytes))

-- The two numbers, when the result is 1.
def dsaSigUnpack (sig : List UInt8) : Reading (Option (P256Int × P256Int)) := do
  if sig.length < 8 then pure none
  else if (← sig[0]?) ≠ 0x30 then pure none
  else if (← sig[2]?) ≠ 0x02 then pure none
  else
    let seqLen := (← sig[1]?).toNat
    if seqLen ≤ 0 ∨ seqLen + 2 ≠ sig.length then pure none
    else
      let rLen := (← sig[3]?).toNat
      if rLen < 1 ∨ rLen > seqLen - 5 then pure none
      else if (← sig[4 + rLen]?) ≠ 0x02 then pure none
      else
        let sLen := (← sig[5 + rLen]?).toNat
        if sLen < 1 ∨ sLen ≠ seqLen - 4 - rLen then pure none
        else
          match ← trimToP256Bytes sig 4 rLen with
          | none => pure none
          | some rBytes =>
            match ← trimToP256Bytes sig (6 + rLen) sLen with
            | none => pure none
            | some sBytes => pure (some (.fromBin (toPtr rBytes), .fromBin (toPtr sBytes)))

end Mincrypt
