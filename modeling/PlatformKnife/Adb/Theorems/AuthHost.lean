import PlatformKnife.Adb.AuthHost
import PlatformKnife.Mincrypt.Theorems.Rsa

namespace Adb

open Bytes CInt Digits Mincrypt Nat UInt32

section Key

variable {lib : OpenSSL} (hl : lib.Exact)

include hl

theorem value_wordLoop (k rr n : Nat) :
    value (wordLoop lib (2 ^ 32) k rr n).1 = rr % 2 ^ (32 * k) ∧
      value (wordLoop lib (2 ^ 32) k rr n).2 = n % 2 ^ (32 * k) := by
  have hword (m : Nat) : (ofNat (lib.getWord (m % 2 ^ 32))).toNat = m % 2 ^ 32 := by
    rw [hl.getWord (by omega), toNat_ofNat', mod_mod]
  induction k generalizing rr n
  case zero => simp [wordLoop, mod_one]
  case succ k ih =>
    obtain ⟨h₁, h₂⟩ := ih (rr / 2 ^ 32) (n / 2 ^ 32)
    simp only [wordLoop, hl.div, value_cons, hword, h₁, h₂, mul_succ, add_comm (32 * k), pow_add,
      mod_mul, and_self]

theorem n0inv_dvd (hodd : n % 2 = 1) :
    2 ^ 32 ∣ (0 - ofNat (lib.getWord (lib.modInverse (n % 2 ^ 32) (2 ^ 32)))).toNat * n + 1 := by
  have hcoprime : (n % 2 ^ 32).Coprime (2 ^ 32) := by
    apply Nat.Coprime.pow_right
    rw [coprime_two_right, odd_iff]
    omega
  obtain ⟨hlt, hinv⟩ := hl.modInverse hcoprime (by decide)
  generalize lib.modInverse (n % 2 ^ 32) (2 ^ 32) = x at hinv hlt
  have hword : (0 - UInt32.ofNat (lib.getWord x)).toNat = (2 ^ 32 - x) % 2 ^ 32 := by
    rw [hl.getWord (by omega), UInt32.toNat_sub, UInt32.toNat_ofNat']
    simp
    omega
  rw [hword, dvd_iff_mod_eq_zero]
  have h₁ : (2 ^ 32 - x) % 2 ^ 32 * n + 1 ≡ (2 ^ 32 - x) * n + n * x [MOD 2 ^ 32] := by
    refine Nat.ModEq.add ((mod_modEq _ _).mul_right n) ?_
    have hone : n % 2 ^ 32 * x ≡ 1 [MOD 2 ^ 32] := hinv
    exact (((mod_modEq n (2 ^ 32)).mul_right x).symm.trans hone).symm
  have h₂ : (2 ^ 32 - x) * n + n * x = 2 ^ 32 * n := by
    rw [mul_comm n x, ← add_mul, Nat.sub_add_cancel hlt.le]
  rw [h₂] at h₁
  exact h₁.trans (modEq_zero_iff_dvd.mpr (Nat.dvd_mul_right _ _))

theorem rsaToRSAPublicKey_valid (rsa : RSA) (hodd : rsa.n % 2 = 1) (hlo : 2 ^ 2040 ≤ rsa.n)
    (hhi : rsa.n < 2 ^ 2048) (he : rsa.e < 2 ^ 31) :
    ∃ pkey, rsaToRSAPublicKey lib rsa = some pkey ∧ pkey.Valid rsa.n ∧ pkey.exponent = (rsa.e : Nat) := by
  have hsize : lib.rsaSize rsa = RSANUMBYTES := by
    have h₁ := lt_size.mpr hlo
    have h₂ := size_le.mpr hhi
    rw [hl.rsaSize, RSANUMBYTES]
    omega
  have hpow : (2 : Nat) ^ 2048 = 2 ^ (32 * RSANUMWORDS) := congrArg (2 ^ ·) (by decide)
  refine ⟨_, by rw [rsaToRSAPublicKey, if_neg (by simp [hsize])], ⟨rfl, ?_, ?_, ?_⟩, ?_⟩
  · exact (value_wordLoop hl _ _ _).2.trans (mod_eq_of_lt (by rw [← hpow]; exact hhi))
  · refine (value_wordLoop hl _ _ _).1.trans ?_
    rw [hl.modSqr, mod_eq_of_lt, radix, mul_comm RSANUMWORDS, pow_mul 2 32]
    rw [← hpow]
    exact (mod_lt _ (by omega)).trans hhi
  · have h := n0inv_dvd hl hodd
    rwa [← show (lib.div rsa.n (2 ^ 32)).2 = rsa.n % 2 ^ 32 by rw [hl.div]] at h
  · simp only [hl.getWord (show rsa.e < 2 ^ 64 by omega), i32_of_lt he]

end Key

section PublicKey

theorem radix_eq_pow : radix = 2 ^ 2048 := by
  rw [radix, ← pow_mul]
  congr 1

variable {lib : OpenSSL}

-- The operation on the key for an odd modulus, and the signatures accepted.
theorem rsa_public_operation (hl : lib.Exact) (rsa : RSA) (hodd : rsa.n % 2 = 1) (hlo : 2 ^ 2040 ≤ rsa.n)
    (hhi : rsa.n < 2 ^ 2048) (he : rsa.e = 3 ∨ rsa.e = 65537) :
    ∃ pkey, rsaToRSAPublicKey lib rsa = some pkey ∧
      (∀ s, s < rsa.n ∨ (s < 2 ^ 2048 ∧ 2 ^ 2047 ≤ rsa.n) →
        modpow pkey (be 256 s) = some (be 256 (s ^ rsa.e % rsa.n))) ∧
      ∀ s, s < rsa.n → ∀ (digest : Digest) (hash ctxBuf : List UInt8), hash.length = digest.size →
        ctxBuf.length = 64 → be 256 (s ^ rsa.e % rsa.n) = digest.encode hash →
        rsaVerify pkey (toPtr (be 256 s)) 256 (toPtr hash) digest.size ctxBuf = some 1 := by
  obtain ⟨pkey, hkey, hvalid, hexp⟩ := rsaToRSAPublicKey_valid hl rsa hodd hlo hhi (by omega)
  refine ⟨pkey, hkey, fun s hs => modpow_eq hvalid hexp he ?_, fun s hs digest hash ctxBuf h₁ h₂ h₃ =>
    rsaVerify_eq hvalid hexp he (.inl hs) digest h₁ h₂ h₃⟩
  rw [radix_eq_pow]
  omega

-- A library, and a key for which the cube of a power of two encodes a hash.

def OpenSSL.plain : OpenSSL where
  rsaSize rsa := (rsa.n.size + 7) / 8
  modSqr a m := a ^ 2 % m
  div a d := (a / d, a % d)
  modInverse a m := (a.gcdA m % m).toNat
  getWord a := a

theorem OpenSSL.plain_exact : plain.Exact where
  rsaSize _ := rfl
  modSqr _ _ := rfl
  div _ _ := rfl
  modInverse {a m} h hm := by
    have hbezout : (a.gcdA m : ℤ) * a ≡ 1 [ZMOD m] := by
      have hgcd := gcd_eq_gcd_ab a m
      rw [h.gcd_eq_one] at hgcd
      rw [Int.modEq_iff_dvd]
      exact ⟨a.gcdB m, by push_cast at hgcd; linear_combination hgcd⟩
    have hcast : (((a.gcdA m % m).toNat : Nat) : ℤ) = a.gcdA m % m :=
      Int.toNat_of_nonneg (Int.emod_nonneg _ (by omega))
    have hlt := Int.emod_lt_of_pos (a.gcdA m) (show (0 : ℤ) < m by omega)
    have hmod : (a : ℤ) * (a.gcdA m % m).toNat ≡ 1 [ZMOD m] := by
      rw [hcast, mul_comm]
      exact ((Int.mod_modEq _ _).mul_right _).trans hbezout
    have h₁ : ((a * (a.gcdA m % m).toNat % m : Nat) : ℤ) = 1 := by
      push_cast [Int.natCast_mod]
      rw [hmod.eq, Int.emod_eq_of_lt (by omega) (by omega)]
    exact ⟨show (a.gcdA m % m).toNat < m by omega, by exact_mod_cast h₁⟩
  getWord _ := rfl

def oneHash : List UInt8 :=
  List.replicate 19 0 ++ [1]

def cubeKey : RSA where
  n := 2 ^ 2046 - fromBe (Digest.sha1.encode oneHash)
  e := 3

theorem cubeKey_bounds : cubeKey.n % 2 = 1 ∧ 2 ^ 2040 ≤ cubeKey.n ∧ cubeKey.n < 2 ^ 2048 ∧
    2 ^ 682 < cubeKey.n ∧ (2 ^ 682) ^ cubeKey.e % cubeKey.n = fromBe (Digest.sha1.encode oneHash) := by
  decide +kernel

theorem rsa_public_operation_cubeKey :
    ∃ pkey, rsaToRSAPublicKey .plain cubeKey = some pkey ∧
      modpow pkey (be 256 (2 ^ 682)) = some (Digest.sha1.encode oneHash) ∧
      rsaVerify pkey (toPtr (be 256 (2 ^ 682))) 256 (toPtr oneHash) 20 (List.replicate 64 0) = some 1 := by
  obtain ⟨hodd, hlo, hhi, hlt, hpow⟩ := cubeKey_bounds
  have henc : be 256 ((2 ^ 682) ^ cubeKey.e % cubeKey.n) = Digest.sha1.encode oneHash := by
    rw [hpow]
    decide +kernel
  obtain ⟨pkey, hkey, hmodpow, hverify⟩ :=
    rsa_public_operation OpenSSL.plain_exact cubeKey hodd hlo hhi (.inl rfl)
  exact ⟨pkey, hkey, (hmodpow _ (.inl hlt)).trans (congrArg some henc),
    hverify _ hlt .sha1 oneHash _ rfl rfl henc⟩

-- The encodings are below every modulus of 256 bytes.
theorem fromBe_encode_lt (digest : Digest) {hash : List UInt8} (h : hash.length = digest.size) :
    (digest.encode hash).length = RSANUMBYTES ∧ fromBe (digest.encode hash) < 2 ^ 2040 := by
  have hlen : (digest.encode hash).length = RSANUMBYTES := by
    rw [digest.encode_eq h, List.length_append, h]
    cases digest <;> decide +kernel
  obtain ⟨l, hl⟩ : ∃ l, digest.encode hash = 0 :: l := ⟨_, rfl⟩
  have hlt := fromBe_lt l
  rw [hl, List.length_cons] at hlen
  rw [succ.inj hlen, show 256 ^ 255 = 2 ^ 2040 by decide +kernel] at hlt
  rw [hl, fromBe_cons, UInt8.toNat_zero, Nat.zero_mul, Nat.zero_add]
  exact ⟨hlen, hlt⟩

-- A signature that is not below the modulus is refused if its power is not the encoding of the hash, and,
-- for a modulus with its first bit set, only then, unless other bytes have the digest of the encoding.
theorem rsaVerify_unreduced_iff (hl : lib.Exact) (rsa : RSA) (hodd : rsa.n % 2 = 1)
    (hlo : 2 ^ 2040 ≤ rsa.n) (hhi : rsa.n < 2 ^ 2048) (he : rsa.e = 3 ∨ rsa.e = 65537) :
    ∃ pkey, rsaToRSAPublicKey lib rsa = some pkey ∧ ∀ s, rsa.n ≤ s → s < 2 ^ 2048 →
      (∀ hash (hashLen : Int) ctxBuf, hashLen ≠ SHA_DIGEST_SIZE → hashLen ≠ SHA256_DIGEST_SIZE →
        rsaVerify pkey (toPtr (be 256 s)) 256 hash hashLen ctxBuf = some 0) ∧
      ∀ (digest : Digest) (hash ctxBuf : List UInt8), hash.length = digest.size → ctxBuf.length = 64 →
        (∀ v < 2 ^ 2048, v ≡ s ^ rsa.e [MOD rsa.n] → ¬digest.Collides hash ctxBuf (be 256 v)) →
        ((s % rsa.n) ^ rsa.e % rsa.n ≠ fromBe (digest.encode hash) →
          rsaVerify pkey (toPtr (be 256 s)) 256 (toPtr hash) digest.size ctxBuf = some 0) ∧
        (2 ^ 2047 ≤ rsa.n →
          (rsaVerify pkey (toPtr (be 256 s)) 256 (toPtr hash) digest.size ctxBuf = some 0 ↔
            (s % rsa.n) ^ rsa.e % rsa.n ≠ fromBe (digest.encode hash))) := by
  obtain ⟨pkey, hkey, hvalid, hexp⟩ := rsaToRSAPublicKey_valid hl rsa hodd hlo hhi (by omega)
  refine ⟨pkey, hkey, fun s hs hlt => ⟨?_, fun digest hash ctxBuf hh hb hc => ?_⟩⟩
  · intro hash hashLen ctxBuf h₁ h₂
    rw [rsaVerify, if_neg (by simp [hvalid.len]), if_neg (by decide), if_pos ⟨h₁, h₂⟩]
  obtain ⟨hlen, henc⟩ := fromBe_encode_lt digest hh
  rw [← pow_mod]
  rw [← radix_eq_pow] at hc hlt
  have hrefused : s ^ rsa.e % rsa.n ≠ fromBe (digest.encode hash) →
      rsaVerify pkey (toPtr (be 256 s)) 256 (toPtr hash) digest.size ctxBuf = some 0 := by
    intro hne
    refine rsaVerify_eq_zero hvalid hexp he hlt digest hh hc fun v hv hmod heq => hne ?_
    have hvalue : v = fromBe (digest.encode hash) := by
      rw [← heq, fromBe_be, ← radix_eq, mod_eq_of_lt hv]
    rw [← hmod, hvalue, mod_eq_of_lt (by omega)]
  refine ⟨hrefused, fun hwide => ⟨fun h0 heq => ?_, hrefused⟩⟩
  have hone := rsaVerify_eq hvalid hexp he (.inr ⟨hlt, by rw [radix_eq_pow]; omega⟩) digest hh hb
    (by rw [heq, ← hlen, be_fromBe])
  cases h0.symm.trans hone

-- A modulus of 2048 bits that makes the cube of a power of two encode a hash.

def fiveHash : List UInt8 :=
  List.replicate 19 0 ++ [5]

def wideKey : RSA where
  n := (2 ^ 2049 - fromBe (Digest.sha1.encode fiveHash)) / 3
  e := 3

theorem wideKey_bounds : wideKey.n % 2 = 1 ∧ 2 ^ 2040 ≤ wideKey.n ∧ 2 ^ 2047 ≤ wideKey.n ∧
    wideKey.n + 2 ^ 683 < 2 ^ 2048 := by
  decide +kernel

theorem not_collides_wideKey : ∀ v ∈ [0, wideKey.n],
    ¬Digest.Collides .sha1 fiveHash (List.replicate 64 0) (be 256 v) := by
  simp only [Digest.Collides, Digest.hash]
  decide +kernel

theorem rsaVerify_unreduced_wideKey :
    ∃ pkey, rsaToRSAPublicKey .plain wideKey = some pkey ∧
      rsaVerify pkey (toPtr (be 256 wideKey.n)) 256 (toPtr fiveHash) 20 (List.replicate 64 0) = some 0 := by
  obtain ⟨hodd, hlo, hwide, hhi⟩ := wideKey_bounds
  obtain ⟨pkey, hkey, h⟩ :=
    rsaVerify_unreduced_iff OpenSSL.plain_exact wideKey hodd hlo (by omega) (.inl rfl)
  refine ⟨pkey, hkey, ?_⟩
  refine (((h wideKey.n le_rfl (by omega)).2 .sha1 fiveHash _ rfl rfl ?_).2 hwide).mpr ?_
  · intro v hv hmod
    have hdvd : wideKey.n ∣ v := (hmod.dvd_iff dvd_rfl).mpr (dvd_pow_self _ (by decide))
    apply not_collides_wideKey
    obtain rfl | hpos := v.eq_zero_or_pos
    · simp
    have hle := Nat.le_of_dvd hpos hdvd
    have hsub := Nat.eq_zero_of_dvd_of_lt (Nat.dvd_sub hdvd dvd_rfl) (show v - wideKey.n < wideKey.n by omega)
    simp [show v = wideKey.n by omega]
  · rw [mod_self]
    decide +kernel

theorem rsaVerify_accepts_wideKey :
    ∃ pkey, rsaToRSAPublicKey .plain wideKey = some pkey ∧ wideKey.n + 2 ^ 683 < 2 ^ 2048 ∧
      rsaVerify pkey (toPtr (be 256 (wideKey.n + 2 ^ 683))) 256 (toPtr fiveHash) 20
        (List.replicate 64 0) = some 1 := by
  obtain ⟨hodd, hlo, hwide, hlt⟩ := wideKey_bounds
  have henc : be 256 ((wideKey.n + 2 ^ 683) ^ wideKey.e % wideKey.n) = Digest.sha1.encode fiveHash := by
    decide +kernel
  obtain ⟨pkey, hkey, hvalid, hexp⟩ :=
    rsaToRSAPublicKey_valid OpenSSL.plain_exact wideKey hodd hlo (by omega) (by decide)
  have hlen : (List.replicate 64 (0 : UInt8)).length = 64 := List.length_replicate
  exact ⟨pkey, hkey, hlt, rsaVerify_eq hvalid hexp (.inl rfl)
    (.inr (by rw [radix_eq_pow]; omega)) .sha1 rfl hlen henc⟩

end PublicKey

end Adb
