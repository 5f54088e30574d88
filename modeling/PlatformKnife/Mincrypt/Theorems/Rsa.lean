import PlatformKnife.Lib.Der
import PlatformKnife.Mincrypt.Theorems.MontMul
import PlatformKnife.Mincrypt.Theorems.Sha

namespace Mincrypt

open Bytes Digits Montgomery Slice List

section Modpow

variable {key : RSAPublicKey} {N : Nat}

section

variable (hk : key.Valid N) (hN : 0 < N)

include hk hN

theorem montMul_sqr (ha : a.length = RSANUMWORDS) (hf : Form radix N x (value a)) :
    (montMul key a a).length = RSANUMWORDS ∧ Form radix N (x ^ 2) (value (montMul key a a)) := by
  obtain ⟨hlen, hmod, -⟩ := montMul_spec hk ha ha hN
  exact ⟨hlen, by rw [sq]; exact hf.mul hk.coprime hf hmod⟩

theorem iterate_sqr (k : Nat) (ha : a.length = RSANUMWORDS) (hf : Form radix N x (value a)) :
    (Nat.iterate (fun aR => montMul key (montMul key aR aR) (montMul key aR aR)) k a).length =
        RSANUMWORDS ∧
      Form radix N (x ^ 4 ^ k)
        (value (Nat.iterate (fun aR => montMul key (montMul key aR aR) (montMul key aR aR)) k a)) := by
  induction k generalizing a x
  case zero => exact ⟨ha, by simpa using hf⟩
  case succ k ih =>
    obtain ⟨h₁, hf₁⟩ := montMul_sqr hk hN ha hf
    obtain ⟨h₂, hf₂⟩ := montMul_sqr hk hN h₁ hf₁
    have hpow : x ^ 4 ^ (k + 1) = ((x ^ 2) ^ 2) ^ 4 ^ k := by
      rw [← pow_mul, ← pow_mul, pow_succ', ← Nat.mul_assoc]
    rw [hpow, Function.iterate_succ_apply]
    exact ih h₂ hf₂

-- The last factor is the number itself, which gives the bound.
theorem exponentiate_spec (ha : a.length = RSANUMWORDS)
    (he : key.exponent = (e : Nat)) (hs : e = 3 ∨ e = 65537) :
    ∃ aaa, exponentiate key a = some aaa ∧ aaa.length = RSANUMWORDS ∧
      value aaa ≡ value a ^ e [MOD N] ∧ (value a < N → value aaa < 2 * N) := by
  have hrr : key.rrWords.length = RSANUMWORDS := by rw [hk.rrWords_eq, key.rr_length]
  obtain ⟨h₁, hmod, -⟩ := montMul_spec hk ha hrr hN
  rw [hk.rrWords_eq, hk.rr] at hmod
  have hf : Form radix N (value a) (value (montMul key a key.rrWords)) := by
    rw [hk.rrWords_eq]
    exact Form.enter hk.coprime hmod
  obtain rfl | rfl := hs
  · obtain ⟨h₂, hf₂⟩ := montMul_sqr hk hN h₁ hf
    obtain ⟨h₃, hmod₃, hlt⟩ := montMul_spec hk h₂ ha hN
    refine ⟨_, by simp [exponentiate, he], h₃, ?_, hlt⟩
    rw [show value a ^ 3 = value a ^ 2 * value a by ring]
    exact hf₂.leave hk.coprime hmod₃
  obtain ⟨h₂, hf₂⟩ := iterate_sqr hk hN 8 h₁ hf
  obtain ⟨h₃, hmod₃, hlt⟩ := montMul_spec hk h₂ ha hN
  refine ⟨_, by simp [exponentiate, he], h₃, ?_, hlt⟩
  rw [pow_succ]
  exact hf₂.leave hk.coprime hmod₃

end

theorem radix_eq : radix = 256 ^ RSANUMBYTES := by
  rw [radix, show (256 : Nat) = 2 ^ 8 by rfl, ← pow_mul, ← pow_mul]
  congr 1

theorem RSAPublicKey.Valid.lt_radix (hk : key.Valid N) : N < radix := by
  have h := value_lt key.n
  rwa [hk.n, key.n_length, pow_mul] at h

variable (hk : key.Valid N) (he : key.exponent = (e : Nat)) (hs : e = 3 ∨ e = 65537)

include hk he hs

-- The last subtraction reduces the number if it is below the modulus, or if that has its first bit set.
theorem modpow_spec (hlt : s < radix) :
    ∃ v, modpow key (be RSANUMBYTES s) = some (be RSANUMBYTES v) ∧ v < radix ∧ v ≡ s ^ e [MOD N] ∧
      (s < N ∨ radix ≤ 2 * N → v < N) := by
  have hN : 0 < N := by
    by_contra h0
    have h := hk.n0inv
    simp [show N = 0 by omega] at h
  have hlen : key.len.toNat = RSANUMWORDS := by rw [hk.len, Int.toNat_natCast]
  have hptr : ofPtr (toPtr (be RSANUMBYTES s)) (4 * RSANUMWORDS) = be RSANUMBYTES s := by
    have h := ofPtr_toPtr (be RSANUMBYTES s)
    rwa [be_length] at h
  have hvalue : value (ofBin RSANUMWORDS (toPtr (be RSANUMBYTES s))) = s := by
    rw [value_ofBin, hptr, fromBe_be, ← radix_eq, Nat.mod_eq_of_lt hlt]
  obtain ⟨aaa, hexp, h₁, hmod, hbound⟩ :=
    exponentiate_spec hk hN (ofBin_length RSANUMWORDS (toPtr (be RSANUMBYTES s))) he hs
  rw [hvalue] at hmod hbound
  have hw : key.words.length = RSANUMWORDS := by rw [hk.words_eq, key.n_length]
  have hvlt (l : List UInt32) (h : l.length = RSANUMWORDS) : value l < radix := by
    have h₂ := value_lt l
    rwa [h, pow_mul] at h₂
  obtain ⟨h₂, h₃, h₄⟩ := reduce_spec (h₁.trans hw.symm)
  rw [hk.words_eq, hk.n] at h₃ h₄
  refine ⟨_, ?_, hvlt _ (h₂.trans hw), h₃.trans hmod, fun h => h₄ ?_⟩
  · rw [modpow, hlen, hexp]
    simp only [Option.bind_eq_bind, Option.bind_some, Option.pure_def]
    rw [toBin_eq, h₂, hw, overwrite_zero (by rw [be_length, be_length]; decide), drop_eq_nil_of_le
      (by rw [be_length, be_length]; decide), append_nil]
    rfl
  · exact h.elim hbound ((hvlt aaa h₁).trans_le ·)

theorem modpow_eq (hlt : s < N ∨ (s < radix ∧ radix ≤ 2 * N)) :
    modpow key (be RSANUMBYTES s) = some (be RSANUMBYTES (s ^ e % N)) := by
  have hradix := hk.lt_radix
  obtain ⟨v, hpow, -, hmod, hv⟩ := modpow_spec hk he hs (s := s) (by omega)
  rw [hpow, ← hmod, Nat.mod_eq_of_lt (hv (hlt.imp_right And.right))]

end Modpow

-- The encoding of a hash that is signed: the hash and its kind, with NULL as parameters, behind bytes
-- that fill the signature.

inductive Digest
  | sha1
  | sha256

namespace Digest

def size : Digest → Nat
  | sha1 => SHA_DIGEST_SIZE
  | sha256 => SHA256_DIGEST_SIZE

def oid : Digest → List UInt8
  | sha1 => Der.objectIdentifier 1 3 [14, 3, 2, 26]
  | sha256 => Der.objectIdentifier 2 16 [840, 1, 101, 3, 4, 2, 1]

def info (digest : Digest) (hash : List UInt8) : List UInt8 :=
  Der.sequence [Der.sequence [digest.oid, Der.null], Der.octetString hash]

def encode (digest : Digest) (hash : List UInt8) : List UInt8 :=
  [0x00, 0x01] ++ List.replicate (RSANUMBYTES - 3 - (digest.info hash).length) 0xff ++
    0x00 :: digest.info hash

def padding : Digest → List UInt8
  | sha1 => shaPadding
  | sha256 => sha256Padding

def hash : Digest → (ctxBuf data : List UInt8) → List UInt8
  | sha1 => Sha1.alg.hash
  | sha256 => Sha256.alg.hash

def expected : Digest → List UInt8
  | sha1 => kExpectedPadShaRsa2048
  | sha256 => kExpectedPadSha256Rsa2048

-- The bytes are taken for the encoding of the hash, because they have the digest of that.
def Collides (digest : Digest) (hash ctxBuf buf : List UInt8) : Prop :=
  buf ≠ digest.encode hash ∧ digest.hash ctxBuf (xorTail buf hash) = digest.expected

theorem hash_length (digest : Digest) (ctxBuf data : List UInt8) :
    (digest.hash ctxBuf data).length = digest.size := by
  cases digest <;> rfl

theorem hash_padding (digest : Digest) (hb : ctxBuf.length = 64) :
    digest.hash ctxBuf (digest.padding ++ replicate digest.size 0) = digest.expected := by
  cases digest
  case sha1 => exact hash_shaPadding hb
  case sha256 => exact hash_sha256Padding hb

theorem lengthOctets_of_lt (h : n < 128) : Der.lengthOctets n = [UInt8.ofNat n] :=
  if_pos h

theorem encode_eq {hash : List UInt8} (digest : Digest) (h : hash.length = digest.size) :
    digest.encode hash = digest.padding ++ hash := by
  cases digest
  case sha1 =>
    have h : hash.length = 20 := h
    have hoid : oid .sha1 = [0x06, 0x05, 0x2b, 0x0e, 0x03, 0x02, 0x1a] := by decide +kernel
    have hinfo : info .sha1 hash = [0x30, 0x21, 0x30, 0x09, 0x06, 0x05, 0x2b, 0x0e, 0x03, 0x02, 0x1a, 0x05,
        0x00, 0x04, 0x14] ++ hash := by
      simp [info, hoid, Der.sequence, Der.null, Der.octetString, Der.tlv, lengthOctets_of_lt, h]
    have hlen : (info .sha1 hash).length = 35 := by simp [hinfo, h]
    rw [encode, hlen, hinfo, padding, shaPadding, append_assoc _ _ hash]
    rfl
  case sha256 =>
    have h : hash.length = 32 := h
    have hoid : oid .sha256 = [0x06, 0x09, 0x60, 0x86, 0x48, 0x01, 0x65, 0x03, 0x04, 0x02, 0x01] := by
      decide +kernel
    have hinfo : info .sha256 hash = [0x30, 0x31, 0x30, 0x0d, 0x06, 0x09, 0x60, 0x86, 0x48, 0x01, 0x65, 0x03,
        0x04, 0x02, 0x01, 0x05, 0x00, 0x04, 0x20] ++ hash := by
      simp [info, hoid, Der.sequence, Der.null, Der.octetString, Der.tlv, lengthOctets_of_lt, h]
    have hlen : (info .sha256 hash).length = 51 := by simp [hinfo, h]
    rw [encode, hlen, hinfo, padding, sha256Padding, append_assoc _ _ hash]
    rfl

end Digest

section Verify

theorem zipWith_xor_self (l : List UInt8) : zipWith (· ^^^ ·) l l = replicate l.length 0 := by
  simp

theorem xorTail_append (l hash : List UInt8) :
    xorTail (l ++ hash) hash = l ++ replicate hash.length 0 := by
  simp only [xorTail, length_append, Nat.add_sub_cancel, take_left, drop_left, zipWith_xor_self]

theorem xorTail_length {buf hash : List UInt8} (h : hash.length ≤ buf.length) :
    (xorTail buf hash).length = buf.length := by
  simp [xorTail]
  omega

variable {key : RSAPublicKey} {N : Nat}

theorem ofPtr_toPtr_of_length (h : l.length = k) : ofPtr (toPtr l) k = l := by
  rw [← h, ofPtr_toPtr]

theorem take_overwrite (h : digest.length ≤ l.length) (hk : digest.length = k) :
    (overwrite l 0 digest).take k = digest := by
  rw [overwrite_zero h, take_left' hk]

-- The result for a hash of a length that is supported.
theorem rsaVerify_of_modpow {s hash : List UInt8} (hl : key.len = RSANUMWORDS)
    (he : key.exponent = 3 ∨ key.exponent = 65537) (hs : s.length = RSANUMBYTES)
    (hm : modpow key s = some buf) (hb : buf.length = RSANUMBYTES) (digest : Digest)
    (hh : hash.length = digest.size) (ctxBuf : List UInt8) :
    rsaVerify key (toPtr s) RSANUMBYTES (toPtr hash) digest.size ctxBuf =
      some (if digest.hash ctxBuf (xorTail buf hash) = digest.expected then 1 else 0) := by
  have hexp : ¬(key.exponent ≠ 3 ∧ key.exponent ≠ 65537) := by
    obtain h | h := he <;> simp [h]
  have hsize : ¬((digest.size : Int) ≠ SHA_DIGEST_SIZE ∧ (digest.size : Int) ≠ SHA256_DIGEST_SIZE) := by
    cases digest <;> simp [Digest.size]
  have htake : (overwrite (xorTail buf hash) 0 (digest.hash ctxBuf (xorTail buf hash))).take digest.size =
      digest.hash ctxBuf (xorTail buf hash) := by
    refine take_overwrite ?_ (digest.hash_length _ _)
    rw [digest.hash_length, xorTail_length (by rw [hh, hb]; cases digest <;> decide), hb]
    cases digest <;> decide
  simp only [rsaVerify, hl, ne_eq, not_true, if_false, if_neg hsize, if_neg hexp, Int.toNat_natCast,
    ofPtr_toPtr_of_length hs, ofPtr_toPtr_of_length hh, hm, Option.bind_eq_bind, Option.bind_some]
  cases digest
  case sha1 =>
    have heq : ((Digest.size .sha1 : Nat) : Int) = SHA_DIGEST_SIZE := rfl
    simp only [if_pos heq]
    exact congrArg (fun l => some (if l = kExpectedPadShaRsa2048 then 1 else 0)) htake
  case sha256 =>
    have hne : ¬((Digest.size .sha256 : Nat) : Int) = SHA_DIGEST_SIZE := by decide
    simp only [if_neg hne]
    exact congrArg (fun l => some (if l = kExpectedPadSha256Rsa2048 then 1 else 0)) htake

variable (hk : key.Valid N) (he : key.exponent = (e : Nat)) (hs : e = 3 ∨ e = 65537)

include hk he hs

theorem rsaVerify_eq (hlt : s < N ∨ (s < radix ∧ radix ≤ 2 * N)) (digest : Digest) {hash ctxBuf : List UInt8}
    (hhash : hash.length = digest.size) (hbuf : ctxBuf.length = 64)
    (henc : be RSANUMBYTES (s ^ e % N) = digest.encode hash) :
    rsaVerify key (toPtr (be RSANUMBYTES s)) RSANUMBYTES (toPtr hash) digest.size ctxBuf = some 1 := by
  have hexp : key.exponent = 3 ∨ key.exponent = 65537 := by omega
  rw [rsaVerify_of_modpow hk.len hexp (be_length _ _) (modpow_eq hk he hs hlt) (be_length _ _) digest hhash,
    henc, digest.encode_eq hhash, xorTail_append, hhash, digest.hash_padding hbuf, if_pos rfl]

-- A signature is refused if its power is not the encoding and no congruent number collides with that.
theorem rsaVerify_eq_zero (hlt : s < radix) (digest : Digest) {hash : List UInt8}
    (hhash : hash.length = digest.size)
    (hc : ∀ v < radix, v ≡ s ^ e [MOD N] → ¬digest.Collides hash ctxBuf (be RSANUMBYTES v))
    (hne : ∀ v < radix, v ≡ s ^ e [MOD N] → be RSANUMBYTES v ≠ digest.encode hash) :
    rsaVerify key (toPtr (be RSANUMBYTES s)) RSANUMBYTES (toPtr hash) digest.size ctxBuf = some 0 := by
  have hexp : key.exponent = 3 ∨ key.exponent = 65537 := by omega
  obtain ⟨v, hpow, hv, hmod, -⟩ := modpow_spec hk he hs hlt
  rw [rsaVerify_of_modpow hk.len hexp (be_length _ _) hpow (be_length _ _) digest hhash, if_neg]
  exact fun h => hc v hv hmod ⟨hne v hv hmod, h⟩

end Verify

end Mincrypt
