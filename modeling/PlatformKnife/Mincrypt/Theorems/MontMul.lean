import PlatformKnife.Lib.Montgomery
import PlatformKnife.Mincrypt.Rsa

namespace Mincrypt

open Bytes CInt Digits Montgomery Slice List Nat UInt32

section Sub

theorem subLoop_length (n a : List UInt32) (A : Int) : (subLoop n a A).length = a.length := by
  induction n generalizing a A
  case nil => simp [subLoop]
  case cons n ns ih => cases a <;> simp [subLoop, ih]

theorem value_subLoop (h : a.length = n.length) (hA : A = 0 ∨ A = -1) :
    ∃ k : Int, (k = 0 ∨ k = 1) ∧
      (value (subLoop n a A) : Int) = value a - value n + A + k * (2 ^ (32 * n.length) : Nat) := by
  induction n generalizing a A
  case nil =>
    obtain rfl := length_eq_zero_iff.mp h
    obtain rfl | rfl := hA
    · exact ⟨0, .inl rfl, rfl⟩
    · exact ⟨1, .inr rfl, rfl⟩
  case cons n ns ih =>
    obtain _ | ⟨a, as⟩ := a
    · cases h
    have ha := a.toNat_lt
    have hn := n.toNat_lt
    rw [subLoop, toI64_add (by omega) (by omega)]
    obtain ⟨S, hS⟩ : ∃ S : Int, S = A + (a.toNat - n.toNat) := ⟨_, rfl⟩
    rw [← hS]
    have hlow : ((ofNat (toU32 S)).toNat : Int) = S % 2 ^ 32 := by
      rw [toNat_ofNat_of_lt' (toU32_lt S), toU32]
      omega
    have hshift : S >>> (32 : Nat) = S / 2 ^ 32 := Int.shiftRight_eq_div_pow _ _
    obtain ⟨k, hk, hrec⟩ := ih (a := as) (A := S >>> (32 : Nat)) (by simpa using h) (by omega)
    refine ⟨k, hk, ?_⟩
    have hdiv := Int.emod_add_mul_ediv S (2 ^ 32)
    generalize S % 2 ^ 32 = m at hdiv hlow
    generalize S / 2 ^ 32 = q at hdiv hshift
    rw [value_cons, value_cons, value_cons, cast_add, cast_mul, hrec, hlow, hshift,
      length_cons, mul_succ, pow_add]
    push_cast
    linear_combination hdiv + hS

end Sub

section MulAdd

theorem montLoop_length (h₁ : b.length = n.length) (h₂ : c.length = n.length) (a d0 : UInt32)
    (A B : UInt64) : (montLoop a d0 n b c A B).1.length = n.length := by
  induction n generalizing b c A B
  case nil => simp [montLoop]
  case cons n ns ih =>
    obtain _ | ⟨b, bs⟩ := b
    · cases h₁
    obtain _ | ⟨c, cs⟩ := c
    · cases h₂
    simp [montLoop, ih (succ.inj h₁) (succ.inj h₂)]

-- No sum of the loop overflows, so that the words and the carries are the exact sum.
theorem value_montLoop (h₁ : b.length = n.length) (h₂ : c.length = n.length) (a d0 : UInt32)
    (A B : UInt64) :
    value (montLoop a d0 n b c A B).1 + 2 ^ (32 * n.length) *
        ((montLoop a d0 n b c A B).2.1.toNat / 2 ^ 32 + (montLoop a d0 n b c A B).2.2.toNat / 2 ^ 32) =
      A.toNat / 2 ^ 32 + B.toNat / 2 ^ 32 + a.toNat * value b + value c + d0.toNat * value n := by
  induction n generalizing b c A B
  case nil =>
    obtain rfl := length_eq_zero_iff.mp h₁
    obtain rfl := length_eq_zero_iff.mp h₂
    simp [montLoop]
  case cons n ns ih =>
    obtain _ | ⟨b, bs⟩ := b
    · cases h₁
    obtain _ | ⟨c, cs⟩ := c
    · cases h₂
    rw [montLoop]
    obtain ⟨A', hA'⟩ : ∃ A', A' = (A >>> 32) + a.toUInt64 * b.toUInt64 + c.toUInt64 := ⟨_, rfl⟩
    obtain ⟨B', hB'⟩ : ∃ B', B' = (B >>> 32) + d0.toUInt64 * n.toUInt64 + A'.toUInt32.toUInt64 :=
      ⟨_, rfl⟩
    have hA := toNat_mul_add a b c (A >>> 32) (shiftRight_lt A)
    have hB := toNat_mul_add d0 n A'.toUInt32 (B >>> 32) (shiftRight_lt B)
    rw [← hA', toNat_shiftRight] at hA
    rw [← hB', toNat_shiftRight, toNat_low] at hB
    have ih := ih (succ.inj h₁) (succ.inj h₂) A' B'
    simp only [← hA', ← hB', value_cons, length_cons, mul_succ, pow_add, toNat_low]
    generalize montLoop a d0 ns bs cs A' B' = res at ih
    have hAdiv := mod_add_div A'.toNat (2 ^ 32)
    have hBdiv := mod_add_div B'.toNat (2 ^ 32)
    generalize 2 ^ (32 * ns.length) = P at ih ⊢
    generalize 2 ^ 32 = W at ih hA hB hAdiv hBdiv ⊢
    zify at ih hA hB hAdiv hBdiv ⊢
    linear_combination (W : ℤ) * ih + hBdiv + hB + hAdiv + hA

theorem low_eq_zero (hn : n % W = N % W) (hd : d = A % W * n0inv % W)
    (hinv : W ∣ n0inv * N + 1) : (d * n + A % W) % W = 0 := by
  have hmod : d * n + A % W ≡ A % W * (n0inv * N + 1) [MOD W] := by
    have h₁ : d ≡ A % W * n0inv [MOD W] := hd ▸ mod_modEq _ _
    have h₂ := (h₁.mul (show n ≡ N [MOD W] from hn)).add_right (A % W)
    rwa [show A % W * n0inv * N + A % W = A % W * (n0inv * N + 1) by ring] at h₂
  exact hmod.trans (modEq_zero_iff_dvd.mpr (hinv.mul_left _))

theorem sum_lt {W R N a b c d x : Nat} (hx : W * x = c + a * b + d * N) (ha : a < W) (hb : b < R)
    (hc : c < R) (hd : d < W) : x < R + N := by
  have hab : a * b ≤ (W - 1) * (R - 1) := Nat.mul_le_mul (by omega) (by omega)
  have hdN : d * N ≤ (W - 1) * N := Nat.mul_le_mul_right _ (by omega)
  have hW : W = (W - 1) + 1 := by omega
  have hR : R = (R - 1) + 1 := by omega
  generalize W - 1 = W' at *
  generalize R - 1 = R' at *
  subst hW hR
  apply Nat.lt_of_mul_lt_mul_left (a := W' + 1)
  calc (W' + 1) * x ≤ R' + W' * R' + W' * N := by omega
    _ < (W' + 1) * (R' + 1 + N) := by
      ring_nf
      omega

variable {key : RSAPublicKey}

theorem montLoop_sum {n b c a d0 n0inv : UInt32} {A B : UInt64} (h₁ : bs.length = ns.length)
    (h₂ : cs.length = ns.length) (hinv : 2 ^ 32 ∣ n0inv.toNat * value (n :: ns) + 1)
    (hA : A = a.toUInt64 * b.toUInt64 + c.toUInt64) (hd : d0 = A.toUInt32 * n0inv)
    (hB : B = d0.toUInt64 * n.toUInt64 + A.toUInt32.toUInt64) :
    2 ^ 32 * (value (montLoop a d0 ns bs cs A B).1 + 2 ^ (32 * ns.length) *
        ((montLoop a d0 ns bs cs A B).2.1.toNat / 2 ^ 32 +
          (montLoop a d0 ns bs cs A B).2.2.toNat / 2 ^ 32)) =
      value (c :: cs) + a.toNat * value (b :: bs) + d0.toNat * value (n :: ns) := by
  rw [value_montLoop h₁ h₂]
  have hA' : A.toNat = a.toNat * b.toNat + c.toNat := by
    simpa [hA] using toNat_mul_add a b c 0 (by decide)
  have hB' : B.toNat = d0.toNat * n.toNat + A.toNat % 2 ^ 32 := by
    simpa [hB] using toNat_mul_add d0 n A.toUInt32 0 (by decide)
  have hd' : d0.toNat = A.toNat % 2 ^ 32 * n0inv.toNat % 2 ^ 32 := by
    rw [hd, UInt32.toNat_mul, toNat_low]
  have hzero := low_eq_zero (n := n.toNat) (by simp) hd' hinv
  rw [← hB'] at hzero
  have hAdiv := mod_add_div A.toNat (2 ^ 32)
  have hBdiv := mod_add_div B.toNat (2 ^ 32)
  simp only [value_cons]
  generalize 2 ^ 32 = W at *
  zify at *
  linear_combination hAdiv + hBdiv - hzero + hA' + hB'

theorem value_carry {low : List UInt32} {S : UInt64} (hlen : low.length + 1 = key.words.length)
    (hlt : value low + 2 ^ (32 * low.length) * S.toNat < 2 ^ (32 * key.words.length) + value key.words) :
    (if S >>> 32 ≠ 0 then subM key (low ++ [S.toUInt32]) else low ++ [S.toUInt32]).length =
        key.words.length ∧
      ∃ k, value (if S >>> 32 ≠ 0 then subM key (low ++ [S.toUInt32]) else low ++ [S.toUInt32]) +
        k * value key.words = value low + 2 ^ (32 * low.length) * S.toNat := by
  have hl : (low ++ [S.toUInt32]).length = key.words.length := by simpa using hlen
  have hvalue : value (low ++ [S.toUInt32]) = value low + 2 ^ (32 * low.length) * (S.toNat % 2 ^ 32) := by
    rw [value_append, value_cons, value_nil, Nat.mul_zero, Nat.add_zero, toNat_low]
  have hR : 2 ^ (32 * key.words.length) = 2 ^ (32 * low.length) * 2 ^ 32 := by
    rw [← hlen, mul_succ, pow_add]
  have hN := value_lt key.words
  have hdiv := mod_add_div S.toNat (2 ^ 32)
  rw [← hdiv, mul_add, ← add_assoc, ← hvalue, ← mul_assoc, ← hR] at hlt ⊢
  have hshift := toNat_shiftRight S
  by_cases hS : S >>> 32 = 0
  · rw [hS] at hshift
    simp only [hS, ne_eq, not_true, if_false, ← hshift]
    exact ⟨hl, 0, by simp⟩
  have hq : S.toNat / 2 ^ 32 ≠ 0 := by
    rw [← hshift]
    intro h0
    exact hS (UInt64.toNat.inj h0)
  obtain ⟨k, hk, hsub⟩ := value_subLoop hl (A := 0) (.inl rfl)
  have hres := value_lt (subLoop key.words (low ++ [S.toUInt32]) 0)
  rw [subLoop_length, hl] at hres
  simp only [ne_eq, hS, not_false_eq_true, if_true, subM, subLoop_length]
  refine ⟨hl, 1, ?_⟩
  generalize value (subLoop key.words (low ++ [S.toUInt32]) 0) = r at *
  generalize S.toNat / 2 ^ 32 = q at *
  generalize 2 ^ (32 * key.words.length) = R at *
  obtain rfl : q = 1 := by
    by_contra hne
    have h₂ : R * 2 ≤ R * q := Nat.mul_le_mul_left R (by omega)
    omega
  obtain rfl | rfl := hk <;> omega

theorem montMulAdd_spec (hinv : 2 ^ 32 ∣ key.n0inv.toNat * value key.words + 1)
    (hb : b.length = key.words.length) (hc : c.length = key.words.length) (a : UInt32) :
    (montMulAdd key c a b).length = key.words.length ∧
      Step (2 ^ 32) (value key.words) (value b) a.toNat (value c) (value (montMulAdd key c a b)) := by
  rcases hw : key.words with _ | ⟨n, ns⟩
  · rw [hw] at hb hc
    obtain rfl := length_eq_zero_iff.mp hb
    obtain rfl := length_eq_zero_iff.mp hc
    exact ⟨by simp [montMulAdd, hw], 0, by decide, 0, by simp [montMulAdd, hw]⟩
  rw [hw] at hb hc hinv
  obtain _ | ⟨b, bs⟩ := b
  · cases hb
  obtain _ | ⟨c, cs⟩ := c
  · cases hc
  have hbs := succ.inj hb
  have hcs := succ.inj hc
  obtain ⟨A, hA⟩ : ∃ A, A = a.toUInt64 * b.toUInt64 + c.toUInt64 := ⟨_, rfl⟩
  obtain ⟨d0, hd⟩ : ∃ d0, d0 = A.toUInt32 * key.n0inv := ⟨_, rfl⟩
  obtain ⟨B, hB⟩ : ∃ B, B = d0.toUInt64 * n.toUInt64 + A.toUInt32.toUInt64 := ⟨_, rfl⟩
  have hsum := montLoop_sum hbs hcs hinv hA hd hB
  have hlen := montLoop_length hbs hcs a d0 A B
  simp only [montMulAdd, hw, ← hA, ← hd, ← hB]
  generalize montLoop a d0 ns bs cs A B = res at hsum hlen
  obtain ⟨low, A', B'⟩ := res
  simp only at hsum hlen ⊢
  have hS : ((A' >>> 32) + (B' >>> 32)).toNat = A'.toNat / 2 ^ 32 + B'.toNat / 2 ^ 32 := by
    have h₁ := A'.toNat_lt
    have h₂ := B'.toNat_lt
    rw [UInt64.toNat_add, toNat_shiftRight, toNat_shiftRight]
    omega
  rw [← hS, ← hlen] at hsum
  have hlt := sum_lt hsum a.toNat_lt (value_lt (b :: bs)) (by
    rw [hb, ← hc]
    exact value_lt (c :: cs)) d0.toNat_lt
  rw [hb, ← hw] at hlt
  obtain ⟨h₁, k, h₂⟩ := value_carry (by rw [hw, hlen]; rfl) hlt
  rw [← hw]
  exact ⟨h₁, d0.toNat, d0.toNat_lt, k, by rw [h₂, hsum, hw]⟩

theorem montMul_steps (hinv : 2 ^ 32 ∣ key.n0inv.toNat * value key.words + 1)
    (hb : b.length = key.words.length) (a c : List UInt32) (hc : c.length = key.words.length) :
    (a.foldl (fun c a => montMulAdd key c a b) c).length = key.words.length ∧
      Steps (2 ^ 32) (value key.words) (value b) (a.map toNat) (value c)
        (value (a.foldl (fun c a => montMulAdd key c a b) c)) := by
  induction a generalizing c
  case nil => exact ⟨hc, .nil⟩
  case cons a as ih =>
    obtain ⟨hlen, hstep⟩ := montMulAdd_spec hinv hb hc a
    obtain ⟨hlen, hsteps⟩ := ih _ hlen
    exact ⟨hlen, .cons hstep hsteps⟩

theorem ofDigits_toNat (a : List UInt32) : ofDigits (2 ^ 32) (a.map toNat) = value a := by
  induction a
  case nil => rfl
  case cons a as ih => rw [map_cons, ofDigits_cons, ih, value_cons]

theorem value_replicate_zero (k : Nat) : value (replicate k 0) = 0 := by
  induction k
  case zero => rfl
  case succ k ih => simp [replicate_succ, ih]

end MulAdd

section Reduce

theorem geLoop_iff (h : a.length = n.length) : geLoop (a.zip n).reverse ↔ value n ≤ value a := by
  induction a using reverseRecOn generalizing n
  case nil =>
    obtain rfl := length_eq_zero_iff.mp h.symm
    simp [geLoop]
  case append_singleton a x ih =>
    obtain rfl | ⟨n, y, rfl⟩ := eq_nil_or_concat n
    · simp at h
    have hlen : a.length = n.length := by simpa using h
    have ha := value_lt a
    have hn := value_lt n
    rw [concat_eq_append, zip_append hlen, reverse_append, value_append, value_append, hlen]
    rw [hlen] at ha
    simp only [zip_cons_cons, zip_nil_right, reverse_singleton, singleton_append,
      geLoop, gt_iff_lt, lt_iff_toNat_lt, value_cons, value_nil, Nat.mul_zero, Nat.add_zero]
    generalize 2 ^ (32 * n.length) = P at *
    obtain hlt | heq | hgt := Nat.lt_trichotomy x.toNat y.toNat
    · have hle : P * (x.toNat + 1) ≤ P * y.toNat := Nat.mul_le_mul_left P hlt
      rw [Nat.mul_add] at hle
      simp only [if_pos hlt, Bool.false_eq_true, false_iff]
      omega
    · simp [heq, ih hlen]
    · have hle : P * (y.toNat + 1) ≤ P * x.toNat := Nat.mul_le_mul_left P hgt
      rw [Nat.mul_add] at hle
      simp only [if_neg (Nat.lt_asymm hgt), if_pos hgt, true_iff]
      omega

theorem reduce_spec (h : a.length = key.words.length) :
    (if geM key a then subM key a else a).length = key.words.length ∧
      value (if geM key a then subM key a else a) ≡ value a [MOD value key.words] ∧
      (value a < 2 * value key.words → value (if geM key a then subM key a else a) < value key.words) := by
  have hiff : geM key a ↔ value key.words ≤ value a := geLoop_iff h
  by_cases hge : value key.words ≤ value a
  · rw [if_pos (hiff.mpr hge), subM, subLoop_length]
    obtain ⟨k, hk, hsub⟩ := value_subLoop h (A := 0) (.inl rfl)
    have hres := value_lt (subLoop key.words a 0)
    have hN := value_lt key.words
    rw [subLoop_length, h] at hres
    have hvalue : value (subLoop key.words a 0) = value a - value key.words := by
      obtain rfl | rfl := hk <;> omega
    rw [hvalue]
    exact ⟨h, (mod_eq_sub_mod hge).symm, by omega⟩
  · rw [if_neg (mt hiff.mp hge)]
    exact ⟨h, rfl, by omega⟩

end Reduce

def radix : Nat :=
  (2 ^ 32) ^ RSANUMWORDS

-- The keys that belong to a modulus.
structure RSAPublicKey.Valid (key : RSAPublicKey) (N : Nat) : Prop where
  len : key.len = RSANUMWORDS
  n : value key.n = N
  rr : value key.rr = radix ^ 2 % N
  n0inv : 2 ^ 32 ∣ key.n0inv.toNat * N + 1

section Valid

variable {key : RSAPublicKey} {N : Nat}

variable (hk : key.Valid N)

include hk

theorem RSAPublicKey.Valid.words_eq : key.words = key.n := by
  rw [words, hk.len, Int.toNat_natCast, ← key.n_length, take_length]

theorem RSAPublicKey.Valid.rrWords_eq : key.rrWords = key.rr := by
  rw [rrWords, hk.len, Int.toNat_natCast, ← key.rr_length, take_length]

theorem RSAPublicKey.Valid.coprime : radix.Coprime N := by
  apply Nat.Coprime.pow_left
  apply Nat.Coprime.pow_left
  have h := hk.n0inv
  rw [coprime_two_left, odd_iff]
  by_contra heven
  have h₂ : 2 ∣ key.n0inv.toNat * N := Dvd.dvd.mul_left (by omega) _
  omega

theorem montMul_spec (ha : a.length = RSANUMWORDS) (hb : b.length = RSANUMWORDS) (hN : 0 < N) :
    (montMul key a b).length = RSANUMWORDS ∧ radix * value (montMul key a b) ≡ value a * value b [MOD N] ∧
      (value b < N → value (montMul key a b) < 2 * N) := by
  have hw := hk.words_eq
  have hb' : b.length = key.words.length := by rw [hw, key.n_length, hb]
  obtain ⟨hlen, hsteps⟩ := montMul_steps (by rw [hw, hk.n]; exact hk.n0inv) hb' a
    (replicate key.len.toNat 0)
    (by rw [length_replicate, hw, key.n_length, hk.len, Int.toNat_natCast])
  rw [← montMul, hw] at hlen hsteps
  rw [value_replicate_zero, hk.n] at hsteps
  refine ⟨hlen.trans key.n_length, ?_, fun hb => hsteps.lt ?_ hb (by omega)⟩
  · have h := hsteps.modEq
    rw [ofDigits_toNat, length_map, ha, zero_add, ← radix] at h
    exact h
  · intro x hx
    obtain ⟨d, -, rfl⟩ := mem_map.mp hx
    exact d.toNat_lt

end Valid

end Mincrypt
