import PlatformKnife.Mincrypt.P256Arith

namespace Mincrypt

open CInt Digits List Nat

section Loops

theorem value_mulAddLoop (h : c.length = a.length) (b : UInt32) (carry : UInt64)
    (hc : carry.toNat < 2 ^ 32) :
    value (mulAddLoop b a c carry).1 + 2 ^ (32 * a.length) * (mulAddLoop b a c carry).2.toNat =
        carry.toNat + value c + value a * b.toNat ∧
      (mulAddLoop b a c carry).2.toNat < 2 ^ 32 := by
  induction a generalizing c carry
  case nil =>
    obtain rfl := length_eq_zero_iff.mp h
    simpa [mulAddLoop] using hc
  case cons a as ih =>
    obtain _ | ⟨c, cs⟩ := c
    · cases h
    obtain ⟨S, hS⟩ : ∃ S, S = carry + c.toUInt64 + a.toUInt64 * b.toUInt64 := ⟨_, rfl⟩
    have hsum : S.toNat = carry.toNat + a.toNat * b.toNat + c.toNat := by
      rw [← toNat_mul_add a b c carry hc, hS, UInt64.add_assoc carry, UInt64.add_comm c.toUInt64,
        ← UInt64.add_assoc]
    obtain ⟨ih, hlt⟩ := ih (succ.inj h) (S >>> 32) (shiftRight_lt S)
    rw [toNat_shiftRight] at ih
    simp only [mulAddLoop, ← hS, value_cons, toNat_low, length_cons, mul_succ, pow_add]
    refine ⟨?_, hlt⟩
    have hdiv := mod_add_div S.toNat (2 ^ 32)
    generalize 2 ^ (32 * as.length) = P at ih ⊢
    generalize 2 ^ 32 = W at ih hdiv ⊢
    zify at ih hdiv hsum ⊢
    linear_combination (W : ℤ) * ih + hdiv + hsum

theorem value_borrowLoop (h : c.length = a.length) (borrow : Int) (hb : borrow = 0 ∨ borrow = -1) :
    (value (borrowLoop c a borrow).1 : Int) + (2 ^ (32 * a.length) : Nat) * (borrowLoop c a borrow).2 =
        borrow + value c - value a ∧
      ((borrowLoop c a borrow).2 = 0 ∨ (borrowLoop c a borrow).2 = -1) := by
  induction a generalizing c borrow
  case nil =>
    obtain rfl := length_eq_zero_iff.mp h
    simpa [borrowLoop] using hb
  case cons a as ih =>
    obtain _ | ⟨c, cs⟩ := c
    · cases h
    have ha := a.toNat_lt
    have hc := c.toNat_lt
    obtain ⟨S, hS⟩ : ∃ S : Int, S = borrow + c.toNat - a.toNat := ⟨_, rfl⟩
    have hlow : ((UInt32.ofNat (toU32 S)).toNat : Int) = S % 2 ^ 32 := by
      rw [UInt32.toNat_ofNat_of_lt' (toU32_lt S), toU32]
      omega
    have hshift : S >>> (32 : Nat) = S / 2 ^ 32 := Int.shiftRight_eq_div_pow _ _
    obtain ⟨ih, hlt⟩ := ih (succ.inj h) (S >>> (32 : Nat)) (by omega)
    have hdiv := Int.emod_add_mul_ediv S (2 ^ 32)
    simp only [borrowLoop, ← hS]
    refine ⟨?_, hlt⟩
    rw [hshift] at ih ⊢
    generalize S % 2 ^ 32 = m at hdiv hlow
    generalize S / 2 ^ 32 = q at hdiv ih ⊢
    rw [value_cons, value_cons, value_cons, length_cons, mul_succ, pow_add]
    push_cast at ih ⊢
    rw [hlow]
    linear_combination 2 ^ 32 * ih + hdiv + hS

theorem carryLoop_eq (c a : List UInt32) (carry : UInt64) :
    carryLoop c a carry = mulAddLoop 1 a c carry := by
  induction a generalizing c carry
  case nil => cases c <;> rfl
  case cons a as ih =>
    cases c
    case nil => rfl
    case cons c cs => simp [carryLoop, mulAddLoop, ih]

theorem value_carryLoop (h : c.length = a.length) (carry : UInt64) (hc : carry.toNat ≤ 1) :
    value (carryLoop c a carry).1 + 2 ^ (32 * a.length) * (carryLoop c a carry).2.toNat =
        carry.toNat + value c + value a ∧
      (carryLoop c a carry).2.toNat ≤ 1 := by
  have hv := (value_mulAddLoop h 1 carry (by omega)).left
  rw [← carryLoop_eq, UInt32.toNat_one, mul_one] at hv
  refine ⟨hv, ?_⟩
  have hca := value_lt c
  have hva := value_lt a
  rw [h] at hca
  by_contra hlt
  have := Nat.mul_le_mul_left (2 ^ (32 * a.length)) (Nat.lt_of_not_le hlt)
  omega

end Loops

namespace P256Int

theorem value_lt (c : P256Int) : c.value < 2 ^ 256 := by
  have h := Digits.value_lt c.a
  rwa [c.length_eq] at h

theorem value_eq (c : P256Int) : Digits.value c.a = c.value :=
  rfl

@[simp]
theorem value_zero : zero.value = 0 := by
  decide

@[simp]
theorem value_one : one.value = 1 := by
  decide

theorem pow_digits : 2 ^ (32 * P256_NDIGITS) = 2 ^ 256 :=
  rfl

theorem mulAdd_spec (a : P256Int) (b : UInt32) (c : P256Int) :
    (a.mulAdd b 0 c).2.value + 2 ^ 256 * (a.mulAdd b 0 c).1.toNat = c.value + a.value * b.toNat := by
  obtain ⟨h, hlt⟩ := value_mulAddLoop (c.length_eq.trans a.length_eq.symm) b 0 (by decide)
  rw [a.length_eq, pow_digits] at h
  simp only [mulAdd, value, UInt32.zero_add, toNat_low, mod_eq_of_lt hlt]
  simpa using h

theorem subTop_spec (topA : UInt32) (a : P256Int) (topC : UInt32) (c : P256Int)
    (hle : topA.toNat * 2 ^ 256 + a.value ≤ topC.toNat * 2 ^ 256 + c.value) :
    ∃ top tmp, subTop topA a topC c = some (top, tmp) ∧
      top.toNat * 2 ^ 256 + tmp.value + (topA.toNat * 2 ^ 256 + a.value) =
        topC.toNat * 2 ^ 256 + c.value := by
  obtain ⟨h, hb⟩ := value_borrowLoop (c.length_eq.trans a.length_eq.symm) 0 (.inl rfl)
  have hlow := Digits.value_lt (borrowLoop c.a a.a 0).1
  rw [borrowLoop_length, c.length_eq, pow_digits] at hlow
  rw [a.length_eq, pow_digits] at h
  have hA := topA.toNat_lt
  have hC := topC.toNat_lt
  simp only [subTop]
  generalize (borrowLoop c.a a.a 0).2 = b at *
  have hshift : (b + topC.toNat - topA.toNat) >>> (32 : Nat) = (b + topC.toNat - topA.toNat) / 2 ^ 32 :=
    Int.shiftRight_eq_div_pow _ _
  have hzero : (b + topC.toNat - topA.toNat) >>> (32 : Nat) = 0 := by
    simp only [value] at hle
    omega
  have htop : (toU32 (b + topC.toNat - topA.toNat) : Int) = b + topC.toNat - topA.toNat :=
    toU32_of_nonneg (by omega) (by omega)
  rw [if_pos hzero]
  refine ⟨_, _, rfl, ?_⟩
  rw [UInt32.toNat_ofNat_of_lt' (toU32_lt _)]
  simp only [value]
  omega

theorem masked_zero (m : P256Int) : Digits.value (m.masked 0) = 0 := by
  have h : m.masked 0 = replicate P256_NDIGITS 0 := by
    rw [masked, ← m.length_eq]
    simp
  rw [h]
  rfl

theorem masked_neg_one (m : P256Int) : m.masked (-1) = m.a := by
  rw [masked]
  conv_rhs => rw [← map_id m.a]
  exact map_congr_left fun d _ => UInt32.and_neg_one

theorem masked_length (m : P256Int) (mask : UInt32) : (m.masked mask).length = P256_NDIGITS := by
  rw [masked, length_map, m.length_eq]

section

variable (m c : P256Int)

theorem subM_spec (top : UInt32) :
    ((m.subM top c (-1)).1 = top ∧ (m.subM top c (-1)).2.value + m.value = c.value) ∨
      ((m.subM top c (-1)).1 = top + -1 ∧ (m.subM top c (-1)).2.value + m.value = c.value + 2 ^ 256) := by
  obtain ⟨h, hb⟩ := value_borrowLoop (c.length_eq.trans m.length_eq.symm) 0 (.inl rfl)
  rw [m.length_eq, pow_digits] at h
  simp only [subM, masked_neg_one, value]
  obtain hb | hb := hb
  · left
    rw [hb] at h ⊢
    exact ⟨UInt32.add_zero top, by omega⟩
  right
  rw [hb] at h ⊢
  exact ⟨rfl, by omega⟩

theorem subM_zero (top : UInt32) : (m.subM top c 0).1 = top ∧ (m.subM top c 0).2.value = c.value := by
  have hlen : c.a.length = (m.masked 0).length := by rw [c.length_eq, masked_length]
  obtain ⟨h, hb⟩ := value_borrowLoop hlen 0 (.inl rfl)
  have hlow := Digits.value_lt (borrowLoop c.a (m.masked 0) 0).1
  rw [borrowLoop_length, c.length_eq, pow_digits] at hlow
  have hc := c.value_lt
  rw [masked_zero, masked_length, pow_digits] at h
  simp only [subM, value] at hc ⊢
  have hzero : (borrowLoop c.a (m.masked 0) 0).2 = 0 := by omega
  rw [hzero] at h ⊢
  exact ⟨UInt32.add_zero top, by omega⟩

theorem addM_zero : (m.addM 0 c 0).2.value = c.value := by
  have hlen : c.a.length = (m.masked 0).length := by rw [c.length_eq, masked_length]
  obtain ⟨h, hc⟩ := value_carryLoop hlen 0 (by decide)
  have hlt := c.value_lt
  rw [masked_zero, masked_length, pow_digits] at h
  simp only [value, addM] at hlt ⊢
  simp only [UInt64.toNat_zero] at h
  omega

theorem addM_neg_one : (m.addM 0 c (-1)).2.value = (c.value + m.value) % 2 ^ 256 := by
  obtain ⟨h, hc⟩ := value_carryLoop (c.length_eq.trans m.length_eq.symm) 0 (by decide)
  have hlow := Digits.value_lt (carryLoop c.a m.a 0).1
  rw [carryLoop_length, c.length_eq, pow_digits] at hlow
  rw [m.length_eq, pow_digits] at h
  simp only [value, addM, masked_neg_one]
  simp only [UInt64.toNat_zero] at h
  omega

theorem mod_spec (hm : 2 ^ 255 ≤ m.value) : (m.mod c).value = c.value % m.value := by
  have hc := c.value_lt
  have hlt := (m.subM 0 c (-1)).2.value_lt
  simp only [mod]
  obtain ⟨hmask, hsub⟩ | ⟨hmask, hsub⟩ := m.subM_spec c 0
  · rw [hmask, addM_zero, ← hsub, add_mod_right, mod_eq_of_lt (by omega)]
  · rw [hmask, UInt32.zero_add, addM_neg_one, hsub, add_mod_right, mod_eq_of_lt hc, mod_eq_of_lt (by omega)]

end

-- The modulus is close enough to the power of two.
def Near (m : P256Int) : Prop :=
  2 ^ 256 - 2 ^ 224 ≤ m.value

theorem reduceStep_spec (hm : m.Near) (top : UInt32) (tmp : P256Int) :
    ∃ tmp', reduceStep m top tmp = some tmp' ∧
      tmp'.value ≡ tmp.value + 2 ^ 256 * top.toNat [MOD m.value] := by
  have hred := m.mulAdd_spec top zero
  rw [value_zero, zero_add] at hred
  have htop := top.toNat_lt
  have hmlt := m.value_lt
  have htlt := tmp.value_lt
  rw [Near] at hm
  -- What is left for the top digit is the multiple of the difference to the power of two.
  obtain ⟨δ, hδ⟩ : ∃ δ, m.value + δ = 2 ^ 256 := Nat.exists_eq_add_of_le hmlt.le |>.imp fun _ h => h.symm
  have hmul : m.value * top.toNat + δ * top.toNat = 2 ^ 256 * top.toNat := by
    rw [← add_mul, hδ]
  have hδtop : δ * top.toNat ≤ δ * (2 ^ 32 - 1) := Nat.mul_le_mul_left _ (by omega)
  have hδle : δ * (2 ^ 32 - 1) + δ ≤ 2 ^ 256 := by omega
  simp only [reduceStep]
  generalize m.mulAdd top 0 zero = r at hred ⊢
  obtain ⟨topR, reducer⟩ := r
  simp only at hred ⊢
  have hle : topR.toNat * 2 ^ 256 + reducer.value ≤ top.toNat * 2 ^ 256 + tmp.value := by
    clear hδtop hδle hm hmlt htlt htop hδ
    omega
  obtain ⟨top', tmp', hsub, hval⟩ := subTop_spec topR reducer top tmp hle
  have hone : top'.toNat ≤ 1 := by omega
  have hgt : ¬top' > 1 := by
    rw [gt_iff_lt, UInt32.lt_iff_toNat_lt]
    exact not_lt.mpr hone
  have hmod : tmp.value + 2 ^ 256 * top.toNat ≡ tmp'.value + 2 ^ 256 * top'.toNat [MOD m.value] := by
    have heq : tmp.value + 2 ^ 256 * top.toNat =
        tmp'.value + 2 ^ 256 * top'.toNat + top.toNat * m.value := by
      rw [mul_comm top.toNat]
      omega
    rw [heq]
    exact add_mul_modulus_modEq_iff.mpr rfl
  simp only [hsub, Option.bind_eq_bind, Option.bind_some, if_neg hgt]
  obtain h0 | h1 : top'.toNat = 0 ∨ top'.toNat = 1 := by omega
  · obtain rfl : top' = 0 := UInt32.toNat.inj h0
    obtain ⟨htop, hvalue⟩ := m.subM_zero tmp' 0
    refine ⟨(m.subM 0 tmp' 0).2, by simp [htop], ?_⟩
    rw [hvalue]
    simpa using hmod.symm
  obtain rfl : top' = 1 := UInt32.toNat.inj h1
  have hlt := (m.subM 1 tmp' (-1)).2.value_lt
  obtain ⟨htop, hvalue⟩ | ⟨htop, hvalue⟩ := m.subM_spec tmp' 1
  · exfalso
    omega
  refine ⟨(m.subM 1 tmp' (-1)).2, by simp [htop, show (1 : UInt32) + -1 = 0 from by decide], ?_⟩
  refine Nat.ModEq.trans ?_ hmod.symm
  rw [h1, mul_one, ← hvalue]
  exact (add_modulus_modEq_iff.mpr rfl).symm

theorem up_spec (c : P256Int) (top : UInt32) :
    c.low.toNat + 2 ^ 32 * (c.up top).value = c.value + 2 ^ 256 * top.toNat := by
  obtain ⟨a, ha⟩ := c
  obtain _ | ⟨d, l⟩ := a
  · cases ha
  have hl : l.length = 7 := succ.inj ha
  simp only [low, up, value, headD_cons, tail_cons, value_append, value_cons, value_nil, hl]
  omega

theorem down_spec (c : P256Int) (d : UInt32) :
    (c.down d).value + 2 ^ 256 * c.high.toNat = d.toNat + 2 ^ 32 * c.value := by
  obtain ⟨a, ha⟩ := c
  obtain rfl | ⟨l, h, rfl⟩ := eq_nil_or_concat a
  · cases ha
  have hl : l.length = 7 := by simpa [P256_NDIGITS] using ha
  simp only [high, down, value, concat_eq_append, dropLast_concat, getLastD_concat, value_append,
    value_cons, value_nil, hl]
  omega

theorem value_reverse_cons (d : UInt32) (done : List UInt32) :
    Digits.value (d :: done).reverse = Digits.value done.reverse + 2 ^ (32 * done.length) * d.toNat := by
  rw [reverse_cons, value_append, length_reverse, value_cons, value_nil, mul_zero, add_zero]

theorem mulLoop_spec (a : P256Int) (b done : List UInt32) (tmp : P256Int) :
    (a.mulLoop b done tmp).1.length = done.length + b.length ∧
      Digits.value (a.mulLoop b done tmp).1.reverse +
          2 ^ (32 * (done.length + b.length)) * (a.mulLoop b done tmp).2.value =
        Digits.value done.reverse + 2 ^ (32 * done.length) * (tmp.value + a.value * Digits.value b) := by
  induction b generalizing done tmp
  case nil => simp [mulLoop]
  case cons b bs ih =>
    obtain ⟨hlen, hval⟩ := ih ((a.mulAdd b 0 tmp).2.low :: done)
      ((a.mulAdd b 0 tmp).2.up (a.mulAdd b 0 tmp).1)
    have hmul := a.mulAdd_spec b tmp
    have hup := (a.mulAdd b 0 tmp).2.up_spec (a.mulAdd b 0 tmp).1
    rw [length_cons] at hlen hval
    simp only [mulLoop, length_cons]
    rw [show done.length + (bs.length + 1) = done.length + 1 + bs.length by omega]
    refine ⟨hlen, ?_⟩
    rw [hval, value_reverse_cons, value_cons, mul_succ, pow_add]
    generalize 2 ^ (32 * done.length) = P
    zify at hmul hup ⊢
    linear_combination (P : ℤ) * (hmul + hup)

theorem reduceLoop_spec (hm : m.Near) (done : List UInt32) (top : UInt32) (tmp : P256Int) :
    ∃ res, reduceLoop m done top tmp = some res ∧
      res.value ≡ Digits.value done.reverse +
        2 ^ (32 * done.length) * (tmp.value + 2 ^ 256 * top.toNat) [MOD m.value] := by
  induction done generalizing top tmp
  case nil =>
    obtain ⟨res, hres, hmod⟩ := reduceStep_spec hm top tmp
    exact ⟨res, hres, by simpa using hmod⟩
  case cons d done ih =>
    obtain ⟨tmp', hstep, hmod⟩ := reduceStep_spec hm top tmp
    obtain ⟨res, hres, hmod'⟩ := ih tmp'.high (tmp'.down d)
    refine ⟨res, by simp [reduceLoop, hstep, hres], hmod'.trans ?_⟩
    rw [down_spec, value_reverse_cons, length_cons, mul_succ, pow_add, mul_add, add_assoc, mul_assoc]
    exact (((hmod.mul_left _).mul_left _).add_left _).add_left _

theorem modmul_top {m : P256Int} (hm : m.Near) (a : P256Int) (topB : UInt32) (b : P256Int) :
    ∃ c, m.modmul a topB b = some c ∧ c.value = a.value * (topB.toNat * 2 ^ 256 + b.value) % m.value := by
  obtain ⟨hlen, hval⟩ := a.mulLoop_spec b.a [] zero
  obtain ⟨tmp, htmp⟩ : ∃ tmp, tmp = a.mulLoop b.a [] zero := ⟨_, rfl⟩
  have htop := a.mulAdd_spec topB tmp.2
  obtain ⟨res, hres, hmod⟩ :=
    reduceLoop_spec hm tmp.1 (a.mulAdd topB 0 tmp.2).1 (a.mulAdd topB 0 tmp.2).2
  refine ⟨m.mod res, by simp [modmul, ← htmp, hres], ?_⟩
  rw [← htmp, value_zero, b.length_eq] at hval
  rw [← htmp, b.length_eq] at hlen
  rw [mod_spec _ _ (by rw [Near] at hm; omega)]
  refine hmod.trans (congrArg (· % m.value) ?_)
  simp only [length_nil, zero_add, reverse_nil, value_nil, mul_zero, pow_zero, one_mul,
    pow_digits, value_eq] at hval hlen
  rw [htop, hlen, pow_digits, mul_add, ← add_assoc, hval]
  ring

theorem modmul_spec {m : P256Int} (hm : m.Near) (a b : P256Int) :
    ∃ c, m.modmul a 0 b = some c ∧ c.value = a.value * b.value % m.value := by
  simpa using modmul_top hm a 0 b

theorem isZero_iff (a : P256Int) : a.isZero ↔ a.value = 0 := by
  have hfold (l : List UInt32) (d : UInt32) : l.foldl (· ||| ·) d = 0 ↔ d = 0 ∧ Digits.value l = 0 := by
    induction l generalizing d
    case nil => simp
    case cons e l ih =>
      rw [foldl_cons, ih, value_cons, UInt32.or_eq_zero_iff, ← UInt32.toNat_inj (a := e)]
      simp
      tauto
  simp [isZero, hfold, value]

theorem isEven_iff (a : P256Int) : a.isEven ↔ a.value % 2 = 0 := by
  obtain ⟨a, ha⟩ := a
  obtain _ | ⟨d, l⟩ := a
  · cases ha
  have hand : (d &&& 1).toNat = d.toNat % 2 := by
    rw [UInt32.toNat_and]
    exact and_one_is_mod _
  have hlow : isEven ⟨d :: l, ha⟩ ↔ (d &&& 1).toNat = 0 := by
    rw [isEven, decide_eq_true_eq, ← UInt32.toNat_inj]
    rfl
  rw [hlow, hand]
  simp only [value, value_cons]
  omega

theorem sub_spec (a b : P256Int) :
    ((a.sub b).1 = 0 ∧ (a.sub b).2.value + b.value = a.value) ∨
      ((a.sub b).1 = -1 ∧ (a.sub b).2.value + b.value = a.value + 2 ^ 256) := by
  obtain ⟨h, hb⟩ := value_borrowLoop (a.length_eq.trans b.length_eq.symm) 0 (.inl rfl)
  rw [b.length_eq, pow_digits] at h
  simp only [sub, value]
  obtain hb | hb := hb <;> rw [hb] at h ⊢
  · exact .inl ⟨rfl, by omega⟩
  · exact .inr ⟨rfl, by omega⟩

theorem add_spec (a b : P256Int) :
    (a.add b).2.value + 2 ^ 256 * (a.add b).1.toNat = a.value + b.value ∧ (a.add b).1.toNat ≤ 1 := by
  obtain ⟨h, hc⟩ := value_carryLoop (a.length_eq.trans b.length_eq.symm) 0 (by decide)
  rw [b.length_eq, pow_digits, UInt64.toNat_zero, zero_add] at h
  simp only [add, value, toNat_low]
  omega

theorem value_eq_zero_iff (l : List UInt32) : Digits.value l = 0 ↔ ∀ d ∈ l, d = 0 := by
  induction l
  case nil => simp
  case cons d l ih =>
    rw [value_cons, forall_mem_cons, ← ih, ← UInt32.toNat_inj, UInt32.toNat_zero]
    omega

theorem cmp_spec (a b : P256Int) :
    (a.cmp b = -1 ∧ a.value < b.value) ∨ (a.cmp b = 0 ∧ a.value = b.value) ∨
      (a.cmp b = 1 ∧ b.value < a.value) := by
  have hcmp : a.cmp b = if (a.sub b).1 = 0 then (if (a.sub b).2.a.any (· ≠ 0) then 1 else 0) else -1 := rfl
  have hlt := (a.sub b).2.value_lt
  rw [hcmp]
  obtain ⟨hb, hval⟩ | ⟨hb, hval⟩ := a.sub_spec b
  · by_cases hzero : (a.sub b).2.value = 0
    · have hall := (value_eq_zero_iff _).mp hzero
      rw [if_pos hb, if_neg (by simpa using hall)]
      exact .inr (.inl ⟨rfl, by omega⟩)
    · have hall := mt (value_eq_zero_iff _).mpr hzero
      rw [if_pos hb, if_pos (by simpa using hall)]
      exact .inr (.inr ⟨rfl, by omega⟩)
  · rw [if_neg (by omega)]
    exact .inl ⟨rfl, by omega⟩

theorem value_shr1Loop (highbit : UInt32) (hh : highbit.toNat ≤ 1) (l : List UInt32) (hl : l ≠ []) :
    Digits.value (shr1Loop highbit l) = (Digits.value l + 2 ^ (32 * l.length) * highbit.toNat) / 2 := by
  have hword (a b : UInt32) : ((a >>> 1) ||| (b <<< 31)).toNat = a.toNat / 2 + 2 ^ 31 * (b.toNat % 2) := by
    have ha := a.toNat_lt
    have hshift : b.toNat <<< 31 % 2 ^ 32 = (b.toNat % 2) <<< 31 := by
      rw [shiftLeft_eq, shiftLeft_eq]
      omega
    have h : ((a >>> 1) ||| (b <<< 31)).toNat = (b.toNat % 2) <<< 31 ||| (a.toNat / 2) := by
      rw [← hshift, Nat.or_comm]
      simp [shiftRight_eq_div_pow]
    rw [h, shiftLeft_or _ (by omega)]
    omega
  induction l
  case nil => exact absurd rfl hl
  case cons a l ih =>
    obtain _ | ⟨b, l⟩ := l
    · simp only [shr1Loop, value_cons, value_nil, hword, length_cons, length_nil]
      omega
    simp only [shr1Loop, value_cons, hword, ih (by simp), length_cons, mul_succ, pow_add]
    have h₁ : 2 ^ (32 * l.length) * 2 ^ 32 * highbit.toNat =
        2 ^ 32 * (2 ^ (32 * l.length) * highbit.toNat) := by ring
    have h₂ : 2 ^ (32 * l.length) * 2 ^ 32 * 2 ^ 32 * highbit.toNat =
        2 ^ 64 * (2 ^ (32 * l.length) * highbit.toNat) := by ring
    rw [h₁, h₂]
    omega

theorem shr1_spec (a : P256Int) (highbit : UInt32) (hh : highbit.toNat ≤ 1) :
    (a.shr1 highbit).value = (a.value + 2 ^ 256 * highbit.toNat) / 2 := by
  have h := value_shr1Loop highbit hh a.a (by
    intro h
    have := a.length_eq
    simp [h, P256_NDIGITS] at this)
  rwa [a.length_eq, pow_digits] at h

section Modinv

variable {m : P256Int} {a : Nat}

theorem halve_spec (hodd : m.value % 2 = 1) (r : P256Int) (hr : r.value < m.value) :
    (m.halve r).value < m.value ∧ 2 * (m.halve r).value ≡ r.value [MOD m.value] := by
  rw [halve]
  split
  case isTrue h =>
    have heven := r.isEven_iff.mp h
    rw [shr1_spec r 0 (by decide), UInt32.toNat_zero, mul_zero, add_zero]
    exact ⟨by omega, by rw [show 2 * (r.value / 2) = r.value by omega]⟩
  case isFalse h =>
    have hodd' : r.value % 2 = 1 := by
      have := mt r.isEven_iff.mpr h
      omega
    obtain ⟨hsum, hcarry⟩ := r.add_spec m
    rw [shr1_spec _ _ hcarry, hsum]
    refine ⟨by omega, ?_⟩
    rw [show 2 * ((r.value + m.value) / 2) = r.value + m.value by omega]
    exact add_modulus_modEq_iff.mpr rfl

theorem subMod_spec (s r : P256Int) (hs : s.value < m.value) (hr : r.value < m.value) :
    (m.subMod s r).value < m.value ∧ (m.subMod s r).value + r.value ≡ s.value [MOD m.value] := by
  have hm := m.value_lt
  have hlt := ((s.sub r).2.add m).2.value_lt
  have hdiff := (s.sub r).2.value_lt
  rw [subMod]
  obtain ⟨hb, hval⟩ | ⟨hb, hval⟩ := s.sub_spec r
  · rw [if_neg (by omega), hval]
    exact ⟨by omega, rfl⟩
  obtain ⟨hsum, hcarry⟩ := (s.sub r).2.add_spec m
  rw [if_pos (by omega)]
  have heq : ((s.sub r).2.add m).2.value + r.value = s.value + m.value := by omega
  rw [heq]
  exact ⟨by omega, add_modulus_modEq_iff.mpr rfl⟩

-- In every round both rows are multiples of `a`, and the numbers are coprime.
structure Rows (m : P256Int) (a : Nat) (R S U V : P256Int) : Prop where
  R_lt    : R.value < m.value
  S_lt    : S.value < m.value
  U_pos   : 0 < U.value
  V_pos   : 0 < V.value
  coprime : U.value.Coprime V.value
  U_eq    : a * R.value ≡ U.value [MOD m.value]
  V_eq    : a * S.value ≡ V.value [MOD m.value]

theorem halve_row (hodd : m.value % 2 = 1) {r u : P256Int} (hr : r.value < m.value)
    (heven : u.value % 2 = 0) (h : a * r.value ≡ u.value [MOD m.value]) :
    (u.shr1 0).value = u.value / 2 ∧ a * (m.halve r).value ≡ (u.shr1 0).value [MOD m.value] := by
  have hshr : (u.shr1 0).value = u.value / 2 := by
    rw [shr1_spec u 0 (by decide), UInt32.toNat_zero, mul_zero, add_zero]
  obtain ⟨-, hhalf⟩ := halve_spec hodd r hr
  refine ⟨hshr, ?_⟩
  rw [hshr]
  apply Nat.ModEq.cancel_left_of_coprime (c := 2)
  · exact coprime_two_right.mpr (odd_iff.mpr hodd)
  · rw [mul_left_comm, show 2 * (u.value / 2) = u.value by omega]
    exact (hhalf.mul_left a).trans h

theorem sub_row {r s u v w : P256Int} (hs : s.value < m.value) (hr : r.value < m.value)
    (hval : w.value + u.value = v.value) (hu : a * r.value ≡ u.value [MOD m.value])
    (hv : a * s.value ≡ v.value [MOD m.value]) :
    a * (m.subMod s r).value ≡ w.value [MOD m.value] := by
  obtain ⟨-, hsub⟩ := subMod_spec s r hs hr
  apply Nat.ModEq.add_right_cancel hu
  rw [hval, ← mul_add]
  exact (hsub.mul_left a).trans hv

theorem modinvLoop_spec {R S U V : P256Int} (hodd : m.value % 2 = 1) (hr : Rows m a R S U V)
    (fuel : Nat) (hf : U.value + V.value < fuel) :
    ∃ res, modinvLoop m fuel R S U V = some res ∧ res.value < m.value ∧
      a * res.value ≡ 1 [MOD m.value] := by
  induction fuel generalizing R S U V
  case zero => omega
  case succ fuel ih =>
    have hU := hr.U_pos
    have hV := hr.V_pos
    rw [modinvLoop]
    split
    case isTrue h =>
      obtain ⟨hshr, hrow⟩ := halve_row hodd hr.R_lt (U.isEven_iff.mp h) hr.U_eq
      have heven := U.isEven_iff.mp h
      refine ih ⟨(halve_spec hodd R hr.R_lt).1, hr.S_lt, by omega, hV, ?_, hrow, hr.V_eq⟩ (by omega)
      exact hr.coprime.coprime_dvd_left (by rw [hshr]; exact div_dvd_of_dvd (by omega))
    case isFalse hUodd =>
      split
      case isTrue h =>
        obtain ⟨hshr, hrow⟩ := halve_row hodd hr.S_lt (V.isEven_iff.mp h) hr.V_eq
        have heven := V.isEven_iff.mp h
        refine ih ⟨hr.R_lt, (halve_spec hodd S hr.S_lt).1, hU, by omega, ?_, hr.U_eq, hrow⟩ (by omega)
        exact hr.coprime.coprime_dvd_right (by rw [hshr]; exact div_dvd_of_dvd (by omega))
      case isFalse hVodd =>
        split
        case isTrue hge =>
          have hval : (V.sub U).2.value + U.value = V.value := by
            have := V.sub_spec U
            omega
          have hcop : U.value.Coprime (V.sub U).2.value := by
            have := hr.coprime
            rw [← hval] at this
            simpa using this
          simp only
          split
          case isTrue hz =>
            have hzero := (isZero_iff _).mp hz
            have hone : U.value = 1 := by simpa [hzero] using hcop
            exact ⟨R, rfl, hr.R_lt, by rw [← hone]; exact hr.U_eq⟩
          case isFalse hz =>
            have hpos : 0 < (V.sub U).2.value := pos_of_ne_zero (mt (isZero_iff _).mpr hz)
            exact ih ⟨hr.R_lt, (subMod_spec S R hr.S_lt hr.R_lt).1, hU, hpos, hcop, hr.U_eq,
              sub_row hr.S_lt hr.R_lt hval hr.U_eq hr.V_eq⟩ (by omega)
        case isFalse hlt =>
          have hval : (U.sub V).2.value + V.value = U.value ∧ V.value < U.value := by
            have h₁ := V.sub_spec U
            have h₂ := U.sub_spec V
            have h₃ := (V.sub U).2.value_lt
            have h₄ := (U.sub V).2.value_lt
            omega
          have hcop : (U.sub V).2.value.Coprime V.value := by
            have := hr.coprime
            rw [← hval.1] at this
            simpa using this
          exact ih ⟨(subMod_spec R S hr.R_lt hr.S_lt).1, hr.S_lt, by omega, hV, hcop,
            sub_row hr.R_lt hr.S_lt hval.1 hr.V_eq hr.U_eq, hr.V_eq⟩ (by omega)

theorem modinvVartime_spec (hm : m.Near) (hodd : m.value % 2 = 1) (a : P256Int)
    (hcop : m.value.Coprime a.value) (ha : 0 < a.value) :
    ∃ res, m.modinvVartime a = some res ∧ res.value < m.value ∧ a.value * res.value ≡ 1 [MOD m.value] := by
  have hmlt := m.value_lt
  have halt := a.value_lt
  rw [Near] at hm
  have hrows : Rows m a.value zero one m a :=
    ⟨by rw [value_zero]; omega, by rw [value_one]; omega, by omega, ha, hcop,
      by rw [value_zero]; simpa using (modEq_zero_iff_dvd.mpr (dvd_refl m.value)).symm,
      by rw [value_one, mul_one]⟩
  obtain ⟨res, hres, hlt, hinv⟩ := modinvLoop_spec hodd hrows (2 ^ 257) (by omega)
  refine ⟨m.mod res, by rw [modinvVartime, hres]; rfl, ?_, ?_⟩
  · rw [mod_spec _ _ (by omega)]
    exact mod_lt _ (by omega)
  · rw [mod_spec _ _ (by omega), mod_eq_of_lt hlt]
    exact hinv

end Modinv

end P256Int

end Mincrypt
