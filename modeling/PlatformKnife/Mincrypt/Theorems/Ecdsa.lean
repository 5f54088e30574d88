import PlatformKnife.Lib.P256Curve
import PlatformKnife.Mincrypt.Theorems.P256Arith

namespace Mincrypt

open CInt Digits P256 Function Option Nat P256Int

section Constants

theorem value_SECP256r1_p : SECP256r1_p.value = p := by
  decide

theorem value_SECP256r1_n : SECP256r1_n.value = n := by
  decide

theorem value_SECP256r1_b : SECP256r1_b.value = b := by
  decide

theorem near_p : SECP256r1_p.Near := by
  rw [P256Int.Near, value_SECP256r1_p]
  decide

theorem near_n : SECP256r1_n.Near := by
  rw [P256Int.Near, value_SECP256r1_n]
  decide

end Constants

section Modulus

-- The modulus of the coordinates, and the order of the group.
inductive Modulus
  | field
  | order

namespace Modulus

def int : Modulus → P256Int
  | field => SECP256r1_p
  | order => SECP256r1_n

variable (m : Modulus)

theorem near : m.int.Near := by
  cases m
  case field => exact near_p
  case order => exact near_n

theorem prime : m.int.value.Prime := by
  cases m
  case field => exact value_SECP256r1_p ▸ prime_p
  case order => exact value_SECP256r1_n ▸ prime_n

theorem odd : m.int.value % 2 = 1 := by
  cases m <;> decide

end Modulus

-- No assertion fails, and the product is reduced and stored, even in the place of a factor.
theorem modmulAt_stores (m : Modulus) (mem : Nat → P256Int) (a : Nat) (topB : UInt32) (b c : Nat) :
    ∃ mem', m.int.modmulAt mem a topB b c = some mem' ∧
      (mem' c).value = (mem a).value * (topB.toNat * 2 ^ 256 + (mem b).value) % m.int.value ∧
      (mem' c).value < m.int.value ∧ ∀ d ≠ c, mem' d = mem d := by
  obtain ⟨res, hres, hval⟩ := modmul_top m.near (mem a) topB (mem b)
  refine ⟨update mem c res, by rw [modmulAt, hres]; rfl, ?_, ?_, ?_⟩
  · rw [update_self, hval]
  · rw [update_self, hval]
    exact mod_lt _ m.prime.pos
  · exact fun d hd => update_of_ne hd ..

-- The call returns the inverse whenever there is one.
theorem modinvVartime_inverse_iff (m : Modulus) (a : P256Int) :
    (∃ res, m.int.modinvVartime a = some res ∧ res.value < m.int.value ∧
      a.value * res.value ≡ 1 [MOD m.int.value] ∧
      ∀ v < m.int.value, a.value * v ≡ 1 [MOD m.int.value] → v = res.value) ↔
    ¬m.int.value ∣ a.value := by
  have hprime := m.prime
  constructor
  case mp =>
    rintro ⟨res, -, -, hinv, -⟩ hdvd
    have hzero := modEq_zero_iff_dvd.mpr (hdvd.mul_right res.value)
    exact hprime.one_lt.ne' (dvd_one.mp ((modEq_zero_iff_dvd.mp (hinv.symm.trans hzero))))
  case mpr =>
    intro hdvd
    have hcop := (Nat.Prime.coprime_iff_not_dvd hprime).mpr hdvd
    have hpos : 0 < a.value := pos_of_ne_zero fun h0 => hdvd (h0 ▸ dvd_zero _)
    obtain ⟨res, hres, hlt, hinv⟩ := modinvVartime_spec m.near m.odd a hcop hpos
    refine ⟨res, hres, hlt, hinv, ?_⟩
    intro v hv hv'
    have heq : v ≡ res.value [MOD m.int.value] := .cancel_left_of_coprime hcop (hv'.trans hinv.symm)
    rwa [Nat.ModEq, mod_eq_of_lt hv, mod_eq_of_lt hlt] at heq

end Modulus

-- The keys that are accepted. The last condition is not meant: the right side of the equation is only
-- reduced if the last sum overflows.
structure Accepted (x y : Nat) : Prop where
  x_pos   : 0 < x
  x_lt    : x < p
  y_pos   : 0 < y
  y_lt    : y < p
  onCurve : OnCurve x y
  large   : 2 ^ 256 - p ≤ y ^ 2 % p

section Key

theorem subMod_three (hx : x.value < p) (hc : c.value = x.value ^ 3 % p) :
    (SECP256r1_p.subMod (SECP256r1_p.subMod (SECP256r1_p.subMod c x) x) x).value < p ∧
      (SECP256r1_p.subMod (SECP256r1_p.subMod (SECP256r1_p.subMod c x) x) x).value + 3 * x.value ≡
        x.value ^ 3 [MOD p] := by
  have hc' : c.value < p := hc ▸ mod_lt _ prime_p.pos
  rw [← value_SECP256r1_p] at hx hc' hc ⊢
  obtain ⟨h₁, e₁⟩ := subMod_spec c x hc' hx
  obtain ⟨h₂, e₂⟩ := subMod_spec _ x h₁ hx
  obtain ⟨h₃, e₃⟩ := subMod_spec _ x h₂ hx
  generalize SECP256r1_p.subMod c x = d₁ at *
  generalize SECP256r1_p.subMod d₁ x = d₂ at *
  generalize SECP256r1_p.subMod d₂ x = d₃ at *
  refine ⟨h₃, ?_⟩
  calc d₃.value + 3 * x.value
    _ = d₃.value + x.value + 2 * x.value := by ring
    _ ≡ d₂.value + 2 * x.value [MOD SECP256r1_p.value] := e₃.add_right _
    _ = d₂.value + x.value + x.value := by ring
    _ ≡ d₁.value + x.value [MOD SECP256r1_p.value] := e₂.add_right _
    _ ≡ c.value [MOD SECP256r1_p.value] := e₁
    _ ≡ x.value ^ 3 [MOD SECP256r1_p.value] := hc ▸ mod_modEq _ _

theorem sides_eq_iff (hy : y2 < p) (hr : r < p) (hc : carry ≤ 1)
    (hsum : x3 + 2 ^ 256 * carry = r + b) (hx : x3 < 2 ^ 256) :
    (y2 = if carry ≠ 0 then x3 + 2 ^ 256 - p else x3) ↔
      y2 = (r + b) % p ∧ 2 ^ 256 - p ≤ y2 := by
  have hpb : 2 ^ 256 - p ≤ b ∧ b < p ∧ p < 2 ^ 256 := by decide
  have hmod : (r + b) % p = if r + b < p then r + b else r + b - p := by
    split
    case isTrue h => exact mod_eq_of_lt h
    case isFalse h => rw [mod_eq_sub_mod (by omega), mod_eq_of_lt (by omega)]
  rw [hmod]
  split <;> split <;> omega

theorem isValidPoint_spec (x y : P256Int) :
    ∃ res, isValidPoint x y = some res ∧ (res ↔ Accepted x.value y.value) := by
  have hcmp (z : P256Int) : SECP256r1_p.cmp z ≤ 0 ↔ p ≤ z.value := by
    rw [← value_SECP256r1_p]
    have := SECP256r1_p.cmp_spec z
    omega
  rw [isValidPoint]
  split
  case isTrue h =>
    rw [hcmp, hcmp, isZero_iff, isZero_iff] at h
    refine ⟨false, rfl, by simp, fun hacc => ?_⟩
    have := hacc.x_pos
    have := hacc.x_lt
    have := hacc.y_pos
    have := hacc.y_lt
    omega
  case isFalse h =>
    rw [hcmp, hcmp, isZero_iff, isZero_iff] at h
    obtain ⟨y2, hy2, ey2⟩ := modmul_spec near_p y y
    obtain ⟨x2, hx2, ex2⟩ := modmul_spec near_p x x
    obtain ⟨x3, hx3, ex3⟩ := modmul_spec near_p x x2
    rw [value_SECP256r1_p] at ey2 ex2 ex3
    have hcube : x3.value = x.value ^ 3 % p := by
      rw [ex3, ex2, mul_mod_mod]
      congr 1
      ring
    obtain ⟨hr, er⟩ := subMod_three (by omega) hcube
    simp only [hy2, hx2, hx3, bind_eq_bind, bind_some, pure_def]
    generalize SECP256r1_p.subMod (SECP256r1_p.subMod (SECP256r1_p.subMod x3 x) x) x = r at *
    obtain ⟨hadd, hcarry⟩ := r.add_spec SECP256r1_b
    rw [value_SECP256r1_b] at hadd
    refine ⟨_, rfl, ?_⟩
    have hequal (z : P256Int) : y2.cmp z = 0 ↔ y2.value = z.value := by
      have := y2.cmp_spec z
      omega
    have hlt := (r.add SECP256r1_b).2.value_lt
    have hright : (if (r.add SECP256r1_b).1 ≠ 0 then ((r.add SECP256r1_b).2.sub SECP256r1_p).2
          else (r.add SECP256r1_b).2).value =
        if (r.add SECP256r1_b).1.toNat ≠ 0 then (r.add SECP256r1_b).2.value + 2 ^ 256 - p
        else (r.add SECP256r1_b).2.value := by
      have hne : (r.add SECP256r1_b).1 ≠ 0 ↔ (r.add SECP256r1_b).1.toNat ≠ 0 := by
        rw [ne_eq, ← UInt32.toNat_inj]
        rfl
      simp only [hne]
      split
      case isTrue h =>
        have hsub := (r.add SECP256r1_b).2.sub_spec SECP256r1_p
        rw [value_SECP256r1_p] at hsub
        have hpb : b < p ∧ p < 2 ^ 256 := by decide
        omega
      case isFalse h => rfl
    have hcurve : OnCurve x.value y.value ↔ y2.value = (r.value + b) % p := by
      rw [onCurve_iff, ey2, ← sq]
      constructor
      · intro he
        exact Nat.ModEq.add_right_cancel' (3 * x.value)
          (he.trans (by rw [add_right_comm]; exact (er.add_right b).symm))
      · intro he
        refine (Nat.ModEq.add_right (3 * x.value) he).trans ?_
        rw [add_right_comm]
        exact er.add_right b
    rw [decide_eq_true_eq, hequal, hright, sides_eq_iff (ey2 ▸ mod_lt _ prime_p.pos) hr hcarry hadd hlt,
      ← hcurve, ey2, ← sq]
    constructor
    · intro h
      exact ⟨by omega, by omega, by omega, by omega, h.left, h.right⟩
    · intro h
      exact ⟨h.onCurve, h.large⟩

-- The points that should be accepted.
structure ValidPoint (x y : Nat) : Prop where
  x_pos   : 0 < x
  x_lt    : x < p
  y_pos   : 0 < y
  y_lt    : y < p
  onCurve : y ^ 2 + 3 * x ≡ x ^ 3 + b [MOD p]

theorem accepted_iff : Accepted x y ↔ ValidPoint x y ∧ 2 ^ 256 - p ≤ y ^ 2 % p := by
  constructor
  case mp =>
    intro h
    exact ⟨⟨h.x_pos, h.x_lt, h.y_pos, h.y_lt, (onCurve_iff x y).mp h.onCurve⟩, h.large⟩
  case mpr =>
    rintro ⟨h, hlarge⟩
    exact ⟨h.x_pos, h.x_lt, h.y_pos, h.y_lt, (onCurve_iff x y).mpr h.onCurve, hlarge⟩

theorem isValidPoint_iff (x y : P256Int) :
    (∃ res, isValidPoint x y = some res ∧ (res = true ↔ ValidPoint x.value y.value)) ↔
      (ValidPoint x.value y.value → 2 ^ 256 - p ≤ y.value ^ 2 % p) := by
  obtain ⟨res, hres, hacc⟩ := isValidPoint_spec x y
  rw [accepted_iff] at hacc
  constructor
  case mp =>
    rintro ⟨res', hres', hvalid⟩ h
    obtain rfl := some.inj (hres.symm.trans hres')
    exact (hacc.mp (hvalid.mpr h)).right
  case mpr => exact fun h => ⟨res, hres, hacc.trans (and_iff_left_of_imp h)⟩

-- The point `(x, 5)`, with a right side of the equation that is not reduced.

def smallX : Nat := 0xd7325d7646cd60d80a92738ceb345f844cffaf35841022cab176f692de8de1d7

theorem onCurve_smallX : OnCurve smallX 5 := by
  decide +kernel

theorem not_isValidPoint_smallX :
    ValidPoint smallX 5 ∧ isValidPoint (.ofNat smallX) (.ofNat 5) = some false := by
  have hvalid : ValidPoint smallX 5 :=
    ⟨by decide, by decide, by decide, by decide, (onCurve_iff _ _).mp onCurve_smallX⟩
  obtain ⟨res, hres, hacc⟩ := isValidPoint_spec (.ofNat smallX) (.ofNat 5)
  rw [value_ofNat (by decide), value_ofNat (by decide)] at hacc
  refine ⟨hvalid, hres.trans (congrArg some ?_)⟩
  rw [← Bool.not_eq_true, hacc]
  exact fun h => absurd h.large (by decide)

end Key

-- What the function that multiplies points is taken to compute.
def Computes (pointsMul : PointsMul) : Prop :=
  ∀ (n₁ n₂ x y : P256Int) (h : OnCurve x.value y.value), n₁.value < n → n₂.value < n →
    0 < x.value → x.value < p → 0 < y.value → y.value < p →
    ((pointsMul n₁ n₂ x y).1.value, (pointsMul n₁ n₂ x y).2.value) =
      affine (n₁.value • G + n₂.value • point h)

-- The point that a signature is checked with has the coordinate `r` modulo the order.
def Matches (x y message r s : Nat) : Prop :=
  ∃ h : OnCurve x y, ∃ x₁ y₁ h₁,
    (message / s : ZMod n).val • G + (r / s : ZMod n).val • point h = .some x₁ y₁ h₁ ∧
      x₁.val ≡ r [MOD n]

structure Genuine (x y message r s : Nat) : Prop where
  x_pos   : 0 < x
  x_lt    : x < p
  y_pos   : 0 < y
  y_lt    : y < p
  r_pos   : 1 ≤ r
  r_lt    : r < n
  s_pos   : 1 ≤ s
  s_lt    : s < n
  agrees  : Matches x y message r s

section Verify

theorem mod_isZero (c : P256Int) : (SECP256r1_n.mod c).isZero ↔ c.value % n = 0 := by
  rw [isZero_iff, mod_spec _ _ (by rw [value_SECP256r1_n]; decide), value_SECP256r1_n]

theorem val_div {m s v : Nat} (h : s * v ≡ 1 [MOD n]) : (m / s : ZMod n).val = m * v % n := by
  have hinv : (s : ZMod n) * v = 1 := by
    have := (ZMod.natCast_eq_natCast_iff _ _ _).mpr h
    simpa using this
  rw [div_eq_mul_inv, inv_eq_of_mul_eq_one_right hinv, ← cast_mul, ZMod.val_natCast]

theorem affine_mod_eq_iff {r : Nat} (P : curve.Point) (hr : r % n ≠ 0) :
    r = (affine P).1 % n ↔ 1 ≤ r ∧ r < n ∧ ∃ x₁ y₁ h₁, P = .some x₁ y₁ h₁ ∧ x₁.val ≡ r [MOD n] := by
  constructor
  · intro h
    have hlt : r < n := h ▸ mod_lt _ prime_n.pos
    have hpos : 1 ≤ r := one_le_iff_ne_zero.mpr fun h0 => hr (by rw [h0, zero_mod])
    refine ⟨hpos, hlt, ?_⟩
    cases P
    case zero => exact absurd h (by simp [affine]; omega)
    case some x₁ y₁ h₁ => exact ⟨x₁, y₁, h₁, rfl, by rw [h]; exact (mod_modEq _ _).symm⟩
  · rintro ⟨-, hlt, x₁, y₁, h₁, rfl, hmod⟩
    rw [← mod_eq_of_lt hlt]
    exact hmod.symm

theorem ecdsaVerify_spec (hc : Computes pointsMul) (keyX keyY message r s : P256Int) :
    ∃ res, ecdsaVerify pointsMul keyX keyY message r s = some res ∧
      (res = 1 ↔ Accepted keyX.value keyY.value ∧ (1 ≤ r.value ∧ r.value < n) ∧ s.value % n ≠ 0 ∧
        Matches keyX.value keyY.value message.value r.value s.value) := by
  obtain ⟨valid, hvalid, hiff⟩ := isValidPoint_spec keyX keyY
  rw [ecdsaVerify, hvalid]
  simp only [bind_eq_bind, bind_some]
  cases valid
  case false => exact ⟨0, rfl, by simp, fun h => absurd (hiff.mpr h.1) (by simp)⟩
  case true =>
    have hacc := hiff.mp rfl
    by_cases hzero : r.value % n = 0 ∨ s.value % n = 0
    · refine ⟨0, ?_, by simp, fun h => ?_⟩
      · rw [← mod_isZero, ← mod_isZero] at hzero
        simp [hzero]
      · obtain ⟨-, ⟨h₁, h₂⟩, h₃, -⟩ := h
        rw [mod_eq_of_lt h₂] at hzero
        omega
    obtain ⟨hr, hs⟩ := not_or.mp hzero
    have hcop : SECP256r1_n.value.Coprime s.value := by
      rw [value_SECP256r1_n, prime_n.coprime_iff_not_dvd]
      exact fun hdvd => hs (mod_eq_zero_of_dvd hdvd)
    have hpos : 0 < s.value := pos_of_ne_zero fun h0 => hs (by rw [h0, zero_mod])
    obtain ⟨v, hv, -, hinv⟩ := modinvVartime_spec near_n (by rw [value_SECP256r1_n]; decide) s hcop hpos
    obtain ⟨u, hu, eu⟩ := modmul_spec near_n message v
    obtain ⟨w, hw, ew⟩ := modmul_spec near_n r v
    rw [value_SECP256r1_n] at hinv eu ew
    have hmul := hc u w keyX keyY hacc.onCurve (eu ▸ mod_lt _ prime_n.pos)
      (ew ▸ mod_lt _ prime_n.pos) hacc.x_pos hacc.x_lt hacc.y_pos hacc.y_lt
    have hcoord : (pointsMul u w keyX keyY).1.value = _ := congrArg Prod.fst hmul
    rw [eu, ew, ← val_div hinv, ← val_div hinv] at hcoord
    have hmod : (SECP256r1_n.mod (pointsMul u w keyX keyY).1).value =
        (pointsMul u w keyX keyY).1.value % n := by
      rw [mod_spec _ _ (by rw [value_SECP256r1_n]; decide), value_SECP256r1_n]
    have hequal (z : P256Int) : r.cmp z = 0 ↔ r.value = z.value := by
      have := r.cmp_spec z
      omega
    have hnot : ((SECP256r1_n.mod r).isZero || (SECP256r1_n.mod s).isZero) = false := by
      rw [← Bool.not_eq_true, Bool.or_eq_true, mod_isZero, mod_isZero]
      exact hzero
    simp only [hnot, hv, hu, hw, bind_some, pure_def, Bool.not_true, Bool.false_eq_true, if_false]
    refine ⟨_, rfl, ?_⟩
    have hone : ((if r.cmp (SECP256r1_n.mod (pointsMul u w keyX keyY).1) = 0 then 1 else 0) = 1) ↔
        r.value = (pointsMul u w keyX keyY).1.value % n := by
      rw [← hmod, ← hequal, ite_eq_left_iff]
      simp only [zero_ne_one, imp_false, not_not]
    rw [hone, hcoord, affine_mod_eq_iff _ hr]
    constructor
    · rintro ⟨h₁, h₂, h₃⟩
      exact ⟨hacc, ⟨h₁, h₂⟩, hs, hacc.onCurve, h₃⟩
    · rintro ⟨-, ⟨h₁, h₂⟩, -, _, h⟩
      exact ⟨h₁, h₂, h⟩

-- What has to hold: the function returns, and it returns 1 for the genuine signatures only.
def Correct (pointsMul : PointsMul) (keyX keyY message r s : P256Int) : Prop :=
  ∃ res, ecdsaVerify pointsMul keyX keyY message r s = some res ∧
    (res = 1 ↔ Genuine keyX.value keyY.value message.value r.value s.value)

theorem correct_iff_genuine (hc : Computes pointsMul) (keyX keyY message r s : P256Int) :
    Correct pointsMul keyX keyY message r s ↔
      (Accepted keyX.value keyY.value ∧ (1 ≤ r.value ∧ r.value < n) ∧ s.value % n ≠ 0 ∧
          Matches keyX.value keyY.value message.value r.value s.value ↔
        Genuine keyX.value keyY.value message.value r.value s.value) := by
  obtain ⟨res, hres, hiff⟩ := ecdsaVerify_spec hc keyX keyY message r s
  rw [Correct, hres, ← hiff]
  simp only [some.injEq, exists_eq_left']

-- A valid key and a signature that agrees modulo the order.
def Agrees (x y message r s : Nat) : Prop :=
  (0 < x ∧ x < p) ∧ (0 < y ∧ y < p) ∧ (1 ≤ r ∧ r < n) ∧ s % n ≠ 0 ∧ Matches x y message r s

-- A multiplication of points that is exact.
noncomputable def exactPointsMul : PointsMul :=
  fun n₁ n₂ x y =>
    if h : OnCurve x.value y.value then
      let P := affine (n₁.value • G + n₂.value • point h)
      (.ofNat P.1, .ofNat P.2)
    else
      (.zero, .zero)

theorem computes_exactPointsMul : Computes exactPointsMul := by
  intro n₁ n₂ x y h _ _ _ _ _ _
  have hlt := affine_lt (n₁.value • G + n₂.value • point h)
  have hp : p < 2 ^ 256 := by decide
  simp only [exactPointsMul, dif_pos h]
  rw [value_ofNat (hlt.1.trans hp), value_ofNat (hlt.2.trans hp)]

theorem matches_self (h : OnCurve x y) (hx : x < p) (hs : x ≡ s [MOD n])
    (hn : ¬ s ≡ 0 [MOD n]) : Matches x y 0 x s := by
  have hxs : (x : ZMod n) = s := (ZMod.natCast_eq_natCast_iff _ _ _).mpr hs
  have hs0 : (s : ZMod n) ≠ 0 := fun h0 => hn ((ZMod.natCast_eq_natCast_iff _ _ _).mp (by rw [h0, cast_zero]))
  have hone : (1 : ZMod n).val = 1 := ZMod.val_one _
  refine ⟨h, x, y, (nonsingular_iff _ _).mpr h, ?_, ?_⟩
  · rw [hxs, div_self hs0, hone, cast_zero, zero_div, ZMod.val_zero, zero_nsmul, zero_add, one_nsmul]
    rfl
  · rw [ZMod.val_natCast, mod_eq_of_lt hx]

theorem correct_iff {pointsMul : PointsMul} (hc : Computes pointsMul) (keyX keyY message r s : P256Int) :
    Correct pointsMul keyX keyY message r s ↔
      (Agrees keyX.value keyY.value message.value r.value s.value →
        (s.value < n ↔ 2 ^ 256 - p ≤ keyY.value ^ 2 % p)) := by
  rw [correct_iff_genuine hc]
  constructor
  · rintro h ⟨⟨h₁, h₂⟩, ⟨h₃, h₄⟩, hr, hs, hm⟩
    constructor
    · intro hlt
      have hpos : 1 ≤ s.value := one_le_iff_ne_zero.mpr fun h0 => hs (by rw [h0, zero_mod])
      exact (h.mpr ⟨h₁, h₂, h₃, h₄, hr.1, hr.2, hpos, hlt, hm⟩).1.large
    · intro hlarge
      exact (h.mp ⟨⟨h₁, h₂, h₃, h₄, hm.1, hlarge⟩, hr, hs, hm⟩).s_lt
  · intro h
    constructor
    · rintro ⟨hacc, hr, hs, hm⟩
      have hpos : 1 ≤ s.value := one_le_iff_ne_zero.mpr fun h0 => hs (by rw [h0, zero_mod])
      exact ⟨hacc.x_pos, hacc.x_lt, hacc.y_pos, hacc.y_lt, hr.1, hr.2, hpos,
        (h ⟨⟨hacc.x_pos, hacc.x_lt⟩, ⟨hacc.y_pos, hacc.y_lt⟩, hr, hs, hm⟩).mpr hacc.large, hm⟩
    · intro hg
      have hs : s.value % n ≠ 0 := by
        have := hg.s_pos
        rw [mod_eq_of_lt hg.s_lt]
        omega
      have hlarge := (h ⟨⟨hg.x_pos, hg.x_lt⟩, ⟨hg.y_pos, hg.y_lt⟩, ⟨hg.r_pos, hg.r_lt⟩, hs, hg.agrees⟩).mp
        hg.s_lt
      exact ⟨⟨hg.x_pos, hg.x_lt, hg.y_pos, hg.y_lt, hg.agrees.1, hlarge⟩, ⟨hg.r_pos, hg.r_lt⟩, hs,
        hg.agrees⟩

-- A signature with the key `(5, y)` on the message 0.

def fiveY : Nat := 0x459243b9aa581806fe913bce99817ade11ca503c64d9a3c533415c083248fbcc

theorem onCurve_five : OnCurve 5 fiveY := by
  decide +kernel

theorem correct_five :
    Agrees 5 fiveY 0 5 5 ∧
      Correct exactPointsMul (.ofNat 5) (.ofNat fiveY) (.ofNat 0) (.ofNat 5) (.ofNat 5) := by
  have hm : Matches 5 fiveY 0 5 5 := matches_self onCurve_five (by decide) rfl (by decide)
  refine ⟨⟨by decide, by decide, by decide, by decide, hm⟩, ?_⟩
  refine (correct_iff computes_exactPointsMul _ _ _ _ _).mpr fun _ => ?_
  decide +kernel

theorem not_correct_unreduced :
    ¬ Correct exactPointsMul (.ofNat 5) (.ofNat fiveY) (.ofNat 0) (.ofNat 5) (.ofNat (n + 5)) ∧
      ¬ Correct exactPointsMul (.ofNat smallX) (.ofNat 5) (.ofNat 0) (.ofNat smallX) (.ofNat smallX) := by
  have h₁ : Matches 5 fiveY 0 5 (n + 5) := matches_self onCurve_five (by decide) (by decide) (by decide)
  have h₂ : Matches smallX 5 0 smallX smallX := matches_self onCurve_smallX (by decide) rfl (by decide)
  simp only [correct_iff_genuine computes_exactPointsMul, value_ofNat (show 0 < 2 ^ 256 by decide),
    value_ofNat (show 5 < 2 ^ 256 by decide), value_ofNat (show fiveY < 2 ^ 256 by decide),
    value_ofNat (show n + 5 < 2 ^ 256 by decide), value_ofNat (show smallX < 2 ^ 256 by decide)]
  constructor
  · -- an accepted signature with `s` above the order
    intro h
    have hacc : Accepted 5 fiveY := ⟨by decide, by decide, by decide, by decide, onCurve_five, by decide⟩
    exact absurd (h.mp ⟨hacc, by decide, by decide, h₁⟩).s_lt (by decide)
  · -- a genuine signature that is refused
    intro h
    have hg : Genuine smallX 5 0 smallX smallX :=
      ⟨by decide, by decide, by decide, by decide, by decide, by decide, by decide, by decide, h₂⟩
    exact absurd (h.mpr hg).1.large (by decide)

end Verify

end Mincrypt
