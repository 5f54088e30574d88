import Mathlib.FieldTheory.Finite.Basic
import Mathlib.NumberTheory.LucasPrimality
import Mathlib.Tactic

-- Primes with a certificate: some prime factors of the predecessor and a number of large order.

namespace Primality

open List

-- The power of a number, by squaring.
def powMod (n a : Nat) : (bits e : Nat) → Nat
  | 0, _ => 1 % n
  | bits + 1, e => powMod n a bits (e / 2) ^ 2 * (if e % 2 = 1 then a else 1) % n

theorem powMod_eq (n a : Nat) (bits : Nat) (h : e < 2 ^ bits) : powMod n a bits e = a ^ e % n := by
  induction bits generalizing e
  case zero =>
    obtain rfl : e = 0 := by simpa using h
    rw [powMod, pow_zero]
  case succ bits ih =>
    rw [powMod, ih (by rw [pow_succ] at h; omega), Nat.mul_mod, ← Nat.pow_mod, ← Nat.mul_mod, ← pow_mul]
    congr 1
    split
    case isTrue hodd => rw [← pow_succ, show e / 2 * 2 + 1 = e by omega]
    case isFalse heven => rw [mul_one, show e / 2 * 2 = e by omega]

theorem dvd_orderOf {G : Type} [Monoid G] {x : G} {q m : Nat} (hq : q.Prime) (hqm : q ∣ m)
    (hm : x ^ m = 1) (hne : x ^ (m / q) ≠ 1) : q ∣ orderOf x := by
  by_contra hndvd
  obtain ⟨k, hk⟩ := orderOf_dvd_of_pow_eq_one hm
  have hqk : q ∣ k := (hq.dvd_mul.mp (hk ▸ hqm)).resolve_left hndvd
  obtain ⟨j, rfl⟩ := hqk
  apply hne
  rw [hk, show orderOf x * (q * j) = q * (orderOf x * j) by ring, Nat.mul_div_cancel_left _ hq.pos, pow_mul,
    pow_orderOf_eq_one, one_pow]

theorem prod_dvd {qs : List Nat} (hprime : ∀ q ∈ qs, q.Prime) (hnodup : qs.Nodup)
    (hdvd : ∀ q ∈ qs, q ∣ m) : qs.prod ∣ m := by
  induction qs
  case nil => simp
  case cons q qs ih =>
    obtain ⟨hnot, hnodup⟩ := nodup_cons.mp hnodup
    have hq := hprime q mem_cons_self
    have hcop : q.Coprime qs.prod := by
      rw [Nat.coprime_list_prod_right_iff]
      intro p hp
      rw [Nat.coprime_primes hq (hprime p (mem_cons_of_mem _ hp))]
      rintro rfl
      exact hnot hp
    rw [prod_cons]
    exact hcop.mul_dvd_of_dvd_of_dvd (hdvd q mem_cons_self)
      (ih (fun p hp => hprime p (mem_cons_of_mem _ hp)) hnodup fun p hp => hdvd p (mem_cons_of_mem _ hp))

-- What has to be computed for a certificate.
structure Certificate (N bits a : Nat) (qs : List Nat) : Prop where
  one_lt : 1 < N
  le_pow : N ≤ 2 ^ bits
  dvd    : qs.prod ∣ N - 1
  large  : N < (qs.prod + 1) ^ 2
  full   : powMod N a bits (N - 1) = 1
  part   : ∀ q ∈ qs, (powMod N a bits ((N - 1) / q) + (N - 1)).Coprime N

instance : Decidable (Certificate N bits a qs) :=
  decidable_of_iff (1 < N ∧ N ≤ 2 ^ bits ∧ qs.prod ∣ N - 1 ∧ N < (qs.prod + 1) ^ 2 ∧
      powMod N a bits (N - 1) = 1 ∧ ∀ q ∈ qs, (powMod N a bits ((N - 1) / q) + (N - 1)).Coprime N)
    ⟨fun ⟨h₁, h₂, h₃, h₄, h₅, h₆⟩ => ⟨h₁, h₂, h₃, h₄, h₅, h₆⟩,
      fun ⟨h₁, h₂, h₃, h₄, h₅, h₆⟩ => ⟨h₁, h₂, h₃, h₄, h₅, h₆⟩⟩

theorem prime_of_certificate {N bits a : Nat} {qs : List Nat} (hprime : ∀ q ∈ qs, q.Prime)
    (hnodup : qs.Nodup) (h : Certificate N bits a qs) : N.Prime := by
  by_contra hN
  have hone := h.one_lt
  have hr := Nat.minFac_prime hone.ne'
  have hsq := Nat.minFac_sq_le_self (by omega) hN
  have hdvd := Nat.minFac_dvd N
  generalize N.minFac = r at hr hsq hdvd
  have : Fact r.Prime := ⟨hr⟩
  have hsize {k : Nat} (hk : k ≤ N - 1) : k < 2 ^ bits := by
    have := h.le_pow
    omega
  -- The residues modulo the divisor.
  have hcast (k : Nat) (hk : k ≤ N - 1) : ((powMod N a bits k : Nat) : ZMod r) = (a : ZMod r) ^ k := by
    rw [powMod_eq N a bits (hsize hk), ← Nat.cast_pow, ZMod.natCast_eq_natCast_iff]
    exact (Nat.mod_modEq _ _).of_dvd hdvd
  have hN0 : ((N : Nat) : ZMod r) = 0 := (ZMod.natCast_eq_zero_iff _ _).mpr hdvd
  have hfull : (a : ZMod r) ^ (N - 1) = 1 := by
    rw [← hcast _ (le_refl _), h.full, Nat.cast_one]
  have hpart : ∀ q ∈ qs, (a : ZMod r) ^ ((N - 1) / q) ≠ 1 := by
    intro q hq heq
    have hzero : ((powMod N a bits ((N - 1) / q) + (N - 1) : Nat) : ZMod r) = 0 := by
      rw [Nat.cast_add, hcast _ (Nat.div_le_self _ _), heq, Nat.cast_sub hone.le, hN0]
      simp
    have hr' := Nat.dvd_gcd ((ZMod.natCast_eq_zero_iff _ _).mp hzero) hdvd
    rw [h.part q hq] at hr'
    exact hr.one_lt.ne' (Nat.dvd_one.mp hr')
  have hne : (a : ZMod r) ≠ 0 := by
    intro h0
    rw [h0, zero_pow (by omega)] at hfull
    exact zero_ne_one hfull
  have hprod : qs.prod ∣ r - 1 := prod_dvd hprime hnodup fun q hq =>
    (dvd_orderOf (hprime q hq) ((dvd_prod hq).trans h.dvd) hfull (hpart q hq)).trans
      (ZMod.orderOf_dvd_card_sub_one hne)
  have hle := Nat.le_of_dvd (by have := hr.one_lt; omega) hprod
  have hlt : (qs.prod + 1) ^ 2 ≤ r ^ 2 := Nat.pow_le_pow_left (by have := hr.one_lt; omega) 2
  have := h.large
  omega

end Primality
