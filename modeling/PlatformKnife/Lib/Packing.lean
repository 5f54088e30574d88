import Mathlib.Tactic

-- Records that follow each other in blocks of `b` bytes, none across the end of a block.
namespace Packing

open Nat List

-- Where a record of `n` bytes goes when the bytes before `pos` are taken.
def place (b pos n : Nat) : Nat :=
  if b < pos % b + n then pos + (b - pos % b) else pos

-- The end of the last record, when each goes to the first place behind the one before.
def packed (b : Nat) : Nat → List Nat → Nat
  | pos, [] => pos
  | pos, n :: ns => packed b (place b pos n + n) ns

-- Records, given by start and length, that take up the bytes from `lo` to `hi`.
def Tiles (b : Nat) : Nat → List (Nat × Nat) → Nat → Prop
  | lo, [], hi => lo = hi
  | lo, r :: rs, hi => r.fst = lo ∧ lo % b + r.snd ≤ b ∧ Tiles b (lo + r.snd) rs hi

section Place

theorem le_place (b pos n : Nat) : pos ≤ place b pos n := by
  rw [place]
  split <;> omega

theorem place_of_fits (h : pos % b + n ≤ b) : place b pos n = pos :=
  if_neg (not_lt.mpr h)

theorem place_of_not_fits (hb : 0 < b) (h : b < pos % b + n) : place b pos n = (pos / b + 1) * b := by
  have hm := mod_lt pos hb
  have hd := div_add_mod pos b
  rw [place, if_pos h, add_mul, mul_comm]
  omega

theorem place_mod_add_le (hb : 0 < b) (hn : n ≤ b) : place b pos n % b + n ≤ b := by
  by_cases h : b < pos % b + n
  case pos => simpa [place_of_not_fits hb h] using hn
  case neg => rwa [place_of_fits (not_lt.mp h), ← not_lt]

theorem place_le (hb : 0 < b) (h : pos ≤ q) (hq : q % b + n ≤ b) : place b pos n ≤ q := by
  by_cases hf : b < pos % b + n
  case neg => rwa [place_of_fits (not_lt.mp hf)]
  rw [place_of_not_fits hb hf]
  by_contra hc
  have hp := div_add_mod pos b
  have hd : q / b = pos / b := by
    apply le_antisymm
    · exact le_of_lt_succ ((Nat.div_lt_iff_lt_mul hb).mpr (not_le.mp hc))
    · exact Nat.div_le_div_right h
  have hq' := div_add_mod q b
  rw [hd] at hq'
  omega

theorem within_iff (hb : 0 < b) (hn : 0 < n) : pos / b = (pos + n - 1) / b ↔ pos % b + n ≤ b := by
  have hp := div_add_mod pos b
  have hm := mod_lt pos hb
  rw [eq_comm, Nat.div_eq_iff hb, mul_comm (pos / b) b]
  omega

end Place

theorem le_packed (b : Nat) : (pos : Nat) → (ns : List Nat) → pos + ns.sum ≤ packed b pos ns
  | _, [] => Nat.le_refl _
  | pos, n :: ns => by
    have hi := le_packed b (place b pos n + n) ns
    have hp := le_place b pos n
    rw [packed, sum_cons]
    omega

namespace Tiles

theorem le (h : Tiles b lo rs hi) : lo ≤ hi := by
  induction rs generalizing lo
  case nil => exact h ▸ le_refl _
  case cons r rs hr =>
    have := hr h.2.2
    omega

theorem append (h₁ : Tiles b lo rs mid) (h₂ : Tiles b mid rs' hi) : Tiles b lo (rs ++ rs') hi := by
  induction rs generalizing lo
  case nil => rwa [show lo = mid from h₁]
  case cons r rs hr => exact ⟨h₁.1, h₁.2.1, hr h₁.2.2⟩

theorem singleton (h : lo % b + n ≤ b) : Tiles b lo [(lo, n)] (lo + n) :=
  ⟨rfl, h, rfl⟩

theorem fits_of_mem (h : Tiles b lo rs hi) (hr : r ∈ rs) : r.fst % b + r.snd ≤ b := by
  induction rs generalizing lo
  case nil => cases hr
  case cons r' rs hi =>
    cases hr
    case head => exact h.1 ▸ h.2.1
    case tail hr => exact hi h.2.2 hr

theorem packed_le (hb : 0 < b) (h : Tiles b q rs hi) (hn : List.Forall₂ (fun n r => n ≤ r.snd) ns rs)
    (hq : pos ≤ q) : packed b pos ns ≤ hi := by
  induction hn generalizing pos q
  case nil => exact h ▸ hq
  case cons n r ns rs hr _ hi =>
    have hp : place b pos n ≤ q := place_le hb hq (by have := h.2.1; omega)
    exact hi h.2.2 (by omega)

theorem sum_block (hb : 0 < b) (h : Tiles b lo rs hi) (k : Nat) :
    ((rs.filter fun r => r.fst / b = k).map Prod.snd).sum = min hi (k * b + b) - max lo (k * b) := by
  induction rs generalizing lo
  case nil =>
    rw [show lo = hi from h]
    simp only [filter_nil, map_nil, sum_nil]
    omega
  case cons r rs hr =>
    obtain ⟨hs, hw, ht⟩ := h
    have hle := ht.le
    have hd := div_add_mod lo b
    have hm := mod_lt lo hb
    rw [filter_cons, hs]
    rcases lt_trichotomy (lo / b) k with hk | hk | hk
    · have hkb : b * (lo / b) + b ≤ k * b := by
        rw [← mul_succ, mul_comm]
        exact Nat.mul_le_mul_right b hk
      simp only [hk.ne, decide_false, Bool.false_eq_true, if_false, hr ht]
      omega
    · rw [hk, mul_comm] at hd
      simp only [hk, decide_true, if_true, map_cons, sum_cons, hr ht]
      omega
    · have hkb : k * b + b ≤ b * (lo / b) := by
        rw [← succ_mul, mul_comm b]
        exact Nat.mul_le_mul_right b hk
      simp only [hk.ne', decide_false, Bool.false_eq_true, if_false, hr ht]
      omega

end Tiles

end Packing
