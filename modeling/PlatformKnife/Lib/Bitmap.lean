import Mathlib.Tactic

-- Sets of small numbers, as the bits of consecutive bytes, the lowest bit first.
namespace Bitmap

open BitVec List

variable {bm : List (BitVec 8)} {i k : Nat}

section

variable (bm : List (BitVec 8)) (k : Nat)

def bit : Bool :=
  (bm.getD (k / 8) 0).getLsbD (k % 8)

def setBit : List (BitVec 8) :=
  bm.modify (k / 8) (· ||| 1#8 <<< (k % 8))

def setByte : List (BitVec 8) :=
  bm.set (k / 8) 0xFF#8

def clearBit : List (BitVec 8) :=
  bm.modify (k / 8) (· &&& ~~~(1#8 <<< (k % 8)))

end

-- Sets the bits from `k` on, one after the other.
def setRange (bm : List (BitVec 8)) : Nat → Nat → List (BitVec 8)
  | _, 0 => bm
  | k, n + 1 => setRange (setBit bm k) (k + 1) n

@[simp]
theorem setBit_length : (setBit bm k).length = bm.length := by
  simp [setBit]

@[simp]
theorem setByte_length : (setByte bm k).length = bm.length := by
  simp [setByte]

@[simp]
theorem clearBit_length : (clearBit bm k).length = bm.length := by
  simp [clearBit]

theorem one_shiftLeft_getLsbD (hi : i < 8) : (1#8 <<< j).getLsbD i = decide (i = j) := by
  rw [getLsbD_shiftLeft, getLsbD_one, Bool.eq_iff_iff]
  simp only [Bool.and_eq_true, Bool.not_eq_true', decide_eq_true_eq, decide_eq_false_iff_not]
  omega

theorem bit_modify (h : k / 8 < bm.length) :
    bit (bm.modify (k / 8) f) i
      = if i / 8 = k / 8 then (f (bm.getD (k / 8) 0)).getLsbD (i % 8) else bit bm i := by
  by_cases hi : i / 8 = k / 8
  case pos => simp [bit, hi, getD_eq_getElem?_getD, h]
  case neg => simp [bit, hi, getD_eq_getElem?_getD, Ne.symm hi]

theorem eq_iff_div_mod : i = k ↔ i / 8 = k / 8 ∧ i % 8 = k % 8 := by
  omega

theorem bit_setBit (h : k / 8 < bm.length) : bit (setBit bm k) i = (bit bm i || decide (i = k)) := by
  rw [setBit, bit_modify h]
  split
  case isTrue hi =>
    have hm : i % 8 < 8 := Nat.mod_lt _ (by decide)
    simp [getLsbD_or, one_shiftLeft_getLsbD hm, bit, hi, eq_iff_div_mod (i := i)]
  case isFalse hi =>
    simp [eq_iff_div_mod (i := i), hi]

theorem bit_clearBit (h : k / 8 < bm.length) : bit (clearBit bm k) i = (bit bm i && !decide (i = k)) := by
  rw [clearBit, bit_modify h]
  split
  case isTrue hi =>
    have hm : i % 8 < 8 := Nat.mod_lt _ (by decide)
    rw [getLsbD_and, getLsbD_not, one_shiftLeft_getLsbD hm]
    simp [bit, hi, hm, eq_iff_div_mod (i := i)]
  case isFalse hi =>
    simp [eq_iff_div_mod (i := i), hi]

theorem bit_setByte (h : k / 8 < bm.length) (hk : k % 8 = 0) :
    bit (setByte bm k) i = (bit bm i || decide (k ≤ i ∧ i < k + 8)) := by
  by_cases hi : i / 8 = k / 8
  case neg =>
    have hr : ¬(k ≤ i ∧ i < k + 8) := by omega
    simp [bit, setByte, getD_eq_getElem?_getD, Ne.symm hi, hr]
  have hm : i % 8 < 8 := Nat.mod_lt _ (by decide)
  have hr : k ≤ i ∧ i < k + 8 := by omega
  have hff : ∀ j < 8, (0xFF#8).getLsbD j = true := by decide
  simp [bit, setByte, hi, getD_eq_getElem?_getD, h, hr, hff _ hm]

theorem ext_bit (hl : bm.length = bm'.length)
    (h : ∀ i < 8 * bm.length, bit bm i = bit bm' i) : bm = bm' := by
  apply ext_getElem hl
  intro k h₁ h₂
  apply eq_of_getLsbD_eq
  intro i hi
  have hd : (8 * k + i) / 8 = k ∧ (8 * k + i) % 8 = i := by omega
  simpa [bit, hd, h₁, h₂] using h (8 * k + i) (by omega)

@[simp]
theorem setRange_length : (setRange bm k n).length = bm.length := by
  induction n generalizing bm k
  case zero => rfl
  case succ n ih => simp [setRange, ih]

theorem bit_setRange (h : k + n ≤ 8 * bm.length) :
    bit (setRange bm k n) i = (bit bm i || decide (k ≤ i ∧ i < k + n)) := by
  induction n generalizing bm k
  case zero => simp [setRange]
  case succ n ih =>
    have hk : k / 8 < bm.length := by omega
    have hr : k ≤ i ∧ i < k + (n + 1) ↔ i = k ∨ (k + 1 ≤ i ∧ i < k + 1 + n) := by omega
    rw [setRange, ih (by simp; omega), bit_setBit hk]
    simp only [hr, Bool.decide_or, Bool.or_assoc]

theorem setRange_add : setRange bm k (m + n) = setRange (setRange bm k m) (k + m) n := by
  induction m generalizing bm k
  case zero => simp [setRange]
  case succ m ih =>
    rw [show m + 1 + n = m + n + 1 by omega, setRange, ih, setRange, show k + 1 + m = k + (m + 1) by omega]

theorem setByte_eq_setRange (h : k / 8 < bm.length) (hk : k % 8 = 0) : setByte bm k = setRange bm k 8 := by
  apply ext_bit (by simp)
  intro i _
  rw [bit_setByte h hk, bit_setRange (by omega)]

theorem bit_replicate_zero : bit (replicate n 0#8) i = false := by
  simp only [bit, getD_eq_getElem?_getD, getElem?_replicate]
  split <;> simp

theorem getD_eq_zero_iff : bm.getD k 0 = 0#8 ↔ ∀ i < 8, bit bm (8 * k + i) = false := by
  have hd (i) (hi : i < 8) : (8 * k + i) / 8 = k ∧ (8 * k + i) % 8 = i := by omega
  constructor
  case mp =>
    intro h i hi
    simp only [bit, hd i hi, h]
    simp
  case mpr =>
    intro h
    apply eq_of_getLsbD_eq
    intro i hi
    have := h i hi
    simp only [bit, hd i hi] at this
    rw [this, getLsbD_zero]

end Bitmap
