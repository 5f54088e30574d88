import Mathlib.Tactic

-- Words as sets of bits.
namespace BitMask

open BitVec Bool

variable {w : Nat} {m n k : BitVec w}

-- All bits of `m` are in `n`.
def Within (m n : BitVec w) : Prop :=
  m &&& n = m

instance : Decidable (Within m n) :=
  inferInstanceAs (Decidable (m &&& n = m))

theorem within_iff : Within m n ↔ ∀ i, m.getLsbD i = true → n.getLsbD i = true := by
  constructor
  case mp =>
    intro h i hi
    rw [← h, getLsbD_and, and_eq_true] at hi
    exact hi.right
  case mpr =>
    intro h
    refine eq_of_getLsbD_eq fun i _ => ?_
    rw [getLsbD_and]
    cases hm : m.getLsbD i
    case false => rfl
    case true  => rw [h i hm, Bool.and_self]

theorem Within.eq_zero (h : Within m 0#w) : m = 0#w := by
  rw [← h, and_zero]

theorem Within.trans (h : Within m n) (h' : Within n k) : Within m k :=
  within_iff.mpr fun i hi => within_iff.mp h' i (within_iff.mp h i hi)

theorem zero_within (n : BitVec w) : Within 0#w n :=
  zero_and

theorem within_and (h : Within m n) (h' : Within m k) : Within m (n &&& k) :=
  within_iff.mpr fun i hi => by
    rw [BitVec.getLsbD_and, within_iff.mp h i hi, within_iff.mp h' i hi, Bool.and_self]

theorem and_within_left (m n : BitVec w) : Within (m &&& n) m :=
  within_iff.mpr fun i hi => by
    rw [getLsbD_and, and_eq_true] at hi
    exact hi.left

theorem and_within_right (m n : BitVec w) : Within (m &&& n) n :=
  within_iff.mpr fun i hi => by
    rw [getLsbD_and, and_eq_true] at hi
    exact hi.right

theorem or_within (h : Within m k) (h' : Within n k) : Within (m ||| n) k :=
  within_iff.mpr fun i hi => by
    rw [getLsbD_or, or_eq_true] at hi
    exact hi.elim (within_iff.mp h i) (within_iff.mp h' i)

theorem within_or_left (m n : BitVec w) : Within m (m ||| n) :=
  within_iff.mpr fun i hi => by rw [BitVec.getLsbD_or, hi, Bool.true_or]

theorem within_or_right (m n : BitVec w) : Within n (m ||| n) :=
  within_iff.mpr fun i hi => by rw [BitVec.getLsbD_or, hi, Bool.or_true]

theorem and_twoPow_ne_zero_iff (h : i < w) : m &&& twoPow w i ≠ 0#w ↔ m.getLsbD i = true := by
  rw [and_twoPow]
  cases m.getLsbD i
  case false => simp
  case true  =>
    simp only [if_true, ne_eq, iff_true]
    intro h0
    have hbit := congrArg (fun b => b.getLsbD i) h0
    simp [h] at hbit

theorem replace_and (h : Within n k) : ((m &&& ~~~k) ||| n) &&& k = n := by
  refine eq_of_getLsbD_eq fun i hi => ?_
  have hn := within_iff.mp h i
  simp only [BitVec.getLsbD_and, BitVec.getLsbD_or, BitVec.getLsbD_not, hi, decide_true, Bool.true_and]
  cases hk : k.getLsbD i <;> cases hm : n.getLsbD i <;> simp_all

theorem replace_getLsbD (h : Within n k) (hk : k.getLsbD i = false) :
    ((m &&& ~~~k) ||| n).getLsbD i = m.getLsbD i := by
  have hn : n.getLsbD i = false := by
    cases hn : n.getLsbD i
    case false => rfl
    case true  => rw [within_iff.mp h i hn] at hk; cases hk
  by_cases hi : i < w
  case pos => simp only [getLsbD_or, getLsbD_and, getLsbD_not, hi, hk, hn]; simp
  case neg => simp [getLsbD_of_ge _ _ (by omega : w ≤ i)]

end BitMask
