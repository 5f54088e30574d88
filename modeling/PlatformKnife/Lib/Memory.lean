import PlatformKnife.Lib.Bytes

-- A block of memory as the bytes at its offsets, and the words it is made of.
namespace Memory

open Bytes

abbrev Block := Nat → UInt8

variable {m : Block} {p i j v : Nat}

-- `memset(m + off, 0, n)`
def zero (m : Block) (off n : Nat) : Block := fun k =>
  if off ≤ k ∧ k < off + n then 0 else m k

-- The block which `realloc` makes of the first `n` bytes and of the bytes `fresh`.
def realloc (m fresh : Block) (n : Nat) : Block := fun k =>
  if k < n then m k else fresh k

-- The word with index `i`, of `p` bytes.
def word (p : Nat) (m : Block) (i : Nat) : Nat :=
  fromLe (ofPtr (fun k => m (p * i + k)) p)

def setWord (p : Nat) (m : Block) (i v : Nat) : Block := fun k =>
  if p * i ≤ k ∧ k < p * (i + 1) then (le p v).getD (k - p * i) 0 else m k

theorem word_congr (h : ∀ k < p, m (p * i + k) = m' (p * i + k)) : word p m i = word p m' i :=
  congrArg fromLe (ofPtr_congr h)

theorem word_setWord (h : v < 256 ^ p) : word p (setWord p m i v) i = v := by
  have hbytes : ofPtr (fun k => setWord p m i v (p * i + k)) p = le p v := by
    rw [← ofPtr_toPtr (le p v), le_length]
    refine ofPtr_congr fun k hk => ?_
    have hin : p * i ≤ p * i + k ∧ p * i + k < p * (i + 1) := by
      rw [Nat.mul_succ]
      omega
    simp only [setWord, hin, and_self, if_true, Nat.add_sub_cancel_left, toPtr]
  rw [word, hbytes, fromLe_le_of_lt h]

theorem word_setWord_of_ne (h : i ≠ j) : word p (setWord p m j v) i = word p m i := by
  refine word_congr fun k hk => ?_
  refine if_neg fun hin => h ?_
  have hle : j ≤ i := by
    by_contra hlt
    have := Nat.mul_le_mul_left p (show i + 1 ≤ j by omega)
    rw [Nat.mul_succ] at this
    omega
  have hge : i ≤ j := by
    by_contra hlt
    have := Nat.mul_le_mul_left p (show j + 1 ≤ i by omega)
    omega
  omega

theorem word_eq_zero_iff : word p m i = 0 ↔ ∀ k < p, m (p * i + k) = 0 := by
  have key (l : List UInt8) : fromLe l = 0 ↔ ∀ b ∈ l, b = 0 := by
    induction l
    case nil => simp [fromLe]
    case cons b l hi =>
      have hb : b = 0 ↔ b.toNat = 0 := UInt8.toNat_inj.symm
      simp [fromLe, hi, hb]
  simp [word, key, ofPtr]

theorem word_realloc_of_lt (h : i < n) : word p (realloc m fresh (p * n)) i = word p m i := by
  refine word_congr fun k hk => if_pos ?_
  have := Nat.mul_le_mul_left p (show i + 1 ≤ n by omega)
  rw [Nat.mul_succ] at this
  omega

theorem word_zero_of_lt (h : i < n) : word p (zero m (p * n) d) i = word p m i := by
  refine word_congr fun k hk => if_neg fun hin => ?_
  have := Nat.mul_le_mul_left p (show i + 1 ≤ n by omega)
  rw [Nat.mul_succ] at this
  omega

theorem word_zero_realloc_eq_zero_iff (h : n ≤ i) :
    word p (zero (realloc m fresh (p * n)) (p * n) d) i = 0 ↔
    ∀ k < p, p * n + d ≤ p * i + k → fresh (p * i + k) = 0 := by
  have hle := Nat.mul_le_mul_left p h
  rw [word_eq_zero_iff]
  refine forall₂_congr fun k hk => ?_
  by_cases hd : p * n + d ≤ p * i + k
  case pos =>
    have hout : ¬(p * n ≤ p * i + k ∧ p * i + k < p * n + d) := by omega
    have hnew : ¬p * i + k < p * n := by omega
    simp only [zero, hout, if_false, realloc, hnew, hd, true_implies]
  have hin : p * n ≤ p * i + k ∧ p * i + k < p * n + d := by omega
  simp only [zero, hin, and_self, if_true, hd, false_implies]

end Memory
