import Mathlib.Data.List.TakeWhile
import Mathlib.Data.Nat.Digits.Lemmas
import PlatformKnife.Lib.Bytes

namespace CString

open List Nat

-- The string in a buffer ends at the first zero byte.
def ofBuffer (l : List UInt8) : List UInt8 :=
  l.takeWhile (· ≠ 0)

-- A string without its terminator.
structure Str where
  bytes   : List UInt8
  no_zero : 0 ∉ bytes

-- `strrchr`: what is before and behind the last occurrence of a character.
def splitLast (c : UInt8) : List UInt8 → Option (List UInt8 × List UInt8)
  | [] => none
  | b :: l =>
    match splitLast c l with
    | some (front, back) => some (b :: front, back)
    | none => if b = c then some ([], l) else none

def isSpace (c : UInt8) : Bool :=
  c = 32 || (9 ≤ c && c ≤ 13)

-- The value of a character as a digit in bases up to 36, and 36 for others.
def digitValue (c : UInt8) : Nat :=
  if 48 ≤ c && c ≤ 57 then c.toNat - 48
  else if 97 ≤ c && c ≤ 122 then c.toNat - 87
  else if 65 ≤ c && c ≤ 90 then c.toNat - 55
  else 36

def sign : List UInt8 → Bool × List UInt8
  | [] => (false, [])
  | c :: l => if c = 45 then (true, l) else if c = 43 then (false, l) else (false, c :: l)

def startsHex : List UInt8 → Bool
  | z :: x :: d :: _ => z = 48 && (x = 120 || x = 88) && digitValue d < 16
  | _ => false

-- The base of a number and its digits. The base 0 is the one that the number starts with.
def splitBase (base : Nat) (l : List UInt8) : Nat × List UInt8 :=
  if (base = 0 ∨ base = 16) ∧ startsHex l then (16, l.drop 2)
  else if base = 0 then (if l.head? = some 48 then 8 else 10, l)
  else (base, l)

def valueOf (base : Nat) (l : List UInt8) : Nat :=
  (l.takeWhile (digitValue · < base)).foldl (fun v c => v * base + digitValue c) 0

-- `strtoul` for a type with this largest value, and whether it sets `errno`.
def strtoul (max base : Nat) (l : List UInt8) : Nat × Bool :=
  let (neg, l) := sign (l.dropWhile isSpace)
  let (base, l) := splitBase base l
  let value := valueOf base l
  if value > max then (max, true)
  else (if neg then (max + 1 - value) % (max + 1) else value, false)

def digitChar (d : Nat) : UInt8 :=
  UInt8.ofNat (48 + d)

def ofString (s : String) : List UInt8 :=
  s.toUTF8.toList

-- `!strncmp(s, start, strlen(start))`
def startsWith (start : String) (s : List UInt8) : Bool :=
  (ofString start).isPrefixOf s

-- `strchr`, as an offset.
def strchr (s : List UInt8) (c : UInt8) : Option Nat :=
  s.findIdx? (· == c)

def hexChar (d : Nat) : UInt8 :=
  if d < 10 then UInt8.ofNat (48 + d) else UInt8.ofNat (87 + d)

-- What `%08x` prints for an `unsigned int`.
def hex8 (n : Nat) : List UInt8 :=
  (List.range 8).map fun i => hexChar (n / 16 ^ (7 - i) % 16)

-- What `%d` prints for a number that is not negative.
def decimal (n : Nat) : List UInt8 :=
  if n = 0 then [48] else (Nat.digits 10 n).reverse.map digitChar

theorem digitChar_toNat (h : d < 10) : (digitChar d).toNat = 48 + d := by
  rw [digitChar, UInt8.toNat_ofNat_of_lt']
  simp [UInt8.size]
  omega

theorem digitValue_digitChar (h : d < 10) : digitValue (digitChar d) = d := by
  have hc := digitChar_toNat h
  have h₁ : 48 ≤ digitChar d := by rw [UInt8.le_iff_toNat_le, hc]; simp
  have h₂ : digitChar d ≤ 57 := by rw [UInt8.le_iff_toNat_le, hc]; simp; omega
  simp [digitValue, h₁, h₂, hc]

theorem digitChar_ne (h : d < 10) (hc : c.toNat < 48 ∨ 57 < c.toNat) : digitChar d ≠ c := by
  intro he
  have := digitChar_toNat h
  rw [he] at this
  omega

theorem isSpace_digitChar (h : d < 10) : isSpace (digitChar d) = false := by
  have hc := digitChar_toNat h
  have h₁ : digitChar d ≠ 32 := digitChar_ne h (by decide)
  have h₂ : ¬digitChar d ≤ 13 := by rw [UInt8.le_iff_toNat_le, hc]; simp; omega
  simp [isSpace, h₁, h₂]

theorem valueOf_digits (h : ∀ d ∈ l, d < 10) : valueOf 10 (l.reverse.map digitChar) = ofDigits 10 l := by
  have hw : (l.reverse.map digitChar).takeWhile (digitValue · < 10) = l.reverse.map digitChar := by
    rw [takeWhile_eq_self_iff]
    intro c hc
    obtain ⟨d, hd, he⟩ := mem_map.mp hc
    have hlt := h d (mem_reverse.mp hd)
    rw [← he, digitValue_digitChar hlt]
    simpa using hlt
  rw [valueOf, hw, foldl_map, foldl_reverse, ofDigits_eq_foldr]
  clear hw
  induction l
  case nil => rfl
  case cons d l hi =>
    have hd := h d (mem_cons_self)
    simp only [foldr_cons]
    rw [hi fun d hd => h d (mem_cons_of_mem _ hd), digitValue_digitChar hd]
    simp
    ring

theorem decimal_eq_cons (h : n ≠ 0) : ∃ d l, d < 10 ∧ d ≠ 0 ∧ decimal n = digitChar d :: l := by
  have hn : digits 10 n ≠ [] := digits_ne_nil_iff_ne_zero.mpr h
  refine ⟨(digits 10 n).getLast hn, (digits 10 n).dropLast.reverse.map digitChar, ?_, ?_, ?_⟩
  · exact digits_lt_base (by decide) (getLast_mem hn)
  · exact getLast_digit_ne_zero 10 h
  · rw [decimal, if_neg h]
    nth_rewrite 1 [← dropLast_append_getLast hn]
    simp

theorem strtoul_decimal {n max : Nat} (h : n ≠ 0) (hm : n ≤ max) :
    strtoul max 0 (decimal n) = (n, false) := by
  obtain ⟨d, l, hd, hz, he⟩ := decimal_eq_cons h
  have hv : valueOf 10 (decimal n) = n := by
    rw [decimal, if_neg h, valueOf_digits fun d hd => digits_lt_base (by decide) hd, ofDigits_digits]
  have hs : (decimal n).dropWhile isSpace = decimal n := by
    rw [he, dropWhile_cons, isSpace_digitChar hd]
    rfl
  have hg : sign (decimal n) = (false, decimal n) := by
    rw [he, sign, if_neg (digitChar_ne hd (by decide)), if_neg (digitChar_ne hd (by decide))]
  have hc : digitChar d ≠ 48 := by
    intro hc
    have := digitChar_toNat hd
    rw [hc] at this
    exact hz (by simpa using this)
  have hx : startsHex (decimal n) = false := by
    rw [he]
    unfold startsHex
    split
    case h_1 h => simp [← (cons.inj h).left, hc]
    · rfl
  have hb : splitBase 0 (decimal n) = (10, decimal n) := by
    rw [splitBase, hx]
    simp [he, hc]
  rw [strtoul, hs, hg]
  simp only [hb, hv]
  rw [if_neg (by omega)]
  rfl

theorem mem_decimal (h : c ∈ decimal n) : 48 ≤ c.toNat ∧ c.toNat ≤ 57 := by
  rw [decimal] at h
  split at h
  case isTrue =>
    rw [mem_singleton.mp h]
    decide
  obtain ⟨d, hd, he⟩ := mem_map.mp h
  have hlt := digits_lt_base (by decide) (mem_reverse.mp hd)
  rw [← he, digitChar_toNat hlt]
  omega

theorem decimal_length (h : n ≠ 0) : (decimal n).length = log 10 n + 1 := by
  rw [decimal, if_neg h, length_map, length_reverse, length_digits 10 n (by decide) h]

theorem ofBuffer_of_not_mem (h : 0 ∉ l) : ofBuffer l = l := by
  rw [ofBuffer, takeWhile_eq_self_iff]
  intro c hc
  have hz : c ≠ 0 := ne_of_mem_of_not_mem hc h
  simpa using hz

theorem ofBuffer_terminated (l rest : List UInt8) : ofBuffer (l ++ 0 :: rest) = ofBuffer l := by
  induction l
  case nil => rfl
  case cons c l hi =>
    simp only [ofBuffer, cons_append, takeWhile_cons] at hi ⊢
    rw [hi]

theorem ofBuffer_append (h : 0 ∉ l) (rest : List UInt8) : ofBuffer (l ++ 0 :: rest) = l :=
  (ofBuffer_terminated l rest).trans (ofBuffer_of_not_mem h)

theorem splitLast_of_not_mem (h : c ∉ l) : splitLast c l = none := by
  induction l
  case nil => rfl
  case cons b l hi =>
    rw [splitLast, hi (not_mem_of_not_mem_cons h)]
    exact if_neg (ne_of_mem_of_not_mem mem_cons_self h)

theorem splitLast_append (front : List UInt8) (h : c ∉ back) :
    splitLast c (front ++ c :: back) = some (front, back) := by
  induction front
  case nil => simp [splitLast, splitLast_of_not_mem h]
  case cons b front hi => rw [cons_append, splitLast, hi]

end CString
