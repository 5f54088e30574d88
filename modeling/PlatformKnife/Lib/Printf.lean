import PlatformKnife.Lib.CString
import PlatformKnife.Lib.Slice

-- Strings that are printed and strings that are joined in a buffer.
namespace Printf

open CString Slice List

-- What `%d` prints.
def printInt (n : Int) : List UInt8 :=
  if n < 0 then 45 :: decimal n.natAbs else decimal n.natAbs

def padLeft (width : Nat) (c : UInt8) (l : List UInt8) : List UInt8 :=
  List.replicate (width - l.length) c ++ l

def padRight (width : Nat) (c : UInt8) (l : List UInt8) : List UInt8 :=
  l ++ List.replicate (width - l.length) c

-- What `%0<width>d` prints: the zeros are behind the sign.
def printZeros (width : Nat) (n : Int) : List UInt8 :=
  if n < 0 then 45 :: padLeft (width - 1) 48 (decimal n.natAbs) else padLeft width 48 (decimal n.natAbs)

-- `strcat(buf + p, s)`, where `none` stands for an access behind the buffer.
def strcat (buf : List UInt8) (p : Nat) (s : List UInt8) : Option (List UInt8) :=
  match (buf.drop p).findIdx? (· = 0) with
  | none => none
  | some k => if p + k + s.length < buf.length then some (overwrite buf (p + k) (s ++ [0])) else none

-- `strncat(buf + p, src, n)` for a source that is at hand for `n` bytes.
def strncat (buf : List UInt8) (p : Nat) (src : List UInt8) (n : Nat) : Option (List UInt8) :=
  strcat buf p (ofBuffer (src.take n))

def intMax : Nat := 2147483647

-- `snprintf(buf + p, n, …)` for the text of the format. `none` stands for an access behind the buffer or
-- a text whose length is not an `int`.
def snprintf (buf : List UInt8) (p n : Nat) (text : List UInt8) : Option (List UInt8 × Nat) :=
  if intMax < text.length then none
  else if n = 0 then some (buf, text.length)
  else if p + (text.take (n - 1)).length < buf.length then
    some (overwrite buf p (text.take (n - 1) ++ [0]), text.length)
  else
    none

theorem zero_notMem_decimal (n : Nat) : 0 ∉ decimal n :=
  fun h => by simpa using (mem_decimal h).1

theorem zero_notMem_printInt (n : Int) : 0 ∉ printInt n := by
  rw [printInt]
  split <;> simp [zero_notMem_decimal]

theorem zero_notMem_padLeft (hc : c ≠ 0) (h : 0 ∉ l) : 0 ∉ padLeft width c l := by
  simp [padLeft, h, hc.symm]

theorem zero_notMem_padRight (hc : c ≠ 0) (h : 0 ∉ l) : 0 ∉ padRight width c l := by
  simp [padRight, h, hc.symm]

theorem zero_notMem_printZeros (width : Nat) (n : Int) : 0 ∉ printZeros width n := by
  have h (w : Nat) : 0 ∉ padLeft w 48 (decimal n.natAbs) :=
    zero_notMem_padLeft (by decide) (zero_notMem_decimal _)
  rw [printZeros]
  split <;> simp [h]

theorem strcat_append (out rest s : List UInt8) :
    strcat (out ++ 0 :: rest) out.length s =
      if s.length ≤ rest.length then some (out ++ s ++ 0 :: rest.drop s.length) else none := by
  have hf : ((out ++ 0 :: rest).drop out.length).findIdx? (fun x => decide (x = 0)) = some 0 := by
    simp [findIdx?_cons]
  have hiff : out.length + 0 + s.length < (out ++ 0 :: rest).length ↔ s.length ≤ rest.length := by
    simp
  simp only [strcat, hf, hiff]
  split
  case isTrue h =>
    rw [add_zero, overwrite_append out (by simpa using h)]
    simp
  case isFalse => rfl

theorem strcat_behind (h : out.length < p) (hr : 0 ∉ rest) (s : List UInt8) :
    strcat (out ++ 0 :: rest) p s = none := by
  have hd : (out ++ 0 :: rest).drop p = rest.drop (p - out.length - 1) := by
    obtain ⟨k, rfl⟩ := Nat.exists_eq_add_of_lt h
    simp [drop_append, add_assoc]
  have hf : ((out ++ 0 :: rest).drop p).findIdx? (fun x => decide (x = 0)) = none := by
    rw [findIdx?_eq_none_iff, hd]
    intro x hx
    exact decide_eq_false fun hz => hr (hz ▸ mem_of_mem_drop hx)
  simp only [strcat, hf]

theorem snprintf_of_overlong (h : intMax < text.length) (buf : List UInt8) (p n : Nat) :
    snprintf buf p n text = none :=
  if_pos h

theorem snprintf_zero (h : text.length ≤ intMax) (buf : List UInt8) (p : Nat) :
    snprintf buf p 0 text = some (buf, text.length) := by
  rw [snprintf, if_neg (by omega), if_pos rfl]

theorem snprintf_of_outside (hp : buf.length ≤ p) (hn : n ≠ 0) (text : List UInt8) :
    snprintf buf p n text = none := by
  have ho : ¬p + (text.take (n - 1)).length < buf.length := by omega
  rw [snprintf, if_neg hn, if_neg ho, ite_self]

theorem snprintf_of_room (h : text.length ≤ intMax) (hn : n ≠ 0) (hb : p + n ≤ buf.length) :
    snprintf buf p n text = some (overwrite buf p (text.take (n - 1) ++ [0]), text.length) := by
  have hl : (text.take (n - 1)).length ≤ n - 1 := length_take_le ..
  rw [snprintf, if_neg (by omega), if_neg hn, if_pos (by omega)]

theorem take_overwrite_terminated {buf text : List UInt8} (h : text.length < n) (hb : p + n ≤ buf.length) :
    (overwrite buf p (text.take (n - 1) ++ [0])).take (p + text.length) = buf.take p ++ text := by
  have hc : text.take (n - 1) = text := take_of_length_le (by omega)
  rw [hc]
  have hs : p + (text ++ [0]).length ≤ buf.length := by
    rw [length_append, length_singleton]
    omega
  have ht := take_overwrite_append hs
  rw [← append_assoc] at ht
  have hp : (overwrite buf p (text ++ [0])).take (p + text.length) =
      ((overwrite buf p (text ++ [0])).take (p + (text ++ [0]).length)).take (p + text.length) := by
    rw [take_take, min_eq_left (by simp)]
  rw [hp, ht]
  apply take_left'
  rw [length_append, length_take, min_eq_left (by omega)]

end Printf
