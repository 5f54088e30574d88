import PlatformKnife.Liblog.EventTagMap

namespace Liblog

open CInt CString Scan Slice List

-- A line with a tag as the parser reads it: a number, one separator, white space, the string, and maybe
-- white space with the rest of the line.
structure TagLine where
  digit  : UInt8
  digits : List UInt8
  sep    : UInt8
  gap    : List UInt8
  first  : UInt8
  name   : List UInt8
  trail  : Option (UInt8 × List UInt8)

namespace TagLine

def number (t : TagLine) : Nat :=
  valueOf 10 (t.digit :: t.digits)

def stop (t : TagLine) : UInt8 :=
  match t.trail with
  | none => 10
  | some (c, _) => c

def tail (t : TagLine) : List UInt8 :=
  match t.trail with
  | none => []
  | some (_, text) => text ++ [10]

def bytesWith (t : TagLine) (sep stop : UInt8) : List UInt8 :=
  t.digit :: (t.digits ++ sep :: (t.gap ++ t.first :: (t.name ++ stop :: t.tail)))

def bytes (t : TagLine) : List UInt8 :=
  t.bytesWith t.sep t.stop

def scanned (t : TagLine) : List UInt8 :=
  t.bytesWith 0 0

-- The lines that the parser takes. The separator may be any character, also the newline, and so may be
-- the first character of the string unless it is white space.
structure Ok (t : TagLine) : Prop where
  digit  : isCharDigit t.digit = true
  digits : ∀ c ∈ t.digits, isCharDigit c = true
  sep    : isCharDigit t.sep = false
  gap    : ∀ c ∈ t.gap, isBlank c = true
  first  : isCharWhitespace t.first = false
  name   : ∀ c ∈ t.name, isCharValidTag c = true
  trail  : ∀ c text, t.trail = some (c, text) → isBlank c = true ∧ 10 ∉ text

-- The lines of the documented form.
structure Proper (t : TagLine) : Prop extends Ok t where
  sep_blank   : isBlank t.sep = true
  first_valid : isCharValidTag t.first = true

theorem bytesWith_length (t : TagLine) (sep stop : UInt8) :
    (t.bytesWith sep stop).length =
      t.digits.length + t.gap.length + t.name.length + t.tail.length + 4 := by
  simp [bytesWith]
  omega

end TagLine

section Chars

variable {c : UInt8}

theorem isCharDigit_ne (h : isCharDigit c) : c ≠ 10 ∧ c ≠ 35 ∧ isCharWhitespace c = false := by
  simp only [isCharDigit, isCharWhitespace, Bool.and_eq_true, decide_eq_true_eq, Bool.or_eq_false_iff,
    decide_eq_false_iff_not, UInt8.le_iff_toNat_le, ne_eq, ← UInt8.toNat_inj] at h ⊢
  simp at h ⊢
  omega

theorem isCharValidTag_ne (h : isCharValidTag c) : c ≠ 0 ∧ c ≠ 10 ∧ isCharWhitespace c = false := by
  simp only [isCharValidTag, isCharWhitespace, Bool.and_eq_true, decide_eq_true_eq, Bool.or_eq_true,
    Bool.or_eq_false_iff, decide_eq_false_iff_not, UInt8.le_iff_toNat_le, ne_eq, ← UInt8.toNat_inj] at h ⊢
  simp at h ⊢
  omega

theorem isBlank_iff : isBlank c ↔ c ≠ 10 ∧ isCharWhitespace c := by
  simp [isBlank]

theorem not_isBlank_iff : isBlank c = false ↔ c = 10 ∨ isCharWhitespace c = false := by
  rw [← Bool.not_eq_true, isBlank_iff, not_and_or, not_not, Bool.not_eq_true]

end Chars

section ScanTag

variable {l name text r : List UInt8} {x s : UInt8}

theorem scanned_eq (l w r : List UInt8) (x s : UInt8) :
    l ++ x :: (w ++ s :: r) = (l ++ x :: w) ++ s :: r := by
  simp

theorem scanned_length (l w : List UInt8) (x : UInt8) :
    l.length + 1 + w.length = (l ++ x :: w).length := by
  simp
  omega

theorem getElem?_scanned (l w r : List UInt8) (x s : UInt8) :
    (l ++ x :: (w ++ s :: r))[l.length + 1 + w.length]? = some s := by
  rw [scanned_eq, scanned_length l w x]
  simp

theorem overwrite_scanned (l w r : List UInt8) (x s : UInt8) :
    overwrite (l ++ x :: (w ++ s :: r)) (l.length + 1 + w.length) [0] = l ++ x :: (w ++ 0 :: r) := by
  rw [scanned_eq, scanned_length l w x, overwrite_append_cons, scanned_eq]

theorem scanTagEnd_newline (hn : ∀ c ∈ name, isCharValidTag c) :
    scanTagEnd (l ++ x :: (name ++ 10 :: r)) index l.length =
      .ok (l ++ x :: (name ++ 0 :: r), ⟨index, l.length⟩, l.length + 1 + name.length) := by
  simp only [scanTagEnd, scan_eq_some hn (show isCharValidTag 10 = false by decide), getElem?_scanned,
    overwrite_scanned, if_true]

theorem scanTagEnd_blank (hn : ∀ c ∈ name, isCharValidTag c) (hs : isBlank s) (ht : 10 ∉ text) :
    scanTagEnd (l ++ x :: (name ++ s :: (text ++ 10 :: r))) index l.length =
      .ok (l ++ x :: (name ++ 0 :: (text ++ 10 :: r)), ⟨index, l.length⟩,
        l.length + 1 + name.length + 1 + text.length) := by
  obtain ⟨hne, hw⟩ := isBlank_iff.mp hs
  have hv : isCharValidTag s = false := by
    rw [← Bool.not_eq_true]
    intro hv
    simp [(isCharValidTag_ne hv).2.2] at hw
  have ht' : ∀ c ∈ text, isInLine c := fun c hc => decide_eq_true fun he => ht (he ▸ hc)
  -- The loop for the newline starts at the terminator that was just written.
  have hscan : scan isInLine ((l ++ x :: name) ++ 0 :: (text ++ 10 :: r)) (l ++ x :: name).length = _ :=
    scan_eq_some ht' (by decide)
  have hl : (l ++ x :: name).length = l.length + 1 + name.length := by simp; omega
  rw [hl, append_assoc, cons_append] at hscan
  simp [scanTagEnd, scan_eq_some hn hv, getElem?_scanned, overwrite_scanned, hne, hw, hscan]

theorem scanTagEnd_reject (hn : ∀ c ∈ name, isCharValidTag c) (hv : isCharValidTag s = false)
    (hw : isCharWhitespace s = false) :
    scanTagEnd (l ++ x :: (name ++ s :: r)) index l.length = .error .reject := by
  have hne : s ≠ 10 := by
    rintro rfl
    cases hw
  simp [scanTagEnd, scan_eq_some hn hv, getElem?_scanned, hne, hw]

theorem scanTagStr_newline (hg : ∀ c ∈ gap, isBlank c) :
    scanTagStr (l ++ x :: (gap ++ 10 :: r)) index l.length = .error .reject := by
  simp only [scanTagStr, scan_eq_some hg (show isBlank 10 = false by decide), getElem?_scanned, if_true]

theorem scanTagStr_overrun (hg : ∀ c ∈ gap, isBlank c) :
    scanTagStr (l ++ x :: gap) index l.length = .error .overrun := by
  simp only [scanTagStr, scan_eq_none hg]

theorem scanTagStr_first (hg : ∀ c ∈ gap, isBlank c) (hs : isCharWhitespace s = false) :
    scanTagStr (l ++ x :: (gap ++ s :: r)) index l.length =
      scanTagEnd (l ++ x :: (gap ++ s :: r)) index (l.length + 1 + gap.length) := by
  have hne : s ≠ 10 := by
    rintro rfl
    cases hs
  have hb : isBlank s = false := not_isBlank_iff.mpr (.inr hs)
  simp [scanTagStr, scan_eq_some hg hb, getElem?_scanned, hne]

theorem digitValue_lt (h : isCharDigit c) : digitValue c < 10 := by
  rw [isCharDigit] at h
  rw [digitValue, if_pos h]
  simp only [Bool.and_eq_true, decide_eq_true_eq, UInt8.le_iff_toNat_le] at h
  have h₂ : c.toNat ≤ 57 := h.2
  omega

theorem valueOf_lt (h : 0 < base) (l : List UInt8) : valueOf base l < base ^ l.length := by
  have hfold (l : List UInt8) (hl : ∀ c ∈ l, digitValue c < base) (v : Nat) :
      l.foldl (fun v c => v * base + digitValue c) v < (v + 1) * base ^ l.length := by
    induction l generalizing v
    case nil => simp
    case cons c l ih =>
      have hc := hl c (by simp)
      calc (c :: l).foldl (fun v c => v * base + digitValue c) v
        _ < (v * base + digitValue c + 1) * base ^ l.length := ih (fun d hd => hl d (by simp [hd])) _
        _ ≤ ((v + 1) * base) * base ^ l.length := Nat.mul_le_mul_right _ (by rw [Nat.succ_mul]; omega)
        _ = (v + 1) * base ^ (c :: l).length := by rw [length_cons, pow_succ']; ring
  have hdigits : ∀ c ∈ l.takeWhile (digitValue · < base), digitValue c < base := fun c hc => by
    simpa using mem_takeWhile_imp hc
  have hlt := hfold _ hdigits 0
  rw [zero_add, one_mul] at hlt
  exact hlt.trans_le (Nat.pow_le_pow_right h (List.takeWhile_prefix _).length_le)

theorem valueOf_append (hd : ∀ c ∈ w, isCharDigit c) (hs : 10 ≤ digitValue s) :
    valueOf 10 (w ++ s :: r) = valueOf 10 w := by
  have hw : ∀ c ∈ w, decide (digitValue c < 10) :=
    fun c hc => decide_eq_true (digitValue_lt (hd c hc))
  rw [valueOf, valueOf, takeWhile_append_of_pos hw, takeWhile_eq_self_iff.mpr hw,
    takeWhile_cons_of_neg (by simpa using hs), append_nil]

theorem strtoul_digits (hx : isCharDigit x) (hd : ∀ c ∈ w, isCharDigit c)
    (hv : valueOf 10 (x :: w) < 2 ^ 31) :
    u32 (strtoul (2 ^ 64 - 1) 10 (x :: (w ++ 0 :: r))).1 = valueOf 10 (x :: w) := by
  have hxw : ∀ c ∈ x :: w, isCharDigit c := by simpa [hx] using hd
  have hvalue : valueOf 10 (x :: (w ++ 0 :: r)) = valueOf 10 (x :: w) :=
    valueOf_append hxw (by decide)
  have hne (c : UInt8) (hc : isCharDigit c = false) : x ≠ c := by
    rintro rfl
    simp [hx] at hc
  have hspace : isSpace x = false := by
    simp only [isCharDigit, isSpace, Bool.and_eq_true, decide_eq_true_eq, Bool.or_eq_false_iff,
      Bool.and_eq_false_iff, decide_eq_false_iff_not, UInt8.le_iff_toNat_le] at hx ⊢
    refine ⟨hne 32 (by decide), .inr ?_⟩
    have h₁ : 48 ≤ x.toNat := hx.1
    have h₂ : (13 : UInt8).toNat = 13 := rfl
    omega
  have hstr : strtoul (2 ^ 64 - 1) 10 (x :: (w ++ 0 :: r)) = (valueOf 10 (x :: w), false) := by
    rw [strtoul, dropWhile_cons_of_neg (by simp [hspace]), sign, if_neg (hne 45 (by decide)),
      if_neg (hne 43 (by decide))]
    have hb : splitBase 10 (x :: (w ++ 0 :: r)) = (10, x :: (w ++ 0 :: r)) := by simp [splitBase]
    simp only [hb, hvalue]
    rw [if_neg (by omega)]
    rfl
  rw [hstr]
  exact u32_of_lt (by dsimp only; omega)

theorem scanTagLine_number (hd : ∀ c ∈ w, isCharDigit c) (hs : isCharDigit s = false) :
    scanTagLine (l ++ x :: (w ++ s :: r)) l.length =
      scanTagStr ((l ++ x :: w) ++ 0 :: r) (u32 (strtoul (2 ^ 64 - 1) 10 (x :: (w ++ 0 :: r))).1)
        (l ++ x :: w).length := by
  simp only [scanTagLine, scan_eq_some hd hs, overwrite_scanned, drop_left]
  rw [scanned_eq, scanned_length]

theorem scanTagLine_first (hd : ∀ c ∈ w, isCharDigit c) (hs : isCharDigit s = false)
    (hg : ∀ c ∈ gap, isBlank c) (hy : isCharWhitespace y = false) :
    scanTagLine (l ++ x :: (w ++ s :: (gap ++ y :: r))) l.length =
      scanTagEnd ((l ++ x :: (w ++ 0 :: gap)) ++ y :: r)
        (u32 (strtoul (2 ^ 64 - 1) 10 (x :: (w ++ 0 :: (gap ++ y :: r)))).1)
        (l ++ x :: (w ++ 0 :: gap)).length := by
  rw [scanTagLine_number hd hs, scanTagStr_first hg hy, scanned_eq, scanned_length _ _ 0, ← scanned_eq l w]

theorem scanTagLine_bytes (t : TagLine) (h : t.Ok) (hv : t.number < 2 ^ 31) (l r : List UInt8) :
    scanTagLine (l ++ (t.bytes ++ r)) l.length =
      .ok (l ++ (t.scanned ++ r), ⟨t.number, (l ++ t.digit :: (t.digits ++ 0 :: t.gap)).length⟩,
        l.length + t.bytes.length - 1) := by
  have e₀ : l ++ (t.bytes ++ r) = l ++ t.digit :: (t.digits ++ t.sep ::
      (t.gap ++ t.first :: (t.name ++ t.stop :: (t.tail ++ r)))) := by
    simp [TagLine.bytes, TagLine.bytesWith]
  rw [e₀, scanTagLine_first h.digits h.sep h.gap h.first, strtoul_digits h.digit h.digits hv]
  rcases ht : t.trail with _ | p
  · have hs : t.stop = 10 := by simp [TagLine.stop, ht]
    have htl : t.tail = [] := by simp [TagLine.tail, ht]
    rw [hs, htl, scanTagEnd_newline h.name]
    simp [TagLine.scanned, TagLine.bytes, TagLine.bytesWith, htl, TagLine.number]
    omega
  obtain ⟨c, text⟩ := p
  obtain ⟨hc, htext⟩ := h.trail c text ht
  have hs : t.stop = c := by simp [TagLine.stop, ht]
  have htl : t.tail = text ++ [10] := by simp [TagLine.tail, ht]
  have htr : t.tail ++ r = text ++ 10 :: r := by simp [htl]
  rw [hs, htr, scanTagEnd_blank h.name hc htext]
  simp [TagLine.scanned, TagLine.bytes, TagLine.bytesWith, htl, TagLine.number]
  omega

theorem eq_newline_of_getLast? {p : UInt8 → Bool} {u v : List UInt8} (h : (u ++ y :: v).getLast? = some 10)
    (hp : p 10 = false) (hv : ∀ c ∈ v, p c) : v = [] ∧ y = 10 := by
  rw [getLast?_append_of_ne_nil _ (cons_ne_nil y v)] at h
  obtain _ | ⟨z, v⟩ := v
  · simpa using h
  rw [getLast?_cons_cons] at h
  simp [hv 10 (mem_of_getLast? h)] at hp

theorem scanTagLine_inv (hx : isCharDigit x) (hlast : (x :: r).getLast? = some 10) (l : List UInt8) :
    (∃ t r', TagLine.Ok t ∧ x :: r = t.bytes ++ r') ∨ (∃ w, (∀ c ∈ w, isCharDigit c) ∧ r = w ++ [10]) ∨
      scanTagLine (l ++ x :: r) l.length = .error .reject := by
  obtain hd | ⟨w, s, r₁, rfl, hw, hs⟩ := exists_stop isCharDigit r
  · have := eq_newline_of_getLast? (u := []) hlast (by decide) hd
    exact absurd this.2 (isCharDigit_ne hx).1
  obtain hg | ⟨gap, y, r₂, rfl, hg, hy⟩ := exists_stop isBlank r₁
  · obtain ⟨rfl, rfl⟩ := eq_newline_of_getLast? (u := x :: w) hlast (by decide) hg
    exact .inr (.inl ⟨w, hw, rfl⟩)
  obtain rfl | hy := not_isBlank_iff.mp hy
  · refine .inr (.inr ?_)
    rw [scanTagLine_number hw hs, scanTagStr_newline hg]
  have hy10 : y ≠ 10 := by
    rintro rfl
    cases hy
  obtain hn | ⟨name, z, r₃, rfl, hn, hz⟩ := exists_stop isCharValidTag r₂
  · have := eq_newline_of_getLast? (u := x :: (w ++ s :: gap)) (by simpa using hlast) (by decide) hn
    exact absurd this.2 hy10
  by_cases hz10 : z = 10
  · subst hz10
    exact .inl ⟨⟨x, w, s, gap, y, name, none⟩, r₃, ⟨hx, hw, hs, hg, hy, hn, by simp⟩,
      by simp [TagLine.bytes, TagLine.bytesWith, TagLine.stop, TagLine.tail]⟩
  cases hzw : isCharWhitespace z
  case false =>
    refine .inr (.inr ?_)
    rw [scanTagLine_first hw hs hg hy, scanTagEnd_reject hn hz hzw]
  case true =>
    obtain ht | ⟨text, b, r₄, rfl, ht, hb⟩ := exists_stop isInLine r₃
    · have := eq_newline_of_getLast? (u := x :: (w ++ s :: (gap ++ y :: name))) (by simpa using hlast)
        (by decide) ht
      exact absurd this.2 hz10
    obtain rfl : b = 10 := by simpa [isInLine] using hb
    have htext : 10 ∉ text := fun hmem => by simpa [isInLine] using ht 10 hmem
    refine .inl ⟨⟨x, w, s, gap, y, name, some (z, text)⟩, r₄, ⟨hx, hw, hs, hg, hy, hn, ?_⟩,
      by simp [TagLine.bytes, TagLine.bytesWith, TagLine.stop, TagLine.tail]⟩
    rintro c text' ⟨⟩
    exact ⟨isBlank_iff.mpr ⟨hz10, hzw⟩, htext⟩

theorem scanTagLine_overrun (hw : ∀ c ∈ w, isCharDigit c) (l : List UInt8) :
    scanTagLine (l ++ x :: (w ++ [10])) l.length = .error .overrun := by
  rw [scanTagLine_number hw (by decide), scanTagStr_overrun (by simp)]

end ScanTag

-- What the parser reads from the start of a line to its end, or the next one's.
inductive Item
  | blank (indent : List UInt8)
  | comment (indent text : List UInt8)
  | tag (indent : List UInt8) (line : TagLine)

namespace Item

def bytes : Item → List UInt8
  | blank indent => indent ++ [10]
  | comment indent text => indent ++ 35 :: (text ++ [10])
  | tag indent line => indent ++ line.bytes

def scanned : Item → List UInt8
  | blank indent => indent ++ [10]
  | comment indent text => indent ++ 35 :: (text ++ [10])
  | tag indent line => indent ++ line.scanned

def Ok : Item → Prop
  | blank indent => ∀ c ∈ indent, isBlank c = true
  | comment indent text => (∀ c ∈ indent, isBlank c = true) ∧ 10 ∉ text
  | tag indent line => (∀ c ∈ indent, isBlank c = true) ∧ line.Ok

def Proper : Item → Prop
  | blank indent => ∀ c ∈ indent, isBlank c = true
  | comment indent text => (∀ c ∈ indent, isBlank c = true) ∧ 10 ∉ text
  | tag indent line => (∀ c ∈ indent, isBlank c = true) ∧ line.Proper

-- The tag that is bound, with its number.
def bindings : Item → List (Nat × List UInt8)
  | tag _ line => [(line.number, line.first :: line.name)]
  | _ => []

-- The entry of the array for an item at a position of the file.
def tags (pos : Nat) : Item → List EventTag
  | tag indent line => [⟨line.number, pos + (indent ++ line.digit :: (line.digits ++ 0 :: line.gap)).length⟩]
  | _ => []

def rounds : Item → Nat
  | blank indent => indent.length + 1
  | comment indent text => indent.length + (text.length + 2)
  | tag indent _ => indent.length + 1

-- The lines that the first pass counts. If the separator is the newline, the string is on a line of its
-- own.
def counted : Item → Nat
  | tag _ line => if line.sep = 10 ∧ isCharDigit line.first = true then 2 else 1
  | _ => 0

theorem Proper.ok {i : Item} (h : i.Proper) : i.Ok := by
  cases i
  case blank indent => exact h
  case comment indent text => exact h
  case tag indent line => exact ⟨h.1, h.2.toOk⟩

theorem rounds_le (i : Item) : i.rounds ≤ i.bytes.length := by
  cases i <;> simp [rounds, bytes, TagLine.bytes, TagLine.bytesWith]

end Item

section Parse

variable {numTags : Int} {l r : List UInt8} {tags : List EventTag}

theorem parseLoop_end : parseLoop numTags (fuel + 1) l l.length start tags = .ok (l, tags) := by
  simp [parseLoop]

theorem parseLoop_newline :
    parseLoop numTags (fuel + 1) (l ++ 10 :: r) l.length start tags =
      parseLoop numTags fuel ((l ++ [10]) ++ r) (l ++ [10]).length true tags := by
  simp [parseLoop]

theorem parseLoop_indent (h : ∀ c ∈ indent, isBlank c) (l : List UInt8) :
    parseLoop numTags (fuel + indent.length) (l ++ (indent ++ r)) l.length true tags =
      parseLoop numTags fuel ((l ++ indent) ++ r) (l ++ indent).length true tags := by
  induction indent generalizing l
  case nil => simp
  case cons c indent ih =>
    have hc := isBlank_iff.mp (h c (by simp))
    have hd : isCharDigit c = false := by
      rw [← Bool.not_eq_true]
      intro hd
      simp [(isCharDigit_ne hd).2.2] at hc
    have h35 : c ≠ 35 := by
      rintro rfl
      exact absurd hc.2 (by decide)
    have := ih (fun x hx => h x (by simp [hx])) (l ++ [c])
    rw [length_cons, ← add_assoc, cons_append, parseLoop]
    simpa [hc.1, hc.2, hd, h35] using this

theorem parseLoop_text (h : 10 ∉ text) (l : List UInt8) :
    parseLoop numTags (fuel + text.length) (l ++ (text ++ r)) l.length false tags =
      parseLoop numTags fuel ((l ++ text) ++ r) (l ++ text).length false tags := by
  induction text generalizing l
  case nil => simp
  case cons c text ih =>
    obtain ⟨hc, ht⟩ : 10 ≠ c ∧ 10 ∉ text := by simpa using h
    have := ih ht (l ++ [c])
    rw [length_cons, ← add_assoc, cons_append, parseLoop]
    simpa [hc.symm] using this

theorem parseLoop_hash :
    parseLoop numTags (fuel + 1) (l ++ 35 :: r) l.length true tags =
      parseLoop numTags fuel ((l ++ [35]) ++ r) (l ++ [35]).length false tags := by
  simp [parseLoop]

theorem parseLoop_digit (hx : isCharDigit x) :
    parseLoop numTags (fuel + 1) (l ++ x :: r) l.length true tags =
      if (tags.length : Int) ≥ numTags then
        .error .reject
      else
        match scanTagLine (l ++ x :: r) l.length with
        | .error fault => .error fault
        | .ok (mem, tag, cp) => parseLoop numTags fuel mem (cp + 1) true (tags ++ [tag]) := by
  cases h : scanTagLine (l ++ x :: r) l.length <;> simp [parseLoop, hx, isCharDigit_ne hx, h]

theorem parseLoop_item (i : Item) (h : i.Ok) (hv : ∀ b ∈ i.bindings, b.1 < 2 ^ 31)
    (hn : i.bindings ≠ [] → tags.length < numTags) :
    parseLoop numTags (fuel + i.rounds) (l ++ (i.bytes ++ r)) l.length true tags =
      parseLoop numTags fuel ((l ++ i.scanned) ++ r) (l ++ i.scanned).length true
        (tags ++ i.tags l.length) := by
  cases i
  case blank indent =>
    rw [Item.rounds, add_comm indent.length, ← add_assoc, Item.bytes, append_assoc,
      parseLoop_indent h, singleton_append, parseLoop_newline]
    simp [Item.scanned, Item.tags]
  case comment indent text =>
    have hf : fuel + (indent.length + (text.length + 2)) = fuel + 1 + text.length + 1 + indent.length := by
      omega
    rw [Item.rounds, hf, Item.bytes, append_assoc, parseLoop_indent h.1, cons_append,
      parseLoop_hash, append_assoc text, parseLoop_text h.2, singleton_append,
      parseLoop_newline]
    simp [Item.scanned, Item.tags]
  case tag indent line =>
    simp only [Item.bindings, mem_singleton, forall_eq] at hv
    have hlt : ¬(tags.length : Int) ≥ numTags := not_le.mpr (hn (by simp [Item.bindings]))
    obtain ⟨y, hy⟩ : ∃ y, line.bytes ++ r = line.digit :: y := ⟨_, rfl⟩
    rw [Item.rounds, add_comm indent.length, ← add_assoc, Item.bytes, append_assoc,
      parseLoop_indent h.1, hy, parseLoop_digit h.2.digit, if_neg hlt, ← hy,
      scanTagLine_bytes line h.2 hv]
    dsimp only
    have hcp : (l ++ indent).length + line.bytes.length - 1 + 1 =
        (l ++ Item.scanned (.tag indent line)).length := by
      simp [Item.scanned, TagLine.bytes, TagLine.scanned, TagLine.bytesWith_length]
      omega
    have htag : (l ++ indent ++ line.digit :: (line.digits ++ 0 :: line.gap)).length =
        l.length + (indent ++ line.digit :: (line.digits ++ 0 :: line.gap)).length := by
      simp [add_assoc]
    rw [hcp, htag]
    simp [Item.scanned, Item.tags]

theorem parseLoop_full (i : Item) (h : i.Ok) (hb : i.bindings ≠ []) (hn : numTags ≤ tags.length) :
    parseLoop numTags (fuel + i.rounds) (l ++ (i.bytes ++ r)) l.length true tags = .error .reject := by
  cases i
  case blank indent => exact absurd rfl hb
  case comment indent text => exact absurd rfl hb
  case tag indent line =>
    obtain ⟨y, hy⟩ : ∃ y, line.bytes ++ r = line.digit :: y := ⟨_, rfl⟩
    rw [Item.rounds, add_comm indent.length, ← add_assoc, Item.bytes, append_assoc,
      parseLoop_indent h.1, hy, parseLoop_digit h.2.digit, if_pos hn]

-- The tags of a list of items from a position on.
def tagsOf : Nat → List Item → List EventTag
  | _, [] => []
  | pos, i :: items => i.tags pos ++ tagsOf (pos + i.bytes.length) items

def totalRounds (items : List Item) : Nat :=
  (items.map Item.rounds).sum

theorem Item.scanned_length (i : Item) : i.scanned.length = i.bytes.length := by
  cases i <;> simp [Item.scanned, Item.bytes, TagLine.scanned, TagLine.bytes, TagLine.bytesWith_length]

theorem Item.tags_length (i : Item) : (i.tags pos).length = i.bindings.length := by
  cases i <;> rfl

theorem parseLoop_items (items : List Item) (h : ∀ i ∈ items, i.Ok)
    (hv : ∀ b ∈ items.flatMap Item.bindings, b.1 < 2 ^ 31)
    (hn : tags.length + (items.flatMap Item.bindings).length ≤ numTags) :
    parseLoop numTags (fuel + totalRounds items) (l ++ (items.flatMap Item.bytes ++ r)) l.length true tags =
      parseLoop numTags fuel ((l ++ items.flatMap Item.scanned) ++ r)
        (l ++ items.flatMap Item.scanned).length true (tags ++ tagsOf l.length items) := by
  induction items generalizing l tags
  case nil => simp [totalRounds, tagsOf]
  case cons i items ih =>
    simp only [flatMap_cons, length_append, mem_append] at hv hn
    push_cast at hn
    have hf : fuel + totalRounds (i :: items) = fuel + totalRounds items + i.rounds := by
      simp [totalRounds]
      omega
    rw [hf, flatMap_cons, append_assoc,
      parseLoop_item i (h i (by simp)) (fun b hb => hv b (.inl hb)) (fun hb => by
        have := length_pos_iff.mpr hb
        omega),
      ih (fun j hj => h j (by simp [hj])) (fun b hb => hv b (.inr hb))
        (by rw [length_append, Item.tags_length]; push_cast; omega)]
    simp [tagsOf, Item.scanned_length]

theorem totalRounds_le (items : List Item) : totalRounds items ≤ (items.flatMap Item.bytes).length := by
  induction items
  case nil => simp [totalRounds]
  case cons i items ih =>
    have := i.rounds_le
    simp only [totalRounds, map_cons, sum_cons, flatMap_cons, length_append] at ih ⊢
    omega

theorem parseLoop_overrun (hi : ∀ c ∈ indent, isBlank c) (hx : isCharDigit x)
    (hw : ∀ c ∈ w, isCharDigit c) (hn : tags.length < numTags) :
    parseLoop numTags (fuel + 1 + indent.length) (l ++ (indent ++ x :: (w ++ [10]))) l.length true tags =
      .error .overrun := by
  rw [parseLoop_indent hi, parseLoop_digit hx, if_neg (by omega), scanTagLine_overrun hw]

theorem Item.bytes_getLast? (i : Item) : i.bytes.getLast? = some 10 := by
  cases i
  case blank indent => simp [Item.bytes]
  case comment indent text => simp [Item.bytes, getLast?_append, getLast?_cons]
  case tag indent line =>
    cases ht : line.trail <;>
      simp [Item.bytes, TagLine.bytes, TagLine.bytesWith, TagLine.stop, TagLine.tail, ht,
        getLast?_append, getLast?_cons]

theorem Item.bytes_pos (i : Item) : 0 < i.bytes.length := by
  apply length_pos_of_ne_nil
  intro h
  simpa [h] using i.bytes_getLast?

-- A last line that is nothing but a number.
def Bare (r : List UInt8) : Prop :=
  ∃ (indent : List UInt8) (x : UInt8) (w : List UInt8), (∀ c ∈ indent, isBlank c) ∧ isCharDigit x ∧
    (∀ c ∈ w, isCharDigit c) ∧ r = indent ++ x :: (w ++ [10])

theorem parseLoop_start (hr : r.getLast? = some 10) :
    (∃ i r', Item.Ok i ∧ r = i.bytes ++ r') ∨ Bare r ∨
      ∀ numTags fuel l tags, r.length < fuel →
        parseLoop numTags fuel (l ++ r) l.length true tags = .error .reject := by
  obtain hb | ⟨indent, c, r', rfl, hi, hc⟩ := exists_stop isBlank r
  · have := isBlank_iff.mp (hb 10 (mem_of_getLast? hr))
    exact absurd rfl this.1
  obtain rfl | hc := not_isBlank_iff.mp hc
  · exact .inl ⟨.blank indent, r', hi, by simp [Item.bytes]⟩
  have hc10 : c ≠ 10 := by
    rintro rfl
    cases hc
  by_cases h35 : c = 35
  · subst h35
    obtain ht | ⟨text, b, r'', rfl, ht, hb⟩ := exists_stop isInLine r'
    · exact absurd (eq_newline_of_getLast? hr (by decide) ht).2 hc10
    obtain rfl : b = 10 := by simpa [isInLine] using hb
    have htext : 10 ∉ text := fun hmem => by simpa [isInLine] using ht 10 hmem
    exact .inl ⟨.comment indent text, r'', ⟨hi, htext⟩, by simp [Item.bytes]⟩
  -- The loop comes to the first character that is not white space.
  have hloop (numTags : Int) (fuel : Nat) (l : List UInt8) (tags : List EventTag)
      (hf : (indent ++ c :: r').length < fuel) : ∃ fuel',
      parseLoop numTags fuel (l ++ (indent ++ c :: r')) l.length true tags =
        parseLoop numTags (fuel' + 1) ((l ++ indent) ++ c :: r') (l ++ indent).length true tags := by
    simp only [length_append, length_cons] at hf
    refine ⟨fuel - indent.length - 1, ?_⟩
    rw [← parseLoop_indent hi, show fuel - indent.length - 1 + 1 + indent.length = fuel by omega]
  cases hd : isCharDigit c
  case false =>
    refine .inr (.inr fun numTags fuel l tags hf => ?_)
    obtain ⟨fuel', he⟩ := hloop numTags fuel l tags hf
    rw [he]
    simp [parseLoop, hc10, h35, hd, hc]
  case true =>
    have hlast : (c :: r').getLast? = some 10 := by
      rwa [getLast?_append_of_ne_nil _ (cons_ne_nil c r')] at hr
    have hinv := fun l => scanTagLine_inv hd hlast l
    by_cases hok : ∃ t r'', TagLine.Ok t ∧ c :: r' = t.bytes ++ r''
    · obtain ⟨t, r'', ht, he⟩ := hok
      exact .inl ⟨.tag indent t, r'', ⟨hi, ht⟩, by simp [Item.bytes, he]⟩
    by_cases hbare : ∃ w, (∀ c ∈ w, isCharDigit c) ∧ r' = w ++ [10]
    · obtain ⟨w, hw, rfl⟩ := hbare
      exact .inr (.inl ⟨indent, c, w, hi, hd, hw, rfl⟩)
    refine .inr (.inr fun numTags fuel l tags hf => ?_)
    obtain ⟨fuel', he⟩ := hloop numTags fuel l tags hf
    have hrej := (((hinv (l ++ indent)).resolve_left hok).resolve_left hbare)
    rw [he, parseLoop_digit hd, hrej]
    split <;> rfl

-- The numbers at the starts of lines are below 2^31.
def NumbersBelow (file : List UInt8) : Prop :=
  ∀ front indent digits back, file = front ++ (indent ++ (digits ++ back)) →
    (front = [] ∨ front.getLast? = some 10) → (∀ c ∈ indent, isBlank c = true) →
    (∀ c ∈ digits, isCharDigit c = true) → valueOf 10 digits < 2 ^ 31

theorem NumbersBelow.item {i : Item} (h : NumbersBelow (i.bytes ++ r)) (hi : i.Ok) :
    ∀ b ∈ i.bindings, b.1 < 2 ^ 31 := by
  cases i
  case blank indent => simp [Item.bindings]
  case comment indent text => simp [Item.bindings]
  case tag indent line =>
    have hd : ∀ c ∈ line.digit :: line.digits, isCharDigit c := by
      simpa [hi.2.digit] using hi.2.digits
    have := h [] indent (line.digit :: line.digits) _
      (by simp [Item.bytes, TagLine.bytes, TagLine.bytesWith]; rfl) (.inl rfl) hi.1 hd
    simpa [Item.bindings, TagLine.number] using this

theorem NumbersBelow.rest {i : Item} (h : NumbersBelow (i.bytes ++ r)) : NumbersBelow r := by
  intro front indent digits back he hfront
  refine h (i.bytes ++ front) indent digits back (by simp [he]) (.inr ?_)
  obtain rfl | hlast := hfront
  · simpa using i.bytes_getLast?
  · rw [getLast?_append, hlast, Option.some_or]

theorem NumbersBelow.items {items : List Item} (h : NumbersBelow (items.flatMap Item.bytes ++ r))
    (hi : ∀ i ∈ items, i.Ok) : ∀ b ∈ items.flatMap Item.bindings, b.1 < 2 ^ 31 := by
  induction items
  case nil => simp
  case cons i items ih =>
    rw [flatMap_cons, append_assoc] at h
    intro b hb
    obtain hb | hb := mem_append.mp hb
    · exact h.item (hi i (by simp)) b hb
    · exact ih h.rest (fun j hj => hi j (by simp [hj])) b hb

theorem parseLoop_inv (numTags : Int) (fuel : Nat) (l r : List UInt8) (tags : List EventTag)
    (hr : r = [] ∨ r.getLast? = some 10) (hv : NumbersBelow r) (hf : r.length < fuel) :
    (∃ items : List Item, (∀ i ∈ items, i.Ok) ∧ r = items.flatMap Item.bytes) ∨
      (∃ (items : List Item) (r' : List UInt8), (∀ i ∈ items, i.Ok) ∧ Bare r' ∧
        r = items.flatMap Item.bytes ++ r') ∨
      parseLoop numTags fuel (l ++ r) l.length true tags = .error .reject := by
  induction hlen : r.length using Nat.strong_induction_on generalizing fuel l r tags
  case h n ih =>
    obtain rfl | hr := hr
    · exact .inl ⟨[], by simp, rfl⟩
    obtain ⟨i, r', hi, rfl⟩ | hb | hrej := parseLoop_start hr
    · have hr' : r' = [] ∨ r'.getLast? = some 10 := by
        cases r'
        case nil => exact .inl rfl
        case cons c r' => exact .inr (by rwa [getLast?_append_of_ne_nil _ (cons_ne_nil c r')] at hr)
      have hrounds := i.rounds_le
      have hpos := i.bytes_pos
      rw [length_append] at hf hlen
      have hfuel : fuel - i.rounds + i.rounds = fuel := by omega
      obtain ⟨items, hok, rfl⟩ | ⟨items, r'', hok, hb, rfl⟩ | hrej :=
        ih r'.length (by omega) (fuel - i.rounds) (l ++ i.scanned) r' (tags ++ i.tags l.length) hr'
          hv.rest (by omega) rfl
      · exact .inl ⟨i :: items, by simpa [hi] using hok, by simp⟩
      · exact .inr (.inl ⟨i :: items, r'', by simpa [hi] using hok, hb, by simp⟩)
      · refine .inr (.inr ?_)
        rw [← hfuel]
        by_cases hn : i.bindings ≠ [] → tags.length < numTags
        · rw [parseLoop_item i hi (hv.item hi) hn, hrej]
        obtain ⟨hb, hn⟩ : i.bindings ≠ [] ∧ numTags ≤ tags.length := by simpa using hn
        exact parseLoop_full i hi hb hn
    · exact .inr (.inl ⟨[], r, by simp, hb, rfl⟩)
    · exact .inr (.inr (hrej numTags fuel l tags hf))

end Parse

end Liblog
