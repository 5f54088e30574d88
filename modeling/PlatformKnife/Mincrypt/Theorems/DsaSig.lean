import PlatformKnife.Lib.Der
import PlatformKnife.Mincrypt.DsaSig

namespace Mincrypt

open Bytes Slice Digits List Option UInt8 Der

-- A sequence whose length covers the rest, of two integers with these contents.
structure Layout (sig r s : List UInt8) : Prop where
  r_ne : r ≠ []
  s_ne : s ≠ []
  lt   : r.length + s.length + 4 < 256
  eq   : sig = 0x30 :: UInt8.ofNat (r.length + s.length + 4) ::
           0x02 :: UInt8.ofNat r.length :: (r ++ 0x02 :: UInt8.ofNat s.length :: s)

-- What is to be expected of `dsa_sig_unpack` for a signature.
structure Unpacks (sig : List UInt8) : Prop where
  inside   : dsaSigUnpack sig ≠ none
  complete : ∀ r s, 0 < r → r < 2 ^ 256 → 0 < s → s < 2 ^ 256 →
    sig = Der.sequence [Der.integer r, Der.integer s] →
      ∃ x y, dsaSigUnpack sig = some (some (x, y)) ∧ x.value = r ∧ y.value = s
  sound    : ∀ x y, dsaSigUnpack sig = some (some (x, y)) →
    x.value ≠ 0 ∧ y.value ≠ 0 ∧ ∃ r s, Layout sig r s ∧ fromBe r = x.value ∧ fromBe s = y.value

-- The bytes without the zeros in front.
def trimmed (l : List UInt8) : List UInt8 :=
  l.dropWhile (· = 0)

theorem fromBe_trimmed (l : List UInt8) : fromBe (trimmed l) = fromBe l := by
  induction l
  case nil => rfl
  case cons b l hi =>
    rw [trimmed, dropWhile_cons]
    split
    case isTrue h =>
      rw [decide_eq_true_iff] at h
      rw [← trimmed, hi, fromBe_cons, h]
      simp
    case isFalse => rfl

theorem trimmed_head (h : trimmed l = b :: t) : b ≠ 0 := by
  have hd := head?_dropWhile_not (fun c : UInt8 => decide (c = 0)) l
  rw [← trimmed, h] at hd
  simpa using hd

theorem trimmed_eq_nil_iff (l : List UInt8) : trimmed l = [] ↔ fromBe l = 0 := by
  rw [← fromBe_trimmed]
  rcases h : trimmed l with _ | ⟨b, t⟩
  · simp
  have hb : b.toNat ≠ 0 := fun hz => trimmed_head h (toNat.inj hz)
  have := Nat.mul_ne_zero hb (pow_ne_zero t.length (show 256 ≠ 0 by decide))
  rw [fromBe_cons]
  simp only [reduceCtorEq, false_iff]
  omega

theorem trimmed_length_le_iff (l : List UInt8) :
    (trimmed l).length ≤ P256_NBYTES ↔ fromBe l < 2 ^ 256 := by
  rw [← fromBe_trimmed, show 2 ^ 256 = 256 ^ P256_NBYTES by decide]
  constructor <;> intro h
  case mp => exact lt_of_lt_of_le (fromBe_lt _) (Nat.pow_le_pow_right (by decide) h)
  case mpr =>
    rcases ht : trimmed l with _ | ⟨b, t⟩
    · simp
    have hb : 0 < b.toNat := pos_of_ne_zero fun hz => trimmed_head ht (toNat.inj hz)
    rw [ht, fromBe_cons] at h
    have hp : 256 ^ t.length < 256 ^ P256_NBYTES :=
      calc 256 ^ t.length ≤ b.toNat * 256 ^ t.length := Nat.le_mul_of_pos_left _ hb
        _ ≤ b.toNat * 256 ^ t.length + fromBe t := Nat.le_add_right _ _
        _ < 256 ^ P256_NBYTES := h
    exact (Nat.pow_lt_pow_iff_right (by decide)).mp hp

variable {pre l post sig r s : List UInt8}

-- The loop stops at the first byte that is not zero. Without one it reads on.
theorem skipZeros_eq : skipZeros (pre ++ l ++ post) pre.length l.length =
    if trimmed l = [] then post.head?.map fun _ => (pre.length + l.length, 0)
    else some (pre.length + (l.length - (trimmed l).length), (trimmed l).length) := by
  induction l generalizing pre
  case nil =>
    simp only [append_nil, length_nil, skipZeros, trimmed, dropWhile_nil, if_true]
    rw [getElem?_append_right (le_refl _), Nat.sub_self, ← head?_eq_getElem?]
    cases post <;> rfl
  case cons b l hi =>
    have hb : (pre ++ b :: l ++ post)[pre.length]? = some b := by simp
    rw [length_cons, skipZeros, hb]
    simp only [bind_eq_bind, bind_some]
    split
    case isTrue h =>
      have ht : trimmed (b :: l) = trimmed l := by simp [trimmed, h]
      have hle : (trimmed l).length ≤ l.length := (dropWhile_sublist _).length_le
      have hi := @hi (pre ++ [b])
      simp only [length_append, length_singleton, append_assoc, singleton_append] at hi
      rw [ht, append_assoc, hi]
      rw [show pre.length + 1 + l.length = pre.length + (l.length + 1) by omega,
        show pre.length + 1 + (l.length - (trimmed l).length) =
          pre.length + (l.length + 1 - (trimmed l).length) by omega]
    case isFalse h =>
      have ht : trimmed (b :: l) = b :: l := by simp [trimmed, h]
      simp [ht]

-- What the bytes are trimmed to.
def padded (l : List UInt8) : List UInt8 :=
  List.replicate (P256_NBYTES - (trimmed l).length) 0 ++ trimmed l

theorem trimToP256Bytes_eq : trimToP256Bytes (pre ++ l ++ post) pre.length l.length =
    if fromBe l = 0 then post.head?.map fun _ => none
    else some (if 2 ^ 256 ≤ fromBe l then none else some (padded l)) := by
  have hn : 2 ^ 256 ≤ fromBe l ↔ ¬(trimmed l).length ≤ P256_NBYTES := by
    rw [trimmed_length_le_iff, not_lt]
  simp only [trimToP256Bytes, skipZeros_eq, ← trimmed_eq_nil_iff, hn]
  split
  case isTrue => cases post <;> rfl
  case isFalse h =>
    have hpos := length_pos_of_ne_nil h
    have ht : l.drop (l.length - (trimmed l).length) = trimmed l :=
      (suffix_iff_eq_drop.mp (dropWhile_suffix _)).symm
    simp only [bind_eq_bind, bind_some]
    by_cases hle : (trimmed l).length ≤ P256_NBYTES
    case neg => rw [if_pos (by omega), if_pos hle]; rfl
    have hl : (trimmed l).length ≤ l.length := (dropWhile_sublist _).length_le
    have hm : memcpy (pre ++ l ++ post) (pre.length + (l.length - (trimmed l).length))
        (trimmed l).length = some (trimmed l) := by
      rw [memcpy, if_pos (by simp only [length_append]; omega), slice,
        take_append_of_le_length (by simp only [length_append]; omega),
        take_of_length_le (by simp only [length_append]; omega), drop_append,
        drop_of_length_le (by omega), Nat.add_sub_cancel_left, ht]
      rfl
    rw [if_neg (by omega), if_neg (not_not_intro hle), hm]
    rfl

theorem padded_length (h : fromBe l < 2 ^ 256) : (padded l).length = P256_NBYTES := by
  have := (trimmed_length_le_iff l).mpr h
  simp only [padded, length_append, length_replicate]
  omega

theorem value_fromBin (h : fromBe l < 2 ^ 256) : (P256Int.fromBin (toPtr (padded l))).value = fromBe l := by
  have hp : ofPtr (toPtr (padded l)) (4 * P256_NDIGITS) = padded l := by
    rw [show 4 * P256_NDIGITS = P256_NBYTES from rfl, ← padded_length h, ofPtr_toPtr]
  rw [P256Int.value, P256Int.fromBin, value_ofBin, hp, padded, fromBe_replicate_zero, fromBe_trimmed]

theorem Layout.unpack (h : Layout sig r s) : dsaSigUnpack sig =
    if fromBe r = 0 ∨ 2 ^ 256 ≤ fromBe r then some none
    else if fromBe s = 0 then none
    else if 2 ^ 256 ≤ fromBe s then some none
    else some (some (.fromBin (toPtr (padded r)), .fromBin (toPtr (padded s)))) := by
  have hr := length_pos_of_ne_nil h.r_ne
  have hs := length_pos_of_ne_nil h.s_ne
  have hlt := h.lt
  have hl : sig.length = r.length + s.length + 6 := by
    rw [h.eq]
    simp only [length_cons, length_append]
    omega
  have h₁ : (ofNat (r.length + s.length + 4)).toNat = r.length + s.length + 4 := by
    rw [toNat_ofNat_of_lt' hlt]
  have h₃ : (ofNat r.length).toNat = r.length := by
    rw [toNat_ofNat_of_lt' (by simp only [size]; omega)]
  have h₅ : (ofNat s.length).toNat = s.length := by
    rw [toNat_ofNat_of_lt' (by simp only [size]; omega)]
  have htr : trimToP256Bytes sig 4 r.length =
      some (if fromBe r = 0 ∨ 2 ^ 256 ≤ fromBe r then none else some (padded r)) := by
    have ht := @trimToP256Bytes_eq [0x30, ofNat (r.length + s.length + 4), 0x02, ofNat r.length] r
      (0x02 :: ofNat s.length :: s)
    rw [h.eq]
    refine ht.trans ?_
    by_cases hz : fromBe r = 0 <;> simp [hz]
  have hts : trimToP256Bytes sig (6 + r.length) s.length = if fromBe s = 0 then none
      else some (if 2 ^ 256 ≤ fromBe s then none else some (padded s)) := by
    have ht := @trimToP256Bytes_eq
      (0x30 :: ofNat (r.length + s.length + 4) :: 0x02 :: ofNat r.length ::
        (r ++ [0x02, ofNat s.length])) s []
    simp only [length_cons, length_append, length_nil, append_nil,
      cons_append, append_assoc, nil_append, head?_nil, map_none] at ht
    rw [h.eq, show 6 + r.length = r.length + (0 + 1 + 1) + 1 + 1 + 1 + 1 by omega]
    exact ht
  have hg₀ : sig[0]? = some 0x30 := by rw [h.eq]; rfl
  have hg₁ : sig[1]? = some (ofNat (r.length + s.length + 4)) := by rw [h.eq]; rfl
  have hg₂ : sig[2]? = some 0x02 := by rw [h.eq]; rfl
  have hg₃ : sig[3]? = some (ofNat r.length) := by rw [h.eq]; rfl
  have hg₄ : sig[4 + r.length]? = some 0x02 := by
    rw [h.eq]
    simp [add_comm 4]
  have hg₅ : sig[5 + r.length]? = some (ofNat s.length) := by
    rw [h.eq]
    simp [show 5 + r.length = r.length + 1 + 1 + 1 + 1 + 1 by omega]
  simp only [dsaSigUnpack, hg₀, hg₁, hg₂, hg₃, h₁, h₃, hg₄, hg₅, h₅, bind_eq_bind, bind_some, htr, hts, hl]
  rw [if_neg (by omega), if_neg (by simp), if_neg (by simp), if_neg (by omega), if_neg (by omega),
    if_neg (by simp), if_neg (by omega)]
  by_cases hr : fromBe r = 0 ∨ 2 ^ 256 ≤ fromBe r
  case pos => simp only [if_pos hr]; rfl
  simp only [if_neg hr]
  by_cases hz : fromBe s = 0
  case pos => simp only [if_pos hz]; rfl
  simp only [if_neg hz]
  by_cases hs : 2 ^ 256 ≤ fromBe s
  case pos => simp only [if_pos hs]; rfl
  case neg => simp only [if_neg hs]; rfl

theorem unpack_cases (sig : List UInt8) : dsaSigUnpack sig = some none ∨ ∃ r s, Layout sig r s := by
  rw [dsaSigUnpack]
  split
  case isTrue => exact .inl rfl
  case isFalse hn =>
    rcases sig with _ | ⟨b₀, _ | ⟨b₁, _ | ⟨b₂, _ | ⟨b₃, l⟩⟩⟩⟩
    case cons.cons.cons.cons =>
      simp only [getElem?_cons_zero, getElem?_cons_succ, bind_eq_bind,
        bind_some, length_cons, ne_eq, ite_not] at hn ⊢
      split
      case isFalse => exact .inl rfl
      case isTrue h₀ =>
      split
      case isFalse => exact .inl rfl
      case isTrue h₂ =>
      split
      case isTrue => exact .inl rfl
      case isFalse h₁ =>
      split
      case isTrue => exact .inl rfl
      case isFalse h₃ =>
      have hx : (4 + b₃.toNat) = b₃.toNat + 1 + 1 + 1 + 1 := by omega
      have hy : (5 + b₃.toNat) = b₃.toNat + 1 + 1 + 1 + 1 + 1 := by omega
      -- There is room for the header of the second integer behind the first.
      obtain ⟨x, y, s, hs⟩ : ∃ x y s, l.drop b₃.toNat = x :: y :: s := by
        rcases hd : l.drop b₃.toNat with _ | ⟨x, _ | ⟨y, s⟩⟩
        case cons.cons => exact ⟨x, y, s, rfl⟩
        all_goals
          have := congrArg length hd
          simp only [length_drop, length_cons, length_nil] at this
          omega
      have hgx : l[b₃.toNat]? = some x := by
        rw [← add_zero b₃.toNat, ← getElem?_drop, hs]
        rfl
      have hgy : l[b₃.toNat + 1]? = some y := by
        rw [← getElem?_drop, hs]
        rfl
      have hl : l.length = b₃.toNat + s.length + 2 := by
        have := congrArg length hs
        simp only [length_drop, length_cons] at this
        omega
      simp only [hx, hy, getElem?_cons_succ, hgx, hgy, bind_some]
      split
      case isFalse => exact .inl rfl
      case isTrue h₄ =>
      split
      case isTrue => exact .inl rfl
      case isFalse h₅ =>
      have hr : (l.take b₃.toNat).length = b₃.toNat := by
        rw [length_take]
        omega
      refine .inr ⟨l.take b₃.toNat, s, ?_, ?_, ?_, ?_⟩
      · exact ne_nil_of_length_pos (by omega)
      · exact ne_nil_of_length_pos (by omega)
      · have := b₁.toNat_lt; omega
      · have hb₁ : UInt8.ofNat ((l.take b₃.toNat).length + s.length + 4) = b₁ := by
          rw [hr, ← UInt8.ofNat_toNat (x := b₁)]
          congr 1
          omega
        have hb₅ : UInt8.ofNat s.length = y := by
          rw [← UInt8.ofNat_toNat (x := y)]
          congr 1
          omega
        rw [hb₁, hr, UInt8.ofNat_toNat, hb₅, h₀, h₂, ← h₄, ← hs, take_append_drop]
    all_goals simp at hn

theorem Layout.of_der (hm : m < 2 ^ 256) (hn : n < 2 ^ 256) :
    Layout (sequence [integer m, integer n]) (integerContent m) (integerContent n) := by
  have hp : 2 ^ 256 = 256 ^ 32 := by decide
  obtain ⟨hm₁, hm₂⟩ := integerContent_length (hp ▸ hm)
  obtain ⟨hn₁, hn₂⟩ := integerContent_length (hp ▸ hn)
  constructor
  case r_ne => exact ne_nil_of_length_pos hm₁
  case s_ne => exact ne_nil_of_length_pos hn₁
  case lt => omega
  case eq =>
    rw [Der.sequence, Der.integer, Der.integer, Der.tlv_of_lt 0x02 (by omega),
      Der.tlv_of_lt 0x02 (by omega), Der.tlv_of_lt]
    case h =>
      simp only [flatten_cons, flatten_nil, length_append, length_cons, length_nil]
      omega
    simp only [flatten_cons, flatten_nil, append_nil, cons_append, length_append, length_cons]
    congr 3

-- The second integer must not be zero if the first is fine, as nothing follows it.
theorem unpacks_iff (sig : List UInt8) : Unpacks sig ↔
    ∀ r s, Layout sig r s → 0 < fromBe r → fromBe r < 2 ^ 256 → fromBe s ≠ 0 := by
  constructor
  case mp =>
    intro h r s hl h₀ hr hs
    apply h.inside
    rw [hl.unpack, if_neg (by omega), if_pos hs]
  case mpr =>
    intro h
    constructor
    case inside =>
      rcases unpack_cases sig with hn | ⟨r, s, hl⟩
      case inl => simp [hn]
      rw [hl.unpack]
      split
      case isTrue => simp
      case isFalse hr =>
        rw [if_neg (h r s hl (by omega) (by omega))]
        split <;> simp
    case complete =>
      intro m n hm₀ hm hn₀ hn hd
      have hl := Layout.of_der hm hn
      rw [← hd] at hl
      have hu := hl.unpack
      rw [fromBe_integerContent, fromBe_integerContent, if_neg (by omega), if_neg (by omega),
        if_neg (by omega)] at hu
      refine ⟨_, _, hu, ?_, ?_⟩
      all_goals
        rw [value_fromBin, fromBe_integerContent]
        rwa [fromBe_integerContent]
    case sound =>
      intro x y hu
      rcases unpack_cases sig with hn | ⟨r, s, hl⟩
      case inl => simp [hn] at hu
      rw [hl.unpack] at hu
      split at hu
      case isTrue => simp at hu
      case isFalse hr =>
        split at hu
        case isTrue => simp at hu
        case isFalse hz =>
          split at hu
          case isTrue => simp at hu
          case isFalse hs =>
            simp only [some.injEq, Prod.mk.injEq] at hu
            have hx : x.value = fromBe r := by rw [← hu.left, value_fromBin (by omega)]
            have hy : y.value = fromBe s := by rw [← hu.right, value_fromBin (by omega)]
            exact ⟨by omega, by omega, r, s, hl, hx.symm, hy.symm⟩

-- A one and a zero.
theorem not_unpacks_zero : ¬Unpacks [0x30, 6, 0x02, 1, 1, 0x02, 1, 0] :=
  fun h => h.inside rfl

end Mincrypt
