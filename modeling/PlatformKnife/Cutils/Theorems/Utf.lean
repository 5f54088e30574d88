import PlatformKnife.Cutils.Utf
import PlatformKnife.Lib.CString

namespace Utf

open CInt List Nat

theorem char_spec : ∀ (signed : Bool) (c : BitVec 8),
    isExtension signed ⟨c⟩ = decide (128 ≤ c.toNat ∧ c.toNat < 192) ∧
    seqLength signed ⟨c⟩ =
      (if c.toNat < 192 then 1 else if c.toNat < 224 then 2 else if c.toNat < 240 then 3 else 4) ∧
    (isExtension signed ⟨c⟩ = false → (leader signed ⟨c⟩).toNat =
      if c.toNat < 192 then c.toNat else c.toNat % 2 ^ (7 - seqLength signed ⟨c⟩)) ∧
    (0x3f &&& int signed ⟨c⟩).toNat = c.toNat % 64 := by
  decide +kernel

section

variable (signed : Bool) (c : UInt8)

theorem isExtension_eq : isExtension signed c = decide (128 ≤ c.toNat ∧ c.toNat < 192) :=
  (char_spec signed c.toBitVec).left

theorem seqLength_eq : seqLength signed c =
    if c.toNat < 192 then 1 else if c.toNat < 224 then 2 else if c.toNat < 240 then 3 else 4 :=
  (char_spec signed c.toBitVec).right.left

theorem leader_toNat (h : isExtension signed c = false) : (leader signed c).toNat =
    if c.toNat < 192 then c.toNat else c.toNat % 2 ^ (7 - seqLength signed c) :=
  (char_spec signed c.toBitVec).right.right.left h

theorem leader_le (h : isExtension signed c = false) (h₄ : seqLength signed c ≠ 4) :
    ((leader signed c).toNat + 1) * 64 ^ (seqLength signed c - 1) ≤ 2 ^ 16 := by
  have hl := leader_toNat signed c h
  rw [isExtension_eq] at h
  rw [seqLength_eq] at h₄ hl ⊢
  grind

theorem isExtension_zero : isExtension signed 0 = false := by
  rw [isExtension_eq]
  rfl

theorem seqLength_bounds : 1 ≤ seqLength signed c ∧ seqLength signed c ≤ 4 := by
  rw [seqLength_eq]
  split <;> [simp; split <;> [simp; split <;> simp]]

end

-- One more byte of a sequence whose value has not more than 21 bits.
theorem shift_toNat (signed : Bool) (c : UInt8) {ret : BitVec 32} (h : ret.toNat < 2 ^ 21) :
    ((ret <<< 6) ||| (0x3f &&& int signed c)).toNat = ret.toNat * 64 + c.toNat % 64 := by
  have hc : (0x3f &&& int signed c).toNat = c.toNat % 64 :=
    (char_spec signed c.toBitVec).right.right.right
  have hs : ret.toNat <<< 6 % 2 ^ 32 = ret.toNat <<< 6 := by
    rw [shiftLeft_eq]
    omega
  rw [BitVec.toNat_or, hc, BitVec.toNat_shiftLeft, hs,
    ← shiftLeft_add_eq_or_of_lt (by omega : c.toNat % 64 < 2 ^ 6), shiftLeft_eq]

theorem shift_le (signed : Bool) (c : UInt8) {ret : BitVec 32}
    (h : (ret.toNat + 1) * 64 ^ (n + 1) ≤ 2 ^ 16) :
    ((ret <<< 6) ||| (0x3f &&& int signed c)).toNat = ret.toNat * 64 + c.toNat % 64 ∧
      (((ret <<< 6) ||| (0x3f &&& int signed c)).toNat + 1) * 64 ^ n ≤ 2 ^ 16 := by
  have hp : 1 ≤ 64 ^ n := one_le_pow _ _ (by decide)
  rw [pow_succ] at h
  have hs := shift_toNat signed c (by nlinarith : ret.toNat < 2 ^ 21)
  refine ⟨hs, ?_⟩
  rw [hs]
  calc (ret.toNat * 64 + c.toNat % 64 + 1) * 64 ^ n
      ≤ ((ret.toNat + 1) * 64) * 64 ^ n := Nat.mul_le_mul_right _ (by omega)
    _ = (ret.toNat + 1) * (64 ^ n * 64) := by ring
    _ ≤ 2 ^ 16 := h

theorem units_length (ret : BitVec 32) : (units ret).length ≤ 2 := by
  unfold units
  split <;> [simp; split <;> simp]

theorem units_of_lt (h : ret.toNat < 2 ^ 16) : units ret = [.ofNat ret.toNat] :=
  if_pos (by rw [BitVec.le_def]; exact le_of_lt_succ h)

variable {signed : Bool}

-- The bytes of a sequence are extension bytes, up to the length from the lead byte or the first that is
-- not one. Otherwise the loop reads on behind the end.
theorem extensionLoop_cases (n : Nat) (ret : BitVec 32) (l : List UInt8) :
    (∃ t r v, l = t ++ r ∧ (∀ c ∈ t, isExtension signed c) ∧ t.length ≤ n ∧
      (∀ m, extensionLoop signed n ret (l ++ m) = .ok (v, r ++ m)) ∧
      (t.length < n → v.toNat < 2 ^ 16 ∧ ∃ c ∈ r.head?, isExtension signed c = false) ∧
      ((ret.toNat + 1) * 64 ^ n ≤ 2 ^ 16 → v.toNat < 2 ^ 16)) ∨
    ((∀ c ∈ l, isExtension signed c) ∧ l.length < n ∧
      extensionLoop signed n ret l = .error .overread) := by
  induction n generalizing ret l
  case zero => exact .inl ⟨[], l, ret, by simp [extensionLoop]⟩
  case succ n hi =>
    obtain _ | ⟨c, l⟩ := l
    · exact .inr (by simp [extensionLoop])
    by_cases hc : isExtension signed c
    case neg =>
      refine .inl ⟨[], c :: l, UTF16_REPLACEMENT_CHAR, ?_⟩
      simp [extensionLoop, hc, UTF16_REPLACEMENT_CHAR]
    have hz : c ≠ 0 := fun hz => by simp [hz, isExtension_zero] at hc
    have he (l : List UInt8) : extensionLoop signed (n + 1) ret (c :: l) =
        extensionLoop signed n ((ret <<< 6) ||| (0x3f &&& int signed c)) l := by
      simp [extensionLoop, hz, hc]
    simp only [cons_append, he]
    rcases hi ((ret <<< 6) ||| (0x3f &&& int signed c)) l with ⟨t, r, v, rfl, h⟩ | h
    case inr => exact .inr (by simpa [hc] using h)
    refine .inl ⟨c :: t, r, v, rfl, ?_, ?_, h.right.right.left, ?_, fun hv => ?_⟩
    case refine_1 => simpa [hc] using h.left
    case refine_2 => simpa using h.right.left
    case refine_3 => simpa using h.right.right.right.left
    case refine_4 => exact h.right.right.right.right (shift_le signed c hv).right

-- What a call takes from the bytes behind the one it starts at.
structure Taken (signed : Bool) (c : UInt8) (t r : List UInt8) (v : BitVec 32) : Prop where
  extensions : ∀ c ∈ t, isExtension signed c
  length_le  : t.length + 1 ≤ seqLength signed c
  stopped    : t.length + 1 < seqLength signed c → ∃ c ∈ r.head?, isExtension signed c = false
  units_le   : (units v).length ≤ if seqLength signed c = 4 then 2 else 1
  units_le_t : (units v).length ≤ t.length + 1

theorem seqLength_of_isExtension (h : isExtension signed c) : seqLength signed c = 1 := by
  rw [isExtension_eq, decide_eq_true_eq] at h
  rw [seqLength_eq, if_pos h.right]

theorem getUtf32FromUtf8_cases (signed : Bool) (hc : c ≠ 0) (l : List UInt8) :
    (∃ t r v, l = t ++ r ∧ (∀ m, getUtf32FromUtf8 signed (c :: l ++ m) = .ok (v, r ++ m)) ∧
      Taken signed c t r v) ∨
    (isExtension signed c = false ∧ (∀ c ∈ l, isExtension signed c) ∧
      l.length + 1 < seqLength signed c ∧ getUtf32FromUtf8 signed (c :: l) = .error .overread) := by
  by_cases he : isExtension signed c
  case pos =>
    have hs := seqLength_of_isExtension he
    exact .inl ⟨[], l, UTF16_REPLACEMENT_CHAR, rfl, by simp [getUtf32FromUtf8, he],
      by simp, by simp [hs], by simp [hs], by simp [hs, units, UTF16_REPLACEMENT_CHAR],
      by simp [units, UTF16_REPLACEMENT_CHAR]⟩
  have hn := seqLength_bounds signed c
  have hg (l : List UInt8) : getUtf32FromUtf8 signed (c :: l) =
      extensionLoop signed (seqLength signed c - 1) (leader signed c) l := by
    simp [getUtf32FromUtf8, he, hc]
  simp only [cons_append, hg]
  rcases extensionLoop_cases (seqLength signed c - 1) (leader signed c) l with
    ⟨t, r, v, rfl, ht, hl, hv, hs, hb⟩ | ⟨ha, hl, hv⟩
  case inr => exact .inr ⟨by simpa using he, ha, by omega, hv⟩
  case inl =>
    have hb (h : seqLength signed c ≠ 4) : (units v).length = 1 := by
      rw [units_of_lt (hb (leader_le signed c (by simpa using he) h)), length_singleton]
    have hu := units_length v
    refine .inl ⟨t, r, v, rfl, hv, ht, by omega, fun h => (hs (by omega)).right, ?_, ?_⟩
    case refine_1 => split <;> omega
    case refine_2 =>
      by_cases h : t.length < seqLength signed c - 1
      case pos => simp [units_of_lt (hs h).left]
      case neg => omega

-- Extension bytes that are expected are not counted.
theorem strlenLoop_extensions (ht : ∀ c ∈ t, isExtension signed c) (he : t.length ≤ e)
    (len : Nat) : strlenLoop signed len e (t ++ r) = strlenLoop signed len (e - t.length) r := by
  induction t generalizing e
  case nil => simp
  case cons c t hi =>
    simp only [forall_mem_cons, length_cons] at ht he ⊢
    have hz : c ≠ 0 := fun hz => by simp [hz, isExtension_zero] at ht
    rw [cons_append, strlenLoop, if_neg hz, if_pos ht.left, if_neg (by omega), if_neg (by omega),
      hi ht.right (by omega)]
    congr 1
    push_cast
    ring

section Loop

variable (atEnd : List UInt8 → Except Fault Bool)

theorem copyLoop_end (h : atEnd l = .ok true) (fuel : Nat) :
    copyLoop signed atEnd (fuel + 1) l = .ok [] := by
  simp [copyLoop, h]
  rfl

theorem copyLoop_step (h : atEnd l = .ok false) (hg : getUtf32FromUtf8 signed l = .ok (v, r))
    (fuel : Nat) : copyLoop signed atEnd (fuel + 1) l =
      (units v ++ ·) <$> copyLoop signed atEnd fuel r := by
  simp [copyLoop, h, hg]
  rfl

theorem copyLoop_ok (h : atEnd l = .ok false) (hc : copyLoop signed atEnd (fuel + 1) l = .ok us) :
    ∃ v r us, getUtf32FromUtf8 signed l = .ok (v, r) ∧ copyLoop signed atEnd fuel r = .ok us := by
  rcases hg : getUtf32FromUtf8 signed l with e | ⟨v, r⟩
  case error =>
    rw [copyLoop, h, hg] at hc
    change Except.error e = _ at hc
    simp at hc
  case ok =>
    rw [copyLoop_step atEnd h hg] at hc
    rcases hr : copyLoop signed atEnd fuel r with e | us'
    case error => simp [hr] at hc
    case ok => exact ⟨v, r, us', rfl, hr⟩

end Loop

-- The string is copied completely, and what is written was counted.
theorem strcpy8to16_le (signed : Bool) (h : 0 ∈ l) :
    ∃ us, (∀ fuel ≥ l.length, strcpy8to16 signed fuel l = .ok us) ∧
      ∀ len e n, (e ≤ 0 ∨ ∃ c ∈ l.head?, isExtension signed c = false) →
        strlenLoop signed len e l = .ok n → len + us.length ≤ n := by
  induction hl : l.length using Nat.strong_induction_on generalizing l
  case _ k hi =>
  subst hl
  obtain ⟨c, l, rfl⟩ := exists_cons_of_ne_nil (ne_nil_of_mem h)
  by_cases hc : c = 0
  case pos =>
    subst hc
    refine ⟨[], fun fuel hf => ?_, fun len e n _ hn => ?_⟩
    case refine_1 =>
      obtain ⟨fuel, rfl⟩ := Nat.exists_eq_add_of_lt (lt_of_lt_of_le (succ_pos _) hf)
      rw [zero_add]
      exact copyLoop_end atNul (by simp [atNul]) fuel
    case refine_2 =>
      obtain rfl : len = n := by simpa [strlenLoop] using hn
      simp
  have hl : 0 ∈ l := by simpa [Ne.symm hc] using h
  rcases getUtf32FromUtf8_cases signed hc l with ⟨t, r, v, rfl, hg, hk⟩ | ⟨_, ha, _⟩
  case inr => simpa [isExtension_zero] using ha 0 hl
  have hr : 0 ∈ r := by
    rcases mem_append.mp hl with ht | hr
    case inl => simpa [isExtension_zero] using hk.extensions 0 ht
    case inr => exact hr
  obtain ⟨us, hus, hn⟩ := hi r.length (by simp) hr rfl
  have hg := hg []
  rw [append_nil, append_nil] at hg
  refine ⟨units v ++ us, fun fuel hf => ?_, fun len e n he h => ?_⟩
  case refine_1 =>
    obtain ⟨fuel, rfl⟩ := Nat.exists_eq_add_of_lt (lt_of_lt_of_le (succ_pos _) hf)
    simp only [length_cons, length_append] at hf
    have hstep := copyLoop_step atNul (by simp [atNul, hc]) hg (0 + fuel)
    have hf := hus (0 + fuel) (by omega)
    rw [strcpy8to16] at hf ⊢
    rw [hstep, hf]
    rfl
  case refine_2 =>
    rw [strlenLoop, if_neg hc] at h
    have hunits := hk.units_le
    rw [length_append]
    split at h
    case isTrue hx =>
      have hs := seqLength_of_isExtension hx
      have ht : t = [] := eq_nil_of_length_eq_zero (by have := hk.length_le; omega)
      have he : e ≤ 0 := by simpa [hx] using he
      rw [if_neg (by omega)] at hunits
      rw [ht, if_pos (by omega : e - 1 < 0)] at h
      split at h
      case isTrue  => simp at h
      have := hn _ _ _ (.inl (by omega)) h
      omega
    case isFalse hx =>
      have hs := hk.length_le
      rw [strlenLoop_extensions hk.extensions (by omega)] at h
      have := hn _ _ _ ?_ h
      case refine_1 =>
        rcases hs.lt_or_eq with hlt | heq
        case inl => exact .inr (hk.stopped hlt)
        case inr => exact .inl (by omega)
      split at hunits <;> split at this <;> omega

section Overflow

-- Not more than `2 ^ 31` extension bytes follow each other without being expected.
def ShortRuns (signed : Bool) (s : List UInt8) : Prop :=
  (s.takeWhile (isExtension signed)).length ≤ 2 ^ 31 ∧
  ∀ c t, c :: t <:+ s → isExtension signed c = false →
    (t.takeWhile (isExtension signed)).length ≤ 2 ^ 31 + (seqLength signed c - 1)

theorem strlenLoop_ok_iff (h : 0 ∉ s) (he : -2 ^ 31 ≤ e) (len : Nat) :
    (∃ n, strlenLoop signed len e (s ++ [0]) = .ok n) ↔
      (s.takeWhile (isExtension signed)).length ≤ 2 ^ 31 + e ∧
      ∀ c t, c :: t <:+ s → isExtension signed c = false →
        (t.takeWhile (isExtension signed)).length ≤ 2 ^ 31 + (seqLength signed c - 1) := by
  induction s generalizing len e
  case nil => simp [strlenLoop]; omega
  case cons c s hi =>
    simp only [mem_cons, not_or] at h
    rw [cons_append, strlenLoop, if_neg (Ne.symm h.left)]
    simp only [suffix_cons_iff]
    by_cases hc : isExtension signed c
    case pos =>
      rw [if_pos hc, takeWhile_cons_of_pos hc, length_cons]
      split
      case isTrue  => simp; omega
      rw [hi h.right (by omega)]
      refine and_congr (by omega) ⟨fun h c' t => ?_, fun h c' t ht => h c' t (.inr ht)⟩
      rintro (he | ht) hn
      case inl => simp [(cons.inj he).left, hc] at hn
      case inr => exact h c' t ht hn
    have hlen := seqLength_bounds signed c
    rw [if_neg hc, takeWhile_cons_of_neg hc, hi h.right (by omega)]
    constructor
    case mp =>
      rintro ⟨hr, hs⟩
      refine ⟨by simp; omega, fun c' t => ?_⟩
      rintro (he | ht) hn
      case inl =>
        obtain ⟨rfl, rfl⟩ := cons.inj he
        omega
      case inr => exact hs c' t ht hn
    case mpr =>
      rintro ⟨_, hs⟩
      have := hs c s (.inl rfl) (by simpa using hc)
      exact ⟨by omega, fun c' t ht => hs c' t (.inr ht)⟩

-- The copy ends, reads nothing behind the terminator, and what it writes fits.
def CopyFits (signed : Bool) (s : List UInt8) : Prop :=
  ∃ n us k, strlen8to16 signed (s ++ [0]) = .ok n ∧ us.length ≤ n ∧ ∀ fuel ≥ k,
    strcpy8to16 signed fuel (s ++ [0]) = .ok us ∧ ∃ r, strdup8to16 signed fuel (s ++ [0]) = .ok r

theorem copyFits_iff (signed : Bool) (s : CString.Str) :
    CopyFits signed s.bytes ↔ ShortRuns signed s.bytes := by
  have hiff : (∃ n, strlen8to16 signed (s.bytes ++ [0]) = .ok n) ↔ ShortRuns signed s.bytes := by
    rw [ShortRuns, ← Int.ofNat_le, ← add_zero ((2 ^ 31 : Nat) : Int)]
    exact strlenLoop_ok_iff s.no_zero (by decide) 0
  constructor
  case mp  =>
    rintro ⟨n, _, _, hn, _⟩
    exact hiff.mp ⟨n, hn⟩
  case mpr =>
    intro h
    obtain ⟨n, hn⟩ := hiff.mpr h
    obtain ⟨us, hus, hle⟩ := strcpy8to16_le signed (by simp : 0 ∈ s.bytes ++ [0])
    have hle : us.length ≤ n := by simpa using hle 0 0 n (.inl le_rfl) hn
    refine ⟨n, us, _, hn, hle, fun fuel hf => ⟨hus fuel hf, ?_⟩⟩
    by_cases hz : n ≠ 0 ∧ (2 ^ 64 - 1) / n < 2
    case pos =>
      refine ⟨none, ?_⟩
      rw [strdup8to16, hn]
      exact if_pos hz
    refine ⟨some us, ?_⟩
    rw [strdup8to16, hn, hus fuel hf]
    exact (if_neg hz).trans (if_pos hle)

theorem not_copyFits_replicate (h : 2 ^ 31 < n) : ¬CopyFits signed (replicate n 0x80) := by
  rintro ⟨_, _, _, hn, _⟩
  have hr := ((strlenLoop_ok_iff (by simp) (by decide) 0).mp ⟨_, hn⟩).left
  have hx : isExtension signed 0x80 := by rw [isExtension_eq]; rfl
  rw [takeWhile_replicate, if_pos hx, length_replicate] at hr
  omega

theorem not_copyFits_long : ¬CopyFits true (List.replicate (2 ^ 31 + 1) 0x80) :=
  not_copyFits_replicate (lt_succ_self _)

end Overflow

section Bounded

-- The bytes do not end inside a sequence.
def Complete (signed : Bool) (l : List UInt8) : Prop :=
  ∀ c t, c :: t <:+ l → (∀ c ∈ t, isExtension signed c) → isExtension signed c = false →
    seqLength signed c ≤ t.length + 1

theorem complete_cons_iff : Complete signed (c :: l) ↔
    ((∀ c ∈ l, isExtension signed c) → isExtension signed c = false →
      seqLength signed c ≤ l.length + 1) ∧ Complete signed l := by
  simp only [Complete, suffix_cons_iff, or_imp, forall_and]
  refine and_congr_left fun _ => ⟨fun h => h c l rfl, fun h c' t he => ?_⟩
  obtain ⟨rfl, rfl⟩ := cons.inj he
  exact h

theorem complete_append_iff (h : ∀ c ∈ t, isExtension signed c) :
    Complete signed (t ++ r) ↔ Complete signed r := by
  induction t
  case nil => rfl
  case cons c t hi =>
    simp only [forall_mem_cons] at h
    simp [complete_cons_iff, h.left, hi h.right]

theorem Taken.complete_iff (h : Taken signed c t r v) :
    Complete signed (c :: (t ++ r)) ↔ Complete signed r := by
  rw [complete_cons_iff, complete_append_iff h.extensions, and_iff_right_iff_imp]
  intro _ ha _
  by_contra hl
  obtain ⟨c', hc', hn⟩ := h.stopped (by simp at hl; omega)
  simpa [hn] using ha c' (by simp [mem_of_mem_head? hc'])

theorem strcpylen8to16_of_complete (hz : 0 ∉ l) (h : Complete signed l) :
    ∃ us, us.length ≤ l.length ∧ ∀ fuel > l.length,
      strcpylen8to16 signed fuel l = .ok us ∧ strcpy8to16 signed fuel (l ++ [0]) = .ok us := by
  induction hl : l.length using Nat.strong_induction_on generalizing l
  case _ k hi =>
  subst hl
  obtain _ | ⟨c, l⟩ := l
  · refine ⟨[], le_rfl, fun fuel hf => ?_⟩
    obtain ⟨fuel, rfl⟩ := Nat.exists_eq_add_of_lt hf
    exact ⟨copyLoop_end _ rfl _, copyLoop_end _ (by simp [atNul]) _⟩
  simp only [mem_cons, not_or] at hz
  rcases getUtf32FromUtf8_cases signed (Ne.symm hz.left) l with
    ⟨t, r, v, rfl, hg, hk⟩ | ⟨hc, ha, hl, _⟩
  case inr => exact absurd ((complete_cons_iff.mp h).left ha hc) (by omega)
  case inl =>
    have hr : 0 ∉ r := fun hr => hz.right (mem_append_right t hr)
    obtain ⟨us, hle, hus⟩ := hi r.length (by simp) hr (hk.complete_iff.mp h) rfl
    have hunits := hk.units_le_t
    refine ⟨units v ++ us, by simp; omega, fun fuel hf => ?_⟩
    obtain ⟨fuel, rfl⟩ := Nat.exists_eq_add_of_lt (zero_lt_of_lt hf)
    simp only [length_cons, length_append] at hf
    obtain ⟨h₁, h₂⟩ := hus (0 + fuel) (by omega)
    rw [strcpylen8to16] at h₁ ⊢
    rw [strcpy8to16] at h₂ ⊢
    rw [copyLoop_step _ rfl (by simpa using hg []), h₁,
      copyLoop_step atNul (by simp [atNul, Ne.symm hz.left]) (hg [0]), h₂]
    exact ⟨rfl, rfl⟩

theorem complete_of_strcpylen8to16 (h : strcpylen8to16 signed fuel l = .ok us) :
    0 ∉ l ∧ Complete signed l := by
  induction fuel generalizing l us
  case zero => simp [strcpylen8to16, copyLoop] at h
  case succ fuel hi =>
    obtain _ | ⟨c, l⟩ := l
    · exact ⟨by simp, by simp [Complete]⟩
    obtain ⟨v, r, us, hg, hus⟩ := copyLoop_ok _ rfl h
    obtain ⟨hz, hr⟩ := hi hus
    by_cases hc : c = 0
    case pos =>
      -- The call at a zero byte stays there.
      obtain ⟨-, rfl⟩ : leader signed c = v ∧ c :: l = r := by
        simpa [getUtf32FromUtf8, hc, isExtension_zero] using hg
      exact ⟨hz, hr⟩
    rcases getUtf32FromUtf8_cases signed hc l with ⟨t, r', v', rfl, hg', hk⟩ | ⟨_, _, _, hg'⟩
    case inr => simp [hg] at hg'
    obtain ⟨rfl, rfl⟩ := Prod.mk.inj (Except.ok.inj (hg.symm.trans (by simpa using hg' [])))
    refine ⟨?_, hk.complete_iff.mpr hr⟩
    have ht : 0 ∉ t := fun ht => by simpa [isExtension_zero] using hk.extensions 0 ht
    simp [Ne.symm hc, ht, hz]

-- The conversion ends, reads only the bytes and writes not more units than bytes.
def BoundedCopy (signed : Bool) (l : List UInt8) : Prop :=
  ∃ us k, us.length ≤ l.length ∧ ∀ fuel ≥ k, strcpylen8to16 signed fuel l = .ok us

theorem boundedCopy_iff (signed : Bool) (l : List UInt8) :
    (BoundedCopy signed l ↔ 0 ∉ l ∧ Complete signed l) ∧
    (0 ∉ l → Complete signed l → ∃ us k, ∀ fuel ≥ k,
      strcpylen8to16 signed fuel l = .ok us ∧ strcpy8to16 signed fuel (l ++ [0]) = .ok us) := by
  refine ⟨⟨?_, ?_⟩, fun hz hc => ?_⟩
  case refine_1 =>
    rintro ⟨us, k, _, hus⟩
    exact complete_of_strcpylen8to16 (hus k le_rfl)
  case refine_2 =>
    rintro ⟨hz, hc⟩
    obtain ⟨us, hle, hus⟩ := strcpylen8to16_of_complete hz hc
    exact ⟨us, _, hle, fun fuel hf => (hus fuel hf).left⟩
  case refine_3 =>
    obtain ⟨us, _, hus⟩ := strcpylen8to16_of_complete hz hc
    exact ⟨us, _, hus⟩

theorem not_boundedCopy_zero : ¬BoundedCopy true [0] := by
  rintro ⟨us, k, _, hus⟩
  exact (complete_of_strcpylen8to16 (hus k le_rfl)).left (by simp)

end Bounded

section RoundTrip

theorem extensionLoop_full (ht : ∀ c ∈ t, isExtension signed c)
    (h : (ret.toNat + 1) * 64 ^ t.length ≤ 2 ^ 16) :
    ∃ v, extensionLoop signed t.length ret (t ++ r) = .ok (v, r) ∧
      v.toNat = t.foldl (fun n c => n * 64 + c.toNat % 64) ret.toNat := by
  induction t generalizing ret
  case nil => exact ⟨ret, rfl, rfl⟩
  case cons c t hi =>
    simp only [forall_mem_cons, length_cons] at ht h
    have hz : c ≠ 0 := fun hz => by simp [hz, isExtension_zero] at ht
    obtain ⟨hs, hle⟩ := shift_le signed c h
    obtain ⟨v, hv, he⟩ := hi ht.right hle
    refine ⟨v, ?_, by rw [he, hs, foldl_cons]⟩
    simpa [extensionLoop, hz, ht.left] using hv

theorem toNat_mark {x m : UInt16} (hx : x.toNat < 2 ^ k) (hm : m.toNat = a <<< k)
    (h : m.toNat + x.toNat < 256) : (x ||| m).toUInt8.toNat = m.toNat + x.toNat := by
  rw [UInt16.toNat_toUInt8, UInt16.toNat_or, Nat.or_comm, hm, ← shiftLeft_add_eq_or_of_lt hx, ← hm,
    mod_eq_of_lt h]

theorem toNat_low (uic : UInt16) : (uic &&& 0x3f).toNat = uic.toNat % 64 := by
  rw [UInt16.toNat_and]
  exact and_two_pow_sub_one_eq_mod _ 6

theorem toNat_shift (uic : UInt16) :
    (uic >>> 6).toNat = uic.toNat / 64 ∧ (uic >>> 12).toNat = uic.toNat / 4096 := by
  simp only [UInt16.toNat_shiftRight, shiftRight_eq_div_pow]
  exact ⟨rfl, rfl⟩

section

variable (signed : Bool)

-- A lead byte for sequences of up to three bytes.
theorem lead_spec {c : UInt8} (hc : n = 1 ∧ 0 < x ∧ x < 128 ∧ c.toNat = x ∨
      n = 2 ∧ x < 32 ∧ c.toNat = 192 + x ∨ n = 3 ∧ x < 16 ∧ c.toNat = 224 + x) :
    c ≠ 0 ∧ isExtension signed c = false ∧ seqLength signed c = n ∧ (leader signed c).toNat = x := by
  have hz : c ≠ 0 := by
    rintro rfl
    simp at hc
    omega
  have he : isExtension signed c = false := by rw [isExtension_eq, decide_eq_false_iff_not]; omega
  have hs : seqLength signed c = n := by
    rw [seqLength_eq]
    grind
  refine ⟨hz, he, hs, ?_⟩
  rw [leader_toNat signed c he, hs]
  rcases hc with ⟨rfl, h⟩ | ⟨rfl, h⟩ | ⟨rfl, h⟩ <;> split <;> omega

theorem extension_spec (x : UInt16) (hx : x.toNat < 64) :
    isExtension signed (x ||| 0x80).toUInt8 ∧ (x ||| 0x80).toUInt8.toNat % 64 = x.toNat := by
  have h : (x ||| 0x80).toUInt8.toNat = 128 + x.toNat :=
    toNat_mark (k := 6) (a := 2) hx rfl (by simp; omega)
  rw [isExtension_eq, decide_eq_true_eq, h]
  omega

-- A unit becomes one complete sequence with its value.
theorem encode_spec (uic : UInt16) :
    ∃ c t, encode uic = c :: t ∧ c ≠ 0 ∧ isExtension signed c = false ∧
      seqLength signed c = t.length + 1 ∧ (∀ c ∈ t, isExtension signed c) ∧ width uic = t.length + 1 ∧
      t.length < 3 ∧
      t.foldl (fun n c => n * 64 + c.toNat % 64) (leader signed c).toNat = uic.toNat := by
  have hu := uic.toNat_lt
  obtain ⟨h₆, h₁₂⟩ := toNat_shift uic
  obtain ⟨hlow, hl⟩ := extension_spec signed (uic &&& 0x3f) (by rw [toNat_low]; omega)
  obtain ⟨hmid, hm⟩ := extension_spec signed ((uic >>> 6) &&& 0x3f) (by rw [toNat_low]; omega)
  rw [toNat_low] at hl hm
  unfold encode width
  simp only [gt_iff_lt, UInt16.lt_iff_toNat_lt]
  split <;> [skip; split]
  case isTrue h =>
    have hc : ((uic >>> 12) ||| 0xe0).toUInt8.toNat = 224 + uic.toNat / 4096 := by
      rw [toNat_mark (k := 5) (a := 7) (by omega) rfl (by simp; omega), h₁₂]
      rfl
    obtain ⟨hz, he, hs, hv⟩ := lead_spec signed (.inr (.inr ⟨rfl, by omega, hc⟩))
    refine ⟨_, _, rfl, hz, he, hs, forall_mem_cons.mpr ⟨hmid, forall_mem_singleton.mpr hlow⟩,
      rfl, by simp, ?_⟩
    simp only [foldl_cons, foldl_nil, hv, hl, hm, h₆]
    omega
  case isFalse.isTrue hn h =>
    have hn : uic.toNat ≤ 2047 := not_lt.mp hn
    have hc : ((uic >>> 6) ||| 0xc0).toUInt8.toNat = 192 + uic.toNat / 64 := by
      rw [toNat_mark (k := 6) (a := 3) (by omega) rfl (by simp; omega), h₆]
      rfl
    obtain ⟨hz, he, hs, hv⟩ := lead_spec signed (.inr (.inl ⟨rfl, by omega, hc⟩))
    refine ⟨_, _, rfl, hz, he, hs, forall_mem_singleton.mpr hlow, rfl, by simp, ?_⟩
    simp only [foldl_cons, foldl_nil, hv, hl]
    omega
  case isFalse.isFalse hn h =>
    have h₀ : uic.toNat ≠ 0 := fun h₀ => h (.inr (UInt16.toNat_inj.mp h₀))
    have h : uic.toNat ≤ 127 := not_lt.mp fun hlt => h (.inl hlt)
    have hc : uic.toUInt8.toNat = uic.toNat := by rw [UInt16.toNat_toUInt8, mod_eq_of_lt (by omega)]
    obtain ⟨hz, he, hs, hv⟩ := lead_spec signed (.inl ⟨rfl, by omega, by omega, hc⟩)
    exact ⟨_, _, rfl, hz, he, hs, by simp, rfl, by decide, hv⟩

theorem strcpy8to16_encode (uic : UInt16) (r : List UInt8) : atNul (encode uic ++ r) = .ok false ∧
    (∃ v, getUtf32FromUtf8 signed (encode uic ++ r) = .ok (v, r) ∧ units v = [uic]) ∧
    ∀ len e, strlenLoop signed len e (encode uic ++ r) = strlenLoop signed (len + 1) 0 r := by
  obtain ⟨c, t, he, hz, hx, hs, ht, -, hlt, hv⟩ := encode_spec signed uic
  rw [he, cons_append]
  have hle := leader_le signed c hx (by omega)
  rw [hs, Nat.add_sub_cancel] at hle
  obtain ⟨v, hg, hvv⟩ := extensionLoop_full ht hle (r := r)
  refine ⟨by simp [atNul, hz], ⟨v, ?_, ?_⟩, fun len e => ?_⟩
  case refine_1 => simpa [getUtf32FromUtf8, hx, hz, hs] using hg
  case refine_2 =>
    have hu : v.toNat = uic.toNat := hvv.trans hv
    rw [units_of_lt (hu ▸ uic.toNat_lt), hu, UInt16.ofNat_toNat]
  case refine_3 =>
    rw [strlenLoop, if_neg hz, if_neg (by simp [hx]), if_neg (by omega), hs,
      strlenLoop_extensions ht (by omega)]
    congr 1
    omega

theorem strncpy16to8_spec (u : List UInt16) :
    (∃ bs, strncpy16to8 u = bs ++ [0] ∧ bs.length = (u.map width).sum ∧ 0 ∉ bs) ∧
    (∀ fuel > u.length, strcpy8to16 signed fuel (strncpy16to8 u) = .ok u) ∧
    ∀ len e, strlenLoop signed len e (strncpy16to8 u) = .ok (len + u.length) := by
  induction u
  case nil =>
    refine ⟨⟨[], rfl, rfl, by simp⟩, fun fuel hf => ?_, fun len e => by simp [strncpy16to8, strlenLoop]⟩
    obtain ⟨fuel, rfl⟩ := Nat.exists_eq_add_of_lt hf
    exact copyLoop_end _ (by simp [strncpy16to8, atNul]) _
  case cons uic u hi =>
    obtain ⟨⟨bs, hbs, hlen, hz⟩, hcpy, hstr⟩ := hi
    obtain ⟨hnul, ⟨v, hg, hv⟩, hl⟩ := strcpy8to16_encode signed uic (strncpy16to8 u)
    refine ⟨⟨encode uic ++ bs, by simp [strncpy16to8, hbs], ?_, ?_⟩, fun fuel hf => ?_, fun len e => ?_⟩
    case refine_1 =>
      obtain ⟨c, t, he, _, _, _, _, hw, _⟩ := encode_spec signed uic
      rw [he, length_append, hlen, map_cons, sum_cons, hw, length_cons]
    case refine_2 =>
      obtain ⟨c, t, he, hc, _, _, ht, _⟩ := encode_spec signed uic
      have ht : 0 ∉ t := fun h => by simpa [isExtension_zero] using ht 0 h
      simp [he, Ne.symm hc, ht, hz]
    case refine_3 =>
      obtain ⟨fuel, rfl⟩ := Nat.exists_eq_add_of_lt (zero_lt_of_lt hf)
      have h := hcpy (0 + fuel) (by simp at hf; omega)
      rw [strcpy8to16] at h ⊢
      rw [strncpy16to8, copyLoop_step atNul hnul hg, h, hv]
      rfl
    case refine_4 => rw [strncpy16to8, hl, hstr, length_cons]; congr 1; omega

end

theorem strnlen16to8_eq (h : u.length < 2 ^ 60) : strnlen16to8 u = (u.map width).sum := by
  have hw (uic : UInt16) : width uic ≤ 3 := by unfold width; split <;> [simp; split <;> simp]
  have hfold (n : Nat) (hn : n + 3 * u.length < 2 ^ 64) :
      u.foldl (fun utf8Len uic => u64 (utf8Len + width uic)) n = n + (u.map width).sum := by
    clear h
    induction u generalizing n
    case nil => rfl
    case cons uic u hi =>
      have := hw uic
      simp only [length_cons] at hn
      rw [foldl_cons, u64_of_lt (by omega), hi _ (by omega), map_cons, sum_cons, add_assoc]
  rw [strnlen16to8, if_pos (h.trans (by decide)), hfold 0 (by omega), zero_add]

theorem strncpy16to8_round_trip (h : u.length < 2 ^ 60) (signed : Bool) :
    (∃ bs, strncpy16to8 u = bs ++ [0] ∧ bs.length = strnlen16to8 u ∧ 0 ∉ bs) ∧
    (∃ k, ∀ fuel ≥ k, strcpy8to16 signed fuel (strncpy16to8 u) = .ok u) ∧
    strlen8to16 signed (strncpy16to8 u) = .ok u.length := by
  obtain ⟨hbs, hcpy, hstr⟩ := strncpy16to8_spec signed u
  rw [strnlen16to8_eq h]
  exact ⟨hbs, ⟨_, hcpy⟩, by rw [strlen8to16, hstr, zero_add]⟩

theorem strncpy16to8_round_trip_zero : ([0, 0xd800, 0x41] : List UInt16).length < 2 ^ 60 ∧
    strlen8to16 true (strncpy16to8 [0, 0xd800, 0x41]) = .ok 3 :=
  ⟨by decide, (strncpy16to8_round_trip (by decide) true).right.right⟩

end RoundTrip

end Utf
