import PlatformKnife.Ext4.Allocate

namespace Ext4

open CInt Bitmap

variable {bm bm' : List (BitVec 8)} {m' : Marking} {bg bg' : BlockGroupInfo}
variable {set : List (BitVec 8) → Nat → Exec (List (BitVec 8) × Bool)} {cond : Nat → Nat → Bool}

-- A range of bits that lies in the bitmap and of which none is set.
structure Reservable (bm : List (BitVec 8)) (start num : Nat) : Prop where
  le    : num = 0 ∨ start + num ≤ 8 * bm.length
  clear : ∀ i, start ≤ i → i < start + num → Bitmap.bit bm i = false

namespace Reservable

theorem empty (bm : List (BitVec 8)) (start : Nat) : Reservable bm start 0 where
  le := .inl rfl
  clear _ _ _ := by omega

theorem add_iff : Reservable bm a (m + n) ↔
    Reservable bm a m ∧ Reservable (setRange bm a m) (a + m) n := by
  constructor
  case mp =>
    intro h
    have hm : Reservable bm a m := {
      le := by have := h.le; omega
      clear i hi hi' := h.clear i hi (by omega)
    }
    refine ⟨hm, by have := h.le; simp; omega, ?_⟩
    intro i hi hi'
    have hle : a + m ≤ 8 * bm.length := by have := h.le; omega
    rw [bit_setRange hle, h.clear i (by omega) (by omega)]
    simp
    omega
  case mpr =>
    rintro ⟨hm, hn⟩
    have hnl := hn.le
    have hml := hm.le
    simp only [setRange_length] at hnl
    refine ⟨by omega, ?_⟩
    intro i hi hi'
    by_cases him : i < a + m
    case pos => exact hm.clear i hi him
    have := hn.clear i (by omega) (by omega)
    rw [bit_setRange (by omega)] at this
    simpa using (Bool.or_eq_false_iff.mp this).left

end Reservable

-- What a round of a loop does to the bitmap.
structure Sets (set : List (BitVec 8) → Nat → Exec (List (BitVec 8) × Bool)) (width : Nat) :
    Prop where
  ok {bm k} : k % width = 0 → Reservable bm k width →
    set bm k = .ok (Bitmap.setRange bm k width, false)
  not {bm bm' k} : k % width = 0 → ¬Reservable bm k width → set bm k ≠ .ok (bm', false)

theorem reservable_one : Reservable bm k 1 ↔ k / 8 < bm.length ∧ bit bm k = false := by
  constructor
  case mp =>
    intro h
    exact ⟨by have := h.le; omega, h.clear k (by omega) (by omega)⟩
  case mpr =>
    rintro ⟨hl, hb⟩
    refine ⟨.inr (by omega), ?_⟩
    intro i hi hi'
    rwa [show i = k by omega]

theorem bitmapSetBit_sets : Sets bitmapSetBit 1 where
  ok _ h := by
    obtain ⟨hl, hb⟩ := reservable_one.mp h
    simp [bitmapSetBit, hl, hb, setRange]
  not _ h := by
    simp only [reservable_one, not_and] at h
    simp only [bitmapSetBit, fault]
    split
    case isTrue hl => simp [h hl]
    case isFalse => simp

theorem reservable_byte (hk : k % 8 = 0) :
    Reservable bm k 8 ↔ k / 8 < bm.length ∧ bm.getD (k / 8) 0 = 0 := by
  have hd : 8 * (k / 8) = k := by omega
  have hz := @getD_eq_zero_iff bm (k / 8)
  rw [hd] at hz
  constructor
  case mp =>
    intro h
    refine ⟨by have := h.le; omega, hz.mpr ?_⟩
    intro i hi
    exact h.clear _ (by omega) (by omega)
  case mpr =>
    rintro ⟨hl, hb⟩
    refine ⟨.inr (by omega), ?_⟩
    intro i hi hi'
    have := hz.mp hb (i - k) (by omega)
    rwa [show k + (i - k) = i by omega] at this

theorem bitmapSet8Bits_sets : Sets bitmapSet8Bits 8 where
  ok hk h := by
    obtain ⟨hl, hb⟩ := (reservable_byte hk).mp h
    simp only [bitmapSet8Bits, hl, hb, ↓reduceIte, setByte_eq_setRange hl hk]
    rfl
  not hk h := by
    simp only [reservable_byte hk, not_and] at h
    simp only [bitmapSet8Bits, fault]
    split
    case isTrue hl =>
      have := h hl
      simp_all
    case isFalse => simp

theorem markLoop_succ_iff (hs : Sets set w) (hc : cond i b) (hb : b % w = 0) :
    markLoop cond set w (fuel + 1) ⟨bm, i, b⟩ = .ok (m', true) ↔ Reservable bm b w ∧
      markLoop cond set w fuel ⟨setRange bm b w, u32 (i + w), u32 (b + w)⟩ = .ok (m', true) := by
  rw [markLoop, if_pos hc]
  by_cases hr : Reservable bm b w
  case pos => simp [hs.ok hb hr, hr]
  simp only [hr, false_and, iff_false]
  rcases hset : set bm b with _ | ⟨bm', _ | _⟩
  · simp
  · exact absurd hset (hs.not hb hr)
  · simp

-- The block behind the range may be the one that is 0 again.
theorem markLoop_of_le (hs : Sets set w) (hw : 0 < w) (hc : ∀ s < t, cond (i + w * s) (b + w * s))
    (hi : i + w * t < 2 ^ 32) (hb : b + w * t ≤ 2 ^ 32) (ha : 0 < t → b % w = 0) :
    markLoop cond set w (t + fuel) ⟨bm, i, u32 b⟩ = .ok (m', true) ↔ Reservable bm b (w * t) ∧
      markLoop cond set w fuel ⟨setRange bm b (w * t), i + w * t, u32 (b + w * t)⟩ = .ok (m', true) := by
  induction t generalizing bm i b
  case zero =>
    simp [Reservable.empty, setRange]
  case succ t ih =>
    have hwt : w * (t + 1) = w + w * t := by ring
    have hc₀ : cond i b := by simpa using hc 0 (by omega)
    have hc₁ (s) (hs : s < t) : cond (i + w + w * s) (b + w + w * s) := by
      simpa [mul_add, add_assoc, add_comm w] using hc (s + 1) (by omega)
    have hab : b % w = 0 := ha (by omega)
    rw [hwt] at hi hb
    rw [hwt, show t + 1 + fuel = t + fuel + 1 by omega, u32_of_lt (show b < 2 ^ 32 by omega),
      markLoop_succ_iff hs hc₀ hab, Reservable.add_iff, setRange_add,
      u32_of_lt (show i + w < 2 ^ 32 by omega), ih hc₁ (by omega) (by omega) (by simp [hab]),
      and_assoc, add_assoc, add_assoc]

theorem markLoop_iff (hs : Sets set w) (hw : 0 < w) (hc : ∀ s < t, cond (i + w * s) (b + w * s))
    (hn : cond (i + w * t) (u32 (b + w * t)) = false) (hf : t ≤ fuel)
    (hi : i + w * t < 2 ^ 32) (hb : b + w * t ≤ 2 ^ 32) (ha : 0 < t → b % w = 0) :
    markLoop cond set w fuel ⟨bm, i, u32 b⟩ = .ok (m', true) ↔ Reservable bm b (w * t) ∧
      m' = ⟨setRange bm b (w * t), i + w * t, u32 (b + w * t)⟩ := by
  obtain ⟨f, hf⟩ := Nat.exists_eq_add_of_le hf
  rw [hf, markLoop_of_le hs hw hc hi hb ha]
  cases f
  case zero => simp [markLoop, eq_comm]
  case succ f => simp [markLoop, hn, eq_comm]

-- The number of rounds of each of the three loops.

def headRounds (start num : Nat) : Nat :=
  min num ((8 - start % 8) % 8)

def byteRounds (start num : Nat) : Nat :=
  (8 * (num / 8) - headRounds start num) / 8

theorem reserveHead_iff (hs : start < 2 ^ 32) (hn : num < 2 ^ 32) (hb : start + num ≤ 2 ^ 32) :
    reserveHead num num ⟨bm, 0, start⟩ = .ok (m', true) ↔ Reservable bm start (headRounds start num) ∧
      m' = ⟨setRange bm start (headRounds start num), headRounds start num,
        u32 (start + headRounds start num)⟩ := by
  have hle : headRounds start num ≤ num := min_le_left _ _
  have := @markLoop_iff bm m' bitmapSetBit (fun i block => i < num && block % 8 ≠ 0) 1
    (headRounds start num) 0 start num bitmapSetBit_sets (by decide) ?_ ?_ hle (by omega)
    (by omega) (by omega)
  case refine_1 =>
    intro s hs
    simp only [headRounds] at hs
    simp
    omega
  case refine_2 =>
    simp [headRounds, u32]
    omega
  simpa [reserveHead, u32_of_lt hs] using this

-- The sum in this condition does not wrap either when the range is not too long, or does not start at a
-- byte.
theorem reserveBytes_iff (hn : num + 8 < 2 ^ 32 ∨ start % 8 ≠ 0) (hb : start + num ≤ 2 ^ 32) :
    reserveBytes num num ⟨bm, headRounds start num, u32 (start + headRounds start num)⟩ = .ok (m', true) ↔
      Reservable bm (start + headRounds start num) (8 * byteRounds start num) ∧
      m' = ⟨setRange bm (start + headRounds start num) (8 * byteRounds start num),
        headRounds start num + 8 * byteRounds start num,
        u32 (start + headRounds start num + 8 * byteRounds start num)⟩ := by
  have hle : headRounds start num ≤ num := min_le_left _ _
  have hr : headRounds start num + 8 * byteRounds start num ≤ num := by
    simp only [byteRounds]
    omega
  have hw : headRounds start num + 8 * byteRounds start num + 8 < 2 ^ 32 := by
    simp only [byteRounds, headRounds]
    omega
  refine markLoop_iff bitmapSet8Bits_sets (by decide) ?_ ?_ ?_ (by omega) (by omega) ?_
  case refine_1 =>
    intro s hs
    rw [u32_of_lt (by omega)]
    simp only [byteRounds] at hs
    simp
    omega
  case refine_2 =>
    apply decide_eq_false
    rw [u32_of_lt (by omega)]
    simp only [byteRounds]
    omega
  case refine_3 =>
    simp only [byteRounds]
    omega
  case refine_4 =>
    simp only [byteRounds, headRounds]
    omega

theorem reserveTail_iff (hi : i ≤ num) (hn : num < 2 ^ 32) (hb : b + (num - i) ≤ 2 ^ 32) :
    reserveTail num num ⟨bm, i, u32 b⟩ = .ok (m', true) ↔ Reservable bm b (num - i) ∧
      m' = ⟨setRange bm b (num - i), num, u32 (b + (num - i))⟩ := by
  have := @markLoop_iff bm m' bitmapSetBit (fun i _ => i < num) 1 (num - i) i b num
    bitmapSetBit_sets (by decide) ?_ ?_ (by omega) (by omega) (by omega) (by omega)
  case refine_1 =>
    intro s hs
    simp
    omega
  case refine_2 =>
    simp
    omega
  simpa [reserveTail, Nat.add_sub_cancel' hi] using this

theorem reserveBits_ok_iff : reserveBits bm start num = .ok (bm', true) ↔
    ∃ m₁ m₂ m₃, reserveHead num num ⟨bm, 0, start⟩ = .ok (m₁, true) ∧
      reserveBytes num num m₁ = .ok (m₂, true) ∧ reserveTail num num m₂ = .ok (m₃, true) ∧
      m₃.bitmap = bm' := by
  simp only [reserveBits, Except.pure_eq_ok]
  rcases reserveHead num num ⟨bm, 0, start⟩ with _ | ⟨m₁, _ | _⟩
  · simp
  · simp
  · rcases h₂ : reserveBytes num num m₁ with _ | ⟨m₂, _ | _⟩
    · simp [h₂]
    · simp [h₂]
    · rcases h₃ : reserveTail num num m₂ with _ | ⟨m₃, _ | _⟩
      · simp [h₂, h₃]
      · simp [h₂, h₃]
      · simp [h₂, h₃]

theorem reserveBits_iff (hn : num + 8 < 2 ^ 32 ∨ start % 8 ≠ 0) (hs : start < 2 ^ 32)
    (hb : start + num ≤ 2 ^ 32) : reserveBits bm start num = .ok (bm', true) ↔
      Reservable bm start num ∧ bm' = setRange bm start num := by
  have hle : headRounds start num ≤ num := min_le_left _ _
  have hr : headRounds start num + 8 * byteRounds start num ≤ num := by
    simp only [byteRounds]
    omega
  have hsum : num = headRounds start num + (8 * byteRounds start num
      + (num - (headRounds start num + 8 * byteRounds start num))) := by omega
  rw [reserveBits_ok_iff]
  constructor
  case mp =>
    rintro ⟨_, _, _, h₁, h₂, h₃, hbm⟩
    obtain ⟨hr₁, hm₁⟩ := (reserveHead_iff hs (by omega) hb).mp h₁
    subst hm₁
    obtain ⟨hr₂, hm₂⟩ := (reserveBytes_iff hn hb).mp h₂
    subst hm₂
    obtain ⟨hr₃, hm₃⟩ := (reserveTail_iff hr (by omega) (by omega)).mp h₃
    subst hm₃
    rw [hsum, Reservable.add_iff, Reservable.add_iff, setRange_add, setRange_add]
    exact ⟨⟨hr₁, hr₂, hr₃⟩, hbm.symm⟩
  case mpr =>
    rintro ⟨h, hbm⟩
    rw [hsum, Reservable.add_iff, Reservable.add_iff] at h
    rw [hsum, setRange_add, setRange_add] at hbm
    exact ⟨_, _, _, (reserveHead_iff hs (by omega) hb).mpr ⟨h.1, rfl⟩,
      (reserveBytes_iff hn hb).mpr ⟨h.2.1, rfl⟩,
      (reserveTail_iff hr (by omega) (by omega)).mpr ⟨h.2.2, rfl⟩, hbm.symm⟩

-- With almost 2^32 blocks, the sum in the condition of the second loop wraps, and the loop restarts at
-- byte 0.
theorem reserveBits_ne_ok_of_wrap (h : 2 ^ 32 ≤ num + 8) (hn : num < 2 ^ 32)
    (hs : start % 8 = 0) (hb : start + num ≤ 2 ^ 32) : reserveBits bm start num ≠ .ok (bm', true) := by
  intro hok
  obtain ⟨_, _, _, h₁, h₂, _⟩ := reserveBits_ok_iff.mp hok
  obtain ⟨_, hm₁⟩ := (reserveHead_iff (by omega) hn hb).mp h₁
  have hr : headRounds start num = 0 := by simp [headRounds, hs]
  obtain ⟨f, hf⟩ := Nat.exists_eq_add_of_le (show 2 ^ 29 - 1 + 2 ≤ num by omega)
  have hd : 8 * (num / 8) = 2 ^ 32 - 8 := by omega
  have hc (s) (hs : s < 2 ^ 29 - 1) : decide (u32 (0 + 8 * s + 8) ≤ 2 ^ 32 - 8) := by
    rw [u32_of_lt (by omega)]
    simp
    omega
  simp only [hm₁, hr, reserveBytes, hd, add_zero] at h₂
  rw [hf, add_assoc, add_comm 2 f] at h₂
  obtain ⟨hr₁, h₃⟩ := (markLoop_of_le bitmapSet8Bits_sets (by decide) hc (by omega) (by omega)
    fun _ => hs).mp h₂
  simp only [show 0 + 8 * (2 ^ 29 - 1) = 2 ^ 32 - 8 by omega] at h₃
  obtain ⟨hr₂, h₄⟩ := (markLoop_succ_iff bitmapSet8Bits_sets (by decide) (by simp only [u32]; omega)).mp h₃
  have hu : u32 (2 ^ 32 - 8 + 8) = 0 := by decide
  have hback : u32 (u32 (start + 8 * (2 ^ 29 - 1)) + 8) = start := by
    simp only [u32]
    omega
  rw [hu, hback] at h₄
  obtain ⟨hr₃, _⟩ := (markLoop_succ_iff bitmapSet8Bits_sets (by decide) hs).mp h₄
  have hl₁ := hr₁.le.resolve_left (by decide)
  have hl₂ := hr₂.le.resolve_left (by decide)
  have hbit := hr₃.clear start (by omega) (by omega)
  rw [bit_setRange hl₂, bit_setRange hl₁] at hbit
  simp at hbit

def BlockGroupInfo.reserved (bg : BlockGroupInfo) (start num : Nat) : BlockGroupInfo :=
  { bg with
    bitmaps := Bitmap.setRange bg.bitmaps start num
    freeBlocks := bg.freeBlocks - num
    firstFreeBlock := if start = bg.firstFreeBlock then start + num else bg.firstFreeBlock }

theorem reserveBlocks_ok_iff : reserveBlocks force bg start num = .ok (bg', true) ↔
    num ≤ bg.freeBlocks ∧ ∃ bitmaps, reserveBits bg.bitmaps start num = .ok (bitmaps, true) ∧
      bg' = { bg with
        bitmaps
        freeBlocks := bg.freeBlocks - num
        firstFreeBlock := if start = bg.firstFreeBlock then u32 (start + num)
                          else bg.firstFreeBlock } := by
  simp only [reserveBlocks, Except.pure_eq_ok]
  by_cases hf : num > bg.freeBlocks
  case pos => simp [hf]
  simp only [hf, ↓reduceIte, Nat.le_of_not_lt hf, true_and]
  rcases reserveBits bg.bitmaps start num with _ | ⟨bitmaps, _ | _⟩
  · simp
  · cases force <;> simp [error]
  · simp only [Except.ok_bind, Bool.not_true, Bool.false_eq_true, if_false, Except.ok.injEq,
      Prod.mk.injEq, and_true]
    constructor
    case mp  => exact fun hbg => ⟨_, rfl, hbg.symm⟩
    case mpr => rintro ⟨_, rfl, hbg⟩; exact hbg.symm

theorem reserveBlocks_iff (hn : num + 8 < 2 ^ 32 ∨ start % 8 ≠ 0) (hb : start + num < 2 ^ 32) :
    reserveBlocks force bg start num = .ok (bg', true) ↔
      num ≤ bg.freeBlocks ∧ Reservable bg.bitmaps start num ∧ bg' = bg.reserved start num := by
  rw [reserveBlocks_ok_iff]
  simp only [reserveBits_iff hn (by omega) hb.le, u32_of_lt hb]
  constructor
  case mp =>
    rintro ⟨hf, _, ⟨hr, hbm⟩, hbg⟩
    exact ⟨hf, hr, by rw [hbg, hbm]; rfl⟩
  case mpr =>
    rintro ⟨hf, hr, hbg⟩
    exact ⟨hf, _, ⟨hr, rfl⟩, hbg⟩

-- The bits which a number of 32 bits does not name stay as they are.

def KeepsHigh (set : List (BitVec 8) → Nat → Exec (List (BitVec 8) × Bool)) : Prop :=
  ∀ {bm bm' k taken j}, set bm k = .ok (bm', taken) → k < 2 ^ 32 → 2 ^ 32 ≤ j →
    Bitmap.bit bm' j = Bitmap.bit bm j

theorem bitmapSetBit_keepsHigh : KeepsHigh bitmapSetBit := by
  intro bm bm' k taken j h hk hj
  simp only [bitmapSetBit] at h
  split at h
  case isFalse => cases h
  split at h
  case isTrue => cases h; rfl
  case isTrue.isFalse hl _ =>
    cases h
    rw [bit_setBit hl, decide_eq_false (by omega), Bool.or_false]

theorem bitmapSet8Bits_keepsHigh : KeepsHigh bitmapSet8Bits := by
  intro bm bm' k taken j h hk hj
  have hne : k / 8 ≠ j / 8 := by omega
  simp only [bitmapSet8Bits] at h
  split at h
  case isFalse => cases h
  cases h
  simp [bit, setByte, List.getD_eq_getElem?_getD, hne]

theorem markLoop_high (hs : KeepsHigh set) (hj : 2 ^ 32 ≤ j) (hb : m.block < 2 ^ 32)
    (h : markLoop cond set w fuel m = .ok (m', true)) :
    m'.block < 2 ^ 32 ∧ bit m'.bitmap j = bit m.bitmap j := by
  induction fuel generalizing m
  case zero =>
    cases h
    exact ⟨hb, rfl⟩
  case succ fuel hi =>
    rw [markLoop] at h
    split at h
    case isFalse =>
      cases h
      exact ⟨hb, rfl⟩
    rcases hset : set m.bitmap m.block with _ | ⟨bm', _ | _⟩ <;> rw [hset] at h
    · cases h
    · rw [← hs hset hb hj]
      exact hi (Nat.mod_lt _ (by decide)) h
    · cases h

theorem reserveBits_high (hs : start < 2 ^ 32) (hj : 2 ^ 32 ≤ j)
    (h : reserveBits bm start num = .ok (bm', true)) : bit bm' j = bit bm j := by
  obtain ⟨m₁, m₂, m₃, h₁, h₂, h₃, hbm⟩ := reserveBits_ok_iff.mp h
  obtain ⟨hb₁, hbit₁⟩ := markLoop_high bitmapSetBit_keepsHigh hj hs h₁
  obtain ⟨hb₂, hbit₂⟩ := markLoop_high bitmapSet8Bits_keepsHigh hj hb₁ h₂
  rw [← hbm, (markLoop_high bitmapSetBit_keepsHigh hj hb₂ h₃).2, hbit₂, hbit₁]

-- What `reserve_blocks` is to do with a range of the bitmap.
structure Reserves (force : Bool) (bg : BlockGroupInfo) (start num : Nat) : Prop where
  ok_iff : (∃ bg', reserveBlocks force bg start num = .ok (bg', true)) ↔
    ∀ i, start ≤ i → i < start + num → Bitmap.bit bg.bitmaps i = false
  bits   : ∀ bg', reserveBlocks force bg start num = .ok (bg', true) →
    ∀ i, Bitmap.bit bg'.bitmaps i
      = (Bitmap.bit bg.bitmaps i || decide (start ≤ i ∧ i < start + num))
  free   : ∀ bg', reserveBlocks force bg start num = .ok (bg', true) →
    bg'.freeBlocks + num = bg.freeBlocks

-- The numbers of the blocks have to fit into 32 bits, and so has the sum in the second loop's condition,
-- when that loop gets as far.
theorem reserveBlocks_reserves_iff (hs : start < 2 ^ 32) (hl : start + num ≤ 8 * len)
    (hf : num ≤ bg.freeBlocks) (hn : bg.freeBlocks < 2 ^ 32) :
    (∀ bitmaps, bitmaps.length = len → Reserves force { bg with bitmaps } start num) ↔
      start + num ≤ 2 ^ 32 ∧ (num + 8 < 2 ^ 32 ∨ start % 8 ≠ 0) := by
  constructor
  case mp =>
    intro h
    have hr := h (List.replicate len 0#8) List.length_replicate
    obtain ⟨bg', hok⟩ := hr.ok_iff.mpr fun _ _ _ => bit_replicate_zero
    obtain ⟨_, bm', hbits, hbg⟩ := reserveBlocks_ok_iff.mp hok
    have hb : start + num ≤ 2 ^ 32 := by
      by_contra hb
      have hset := hr.bits _ hok (start + num - 1)
      rw [hbg, reserveBits_high hs (by omega) hbits] at hset
      simp [bit_replicate_zero] at hset
      omega
    refine ⟨hb, ?_⟩
    by_contra hw
    push Not at hw
    exact reserveBits_ne_ok_of_wrap hw.1 (hf.trans_lt hn) hw.2 hb hbits
  case mpr =>
    rintro ⟨hb, hw⟩ bitmaps rfl
    have hok {bg'} (h : reserveBlocks force { bg with bitmaps } start num = .ok (bg', true)) :=
      reserveBlocks_ok_iff.mp h
    simp only [reserveBits_iff hw hs hb] at hok
    constructor
    case ok_iff =>
      constructor
      case mp =>
        rintro ⟨_, h⟩
        obtain ⟨_, _, ⟨hr, _⟩, _⟩ := hok h
        exact hr.clear
      case mpr =>
        intro hclear
        exact ⟨_, reserveBlocks_ok_iff.mpr
          ⟨hf, _, (reserveBits_iff hw hs hb).mpr ⟨⟨.inr hl, hclear⟩, rfl⟩, rfl⟩⟩
    case bits =>
      intro _ h i
      obtain ⟨_, _, ⟨_, rfl⟩, rfl⟩ := hok h
      exact bit_setRange hl
    case free =>
      intro _ h
      obtain ⟨hf, _, _, rfl⟩ := hok h
      exact Nat.sub_add_cancel hf

-- A group with this many bytes in its bitmap, none of whose blocks is taken.
def clearGroup (bytes freeBlocks : Nat) : BlockGroupInfo where
  firstBlock := 0
  headerBlocks := 0
  hasSuperblock := false
  bitmaps := List.replicate bytes 0
  inodeTable := false
  freeBlocks := freeBlocks
  firstFreeBlock := 0

theorem reserveBlocks_reserves_eleven : Reserves false { clearGroup 2 16 with bitmaps := [1, 64] } 3 11 :=
  (reserveBlocks_reserves_iff (by decide) (by decide) (by decide) (by decide)).mpr (by decide) _ rfl

-- The bitmap has 2^32 bits, and there are as many free blocks as the field can hold.
theorem not_reserves_wrap : ¬Reserves false (clearGroup (2 ^ 29) (2 ^ 32 - 1)) 0 (2 ^ 32 - 8) := by
  intro h
  rw [clearGroup] at h
  obtain ⟨_, hok⟩ := h.ok_iff.mpr fun _ _ _ => bit_replicate_zero
  obtain ⟨_, _, hbits, _⟩ := reserveBlocks_ok_iff.mp hok
  exact reserveBits_ne_ok_of_wrap (by decide) (by decide) rfl (by decide) hbits

end Ext4
