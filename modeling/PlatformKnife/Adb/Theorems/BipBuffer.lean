import PlatformKnife.Adb.BipBuffer

namespace Adb

open Slice List Int Except BipBuffer

@[simp]
theorem assert_of_true [Decidable p] (h : p) : assert p = .ok () :=
  if_pos h

namespace BipBuffer

variable {bip bip' : BipBuffer} {src dst : List UInt8} {off n count : Int}

-- The two regions. Region B is used only when region A reaches the end of the buffer.
structure Regions (bip : BipBuffer) : Prop where
  start   : 0 ≤ bip.aStart
  regionA : bip.aStart ≤ bip.aEnd
  size    : bip.aEnd ≤ bipBufferSize
  zero    : 0 ≤ bip.bEnd
  regionB : bip.bEnd ≤ bip.aStart
  wrapped : bip.bEnd > 0 → bip.aEnd = bipBufferSize

-- The regions with the flags. An empty region A is put back to the front, and region B is empty then.
structure Ok (bip : BipBuffer) : Prop extends Regions bip where
  empty    : bip.aStart = bip.aEnd → bip.aEnd = 0
  canRead  : bip.canRead ↔ bip.aStart < bip.aEnd
  canWrite : bip.canWrite ↔ ¬(bip.aEnd = bipBufferSize ∧ bip.bEnd = bip.aStart)

theorem ok_bipBufferInit (h : src.length = bipBufferSize) : Ok (bipBufferInit src h) where
  start := le_refl _
  regionA := le_refl _
  size := natCast_nonneg _
  zero := le_refl _
  regionB := le_refl _
  wrapped := by simp [bipBufferInit]
  empty := by simp [bipBufferInit]
  canRead := by simp [bipBufferInit]
  canWrite := by simp [bipBufferInit, bipBufferSize]

theorem Regions.content_length (h : Regions bip) :
    (bip.content.length : Int) = bip.aEnd - bip.aStart + bip.bEnd := by
  obtain ⟨_, _, hs, _, _, _⟩ := h
  have hl := bip.buff_length
  rw [content, length_append, slice_length (by omega), slice_length (by omega)]
  omega

theorem Ok.content_ne_nil_iff (h : Ok bip) : bip.content ≠ [] ↔ bip.aStart < bip.aEnd := by
  have hl := h.content_length
  obtain ⟨⟨_, _, _, _, _, _⟩, he, _, _⟩ := h
  rw [← length_pos_iff]
  omega

theorem Ok.content_length_ne_iff (h : Ok bip) : bip.content.length ≠ bipBufferSize ↔
    ¬(bip.aEnd = bipBufferSize ∧ bip.bEnd = bip.aStart) := by
  have hl := h.content_length
  obtain ⟨⟨_, _, _, _, _, _⟩, _, _, _⟩ := h
  omega

theorem memcpyTo_eq (hz : 0 ≤ off) (hn : 0 ≤ n) (hs : off + n ≤ bipBufferSize) (hl : n ≤ src.length) :
    bip.memcpyTo off src n = .ok { bip with
      buff := overwrite bip.buff off.toNat (src.take n.toNat)
      buff_length := by rw [overwrite_length, bip.buff_length] } :=
  if_pos ⟨hz, hn, hs, hl⟩

theorem memcpyFrom_eq (hz : 0 ≤ off) (hn : 0 ≤ n) (hs : off + n ≤ bipBufferSize) :
    bip.memcpyFrom off n = .ok (slice bip.buff off.toNat (off + n).toNat) :=
  if_pos ⟨hz, hn, hs⟩

theorem exitWrite_eq (h : 0 < count) :
    ∃ evt, bip.exitWrite count = .ok ({ bip with canRead := true, evtRead := evt }, count) := by
  rw [exitWrite, assert_of_true h]
  cases hr : bip.canRead
  case true  => exact ⟨bip.evtRead, by simp [← hr]⟩
  case false => exact ⟨true, by simp⟩

theorem exitRead_eq (h : 0 < count) :
    ∃ evt, bip.exitRead dst count = .ok ({ bip with canWrite := true, evtWrite := evt }, dst, count) := by
  rw [exitRead, assert_of_true h]
  cases hw : bip.canWrite
  case true  => exact ⟨bip.evtWrite, by simp [← hw]⟩
  case false => exact ⟨true, by simp⟩

theorem content_appendA (h : Regions bip) (ha : bip.aEnd < bipBufferSize)
    (hs : bip.aEnd + src.length ≤ bipBufferSize)
    (hb : bip'.buff = overwrite bip.buff bip.aEnd.toNat src) (h₁ : bip'.aStart = bip.aStart)
    (h₂ : bip'.aEnd = bip.aEnd + src.length) (h₃ : bip'.bEnd = bip.bEnd) :
    bip'.content = bip.content ++ src := by
  obtain ⟨_, _, _, _, _, hw⟩ := h
  have hl := bip.buff_length
  have hz : bip.bEnd = 0 := by omega
  have he : (bip.aEnd + src.length).toNat = bip.aEnd.toNat + src.length := by omega
  rw [content, content, h₁, h₂, h₃, hb, he, hz, slice_overwrite_append (by omega) (by omega)]
  simp

theorem content_appendB (h : Regions bip) (hs : bip.bEnd + src.length ≤ bip.aStart)
    (hb : bip'.buff = overwrite bip.buff bip.bEnd.toNat src) (h₁ : bip'.aStart = bip.aStart)
    (h₂ : bip'.aEnd = bip.aEnd) (h₃ : bip'.bEnd = bip.bEnd + src.length) :
    bip'.content = bip.content ++ src := by
  obtain ⟨_, _, _, _, _, _⟩ := h
  have hl := bip.buff_length
  have he : (bip.bEnd + src.length).toNat = bip.bEnd.toNat + src.length := by omega
  rw [content, content, h₁, h₂, h₃, hb, he, slice_overwrite_of_ge (by omega),
    slice_overwrite_append (Nat.zero_le _) (by omega), append_assoc]

-- A write of `src` after `count` bytes puts more bytes behind the content, and at least one in all.
def Appends (bip : BipBuffer) (src : List UInt8) (count : Int) (r : Exec (BipBuffer × Int)) : Prop :=
  ∃ bip' n, r = .ok (bip', count + n) ∧ 0 ≤ n ∧ 0 < count + n ∧ Ok bip' ∧
    bip'.content = bip.content ++ src.take n.toNat

theorem exitWrite_appends (h : Regions bip') (hn : 0 ≤ n) (hc : 0 < count + n)
    (ha : bip'.aStart < bip'.aEnd)
    (hw : bip'.canWrite ↔ ¬(bip'.aEnd = bipBufferSize ∧ bip'.bEnd = bip'.aStart))
    (ht : bip'.content = bip.content ++ src.take n.toNat) :
    Appends bip src count (bip'.exitWrite (count + n)) := by
  obtain ⟨evt, he⟩ := @exitWrite_eq bip' _ hc
  refine ⟨_, n, he, hn, hc, ?_, ht⟩
  refine ⟨⟨h.start, h.regionA, h.size, h.zero, h.regionB, h.wrapped⟩, ?_, ?_, hw⟩
  case refine_1 => exact fun h => absurd h (ne_of_lt ha)
  case refine_2 => simp [ha]

theorem writeB_appends (h : Regions bip) (hc : 0 ≤ count) (hl : src = [] → 0 < count)
    (ha : bip.aStart < bip.aEnd) (hb : src ≠ [] → bip.aEnd = bipBufferSize ∧ bip.bEnd < bip.aStart)
    (hw : bip.canWrite ↔ ¬(bip.aEnd = bipBufferSize ∧ bip.bEnd = bip.aStart)) :
    Appends bip src count (bip.writeB src count) := by
  by_cases hs : src = []
  case pos =>
    have he := @exitWrite_appends bip bip src 0 count h (le_refl _) (by simpa using hl hs) ha hw
    rw [writeB, if_pos (by simp [hs])]
    simpa using he
  have hr := h
  obtain ⟨_, _, _, _, _, _⟩ := hr
  obtain ⟨hA, hB⟩ := hb hs
  have hp := length_pos_iff.mpr hs
  -- As many bytes are taken as there is room for in front of region A.
  obtain ⟨n, hn⟩ : ∃ n, min (bip.aStart - bip.bEnd) src.length = n := ⟨_, rfl⟩
  have hm := @memcpyTo_eq bip src bip.bEnd n (by omega) (by omega) (by omega) (by omega)
  have ht : ((src.take n.toNat).length : Int) = n := by
    rw [length_take]
    omega
  have hx (bip' : BipBuffer) (h₁ : bip'.buff = overwrite bip.buff bip.bEnd.toNat (src.take n.toNat))
      (h₂ : bip'.aStart = bip.aStart) (h₃ : bip'.aEnd = bip.aEnd) (h₄ : bip'.bEnd = bip.bEnd + n)
      (h₅ : bip'.canWrite ↔ bip.bEnd + n ≠ bip.aStart) :
      Appends bip src count (bip'.exitWrite (count + n)) := by
    have hr : Regions bip' := by constructor <;> omega
    have hc := content_appendB h (by omega) h₁ h₂ h₃ (by omega)
    exact exitWrite_appends hr (by omega) (by omega) (by omega) (by rw [h₅]; omega) hc
  rw [writeB, if_neg (by omega), assert_of_true (by omega : bip.aStart - bip.bEnd > 0)]
  simp only [hn, hm, ok_bind]
  split
  case isTrue he  => exact hx _ rfl rfl rfl rfl (by simp [he])
  case isFalse he =>
    have hf : bip.canWrite := hw.mpr (by omega)
    exact hx _ rfl rfl rfl rfl (by simp [he, hf])

theorem Appends.of_append (h : Appends bip' (src.drop n.toNat) n r) (hn : 0 ≤ n)
    (hc : bip'.content = bip.content ++ src.take n.toNat) : Appends bip src 0 r := by
  obtain ⟨bip'', m, hr, hm, hp, hk, ht⟩ := h
  refine ⟨bip'', n + m, by rw [hr, zero_add], by omega, by omega, hk, ?_⟩
  rw [ht, hc, toNat_add hn hm, take_add, append_assoc]

theorem bipBufferWrite_appends (h : Ok bip) (hs : src ≠ []) (hw : bip.canWrite) :
    Appends bip src 0 (bip.bipBufferWrite src) := by
  have ho := h
  obtain ⟨⟨_, _, _, _, _, _⟩, he, _, hf⟩ := ho
  have hp := length_pos_iff.mpr hs
  have hr := hf.mp hw
  rw [bipBufferWrite, if_neg (by omega), if_neg (by simp [hw])]
  split
  case isFalse ha =>
    -- Region A ends where the buffer ends.
    exact writeB_appends h.toRegions (le_refl _) (by simp [hs]) (by omega) (by omega) hf
  case isTrue ha =>
    obtain ⟨n, hn⟩ : ∃ n, min ((bipBufferSize : Int) - bip.aEnd) src.length = n := ⟨_, rfl⟩
    have hm := @memcpyTo_eq bip src bip.aEnd n (by omega) (by omega) (by omega) (by omega)
    have ht : ((src.take n.toNat).length : Int) = n := by
      rw [length_take]
      omega
    simp only [hn, hm, ok_bind]
    split
    all_goals
      generalize hb : mk .. = bip'
      have h₀ : bip'.buff = overwrite bip.buff bip.aEnd.toNat (src.take n.toNat) := hb ▸ rfl
      have h₁ : bip'.aStart = bip.aStart := hb ▸ rfl
      have h₂ : bip'.aEnd = bip.aEnd + n := hb ▸ rfl
      have h₃ : bip'.bEnd = bip.bEnd := hb ▸ rfl
      have hr : Regions bip' := by constructor <;> omega
      have hc := content_appendA h.toRegions (by omega) (by omega) h₀ h₁ (by omega) h₃
    case isTrue hz =>
      have hf : ¬bip'.canWrite := hb ▸ Bool.false_ne_true
      rw [← zero_add n]
      exact exitWrite_appends hr (by omega) (by omega) (by omega) (iff_of_false hf (by omega)) hc
    case isFalse hz =>
      have hf : bip'.canWrite := hb ▸ hw
      have hl : (src.drop n.toNat).length = src.length - n.toNat := length_drop
      refine Appends.of_append (writeB_appends hr ?_ ?_ ?_ ?_ (iff_of_true hf ?_)) (by omega) hc
      case refine_4 =>
        intro hd
        have := length_pos_iff.mpr hd
        omega
      all_goals omega

-- A read of a buffer with these bytes takes a positive number of them from the front.
def Takes (bytes : List UInt8) (r : Exec (BipBuffer × List UInt8 × Int)) : Prop :=
  ∃ bip' dst, r = .ok (bip', dst, dst.length) ∧ Ok bip' ∧ bytes = dst ++ bip'.content

theorem exitRead_takes (h : Regions bip) (hc : 0 < count) (hd : count = dst.length)
    (he : bip.aStart = bip.aEnd → bip.aEnd = 0) (hr : bip.canRead ↔ bip.aStart < bip.aEnd)
    (hw : ¬(bip.aEnd = bipBufferSize ∧ bip.bEnd = bip.aStart)) (hb : bytes = dst ++ bip.content) :
    Takes bytes (bip.exitRead dst count) := by
  obtain ⟨evt, hx⟩ := @exitRead_eq bip dst _ hc
  refine ⟨{ bip with canWrite := true, evtWrite := evt }, dst, by rw [hx, hd], ?_, hb⟩
  exact ⟨⟨h.start, h.regionA, h.size, h.zero, h.regionB, h.wrapped⟩, he, hr, iff_of_true rfl hw⟩

theorem readB_takes (h : Regions bip) (hb : bip.bEnd < bipBufferSize) (hl : 0 ≤ len)
    (hr : bip.canRead) (hc : 0 < count) (hd : count = dst.length) :
    Takes (dst ++ slice bip.buff 0 bip.bEnd.toNat) (bip.readB dst len count) := by
  obtain ⟨_, _, _, _, _, _⟩ := h
  have hs := bip.buff_length
  rw [readB]
  split
  case isFalse hz =>
    -- Region B was empty, and so is the buffer now.
    simp only at hz
    generalize hb : mk .. = bip'
    have h₁ : bip'.aStart = 0 := hb ▸ rfl
    have h₂ : bip'.aEnd = bip.bEnd := hb ▸ rfl
    have h₃ : bip'.bEnd = 0 := hb ▸ rfl
    have h₄ : ¬bip'.canRead := hb ▸ Bool.false_ne_true
    have hr : Regions bip' := by constructor <;> omega
    refine exitRead_takes hr hc hd (by omega) (iff_of_false h₄ (by omega)) (by omega) ?_
    simp [content, h₁, h₂, h₃, show bip.bEnd = 0 by omega]
  case isTrue hz =>
    simp only at hz
    obtain ⟨n, hn⟩ : ∃ n, min bip.bEnd len = n := ⟨_, rfl⟩
    simp only [hn]
    rw [memcpyFrom_eq (le_refl _) (by omega) (by omega)]
    simp only [bind, bind, zero_add, toNat_zero]
    have ht : count + n = (dst ++ slice bip.buff 0 n.toNat).length := by
      rw [length_append, slice_length (by omega)]
      omega
    have hd := slice_append_slice bip.buff (Nat.zero_le n.toNat) (by omega) (by omega : bip.bEnd.toNat ≤ _)
    rw [← hd, ← append_assoc]
    split
    all_goals
      generalize hb : mk .. = bip'
      have h₀ : bip'.buff = bip.buff := hb ▸ rfl
      have h₃ : bip'.bEnd = 0 := hb ▸ rfl
    case isTrue hlt =>
      have h₁ : bip'.aStart = n := hb ▸ rfl
      have h₂ : bip'.aEnd = bip.bEnd := hb ▸ rfl
      have h₄ : bip'.canRead := hb ▸ hr
      have hr : Regions bip' := by constructor <;> omega
      refine exitRead_takes hr (by omega) ht (by omega) (iff_of_true h₄ (by omega)) (by omega) ?_
      simp [content, h₀, h₁, h₂, h₃]
    case isFalse hlt =>
      have h₁ : bip'.aStart = 0 := hb ▸ rfl
      have h₂ : bip'.aEnd   = 0 := hb ▸ rfl
      have h₄ : ¬bip'.canRead   := hb ▸ Bool.false_ne_true
      have hr : Regions bip' := by constructor <;> omega
      refine exitRead_takes hr (by omega) ht (by omega) (iff_of_false h₄ (by omega)) (by omega) ?_
      simp [content, h₁, h₂, h₃, show bip.bEnd = n by omega]

theorem bipBufferRead_takes (h : Ok bip) (hl : 0 < len) (hr : bip.canRead) :
    Takes bip.content (bip.bipBufferRead len) := by
  obtain ⟨⟨_, _, _, _, _, _⟩, _, hc, _⟩ := h
  have hs := bip.buff_length
  have ha := hc.mp hr
  rw [bipBufferRead, if_neg (by omega), if_neg (by simp [hr]),
    assert_of_true (by omega : bip.aEnd - bip.aStart > 0)]
  obtain ⟨n, hn⟩ : ∃ n, min (bip.aEnd - bip.aStart) len = n := ⟨_, rfl⟩
  simp only [hn, ok_bind]
  rw [memcpyFrom_eq (by omega) (by omega) (by omega)]
  have ht : n = (slice bip.buff bip.aStart.toNat (bip.aStart + n).toNat).length := by
    rw [slice_length (by omega)]
    omega
  have hd := slice_append_slice bip.buff (by omega : bip.aStart.toNat ≤ (bip.aStart + n).toNat)
    (by omega : _ ≤ bip.aEnd.toNat) (by omega)
  rw [content, ← hd, append_assoc]
  split
  all_goals
    generalize hb : BipBuffer.mk .. = bip'
    have h₀ : bip'.buff = bip.buff := hb ▸ rfl
    have h₁ : bip'.aStart = bip.aStart + n := hb ▸ rfl
    have h₂ : bip'.aEnd = bip.aEnd := hb ▸ rfl
    have h₃ : bip'.bEnd = bip.bEnd := hb ▸ rfl
    have h₄ : bip'.canRead := hb ▸ hr
    have hg : Regions bip' := by constructor <;> omega
  case isTrue hlt =>
    refine exitRead_takes hg (by omega) ht (by omega) (iff_of_true h₄ (by omega)) (by omega) ?_
    rw [content, h₀, h₁, h₂, h₃]
  case isFalse hlt =>
    have he := readB_takes hg (by omega) (by omega : 0 ≤ len - n) h₄ (by omega) ht
    rw [h₀, h₃] at he
    rw [show bip.aEnd = bip.aStart + n by omega, slice_self, nil_append]
    exact he

namespace Trace

variable {t : Trace}

-- The invariant of a run.
structure Keeps (t : Trace) : Prop where
  ok    : Ok t.bip
  order : t.accepted = t.delivered ++ t.bip.content

theorem Keeps.fifo (h : Keeps t) : Fifo t where
  order := h.order
  start := h.ok.start
  regionA := h.ok.regionA
  size := h.ok.size
  regionB := h.ok.regionB
  wrapped := h.ok.wrapped
  canRead := h.ok.canRead.trans h.ok.content_ne_nil_iff.symm
  canWrite := h.ok.canWrite.trans h.ok.content_length_ne_iff.symm

theorem keeps_start (h : src.length = bipBufferSize) : Keeps (start (bipBufferInit src h)) where
  ok    := ok_bipBufferInit h
  order := by simp [start, bipBufferInit, content]

theorem Keeps.write (h : Keeps t) (hb : t.step (.write src) ≠ .error .blocked) :
    ∃ t', t.step (.write src) = .ok t' ∧ Keeps t' := by
  by_cases hs : src = []
  case pos => exact ⟨t, by simp [step, bipBufferWrite, hs], h⟩
  cases hw : t.bip.canWrite
  case true =>
    obtain ⟨bip', n, hr, hn, _, hk, hc⟩ := bipBufferWrite_appends h.ok hs hw
    refine ⟨{ t with bip := bip', accepted := t.accepted ++ src.take n.toNat }, ?_, hk, ?_⟩
    case refine_1 => simp [step, hr]
    case refine_2 => simp [h.order, hc]
  case false =>
    cases hc : t.bip.closed
    case true  => exact ⟨t, by simp [step, bipBufferWrite, hs, hw, hc], h⟩
    case false =>
      refine absurd ?_ hb
      simp [step, bipBufferWrite, hs, hw, hc]

theorem Keeps.read (h : Keeps t) (hb : t.step (.read len) ≠ .error .blocked) :
    ∃ t', t.step (.read len) = .ok t' ∧ Keeps t' := by
  by_cases hl : 0 < len
  case neg => exact ⟨t, by simp [step, bipBufferRead, Int.not_lt.mp hl], h⟩
  cases hr : t.bip.canRead
  case true =>
    obtain ⟨bip', dst, he, hk, hc⟩ := bipBufferRead_takes h.ok hl hr
    refine ⟨{ t with bip := bip', delivered := t.delivered ++ dst }, ?_, hk, ?_⟩
    case refine_1 => simp [step, he]
    case refine_2 => simp [h.order, hc]
  case false =>
    cases hc : t.bip.closed
    case true  => exact ⟨t, by simp [step, bipBufferRead, Int.not_le.mpr hl, hr, hc], h⟩
    case false =>
      refine absurd ?_ hb
      simp [step, bipBufferRead, not_le.mpr hl, hr, hc]

theorem Keeps.run (h : Keeps t) (hb : t.run calls ≠ .error .blocked) :
    ∃ t', t.run calls = .ok t' ∧ Keeps t' := by
  induction calls generalizing t
  case nil => exact ⟨t, rfl, h⟩
  case cons c calls hi =>
    rw [Trace.run, foldlM_cons] at hb ⊢
    have hs : t.step c ≠ .error .blocked := by
      intro he
      exact hb (by rw [he]; rfl)
    obtain ⟨t', he, hk⟩ : ∃ t', t.step c = .ok t' ∧ Keeps t' := by
      cases c
      case write => exact h.write hs
      case read  => exact h.read hs
    rw [he] at hb ⊢
    exact hi hk hb

-- Calls that find room or something to read never fail an assertion, and the buffer is a queue.
theorem fifo_of_run (mem : List UInt8) (h : mem.length = bipBufferSize) (calls : List Call)
    (hb : (start (bipBufferInit mem h)).run calls ≠ .error .blocked) :
    ∃ t, (start (bipBufferInit mem h)).run calls = .ok t ∧ Fifo t := by
  obtain ⟨t, ht, hk⟩ := (keeps_start h).run hb
  exact ⟨t, ht, hk.fifo⟩

-- The second write wraps around, and the last read swaps the regions.
def wrapping : List Call :=
  [.write (List.replicate 4000 1), .read 200, .write (List.replicate 200 2), .read 4000]

theorem wrapping_ne_blocked :
    (start (bipBufferInit (replicate 4096 0) (length_replicate ..))).run wrapping ≠ .error .blocked := by
  have h : ((start (bipBufferInit (replicate 4096 0) (length_replicate ..))).run wrapping).isOk := by
    decide +kernel
  intro he
  rw [he] at h
  contradiction

theorem fifo_wrapping :
    ∃ t, (start (bipBufferInit (List.replicate 4096 0) (List.length_replicate ..))).run wrapping =
      .ok t ∧ Fifo t :=
  fifo_of_run _ _ _ wrapping_ne_blocked

end Trace

end BipBuffer

end Adb
