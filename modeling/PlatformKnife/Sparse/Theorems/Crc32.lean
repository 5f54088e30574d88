import PlatformKnife.Sparse.Crc32

namespace Sparse

open BitVec UInt32

-- The two complements around the loop cancel out between two calls.

@[simp]
theorem sparseCrc32_nil (crc : UInt32) : sparseCrc32 crc [] = crc := by
  rw [sparseCrc32, List.foldl_nil, UInt32.xor_assoc, UInt32.xor_self, UInt32.xor_zero]

theorem sparseCrc32_append (crc : UInt32) (d₁ d₂ : List UInt8) :
    sparseCrc32 crc (d₁ ++ d₂) = sparseCrc32 (sparseCrc32 crc d₁) d₂ := by
  simp only [sparseCrc32, List.foldl_append, UInt32.xor_assoc, UInt32.xor_self, UInt32.xor_zero]

-- One bit of the division by the polynomial.
def crcBit (crc : UInt32) : UInt32 :=
  if crc &&& 1 = 1 then (crc >>> 1) ^^^ 0xEDB88320 else crc >>> 1

theorem crc32Tab_eq : crc32Tab = (List.range 256).map fun i => crcBit^[8] (UInt32.ofNat i) := by
  decide +kernel

theorem and_one_iff (c : UInt32) : c &&& 1 = 1 ↔ c.toBitVec.getLsbD 0 := by
  rw [← UInt32.toBitVec_inj, UInt32.toBitVec_and]
  exact and_one_eq_setWidth_ofBool_getLsbD ▸ by cases c.toBitVec.getLsbD 0 <;> decide

theorem crcBit_xor (hb : b.toBitVec.getLsbD 0 = false) (a : UInt32) :
    crcBit (a ^^^ b) = crcBit a ^^^ b >>> 1 := by
  simp only [crcBit, and_one_iff, UInt32.toBitVec_xor, getLsbD_xor, hb, Bool.xor_false, shiftRight_xor]
  split
  · ac_rfl
  · rfl

-- Bits above the ones that are divided are only shifted.
theorem iterate_crcBit_xor (hb : ∀ i < k, b.toBitVec.getLsbD i = false) (a : UInt32) :
    crcBit^[k] (a ^^^ b) = crcBit^[k] a ^^^ ⟨b.toBitVec >>> k⟩ := by
  induction k generalizing a b
  case zero => rfl
  case succ k hi =>
    have hs : (b >>> 1).toBitVec = b.toBitVec >>> 1 := rfl
    rw [Function.iterate_succ_apply, crcBit_xor (hb 0 (by omega)), hi, hs, ← shiftRight_add, add_comm]
    · rfl
    · intro i h
      rw [hs, getLsbD_ushiftRight]
      exact hb (1 + i) (by omega)

theorem crc32Step_eq (crc : UInt32) (b : UInt8) : crc32Step crc b = crcBit^[8] (crc ^^^ b.toUInt32) := by
  have hsplit : crc ^^^ b.toUInt32 = ((crc ^^^ b.toUInt32) &&& 0xff) ^^^ ⟨crc.toBitVec >>> 8 <<< 8⟩ := by
    rw [← UInt32.toBitVec_inj]
    ext i hi
    have hmask : (255#32)[i] = decide (i < 8) := by decide +revert
    by_cases h : i < 8
    case pos => simp [hmask, h]
    case neg => simp [hmask, h, getLsbD_of_ge b.toBitVec i (by omega), show 8 + (i - 8) = i by omega,
      getLsbD_eq_getElem hi]
  have hlow : ((crc ^^^ b.toUInt32) &&& 0xff).toNat < 256 := Nat.lt_succ_of_le Nat.and_le_right
  have hhigh : crc >>> 8 = ⟨crc.toBitVec >>> 8 <<< 8 >>> 8⟩ := by
    rw [← UInt32.toBitVec_inj]
    ext i hi
    simpa using lt_of_getLsbD
  conv_rhs => rw [hsplit, iterate_crcBit_xor (by grind)]
  rw [crc32Step, crc32Tab_eq, hhigh, List.getD_eq_getElem?_getD, List.getElem?_map,
    List.getElem?_range hlow, Option.map_some, Option.getD_some, UInt32.ofNat_toNat]

-- The table is the division of a byte, so that eight bits at once are as good as one after the other.
theorem sparseCrc32_eq (crc : UInt32) (buf : List UInt8) : sparseCrc32 crc buf =
    buf.foldl (fun crc b => crcBit^[8] (crc ^^^ b.toUInt32)) (crc ^^^ 0xffffffff) ^^^ 0xffffffff := by
  simp only [sparseCrc32, ← crc32Step_eq]

end Sparse
