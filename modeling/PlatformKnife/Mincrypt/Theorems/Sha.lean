import PlatformKnife.Mincrypt.Rsa

namespace Mincrypt

open Bytes Digits Slice List Nat UInt64

namespace HashAlg

variable {alg : HashAlg σ}

section Update

theorem updateLoop_append (hi : i < 64) (buf : List UInt8) (state : σ) (l₁ l₂ : List UInt8) :
    alg.updateLoop i buf state (l₁ ++ l₂) =
      alg.updateLoop ((i + l₁.length) % 64) (alg.updateLoop i buf state l₁).1
        (alg.updateLoop i buf state l₁).2 l₂ := by
  induction l₁ generalizing i buf state
  case nil => simp [updateLoop, mod_eq_of_lt hi]
  case cons b l ih =>
    simp only [cons_append, updateLoop, length_cons]
    split
    case isTrue h =>
      rw [ih (by decide), show i + (l.length + 1) = 64 + (0 + l.length) by omega, add_mod_left]
    case isFalse h => rw [ih (by omega), show i + (l.length + 1) = i + 1 + l.length by omega]

theorem and_63 (c : UInt64) : (c &&& 63).toNat = c.toNat % 64 := by
  rw [UInt64.toNat_and]
  exact and_two_pow_sub_one_eq_mod c.toNat 6

theorem update_append (ctx : HashCtx σ) (l₁ l₂ : List UInt8) :
    alg.update (alg.update ctx l₁) l₂ = alg.update ctx (l₁ ++ l₂) := by
  have hi : (ctx.count &&& 63).toNat < 64 := by
    rw [and_63]
    omega
  have hcount : ((ctx.count + ofNat l₁.length) &&& 63).toNat =
      ((ctx.count &&& 63).toNat + l₁.length) % 64 := by
    simp only [and_63, UInt64.toNat_add, UInt64.toNat_ofNat']
    omega
  simp only [update, updateLoop_append hi, hcount, length_append, UInt64.ofNat_add, UInt64.add_assoc]

theorem updateLoop_fill (alg : HashAlg σ) (p q x l : List UInt8) (state : σ) (hp : p.length + x.length = 64)
    (hq : q.length = x.length) (hx : x ≠ []) :
    alg.updateLoop p.length (p ++ q) state (x ++ l) =
      alg.updateLoop 0 (p ++ x) (alg.transform (p ++ x) state) l := by
  induction x generalizing p q
  case nil => exact absurd rfl hx
  case cons b x ih =>
    obtain _ | ⟨c, q⟩ := q
    · cases hq
    have hset : (p ++ c :: q).set p.length b = (p ++ [b]) ++ q := by simp
    simp only [cons_append, updateLoop, hset]
    obtain rfl | hne := eq_or_ne x []
    · obtain rfl := length_eq_zero_iff.mp (succ.inj hq)
      rw [if_pos (by simpa using hp), append_nil, nil_append]
    have hpos := length_pos_iff.mpr hne
    rw [length_cons] at hp
    have := ih (p ++ [b]) q (by simp; omega) (succ.inj hq) hne
    rw [if_neg (by omega)]
    simpa using this

theorem updateLoop_blocks (alg : HashAlg σ) (blocks : List (List UInt8)) (h : ∀ b ∈ blocks, b.length = 64)
    (buf : List UInt8) (hbuf : buf.length = 64) (state : σ) :
    (alg.updateLoop 0 buf state blocks.flatten).2 =
      blocks.foldl (fun state block => alg.transform block state) state := by
  induction blocks generalizing buf state
  case nil => rfl
  case cons b blocks ih =>
    have hb := h b mem_cons_self
    have hfill := updateLoop_fill alg [] buf b blocks.flatten state (by simpa using hb)
      (hbuf.trans hb.symm) (by rintro rfl; cases hb)
    simp only [nil_append, length_nil] at hfill
    rw [flatten_cons, hfill, ih (fun b hb => h b (mem_cons_of_mem _ hb)) b hb, foldl_cons]

end Update

section Final

theorem padLoop_eq (ctx : HashCtx σ) (hk : k < fuel) (hfuel : fuel ≤ 64)
    (h : (ctx.count.toNat + k) % 64 = 56) :
    alg.padLoop fuel ctx = alg.update ctx (replicate k 0) := by
  have hcond : ctx.count &&& 63 = 56 ↔ ctx.count.toNat % 64 = 56 := by
    rw [← UInt64.toNat_inj, and_63]
    rfl
  induction k generalizing fuel ctx
  case zero =>
    obtain ⟨fuel, rfl⟩ := exists_eq_succ_of_ne_zero (Nat.ne_zero_of_lt hk)
    rw [padLoop, if_neg (by simpa [hcond] using h)]
    simp [update, updateLoop]
  case succ k ih =>
    obtain ⟨fuel, rfl⟩ := exists_eq_succ_of_ne_zero (Nat.ne_zero_of_lt hk)
    have hcount : (alg.update ctx [0]).count = ctx.count + 1 := rfl
    rw [padLoop, if_pos (by rw [ne_eq, hcond]; omega), ih (alg.update ctx [0]) (by omega) (by omega)
      (by rw [hcount, UInt64.toNat_add]; simp; omega), update_append]
    · rfl
    · rw [← UInt64.toNat_inj, and_63]
      rfl

-- The bytes behind the data: a one, the zeros and the number of bits.
def padding (k len : Nat) : List UInt8 :=
  0x80 :: (List.replicate k 0 ++ be 8 (8 * len))

theorem foldl_update (f : Nat → UInt8) (l : List Nat) (ctx : HashCtx σ) :
    l.foldl (fun ctx i => alg.update ctx [f i]) ctx = alg.update ctx (l.map f) := by
  induction l generalizing ctx
  case nil => simp [update, updateLoop]
  case cons i l ih => rw [foldl_cons, ih, update_append, map_cons, singleton_append]

theorem countBytes_eq (cnt : UInt64) :
    (range 8).map (fun i => (cnt >>> ofNat ((7 - i) * 8)).toUInt8) = be 8 cnt.toNat := by
  have hshift (i : Nat) (hi : i < 64) : (cnt >>> ofNat i).toUInt8 = UInt8.ofNat (cnt.toNat / 2 ^ i) := by
    apply UInt8.toNat.inj
    simp [shiftRight_eq_div_pow, mod_eq_of_lt hi]
  rw [map_congr_left fun i hi => hshift ((7 - i) * 8) (by omega)]
  simp [range_succ, be, le, Nat.div_div_eq_div_mul]

theorem hash_eq (buf data : List UInt8) (blocks : List (List UInt8)) (h : ∀ b ∈ blocks, b.length = 64)
    (hbuf : buf.length = 64) (hk : k < 64) (hpad : (data.length + 1 + k) % 64 = 56)
    (hdata : data.length < 2 ^ 61) (hblocks : data ++ padding k data.length = blocks.flatten) :
    alg.hash buf data =
      (alg.words (blocks.foldl (fun state block => alg.transform block state) alg.init)).flatMap beBytes := by
  have hcount : (alg.update (alg.initCtx buf) data).count = ofNat data.length := by
    simp [update, initCtx]
  have hbits : (UInt64.ofNat data.length * 8).toNat = 8 * data.length := by
    rw [UInt64.toNat_mul, UInt64.toNat_ofNat']
    simp
    omega
  have hone : (alg.update (alg.initCtx buf) (data ++ [0x80])).count = ofNat (data.length + 1) := by
    simp [update, initCtx]
  simp only [hash, final, hcount, foldl_update, update_append]
  rw [padLoop_eq _ hk (le_refl _) (by rw [hone, toNat_ofNat']; omega), countBytes_eq, hbits,
    update_append, update_append, append_assoc, singleton_append, ← padding, hblocks]
  have hstate : (alg.update (alg.initCtx buf) blocks.flatten).state =
      (alg.updateLoop 0 buf alg.init blocks.flatten).2 := by
    simp [update, initCtx]
  rw [hstate, updateLoop_blocks alg blocks h buf hbuf]

end Final

end HashAlg

-- The bytes that a signature is checked against, with zeros in the place of the hash.

def shaPadding : List UInt8 :=
  [0x00, 0x01] ++ List.replicate 218 0xff ++
  [0x00, 0x30, 0x21, 0x30, 0x09, 0x06, 0x05, 0x2b, 0x0e, 0x03, 0x02, 0x1a, 0x05, 0x00, 0x04, 0x14]

def sha256Padding : List UInt8 :=
  [0x00, 0x01] ++ List.replicate 202 0xff ++
  [0x00, 0x30, 0x31, 0x30, 0x0d, 0x06, 0x09, 0x60, 0x86, 0x48, 0x01, 0x65, 0x03, 0x04, 0x02, 0x01, 0x05,
    0x00, 0x04, 0x20]

def blocksOf (k : Nat) (l : List UInt8) : List (List UInt8) :=
  (List.range k).map fun i => (l.drop (64 * i)).take 64

theorem blocksOf_length (h : l.length = 64 * k) : ∀ b ∈ blocksOf k l, b.length = 64 := by
  intro b hb
  obtain ⟨i, hi, rfl⟩ := mem_map.mp hb
  have hi := mem_range.mp hi
  rw [length_take, length_drop]
  omega

theorem blocksOf_flatten (h : l.length = 64 * k) : (blocksOf k l).flatten = l := by
  induction k generalizing l
  case zero => exact (length_eq_zero_iff.mp h).symm
  case succ k ih =>
    have ih := ih (l := l.drop 64) (by rw [length_drop]; omega)
    simp only [blocksOf, drop_drop] at ih
    rw [blocksOf, range_succ_eq_map, map_cons, map_map, flatten_cons, Nat.mul_zero, drop_zero]
    refine Eq.trans (congrArg (l.take 64 ++ ·) (Eq.trans ?_ ih)) (take_append_drop 64 l)
    simp only [Function.comp_def, succ_eq_add_one, Nat.mul_add, Nat.mul_one, Nat.add_comm]

theorem hash_eq_blocksOf {alg : HashAlg σ} (hbuf : buf.length = 64) (hdata : data.length = 256) :
    alg.hash buf data =
      (alg.words ((blocksOf 5 (data ++ HashAlg.padding 55 256)).foldl
        (fun state block => alg.transform block state) alg.init)).flatMap beBytes := by
  have hlen : (data ++ HashAlg.padding 55 256).length = 64 * 5 := by simp [hdata, HashAlg.padding]
  exact HashAlg.hash_eq _ _ _ (blocksOf_length hlen) hbuf (show 55 < 64 by decide) (by rw [hdata])
    (by rw [hdata]; decide) (by rw [hdata, blocksOf_flatten hlen])

theorem hash_shaPadding (hbuf : buf.length = 64) :
    Sha1.alg.hash buf (shaPadding ++ replicate 20 0) = kExpectedPadShaRsa2048 := by
  rw [hash_eq_blocksOf hbuf (by decide +kernel)]
  decide +kernel

theorem hash_sha256Padding (hbuf : buf.length = 64) :
    Sha256.alg.hash buf (sha256Padding ++ replicate 32 0) = kExpectedPadSha256Rsa2048 := by
  rw [hash_eq_blocksOf hbuf (by decide +kernel)]
  decide +kernel

end Mincrypt
