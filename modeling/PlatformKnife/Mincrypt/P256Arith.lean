import PlatformKnife.Lib.CInt
import PlatformKnife.Mincrypt.P256

namespace Mincrypt

open CInt Digits

-- The loops over the digits. The accumulator of a difference is signed and wide enough for all of its
-- values.

def mulAddLoop (b : UInt32) : (a c : List UInt32) → (carry : UInt64) → List UInt32 × UInt64
  | a :: as, c :: cs, carry =>
    let carry := carry + c.toUInt64 + a.toUInt64 * b.toUInt64
    let (low, top) := mulAddLoop b as cs (carry >>> 32)
    (carry.toUInt32 :: low, top)
  | _, cs, carry => (cs, carry)

def borrowLoop : (c a : List UInt32) → (borrow : Int) → List UInt32 × Int
  | c :: cs, a :: as, borrow =>
    let borrow := borrow + c.toNat - a.toNat
    let (low, top) := borrowLoop cs as (borrow >>> (32 : Nat))
    (UInt32.ofNat (toU32 borrow) :: low, top)
  | cs, _, borrow => (cs, borrow)

def carryLoop : (c a : List UInt32) → (carry : UInt64) → List UInt32 × UInt64
  | c :: cs, a :: as, carry =>
    let carry := carry + c.toUInt64 + a.toUInt64
    let (low, top) := carryLoop cs as (carry >>> 32)
    (carry.toUInt32 :: low, top)
  | cs, _, carry => (cs, carry)

theorem mulAddLoop_length (b : UInt32) (a c : List UInt32) (carry : UInt64) :
    (mulAddLoop b a c carry).1.length = c.length := by
  induction c generalizing a carry
  case nil => cases a <;> rfl
  case cons c cs ih => cases a <;> simp [mulAddLoop, ih]

theorem borrowLoop_length (c a : List UInt32) (borrow : Int) :
    (borrowLoop c a borrow).1.length = c.length := by
  induction c generalizing a borrow
  case nil => cases a <;> rfl
  case cons c cs ih => cases a <;> simp [borrowLoop, ih]

theorem carryLoop_length (c a : List UInt32) (carry : UInt64) :
    (carryLoop c a carry).1.length = c.length := by
  induction c generalizing a carry
  case nil => cases a <;> rfl
  case cons c cs ih => cases a <;> simp [carryLoop, ih]

-- The shift by one bit, with the bit that becomes the first one.
def shr1Loop (highbit : UInt32) : List UInt32 → List UInt32
  | [] => []
  | [a] => [(a >>> 1) ||| (highbit <<< 31)]
  | a :: b :: l => ((a >>> 1) ||| (b <<< 31)) :: shr1Loop highbit (b :: l)

theorem shr1Loop_length (highbit : UInt32) (l : List UInt32) : (shr1Loop highbit l).length = l.length := by
  induction l
  case nil => rfl
  case cons a l ih => cases l <;> simp_all [shr1Loop]

namespace P256Int

def zero : P256Int where
  a := List.replicate P256_NDIGITS 0
  length_eq := List.length_replicate

def one : P256Int where
  a := 1 :: List.replicate (P256_NDIGITS - 1) 0
  length_eq := rfl

-- `mulAdd`, with the new top digit.
def mulAdd (a : P256Int) (b top : UInt32) (c : P256Int) : UInt32 × P256Int :=
  (top + (mulAddLoop b a.a c.a 0).2.toUInt32,
    { a := (mulAddLoop b a.a c.a 0).1, length_eq := by rw [mulAddLoop_length, c.length_eq] })

-- `subTop`. There is no result if its assertion fails.
def subTop (topA : UInt32) (a : P256Int) (topC : UInt32) (c : P256Int) : Option (UInt32 × P256Int) :=
  let borrow := (borrowLoop c.a a.a 0).2 + topC.toNat - topA.toNat
  if borrow >>> (32 : Nat) = 0 then
    some (UInt32.ofNat (toU32 borrow),
      { a := (borrowLoop c.a a.a 0).1, length_eq := by rw [borrowLoop_length, c.length_eq] })
  else
    none

def masked (m : P256Int) (mask : UInt32) : List UInt32 :=
  m.a.map (· &&& mask)

def subM (m : P256Int) (top : UInt32) (c : P256Int) (mask : UInt32) : UInt32 × P256Int :=
  let r := borrowLoop c.a (m.masked mask) 0
  (top + UInt32.ofNat (toU32 r.2),
    { a := r.1, length_eq := by rw [borrowLoop_length, c.length_eq] })

def addM (m : P256Int) (top : UInt32) (c : P256Int) (mask : UInt32) : UInt32 × P256Int :=
  let r := carryLoop c.a (m.masked mask) 0
  (top + r.2.toUInt32, { a := r.1, length_eq := by rw [carryLoop_length, c.length_eq] })

-- The eight digits at `tmp + i` become those at `tmp + i + 1` or `tmp + i - 1`.

def low (c : P256Int) : UInt32 :=
  c.a.headD 0

def high (c : P256Int) : UInt32 :=
  c.a.getLastD 0

def up (c : P256Int) (top : UInt32) : P256Int where
  a := c.a.tail ++ [top]
  length_eq := by simp [c.length_eq, P256_NDIGITS]

def down (c : P256Int) (d : UInt32) : P256Int where
  a := d :: c.a.dropLast
  length_eq := by simp [c.length_eq, P256_NDIGITS]

-- The first loop of `p256_modmul`. Digits below `tmp + i` are kept last first.
def mulLoop (a : P256Int) : (b done : List UInt32) → (tmp : P256Int) → List UInt32 × P256Int
  | [], done, tmp => (done, tmp)
  | b :: bs, done, tmp =>
    let (top, tmp) := a.mulAdd b 0 tmp
    mulLoop a bs (tmp.low :: done) (tmp.up top)

-- One round of the second loop.
def reduceStep (m : P256Int) (top : UInt32) (tmp : P256Int) : Option P256Int := do
  let (topReducer, reducer) := m.mulAdd top 0 zero
  let (top, tmp) ← subTop topReducer reducer top tmp
  if top > 1 then none
  else
    let (top, tmp) := m.subM top tmp (~~~(top - 1))
    if top ≠ 0 then none else some tmp

def reduceLoop (m : P256Int) : (done : List UInt32) → (top : UInt32) → (tmp : P256Int) → Option P256Int
  | [], top, tmp => reduceStep m top tmp
  | d :: done, top, tmp => do
    let tmp ← reduceStep m top tmp
    reduceLoop m done tmp.high (tmp.down d)

def mod (m c : P256Int) : P256Int :=
  let (mask, c) := m.subM 0 c (-1)
  (m.addM 0 c mask).2

-- `p256_modmul`. There is no result if an assertion fails.
def modmul (m a : P256Int) (topB : UInt32) (b : P256Int) : Option P256Int := do
  let (done, tmp) := a.mulLoop b.a [] zero
  let (top, tmp) := a.mulAdd topB 0 tmp
  let tmp ← reduceLoop m done top tmp
  pure (m.mod tmp)

-- The call with objects at these addresses, maybe the same. The factors are only read before the product
-- is copied.
def modmulAt (m : P256Int) (mem : Nat → P256Int) (a : Nat) (topB : UInt32) (b c : Nat) :
    Option (Nat → P256Int) :=
  (m.modmul (mem a) topB (mem b)).map (Function.update mem c)

def isZero (a : P256Int) : Bool :=
  a.a.foldl (· ||| ·) 0 = 0

def isEven (a : P256Int) : Bool :=
  a.low &&& 1 = 0

def shr1 (a : P256Int) (highbit : UInt32) : P256Int where
  a := shr1Loop highbit a.a
  length_eq := by rw [shr1Loop_length, a.length_eq]

-- `p256_cmp`. The two parts of the result are or'ed.
def cmp (a b : P256Int) : Int :=
  let r := borrowLoop a.a b.a 0
  if r.2 = 0 then (if r.1.any (· ≠ 0) then 1 else 0) else -1

-- `p256_sub`, with the borrow.
def sub (a b : P256Int) : Int × P256Int :=
  let r := borrowLoop a.a b.a 0
  (r.2, { a := r.1, length_eq := by rw [borrowLoop_length, a.length_eq] })

-- `p256_add`, with the carry.
def add (a b : P256Int) : UInt32 × P256Int :=
  let r := carryLoop a.a b.a 0
  (r.2.toUInt32, { a := r.1, length_eq := by rw [carryLoop_length, a.length_eq] })

-- The half of a number and the difference of two, both modulo `MOD`.

def halve (m r : P256Int) : P256Int :=
  if r.isEven then r.shr1 0 else (r.add m).2.shr1 (r.add m).1

def subMod (m s r : P256Int) : P256Int :=
  if (s.sub r).1 ≠ 0 then ((s.sub r).2.add m).2 else (s.sub r).2

def modinvLoop (m : P256Int) : (fuel : Nat) → (R S U V : P256Int) → Option P256Int
  | 0, _, _, _, _ => none
  | fuel + 1, R, S, U, V =>
    if U.isEven then
      modinvLoop m fuel (m.halve R) S (U.shr1 0) V
    else if V.isEven then
      modinvLoop m fuel R (m.halve S) U (V.shr1 0)
    else if (V.sub U).1 = 0 then
      let V := (V.sub U).2
      let S := m.subMod S R
      if V.isZero then some R else modinvLoop m fuel R S U V
    else
      modinvLoop m fuel (m.subMod R S) S (U.sub V).2 V

-- `p256_modinv_vartime`. A loop that has not ended in so many rounds does not end.
def modinvVartime (m a : P256Int) : Option P256Int :=
  (modinvLoop m (2 ^ 257) zero one m a).map m.mod

end P256Int

def SECP256r1_n : P256Int where
  a := [0xfc632551, 0xf3b9cac2, 0xa7179e84, 0xbce6faad, 0xffffffff, 0xffffffff, 0, 0xffffffff]
  length_eq := rfl

def SECP256r1_p : P256Int where
  a := [0xffffffff, 0xffffffff, 0xffffffff, 0, 0, 0, 1, 0xffffffff]
  length_eq := rfl

def SECP256r1_b : P256Int where
  a := [0x27d2604b, 0x3bce3c3e, 0xcc53b0f6, 0x651d06b0, 0x769886bc, 0xb3ebbd55, 0xaa3a93e7, 0x5ac635d8]
  length_eq := rfl

def isValidPoint (x y : P256Int) : Option Bool :=
  if SECP256r1_p.cmp x ≤ 0 ∨ SECP256r1_p.cmp y ≤ 0 ∨ x.isZero ∨ y.isZero then
    some false
  else do
    let y2 ← SECP256r1_p.modmul y 0 y
    let x3 ← SECP256r1_p.modmul x 0 x
    let x3 ← SECP256r1_p.modmul x 0 x3
    let x3 := SECP256r1_p.subMod x3 x
    let x3 := SECP256r1_p.subMod x3 x
    let x3 := SECP256r1_p.subMod x3 x
    let (carry, x3) := x3.add SECP256r1_b
    let x3 := if carry ≠ 0 then (x3.sub SECP256r1_p).2 else x3
    pure (y2.cmp x3 = 0)

-- What `p256_points_mul_vartime` computes from two scalars and a point.
abbrev PointsMul := P256Int → P256Int → P256Int → P256Int → P256Int × P256Int

def ecdsaVerify (pointsMulVartime : PointsMul) (keyX keyY message r s : P256Int) : Option Nat := do
  if !(← isValidPoint keyX keyY) then
    pure 0
  else if (SECP256r1_n.mod r).isZero || (SECP256r1_n.mod s).isZero then
    pure 0
  else
    let v ← SECP256r1_n.modinvVartime s
    let u ← SECP256r1_n.modmul message 0 v
    let v ← SECP256r1_n.modmul r 0 v
    let (u, _) := pointsMulVartime u v keyX keyY
    let u := SECP256r1_n.mod u
    pure (if r.cmp u = 0 then 1 else 0)

end Mincrypt
