import PlatformKnife.Lib.CInt

namespace Utf

open CInt

-- A read behind the bytes, a write behind the buffer, an `int` that overflows, and a loop that is still
-- running.
inductive Fault
  | overread
  | overrun
  | overflow
  | running
deriving DecidableEq

def UTF16_REPLACEMENT_CHAR : BitVec 32 :=
  0xfffd

def UNICODE_UPPER_LIMIT : BitVec 32 :=
  0x10fffd

section

-- Whether `char` is signed.
variable (signed : Bool)

-- A `char` as an `int`.
def int (c : UInt8) : BitVec 32 :=
  if signed then c.toBitVec.signExtend 32 else c.toBitVec.setWidth 32

-- `UTF8_SEQ_LENGTH`
def seqLength (c : UInt8) : Nat :=
  ((0xe5000000#32 >>> ((int signed c).sshiftRight 3 &&& 0x1e) &&& 3) + 1).toNat

def isExtension (c : UInt8) : Bool :=
  int signed c &&& 0xc0 = 0x80

def strlenLoop (len : Nat) (expected : Int) : List UInt8 → Except Fault Nat
  | [] => .error .overread
  | c :: l =>
    if c = 0 then .ok len
    else if isExtension signed c then
      if expected - 1 < -2 ^ 31 then .error .overflow
      else strlenLoop (if expected - 1 < 0 then len + 1 else len) (expected - 1) l
    else strlenLoop (if seqLength signed c = 4 then len + 2 else len + 1) (seqLength signed c - 1) l

def strlen8to16 (utf8Str : List UInt8) : Except Fault Nat :=
  strlenLoop signed 0 0 utf8Str

-- The lead byte without the bits that give the length. The masks are a `char` each.
def leader (c : UInt8) : BitVec 32 :=
  int signed c &&& int signed ([0xff, 0x1f, 0x0f, 0x07].getD (seqLength signed c - 1) 0)

def extensionLoop : Nat → BitVec 32 → List UInt8 → Except Fault (BitVec 32 × List UInt8)
  | 0, ret, l => .ok (ret, l)
  | _ + 1, _, [] => .error .overread
  | n + 1, ret, c :: l =>
    if c = 0 then .ok (UTF16_REPLACEMENT_CHAR, c :: l)
    else if !isExtension signed c then .ok (UTF16_REPLACEMENT_CHAR, c :: l)
    else extensionLoop n ((ret <<< 6) ||| (0x3f &&& int signed c)) l

-- The character and where the next one starts.
def getUtf32FromUtf8 : List UInt8 → Except Fault (BitVec 32 × List UInt8)
  | [] => .error .overread
  | c :: l =>
    if isExtension signed c then .ok (UTF16_REPLACEMENT_CHAR, l)
    else if c = 0 then .ok (leader signed c, c :: l)
    else extensionLoop signed (seqLength signed c - 1) (leader signed c) l

def units (ret : BitVec 32) : List UInt16 :=
  if ret ≤ 0xffff then [.ofNat ret.toNat]
  else if ret ≤ UNICODE_UPPER_LIMIT then
    [.ofNat (0xd800 ||| ((ret - 0x10000) >>> 10)).toNat,
      .ofNat (0xdc00 ||| ((ret - 0x10000) &&& 0x3ff)).toNat]
  else [.ofNat UTF16_REPLACEMENT_CHAR.toNat]

-- The loop of `strcpy8to16` and `strcpylen8to16`, with different ends.
def copyLoop (atEnd : List UInt8 → Except Fault Bool) : Nat → List UInt8 → Except Fault (List UInt16)
  | 0, _ => .error .running
  | fuel + 1, l => do
    if ← atEnd l then return []
    let (ret, l) ← getUtf32FromUtf8 signed l
    return units ret ++ (← copyLoop atEnd fuel l)

def atNul : List UInt8 → Except Fault Bool
  | [] => .error .overread
  | c :: _ => .ok (c = 0)

def strcpy8to16 (fuel : Nat) (utf8Str : List UInt8) : Except Fault (List UInt16) :=
  copyLoop signed atNul fuel utf8Str

-- The bytes are the `length` ones that may be read.
def strcpylen8to16 (fuel : Nat) (utf8Str : List UInt8) : Except Fault (List UInt16) :=
  copyLoop signed (fun l => .ok l.isEmpty) fuel utf8Str

-- `none` is the null pointer for a length that is too large. The allocation succeeds.
def strdup8to16 (fuel : Nat) (s : List UInt8) : Except Fault (Option (List UInt16)) := do
  let len ← strlen8to16 signed s
  if len ≠ 0 ∧ (2 ^ 64 - 1) / len < 2 then return none
  let us ← strcpy8to16 signed fuel s
  if us.length ≤ len then return some us else throw .overrun

end

-- The number of bytes for a unit.
def width (uic : UInt16) : Nat :=
  if uic > 0x07ff then 3 else if uic > 0x7f ∨ uic = 0 then 2 else 1

-- The slower version, which looks for an overflow after each unit.
def strnlenLoop (utf8Len : Nat) : List UInt16 → Nat
  | [] => if utf8Len = 2 ^ 64 - 1 then 2 ^ 64 - 2 else utf8Len
  | uic :: u =>
    if u64 (utf8Len + width uic) < utf8Len then 2 ^ 64 - 2
    else strnlenLoop (u64 (utf8Len + width uic)) u

def strnlen16to8 (utf16Str : List UInt16) : Nat :=
  if utf16Str.length < (2 ^ 64 - 2) / 3 then
    utf16Str.foldl (fun utf8Len uic => u64 (utf8Len + width uic)) 0
  else strnlenLoop 0 utf16Str

def encode (uic : UInt16) : List UInt8 :=
  if uic > 0x07ff then
    [((uic >>> 12) ||| 0xe0).toUInt8, (((uic >>> 6) &&& 0x3f) ||| 0x80).toUInt8,
      ((uic &&& 0x3f) ||| 0x80).toUInt8]
  else if uic > 0x7f ∨ uic = 0 then
    [((uic >>> 6) ||| 0xc0).toUInt8, ((uic &&& 0x3f) ||| 0x80).toUInt8]
  else [uic.toUInt8]

def strncpy16to8 : List UInt16 → List UInt8
  | [] => [0]
  | uic :: u => encode uic ++ strncpy16to8 u

end Utf
