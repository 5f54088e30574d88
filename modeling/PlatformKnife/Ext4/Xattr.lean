import PlatformKnife.Ext4.Buffer

namespace Ext4

open CInt

-- An attribute for `xattr_addto_range`: the byte of the name index, the name without its terminator, and
-- a value as large as an object in memory can be.
structure Xattr where
  nameIndex : UInt8
  name : List UInt8
  value : List UInt8
  value_lt : value.length < 2 ^ 63 := by decide
  deriving DecidableEq

-- `struct ext4_xattr_entry`. The length of the name is that of the list.
structure XattrEntry where
  eNameIndex : UInt8
  eValueOffs : Nat
  eValueBlock : Nat
  eValueSize : Nat
  eHash : Nat
  eName : List UInt8
  deriving DecidableEq

-- The bytes from `first`, `base` bytes behind `block_start`, to `block_end`, by `info.inode_size` or
-- `info.block_size`.
structure XattrRange where
  base : Nat
  size : Nat
  lt   : base + size < 2 ^ 32 := by decide

-- `EXT4_XATTR_LEN` and `EXT4_XATTR_SIZE`.

def xattrLen (nameLen : Nat) : Nat :=
  (nameLen + 3 + 16) / 4 * 4

def xattrSize (size : Nat) : Nat :=
  (size + 3) / 4 * 4

-- `IS_LAST_ENTRY` and `EXT4_XATTR_NEXT`. Entries are given by their positions in the range.

def isLastEntry (data : List UInt8) (entry : Nat) : Exec Bool := do
  let word ← bytesAt data entry 4
  return Bytes.fromLe word = 0

def xattrNext (data : List UInt8) (entry : Nat) : Exec Nat := do
  let nameLen ← bytesAt data entry 1
  return entry + xattrLen (Bytes.fromLe nameLen)

-- The loop of `xattr_free_space`. An entry has 16 bytes at least and no read is behind the range, so its
-- length in rounds is enough here and for the other loops.
def freeSpaceLoop (data : List UInt8) : Nat → Nat → Int → Exec (Nat × Int)
  | 0, entry, stop => .ok (entry, stop)
  | fuel + 1, entry, stop => do
    if !(← isLastEntry data entry) && entry < stop then
      let size ← bytesAt data (entry + 8) 4
      let next ← xattrNext data entry
      freeSpaceLoop data fuel next (stop - u32 (Bytes.fromLe size + 3) / 4 * 4)
    else
      return (entry, stop)

def xattrFreeSpace (force : Bool) (data : List UInt8) : Exec Nat := do
  let (entry, stop) ← freeSpaceLoop data (data.length + 1) 0 data.length
  if entry > stop then
    error force "unexpected read beyond end of xattr space"
    return 0
  else
    return (stop - entry).toNat

def getLastLoop (data : List UInt8) : Nat → Nat → Exec Nat
  | 0, entry => .ok entry
  | fuel + 1, entry => do
    if ← isLastEntry data entry then
      return entry
    else
      getLastLoop data fuel (← xattrNext data entry)

def xattrGetLast (data : List UInt8) : Exec Nat :=
  getLastLoop data (data.length + 1) 0

-- The first difference of two byte strings.
def memcmp : List UInt8 → List UInt8 → Int
  | a :: as, b :: bs => if a = b then memcmp as bs else a.toNat - b.toNat
  | _, _ => 0

-- The variable `cmp` of `xattr_assert_sane`.
def compareEntries (data : List UInt8) (next entry : Nat) : Exec Int := do
  let nextIndex ← bytesAt data (next + 1) 1
  let entryIndex ← bytesAt data (entry + 1) 1
  let nextLen ← bytesAt data next 1
  let entryLen ← bytesAt data entry 1
  if Bytes.fromLe nextIndex ≠ Bytes.fromLe entryIndex then
    return Bytes.fromLe nextIndex - Bytes.fromLe entryIndex
  else if Bytes.fromLe nextLen ≠ Bytes.fromLe entryLen then
    return Bytes.fromLe nextLen - Bytes.fromLe entryLen
  else
    let nextName ← bytesAt data (next + 16) (Bytes.fromLe nextLen)
    let entryName ← bytesAt data (entry + 16) (Bytes.fromLe nextLen)
    return memcmp nextName entryName

def notSorted : String :=
  "BUG: extended attributes are not sorted\n"

def duplicateDetected : String :=
  "BUG: duplicate extended attributes detected\n"

def assertSaneLoop (force : Bool) (data : List UInt8) : Nat → Nat → Exec Unit
  | 0, _ => .ok ()
  | fuel + 1, entry => do
    if ← isLastEntry data entry then
      return
    let next ← xattrNext data entry
    if ← isLastEntry data next then
      return
    let cmp ← compareEntries data next entry
    if cmp < 0 then
      error force notSorted
    else if cmp = 0 then
      error force duplicateDetected
    else
      assertSaneLoop force data fuel next

def xattrAssertSane (force : Bool) (data : List UInt8) : Exec Unit :=
  assertSaneLoop force data (data.length + 1) 0

-- An entry with the zeros up to the next one.
def XattrEntry.bytes (e : XattrEntry) : List UInt8 :=
  [UInt8.ofNat e.eName.length, e.eNameIndex] ++ (Bytes.le 2 e.eValueOffs
    ++ (Bytes.le 4 e.eValueBlock ++ (Bytes.le 4 e.eValueSize ++ (Bytes.le 4 e.eHash
    ++ (e.eName ++ List.replicate (xattrLen e.eName.length - 16 - e.eName.length) 0)))))

def paddedValue (value : List UInt8) : List UInt8 :=
  value ++ List.replicate (xattrSize value.length - value.length) 0

-- The entry for an attribute whose value is `offs` bytes behind `block_start`.
def entryOf (a : Xattr) (offs : Nat) : XattrEntry where
  eNameIndex := a.nameIndex
  eValueOffs := u16 offs
  eValueBlock := 0
  eValueSize := u32 a.value.length
  eHash := 0
  eName := a.name

-- The result is the position of the new entry, or `none` without enough space.
def xattrAddtoRange (force : Bool) (base : Nat) (data : List UInt8) (a : Xattr) :
    Exec (List UInt8 × Option Nat) := do
  if 255 < a.name.length then
    return (data, none)
  let availableSize ← xattrFreeSpace force data
  if availableSize < xattrLen a.name.length + xattrSize a.value.length then
    return (data, none)
  let newEntry ← xattrGetLast data
  let val := newEntry + availableSize - xattrSize a.value.length
  let data ← storeBytes data newEntry (entryOf a (base + val)).bytes
  let data ← storeBytes data val (paddedValue a.value)
  xattrAssertSane force data
  return (data, some newEntry)

-- A sequence of calls, with the attributes that fit.
def addXattrs (force : Bool) (base : Nat) : List UInt8 → List Xattr → Exec (List UInt8 × List Xattr)
  | data, [] => .ok (data, [])
  | data, a :: as => do
    let (data, res) ← xattrAddtoRange force base data a
    let (data, added) ← addXattrs force base data as
    return (data, if res.isSome then a :: added else added)

section Reading

def XattrEntry.read : List UInt8 → Option XattrEntry
  | nameLen :: nameIndex :: rest =>
    if 14 + nameLen.toNat ≤ rest.length then
      some {
        eNameIndex := nameIndex
        eValueOffs := Bytes.fromLe (Slice.slice rest 0 2)
        eValueBlock := Bytes.fromLe (Slice.slice rest 2 6)
        eValueSize := Bytes.fromLe (Slice.slice rest 6 10)
        eHash := Bytes.fromLe (Slice.slice rest 10 14)
        eName := Slice.slice rest 14 (14 + nameLen.toNat)
      }
    else
      none
  | _ => none

-- The walk over the entries up to a zero word, with their positions and its own. It fails outside the
-- range.
def walkXattrs : Nat → Nat → List UInt8 → Option (List (Nat × XattrEntry) × Nat)
  | 0, _, _ => none
  | fuel + 1, pos, rest =>
    if rest.length < 4 then
      none
    else if Bytes.fromLe (rest.take 4) = 0 then
      some ([], pos)
    else do
      let e ← XattrEntry.read rest
      let (es, stop) ← walkXattrs fuel (pos + xattrLen e.eName.length)
        (rest.drop (xattrLen e.eName.length))
      return ((pos, e) :: es, stop)

-- The bytes that `e_value_offs` and `e_value_size` select.
def XattrEntry.value (base : Nat) (data : List UInt8) (e : XattrEntry) : Option (List UInt8) :=
  if base ≤ e.eValueOffs ∧ e.eValueOffs - base + e.eValueSize ≤ data.length then
    some (Slice.slice data (e.eValueOffs - base) (e.eValueOffs - base + e.eValueSize))
  else
    none

-- The values of two entries have no byte in common.
def XattrEntry.Apart (e e' : XattrEntry) : Prop :=
  e'.eValueOffs + e'.eValueSize ≤ e.eValueOffs ∨ e.eValueOffs + e.eValueSize ≤ e'.eValueOffs

-- The walk over the range yields these entries and stops at the position `stop`.
structure WalksOver (base : Nat) (data : List UInt8) (attrs : List Xattr)
    (entries : List (Nat × XattrEntry)) (stop : Nat) : Prop where
  walk : walkXattrs (data.length + 1) 0 data = some (entries, stop)
  yields : entries.map (fun e => (e.snd.eNameIndex, e.snd.eName, e.snd.value base data))
                       = attrs.map fun a => (a.nameIndex, a.name, some a.value)
  zero_word : bytesAt data stop 4 = .ok [0, 0, 0, 0]
  word_below : ∀ e ∈ entries, base + (stop + 4) ≤ e.snd.eValueOffs
  entry_below : ∀ e ∈ entries, e.fst + xattrLen e.snd.eName.length ≤ stop
  disjoint_entries : entries.Pairwise fun e e' => e.fst + xattrLen e.snd.eName.length ≤ e'.fst
  disjoint_values : entries.Pairwise fun e e' => e.snd.Apart e'.snd

def Parseable (base : Nat) (data : List UInt8) (attrs : List Xattr) : Prop :=
  ∃ entries stop, WalksOver base data attrs entries stop

-- What holds after calls on a range of zeros. An error about the order does not return, unless it is only
-- printed.
def XattrsParseable (force : Bool) (r : XattrRange) (calls : List Xattr) : Prop :=
  match addXattrs force r.base (List.replicate r.size 0) calls with
  | .ok (data, added) => Parseable r.base data added
  | .error (.longjmp msg) => force = false ∧ msg ∈ [notSorted, duplicateDetected]
  | .error (.fault _) => False

end Reading

section Space

def Xattr.needed (a : Xattr) : Nat :=
  xattrLen a.name.length + xattrSize a.value.length

def neededSpace (attrs : List Xattr) : Nat :=
  (attrs.map Xattr.needed).sum

def valueSpace (attrs : List Xattr) : Nat :=
  (attrs.map fun a => xattrSize a.value.length).sum

def XattrRange.Fits (r : XattrRange) (attrs : List Xattr) (a : Xattr) : Prop :=
  a.name.length ≤ 255 ∧ neededSpace attrs + a.needed ≤ r.size
  deriving Decidable

-- A further attribute leaves room for a word, and its value has an offset of 16 bits.
structure XattrRange.Leaves (r : XattrRange) (attrs : List Xattr) (a : Xattr) : Prop where
  word   : neededSpace attrs + a.needed + 4 ≤ r.size
  offset : r.base + r.size - valueSpace attrs - xattrSize a.value.length < 2 ^ 16

-- Every attribute of the sequence that fits, behind those of `attrs`, is of that kind.
def XattrRange.AllLeave (r : XattrRange) : List Xattr → List Xattr → Prop
  | _, [] => True
  | attrs, a :: as =>
    (r.Fits attrs a → r.Leaves attrs a) ∧
    r.AllLeave (if r.Fits attrs a then attrs ++ [a] else attrs) as

end Space

end Ext4
