import PlatformKnife.Lib.CInt
import PlatformKnife.Lib.CString
import PlatformKnife.Lib.Scan
import PlatformKnife.Lib.Slice

namespace Liblog

open CInt CString Scan Slice

-- `struct EventTag`, where the string is given by its position in the mapped file.
structure EventTag where
  tagIndex : Nat
  tagStr   : Nat
  deriving DecidableEq

structure EventTagMap where
  mapAddr  : List UInt8
  tagArray : List EventTag

-- Why there is no result: an access outside of the mapped file or the array, a map that is refused, or a
-- loop that did not end within its fuel.
inductive Fault
  | overrun
  | reject
  | stuck
  deriving DecidableEq

section

variable (c : UInt8)

def isCharWhitespace : Bool :=
  c = 32 || c = 10 || c = 13 || c = 9

def isCharValidTag : Bool :=
  (65 ≤ c && c ≤ 90) || (97 ≤ c && c ≤ 122) || (48 ≤ c && c ≤ 57) || c = 95

def isCharDigit : Bool :=
  48 ≤ c && c ≤ 57

-- The characters that the loops of `scanTagLine` skip within a line.
def isBlank : Bool :=
  c ≠ 10 && isCharWhitespace c

def isInLine : Bool :=
  c ≠ 10

end

-- One round of the loop of `countMapLines`, with `numTags` and `unknown`.
def countStep : Nat × Bool → UInt8 → Nat × Bool
  | (numTags, unknown), c =>
    if c = 10 then
      (numTags, true)
    else if unknown then
      if isCharDigit c then
        (numTags + 1, false)
      else if isCharWhitespace c then
        (numTags, true)
      else
        (numTags, false)
    else
      (numTags, unknown)

section

variable (mem : List UInt8)

-- The counter is an `int`.
def countMapLines : Int :=
  i32 (mem.foldl countStep (0, true)).1

-- The end of `scanTagLine`, from the first character of the tag string on.
def scanTagEnd (tagIndex tagStr : Nat) : Except Fault (List UInt8 × EventTag × Nat) :=
  match scan isCharValidTag mem tagStr with
  | none => .error .overrun
  | some cp =>
    if mem[cp]? = some 10 then
      .ok (overwrite mem cp [0], ⟨tagIndex, tagStr⟩, cp)
    else if (mem[cp]?.map isCharWhitespace).getD false then
      let mem := overwrite mem cp [0]
      match scan isInLine mem cp with
      | none => .error .overrun
      | some cp => .ok (mem, ⟨tagIndex, tagStr⟩, cp)
    else
      .error .reject

-- The part of `scanTagLine` behind the number, which ends at `cp`.
def scanTagStr (tagIndex cp : Nat) : Except Fault (List UInt8 × EventTag × Nat) :=
  match scan isBlank mem cp with
  | none => .error .overrun
  | some tagStr => if mem[tagStr]? = some 10 then .error .reject else scanTagEnd mem tagIndex tagStr

-- From a digit at `cp` to the end of the line: the memory, the tag and the newline's position.
def scanTagLine (cp : Nat) : Except Fault (List UInt8 × EventTag × Nat) :=
  match scan isCharDigit mem cp with
  | none => .error .overrun
  | some endp =>
    let mem := overwrite mem endp [0]
    scanTagStr mem (u32 (strtoul (2 ^ 64 - 1) 10 (mem.drop cp)).1) endp

end

-- The loop of `parseMapLines`.
def parseLoop (numTags : Int) :
    (fuel : Nat) → List UInt8 → (cp : Nat) → (lineStart : Bool) → List EventTag →
      Except Fault (List UInt8 × List EventTag)
  | 0, _, _, _, _ => .error .stuck
  | fuel + 1, mem, cp, lineStart, tags =>
    match mem[cp]? with
    | none => .ok (mem, tags)
    | some c =>
      if c = 10 then
        parseLoop numTags fuel mem (cp + 1) true tags
      else if lineStart then
        if c = 35 then
          parseLoop numTags fuel mem (cp + 1) false tags
        else if isCharDigit c then
          if (tags.length : Int) ≥ numTags then
            .error .reject
          else
            match scanTagLine mem cp with
            | .error fault => .error fault
            | .ok (mem, tag, cp) => parseLoop numTags fuel mem (cp + 1) true (tags ++ [tag])
        else if isCharWhitespace c then
          parseLoop numTags fuel mem (cp + 1) true tags
        else
          .error .reject
      else
        parseLoop numTags fuel mem (cp + 1) false tags

def parseMapLines (numTags : Int) (mem : List UInt8) : Except Fault (List UInt8 × List EventTag) :=
  if mem.getLast? ≠ some 10 then
    .error .reject
  else
    match parseLoop numTags (mem.length + 1) mem 0 true [] with
    | .error fault => .error fault
    | .ok (mem, tags) => if (tags.length : Int) ≠ numTags then .error .reject else .ok (mem, tags)

def compareEventTags (tag1 tag2 : EventTag) : Int :=
  toI32 (subU32 tag1.tagIndex tag2.tagIndex)

-- `qsort`, followed by the loop that looks for equal neighbours.
def sortTags (tags : List EventTag) : Except Fault (List EventTag) :=
  let tagArray := tags.mergeSort fun tag1 tag2 => compareEventTags tag1 tag2 ≤ 0
  if (tagArray.zip tagArray.tail).any fun (tag1, tag2) => tag2.tagIndex = tag1.tagIndex then
    .error .reject
  else
    .ok tagArray

-- The flag is the outcome of `calloc` for the array.
def processFile (mem : List UInt8) (callocOk : Bool) : Except Fault EventTagMap :=
  let numTags := countMapLines mem
  if numTags < 0 then
    .error .reject
  else if !callocOk then
    .error .reject
  else
    match parseMapLines numTags mem with
    | .error fault => .error fault
    | .ok (mapAddr, tags) =>
      match sortTags tags with
      | .error fault => .error fault
      | .ok tagArray => .ok { mapAddr, tagArray }

-- The binary search of `android_lookupEventTag`. The differences are taken as `unsigned int`.
def lookupLoop (tagArray : List EventTag) (tag : Int) :
    (fuel : Nat) → (lo hi : Int) → Except Fault (Option EventTag)
  | 0, _, _ => .error .stuck
  | fuel + 1, lo, hi =>
    if lo ≤ hi then
      let mid := (i32 (lo + hi)).tdiv 2
      match if mid < 0 then none else tagArray[mid.toNat]? with
      | none => .error .overrun
      | some found =>
        let cmp := i32 (found.tagIndex - tag)
        if cmp < 0 then
          lookupLoop tagArray tag fuel (mid + 1) hi
        else if cmp > 0 then
          lookupLoop tagArray tag fuel lo (mid - 1)
        else
          .ok found
    else
      .ok none

-- The string that is returned, or `none` for `NULL`.
def lookupEventTag (map : EventTagMap) (tag : Int) : Except Fault (Option (List UInt8)) :=
  (lookupLoop map.tagArray tag (map.tagArray.length + 1) 0 (map.tagArray.length - 1)).map
    (Option.map fun found => ofBuffer (map.mapAddr.drop found.tagStr))

end Liblog
