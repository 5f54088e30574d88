import PlatformKnife.Lib.CInt
import PlatformKnife.Lib.CString
import PlatformKnife.Lib.Exec
import PlatformKnife.Lib.Slice

namespace Zipfile

open Bytes CInt Slice

def CD_SIGNATURE : Nat := 0x06054b50
def EOCD_LEN : Nat := 22
def MAX_COMMENT_LEN : Nat := 65535
def MAX_EOCD_SEARCH : Nat := MAX_COMMENT_LEN + EOCD_LEN
def ENTRY_SIGNATURE : Nat := 0x02014b50
def ENTRY_LEN : Nat := 46
def LFH_SIZE : Nat := 30
def STORED : Nat := 0
def DEFLATED : Nat := 8

-- The ways in which the parser ends without a result: it refuses the file, or reads a byte outside the
-- buffer.
inductive Stop
  | refused
  | outOfBounds
  deriving DecidableEq

abbrev Parser := Except Stop

section

variable (buf : List UInt8)

def leAt (w p : Nat) : Nat :=
  fromLe (slice buf p (p + w))

def readLe (w p : Nat) : Parser Nat :=
  if p + w ≤ buf.length then .ok (leAt buf w p) else .error .outOfBounds

def readLeInt (p : Nat) : Parser Nat :=
  readLe buf 4 p

def readLeShort (p : Nat) : Parser Nat :=
  readLe buf 2 p

end

-- Pointers are positions in the buffer.
structure Zipentry where
  fileNameLength : Nat
  fileName : Option Nat
  compressionMethod : Nat
  uncompressedSize : Nat
  compressedSize : Nat
  data : Nat
  deriving DecidableEq

-- The values in the record at the end of the directory.
structure CentralDirValues where
  disknum : Nat
  diskWithCentralDir : Nat
  entryCount : Nat
  totalEntryCount : Nat
  centralDirSize : Nat
  centralDirOffest : Nat
  commentLen : Nat

def readCentralDirValues (buf : List UInt8) (p len : Nat) : Parser CentralDirValues := do
  if len < EOCD_LEN then
    .error .refused
  else
    let v : CentralDirValues := {
      disknum := ← readLeShort buf (p + 0x04)
      diskWithCentralDir := ← readLeShort buf (p + 0x06)
      entryCount := ← readLeShort buf (p + 0x08)
      totalEntryCount := ← readLeShort buf (p + 0x0a)
      centralDirSize := ← readLeInt buf (p + 0x0c)
      centralDirOffest := ← readLeInt buf (p + 0x10)
      commentLen := ← readLeShort buf (p + 0x14)
    }
    if v.commentLen > 0 ∧ EOCD_LEN + v.commentLen > len then .error .refused else pure v

def readCentralDirectoryEntry (buf : List UInt8) (p : Nat) (len : Int) : Parser (Zipentry × Nat) := do
  if len < ENTRY_LEN then
    .error .refused
  else if (← readLeInt buf p) ≠ ENTRY_SIGNATURE then
    .error .refused
  else
    let compressionMethod ← readLeShort buf (p + 0x0a)
    let compressedSize ← readLeInt buf (p + 0x14)
    let uncompressedSize ← readLeInt buf (p + 0x18)
    let fileNameLength ← readLeShort buf (p + 0x1c)
    let extraFieldLength ← readLeShort buf (p + 0x1e)
    let fileCommentLength ← readLeShort buf (p + 0x20)
    let localHeaderRelOffset ← readLeInt buf (p + 0x2a)
    let fileName := if fileNameLength ≠ 0 then some (p + ENTRY_LEN) else none
    let next := p + ENTRY_LEN + fileNameLength + extraFieldLength + fileCommentLength
    -- The extra field of the local header can have another length.
    let extraFieldLength ← readLeShort buf (localHeaderRelOffset + 0x1c)
    let data := u32 (localHeaderRelOffset + LFH_SIZE + fileNameLength + extraFieldLength)
    pure ({ fileNameLength, fileName, compressionMethod, uncompressedSize, compressedSize, data }, next)

-- The loop over the entries. The remaining length is handed on unchanged.
def readEntries (buf : List UInt8) (len : Int) : Nat → Nat → List Zipentry → Parser (List Zipentry)
  | 0, _, entries => pure entries
  | n + 1, p, entries => do
    let (entry, p) ← readCentralDirectoryEntry buf p len
    readEntries buf len n p (entry :: entries)

def isEocd (buf : List UInt8) (p : Nat) : Parser Bool := do
  if (← readLe buf 1 p) = 0x50 then pure ((← readLeInt buf p) = CD_SIGNATURE) else pure false

-- The search for the end of the directory, from position `p` down to `start`.
def findEocd (buf : List UInt8) (start : Nat) : Nat → Parser Nat
  | 0 => do
    if 0 < start then .error .refused
    else if ← isEocd buf 0 then pure 0
    else .error .refused
  | p + 1 => do
    if p + 1 < start then .error .refused
    else if ← isEocd buf (p + 1) then pure (p + 1)
    else findEocd buf start p

def readCentralDir (buf : List UInt8) : Parser (List Zipentry) := do
  let bufsize := buf.length
  if bufsize < EOCD_LEN then
    .error .refused
  else
    let start := if bufsize > MAX_EOCD_SEARCH then bufsize - MAX_EOCD_SEARCH else 0
    let eocd ← findEocd buf start (bufsize - 4)
    let v ← readCentralDirValues buf eocd (bufsize - eocd)
    if v.disknum ≠ 0 ∨ v.diskWithCentralDir ≠ 0 ∨ v.entryCount ≠ v.totalEntryCount then
      .error .refused
    else
      readEntries buf ((bufsize : Int) - v.centralDirOffest) v.totalEntryCount v.centralDirOffest []

-- `init_zipfile`, with the entries of the file. Its memory is taken to be there.
def initZipfile (data : List UInt8) : Parser (List Zipentry) :=
  readCentralDir data

def memcpy (buf : List UInt8) (p n : Nat) : Parser (List UInt8) :=
  if n = 0 ∨ p + n ≤ buf.length then .ok (slice buf p (p + n)) else .error .outOfBounds

-- `uninflate` is given the position and the length of the compressed data.
def decompressZipentry (uninflate : Nat → Nat → Parser (List UInt8)) (buf : List UInt8)
    (entry : Zipentry) : Parser (List UInt8) :=
  if entry.compressionMethod = STORED then memcpy buf entry.data entry.uncompressedSize
  else if entry.compressionMethod = DEFLATED then uninflate entry.data entry.compressedSize
  else .error .refused

-- An entry whose name lies in the buffer. The pointer is not used for an empty name.
structure Member (buf : List UInt8) extends Zipentry where
  inside : fileName.getD 0 + fileNameLength ≤ buf.length

def Member.name (entry : Member buf) : List UInt8 :=
  slice buf (entry.fileName.getD 0) (entry.fileName.getD 0 + entry.fileNameLength)

-- Whether `memcmp` returns 0. All bytes that it is to compare have to be there.
def memcmpEq (a b : List UInt8) (n : Nat) : Parser Bool :=
  if n ≤ a.length ∧ n ≤ b.length then .ok (a.take n = b.take n) else .error .outOfBounds

def lookupZipentry (entryName : CString.Str) : List (Member buf) → Parser (Option (Member buf))
  | [] => pure none
  | entry :: entries => do
    if ← memcmpEq (entryName.bytes ++ [0]) (buf.drop (entry.fileName.getD 0)) entry.fileNameLength then
      pure (some entry)
    else
      lookupZipentry entryName entries

-- `unzip_file`, where `extract` allocates memory and decompresses the entry.
def unzipFile (extract : Member buf → Option (List UInt8)) (entryName : CString.Str)
    (entries : List (Member buf)) : Parser (Option (List UInt8)) := do
  let entry ← lookupZipentry entryName entries
  pure (entry.bind extract)

end Zipfile
