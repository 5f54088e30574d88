import PlatformKnife.Lib.CString
import PlatformKnife.Lib.CInt

namespace Adb.Sync

open Bytes

-- `MKID` on a little endian machine.
def mkid (a b c d : Char) : Nat :=
  a.toNat + 2 ^ 8 * b.toNat + 2 ^ 16 * c.toNat + 2 ^ 24 * d.toNat

def idStat : Nat := mkid 'S' 'T' 'A' 'T'
def idList : Nat := mkid 'L' 'I' 'S' 'T'
def idSend : Nat := mkid 'S' 'E' 'N' 'D'
def idRecv : Nat := mkid 'R' 'E' 'C' 'V'
def idDent : Nat := mkid 'D' 'E' 'N' 'T'
def idDone : Nat := mkid 'D' 'O' 'N' 'E'
def idData : Nat := mkid 'D' 'A' 'T' 'A'
def idOkay : Nat := mkid 'O' 'K' 'A' 'Y'
def idFail : Nat := mkid 'F' 'A' 'I' 'L'
def idQuit : Nat := mkid 'Q' 'U' 'I' 'T'

def syncDataMax : Nat := 64 * 1024

-- The members `req`, `data` and `status` of `syncmsg`, with an id and a size.
structure Header where
  id   : Nat
  size : Nat
  deriving DecidableEq

def Header.encode (h : Header) : List UInt8 :=
  le 4 h.id ++ le 4 h.size

def Header.decode (l : List UInt8) : Header where
  id   := fromLe (l.take 4)
  size := fromLe ((l.drop 4).take 4)

@[simp]
theorem Header.encode_length (h : Header) : h.encode.length = 8 := by
  simp [encode]

theorem Header.decode_encode (h₁ : h.id < 256 ^ 4) (h₂ : h.size < 256 ^ 4) : decode h.encode = h := by
  have ht : (le 4 h.id ++ le 4 h.size).take 4 = le 4 h.id := List.take_left' (le_length ..)
  have hd : (le 4 h.id ++ le 4 h.size).drop 4 = le 4 h.size := List.drop_left' (le_length ..)
  have hl : (le 4 h.size).take 4 = le 4 h.size := List.take_of_length_le (by simp)
  rw [decode, encode, ht, hd, hl, fromLe_le, fromLe_le, Nat.mod_eq_of_lt h₁, Nat.mod_eq_of_lt h₂]

-- The type bits of a mode.

def sIfmt : Nat := 0o170000

def sIsreg (mode : Nat) : Bool :=
  mode &&& sIfmt = 0o100000

def sIslnk (mode : Nat) : Bool :=
  mode &&& sIfmt = 0o120000

def sIsdir (mode : Nat) : Bool :=
  mode &&& sIfmt = 0o040000

end Adb.Sync
