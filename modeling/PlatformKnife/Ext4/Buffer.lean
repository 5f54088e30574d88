import PlatformKnife.Ext4.Basic
import PlatformKnife.Lib.Bytes
import PlatformKnife.Lib.Slice

namespace Ext4

-- Accesses to a buffer.

def bytesAt (data : List UInt8) (i n : Nat) : Exec (List UInt8) :=
  if i + n ≤ data.length then .ok (Slice.slice data i (i + n)) else fault .outOfBounds

def storeBytes (data : List UInt8) (i : Nat) (s : List UInt8) : Exec (List UInt8) :=
  if i + s.length ≤ data.length then .ok (Slice.overwrite data i s) else fault .outOfBounds

variable {front l s : List UInt8}

theorem bytesAt_append (hi : i = front.length) (hn : n = s.length) :
    bytesAt (front ++ (s ++ l)) i n = .ok s := by
  subst hi hn
  rw [bytesAt, if_pos (by simp), Slice.slice_append]

theorem storeBytes_append (h : s.length ≤ l.length) :
    storeBytes (front ++ l) front.length s = .ok (front ++ (s ++ l.drop s.length)) := by
  rw [storeBytes, if_pos (by simpa using h), Slice.overwrite_append _ h]

theorem storeBytes_length (h : storeBytes data i s = .ok data') : data'.length = data.length := by
  rw [storeBytes] at h
  split at h
  case isTrue  => cases h; simp
  case isFalse => cases h

end Ext4
