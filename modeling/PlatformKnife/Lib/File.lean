import PlatformKnife.Lib.Bytes

-- An open regular file: its contents and the file offset of the descriptor.
@[ext]
structure File where
  bytes : List UInt8
  pos   : Nat
  deriving DecidableEq

namespace File

open Bytes List

def empty : File where
  bytes := []
  pos   := 0

section

variable (f : File)

-- `write` at the file offset. A write that starts behind the end leaves a hole of zeros.
def write (d : List UInt8) : File  where
  bytes := resize f.bytes f.pos ++ d ++ f.bytes.drop (f.pos + d.length)
  pos   := f.pos + d.length

def seekCur (n : Nat) : File :=
  { f with pos := f.pos + n }

def seekSet (n : Nat) : File :=
  { f with pos := n }

-- `ftruncate`, which also extends a file with zeros.
def truncate (n : Nat) : File :=
  { f with bytes := resize f.bytes n }

-- A `read` of exactly `n` bytes, without a result if the file ends before.
def read (n : Nat) : Option (List UInt8 × File) :=
  if n ≤ f.bytes.length - f.pos
  then some ((f.bytes.drop f.pos).take n, f.seekCur n)
  else none

def rest : List UInt8 :=
  f.bytes.drop f.pos

end

section Write

variable {f : File} {d : List UInt8}

@[simp]
theorem write_pos : (f.write d).pos = f.pos + d.length :=
  rfl

theorem write_bytes_of_end (h : f.pos = f.bytes.length) : (f.write d).bytes = f.bytes ++ d := by
  simp [write, resize, h]

end Write

@[simp]
theorem seekCur_bytes (f : File) (n : Nat) : (f.seekCur n).bytes = f.bytes :=
  rfl

@[simp]
theorem seekCur_pos (f : File) (n : Nat) : (f.seekCur n).pos = f.pos + n :=
  rfl

@[simp]
theorem seekCur_rest (f : File) (n : Nat) : (f.seekCur n).rest = f.rest.drop n := by
  simp [rest, drop_drop]

theorem seekCur_seekCur (f : File) (m n : Nat) : (f.seekCur m).seekCur n = f.seekCur (m + n) := by
  simp [seekCur, add_assoc]

theorem read_of_rest_eq {f : File} (h : f.rest = d ++ r) :
    f.read d.length = some (d, f.seekCur d.length) := by
  have hl : f.bytes.length - f.pos = d.length + r.length := by
    rw [← length_append, ← h, rest, length_drop]
  simp only [rest] at h
  rw [read, if_pos (by omega), h]
  simp

section Shows

variable {f : File} {d e : List UInt8}

-- Nothing was written behind the file offset, and the bytes before it are `d`. The last may be part of a
-- hole.
structure Shows (f : File) (d : List UInt8) : Prop where
  length_le : f.bytes.length ≤ f.pos
  resize_eq : resize f.bytes f.pos = d

theorem shows_empty : empty.Shows [] :=
  ⟨le_rfl, rfl⟩

theorem Shows.pos_eq (h : f.Shows d) : f.pos = d.length := by
  rw [← h.resize_eq, resize_length]

theorem Shows.write (h : f.Shows d) (e : List UInt8) : (f.write e).Shows (d ++ e) := by
  have hb : (f.write e).bytes = d ++ e := by
    have := h.length_le
    simp only [File.write, h.resize_eq]
    rw [drop_of_length_le (by omega), append_nil]
  have hl : (f.write e).pos = (d ++ e).length := by
    rw [write_pos, h.pos_eq, length_append]
  constructor
  case length_le => rw [hb, hl]
  case resize_eq => simp [hb, h.pos_eq, resize]

theorem Shows.seekCur (h : f.Shows d) (n : Nat) : (f.seekCur n).Shows (d ++ replicate n 0) := by
  have hl := h.length_le
  constructor
  case length_le => exact hl.trans (Nat.le_add_right ..)
  case resize_eq =>
    have hr := h.resize_eq
    rw [resize, take_of_length_le hl] at hr
    rw [← hr, resize, seekCur_bytes, seekCur_pos, take_of_length_le (by omega), append_assoc,
      replicate_append_replicate]
    congr 2
    omega

end Shows

end File
