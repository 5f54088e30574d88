import PlatformKnife.Sparse.SparseRead

-- What a list of backed blocks stands for: a partial map from block numbers to the contents of blocks.

namespace Sparse

open Bytes

-- What is behind a block of an image: `len` bytes from the source, then zeros.
@[ext]
structure Backing where
  source : Source
  len    : Nat
  deriving DecidableEq

namespace BackedBlock

section

variable (blockSize : Nat) (bb : BackedBlock)

def blocks : Nat :=
  (bb.len + blockSize - 1) / blockSize

def endBlock : Nat :=
  bb.block + bb.blocks blockSize

-- The backing of the `i`-th block of a chunk.
def backing (i : Nat) : Backing where
  source := bb.source.advance (i * blockSize)
  len    := min blockSize (bb.len - i * blockSize)

def Backs (k : Nat) (v : Backing) : Prop :=
  ∃ i < bb.blocks blockSize, k = bb.block + i ∧ v = bb.backing blockSize i

end

-- There is no block that is part of both chunks.
def Disjoint (blockSize : Nat) (a b : BackedBlock) : Prop :=
  ∀ k, ¬((a.block ≤ k ∧ k < a.endBlock blockSize) ∧ (b.block ≤ k ∧ k < b.endBlock blockSize))

end BackedBlock

-- The block with number `k` is in the list, and it is backed by `v`.
def Backs (blockSize : Nat) (l : List BackedBlock) (k : Nat) (v : Backing) : Prop :=
  ∃ bb ∈ l, bb.Backs blockSize k v

-- The list is strictly sorted, and its chunks do not overlap.
def Ordered (blockSize : Nat) (l : List BackedBlock) : Prop :=
  l.Pairwise fun a b => a.block < b.block ∧ a.Disjoint blockSize b

-- The bytes behind a source. A fill value is repeated.
def Source.ptr (env : Env) : Source → Nat → UInt8
  | .data ptr => fun i => env.mem (ptr + i)
  | .fd desc offset => fun i => ((env.contents desc).getD fun _ => 0) (offset + i)
  | .file name offset => fun i =>
    (((env.open_ name.text).bind env.contents).getD fun _ => 0) (offset + i)
  | .fill val => fillByte val

def Backing.byte (env : Env) (v : Backing) (i : Nat) : UInt8 :=
  if i < v.len then v.source.ptr env i else 0

def backingAt (blockSize : Nat) (l : List BackedBlock) (k : Nat) : Option Backing :=
  (l.find? fun bb => bb.block ≤ k ∧ k < bb.endBlock blockSize).map fun bb =>
  bb.backing blockSize (k - bb.block)

-- The partial map from block numbers to the bytes of a block.
def denote (env : Env) (blockSize : Nat) (l : List BackedBlock) (k : Nat) : Option (List UInt8) :=
  (backingAt blockSize l k).map fun v => ofPtr (v.byte env) blockSize

-- An image after the blocks of a list have been expanded onto it.
def expandOnto (env : Env) (blockSize : Nat) (img : Nat → UInt8) (l : List BackedBlock) :
    Nat → UInt8 := fun x =>
  match backingAt blockSize l (x / blockSize) with
  | some v => v.byte env (x % blockSize)
  | none => img x

end Sparse
