import PlatformKnife.Sparse.BlockMap

-- Sequences of calls that add chunks to a sparse file.

namespace Sparse

inductive Call
  | addData (data : Nat) (len block : UInt32)
  | addFill (fillVal len block : UInt32)
  | addFile (filename : String) (fileOffset : Nat) (len block : UInt32)
  | addFd (fd : Int) (fileOffset : Nat) (len block : UInt32)

namespace Call

def len : Call → Nat
  | addData _ len _ | addFill _ len _ | addFile _ _ len _ | addFd _ _ len _ => len.toNat

def block : Call → Nat
  | addData _ _ block | addFill _ _ block | addFile _ _ _ block | addFd _ _ _ block => block.toNat

def source (addr : Nat) : Call → Source
  | addData data _ _ => .data data
  | addFill val _ _ => .fill val
  | addFile filename fileOffset _ _ => .file ⟨addr, filename⟩ fileOffset
  | addFd fd fileOffset _ _ => .fd fd fileOffset

def apply (bbl : BackedBlockList) : Call → Except Fault BackedBlockList
  | addData data len block => bbl.addData data len.toNat block.toNat
  | addFill val len block => bbl.addFill val len.toNat block.toNat
  | addFile filename fileOffset len block => bbl.addFile filename fileOffset len.toNat block.toNat
  | addFd fd fileOffset len block => bbl.addFd fd fileOffset len.toNat block.toNat

def applyTo (s : SparseFile) : Call → Except Fault SparseFile
  | addData data len block => s.addData data len.toNat block.toNat
  | addFill val len block => s.addFill val len.toNat block.toNat
  | addFile filename fileOffset len block => s.addFile filename fileOffset len.toNat block.toNat
  | addFd fd fileOffset len block => s.addFd fd fileOffset len.toNat block.toNat

theorem len_lt (c : Call) : c.len < 2 ^ 32 := by
  cases c <;> exact UInt32.toNat_lt _

theorem block_lt (c : Call) : c.block < 2 ^ 32 := by
  cases c <;> exact UInt32.toNat_lt _

def node (addr : Nat) (c : Call) : BackedBlock where
  addr := addr
  block := c.block
  len := c.len
  source := c.source addr
  block_lt := c.block_lt
  len_lt := c.len_lt

def Disjoint (blockSize : Nat) (c d : Call) : Prop :=
  (c.node 0).Disjoint blockSize (d.node 0)

end Call

-- The chunks that a sequence of calls describes. Each call gets an address of its own.
def nodes (calls : List Call) : List BackedBlock :=
  calls.mapIdx fun i c => c.node i

def BackedBlockList.run (bbl : BackedBlockList) : List Call → Except Fault BackedBlockList
  | [] => .ok bbl
  | c :: calls =>
    match c.apply bbl with
    | .error f => .error f
    | .ok bbl  => bbl.run calls

-- Each call of a sequence satisfies `p` in the state in which it is made.
def BackedBlockList.Along (p : BackedBlockList → Call → Prop) (bbl : BackedBlockList) :
    List Call → Prop
  | [] => True
  | c :: calls => p bbl c ∧ ∀ bbl', c.apply bbl = .ok bbl' → bbl'.Along p calls

def SparseFile.run (s : SparseFile) : List Call → Except Fault SparseFile
  | [] => .ok s
  | c :: calls =>
    match c.applyTo s with
    | .error f => .error f
    | .ok s => s.run calls

end Sparse
