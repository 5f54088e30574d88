import PlatformKnife.Lib.CInt
import PlatformKnife.Lib.DirTree
import PlatformKnife.Lib.Fallible
import PlatformKnife.Lib.Printf

namespace Cutils.DirHash

open Fallible CString Printf

-- A block is named by the number of its `malloc`, so no name is used twice.
structure Memory where
  fails : Nat → Bool
  calls : Nat
  freed : List Nat

-- What C leaves undefined is a failure: the use of a freed block or of a value never set.
abbrev Run := Fallible Memory

def malloc : Run (Option Nat) := fun m =>
  (some (if m.fails m.calls then none else some m.calls), { m with calls := m.calls + 1 })

def access (p : Nat) : Run Unit := fun m =>
  (if p ∈ m.freed then none else some (), m)

def free : Option Nat → Run Unit
  | none => pure ()
  | some p => do
    access p
    modify fun m => { m with freed := p :: m.freed }

-- `struct list` with its own block and the name's. Nothing writes to a node in a list, so `next` is its
-- rest.
structure Node (α : Type) where
  addr : Nat
  name : Nat
  data : α

def freeNode (f : Node α) : Run Unit := do
  access f.addr
  free f.name
  free f.addr

-- The loop with `f = next`.
def freeList : List (Node α) → Run Unit
  | [] => pure ()
  | f :: next => do
    freeNode f
    freeList next

-- The loop with `f = f->next`.
def freeListLate : List (Node α) → Run Unit
  | [] => pure ()
  | f :: next => do
    freeNode f
    access f.addr
    freeListLate next

structure Stat where
  mode : Nat
  uid  : Int
  gid  : Int

-- A tree of regular files, which have contents, and of directories.
abbrev Tree := DirTree (Stat × List UInt8) Stat

abbrev Entry := List UInt8 × Tree

def octal (n : Nat) : List UInt8 :=
  (Nat.toDigits 8 n).map fun c => UInt8.ofNat c.toNat

def Stat.text (sb : Stat) : List UInt8 :=
  ofString " 0" ++ octal sb.mode ++ 32 :: printInt sb.uid ++ 32 :: printInt sb.gid

-- `get_file_hash` for an object that can be read. The digest stands for SHA-1 and `b64_ntop`, whose 28
-- characters leave enough of `outstr`. For a directory, `used` is read and was never set.
def getFileHash (digest : List UInt8 → List UInt8) : Tree → Run (List UInt8)
  | .leaf (sb, contents) =>
    pure (digest contents ++ 32 :: printInt (CInt.i32 contents.length) ++ sb.text)
  | .dir _ _ => fail

def isDot (name : List UInt8) : Bool :=
  name = ofString "." || name = ofString ".."

-- The first loop of `recurse`, with the entries as they are read.
def readList : List Entry → List (Node Entry) → Run (Option (List (Node Entry)))
  | [], list => pure (some list)
  | e :: entries, list => do
    if isDot e.1 then
      readList entries list
    else
      let name ← malloc
      let node ← malloc
      match name, node with
      | some p, some q => readList entries ({ addr := q, name := p, data := e } :: list)
      | _, _ =>
        freeList list
        free name
        free node
        return none

-- The result of a call, without a value at the closing brace.
def value : Option Int → Run Int
  | some v => pure v
  | none => fail

abbrev Out := List (Node (List UInt8))

-- The second loop of `recurse` with `list`, from `f` on, and what follows. The results are its own and
-- `*out`.
def hashList (digest : List UInt8 → List UInt8)
    (recurse : List UInt8 → List Entry → Out → Run (Option Int × Out))
    (path : List UInt8) (list : List (Node Entry)) :
    List (Node Entry) → Out → Run (Option Int × Out)
  | [], out => do
    freeList list
    return (none, out)
  | f :: fs, out => do
    access f.addr
    access f.name
    match ← malloc with
    | none =>
      freeListLate list
      freeListLate out
      return (some (-1), [])
    | some _ =>
      let name := path ++ 47 :: f.data.1
      let outstr ← getFileHash digest f.data.2
      let keep ← malloc
      let res ← malloc
      match keep, res with
      | some p, some q =>
        let out := { addr := q, name := p, data := name ++ 32 :: outstr ++ [10] } :: out
        match f.data.2 with
        | .leaf _  => hashList digest recurse path list fs out
        | .dir _ entries =>
          let (r, out) ← recurse name entries out
          if (← value r) < 0 then
            freeList list
            return (some (-1), out)
          else
            hashList digest recurse path list fs out
      | _, _ =>
        freeListLate list
        freeListLate out
        free keep
        free res
        return (some (-1), [])

-- The fuel is to be more than the depth of the directories.
def recurse (digest : List UInt8 → List UInt8) :
    Nat → List UInt8 → List Entry → Out → Run (Option Int × Out)
  | 0, _, _, out => return (some (-1), out)
  | fuel + 1, path, entries, out => do
    match ← readList entries [] with
    | none => return (some (-1), out)
    | some list => hashList digest (recurse digest fuel) path list list out

-- `qsort` with `strcmp`
def sortLines (out : Out) : List (List UInt8) :=
  (out.map Node.data).mergeSort fun a b => a ≤ b

-- The results are the one of the call and `*output_string`.
def getRecursiveHashManifest (digest : List UInt8 → List UInt8) (path : List UInt8)
    (entries : List Entry) : Run (Int × Option (List UInt8)) := do
  let (r, out) ← recurse digest (DirTree.entriesDepth entries + 1) path entries []
  if (← value r) < 0 then
    return (-1, none)
  else
    out.forM fun r => access r.name
    match ← malloc with
    | none =>
      freeList out
      return (-1, none)
    | some list =>
      match ← malloc with
      | none =>
        freeList out
        free list
        return (-1, none)
      | some _ =>
        let buf := (sortLines out).flatten
        free list
        freeList out
        return (buf.length, some buf)

end Cutils.DirHash
