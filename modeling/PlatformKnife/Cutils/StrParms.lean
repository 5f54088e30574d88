import Mathlib.Data.Finset.Basic
import PlatformKnife.Cutils.Hashmap

namespace Cutils

-- A pointer to a string from `strdup`, with its text, to which nothing writes until it is freed.
structure Str where
  addr : Nat
  text : List UInt8
  deriving DecidableEq

-- The addresses of the allocated strings, and whether `free` was called on another one.
structure Heap where
  live : Finset Nat
  doubleFree : Bool

-- How a successful allocation chooses an address. It may be one that was freed before.
structure Allocator where
  pick  : Finset Nat → Nat
  fresh : pick live ∉ live

def Heap.strdup (heap : Heap) (text : List UInt8) : Option Allocator → Option Str × Heap
  | none => (none, heap)
  | some allocator =>
    let addr := allocator.pick heap.live
    (some { addr, text }, { heap with live := insert addr heap.live })

def Heap.free (heap : Heap) : Option Str → Heap
  | none => heap
  | some str =>
    { live := heap.live.erase str.addr
      doubleFree := heap.doubleFree || decide (str.addr ∉ heap.live) }

def strEq (keyA keyB : Str) : Bool :=
  keyA.text == keyB.text

-- The type `char` is signed.
def strHashFn (str : Str) : BitVec 32 :=
  str.text.foldl (fun hash c => ((hash <<< 5) + hash) + c.toBitVec.signExtend 32) 5381#32

structure StrParms where
  heap : Heap
  map  : Hashmap Str Str

-- The flags are the outcomes of the allocations for the object, its map and the table.
def strParmsCreate (heap : Heap) (ok mallocOk callocOk : Bool) : Option StrParms :=
  if ok then
    (hashmapCreate 5 strHashFn strEq mallocOk callocOk).map ({ heap, map := · })
  else
    none

-- A call of `str_parms_add_str` with the outcomes of its allocations: both copies, the entry, a larger
-- table.
structure AddStr where
  key : List UInt8
  value : List UInt8
  keyCopy : Option Allocator
  valueCopy : Option Allocator
  mallocOk : Bool
  callocOk : Bool

def ENOMEM : Int :=
  12

-- From the label `clean_up` on.
def cleanUp (heap : Heap) (map : Hashmap Str Str) (tmpKey tmpVal oldVal : Option Str) (enomem : Bool) :
    Int × StrParms :=
  (if enomem then -ENOMEM else 0, { heap := ((heap.free tmpKey).free tmpVal).free oldVal, map })

namespace StrParms

-- The part of `str_parms_add_str` behind the two copies.
def putCopies (s : StrParms) (heap : Heap) (tmpKey tmpVal : Str) (mallocOk callocOk : Bool) :
    Int × StrParms :=
  let put := s.map.hashmapPut tmpKey (some tmpVal) mallocOk callocOk
  match put.value with
  | none =>
    if put.enomem then
      cleanUp heap put.map (some tmpKey) (some tmpVal) none true
    else
      cleanUp heap put.map none none none false
  | some oldVal => cleanUp heap put.map (some tmpKey) none (some oldVal) put.enomem

def addStr (s : StrParms) (c : AddStr) : Int × StrParms :=
  match s.heap.strdup c.key c.keyCopy with
  | (none, heap) => cleanUp heap s.map none none none true
  | (some tmpKey, heap) =>
    match heap.strdup c.value c.valueCopy with
    | (none, heap) => cleanUp heap s.map (some tmpKey) none none true
    | (some tmpVal, heap) => s.putCopies heap tmpKey tmpVal c.mallocOk c.callocOk

-- `remove_pair` without a key in the context.
def removePair (key : Str) (value : Option Str) (s : StrParms) : StrParms × Bool :=
  ({ heap := (s.heap.free (some key)).free value, map := (s.map.hashmapRemove key).2 }, true)

-- The loop of `hashmapForEach`, which reads a bucket when it gets there, and the next entry of a chain
-- before the callback removes the current one.
def strParmsDestroy (s : StrParms) : StrParms :=
  (List.range s.map.bucketCount).foldl
    (fun s i => (visitChain removePair (s.map.buckets.getD i []) s).1) s

-- The string that `hashmapGet` returns for a key with this text, at whichever address.
def lookup (s : StrParms) (key : List UInt8) : Option Str :=
  s.map.hashmapGet { addr := 0, text := key }

end StrParms

end Cutils
