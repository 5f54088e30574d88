import PlatformKnife.Lib.CInt
import PlatformKnife.Lib.Buckets

namespace Cutils

open CInt Buckets

-- `struct Entry` without the link: a chain is the list of its entries. Values are pointers, `none` is
-- `NULL`.
structure Entry (κ ν : Type) where
  key   : κ
  hash  : BitVec 32
  value : Option ν
  deriving DecidableEq

-- The number of buckets is the length of the table.
structure Hashmap (κ ν : Type) where
  buckets : List (List (Entry κ ν))
  hash    : κ → BitVec 32
  equals  : κ → κ → Bool
  size    : Nat

-- What a call returns, the map after it and whether it set `errno` to `ENOMEM`.
structure Return (κ ν : Type) where
  value  : Option ν
  map    : Hashmap κ ν
  enomem : Bool

-- `calloc(count, sizeof(Entry*))`, where `ok` says whether there is memory. A size that is no `size_t`
-- fails.
def callocBuckets (count : Nat) (ok : Bool) : Bool :=
  ok && decide (count * 8 < 2 ^ 64)

-- The loop of `hashmapCreate`, for at most `fuel` rounds.
def growBucketCount (minimumBucketCount : Nat) : (fuel bucketCount : Nat) → Nat
  | 0, bucketCount => bucketCount
  | fuel + 1, bucketCount =>
    if bucketCount ≤ minimumBucketCount then
      growBucketCount minimumBucketCount fuel (u64 (bucketCount <<< 1))
    else
      bucketCount

def initialBucketCount (initialCapacity : Nat) : Nat :=
  growBucketCount (u64 (initialCapacity * 4) / 3) 64 1

def hashmapCreate (initialCapacity : Nat) (hash : κ → BitVec 32) (equals : κ → κ → Bool)
    (mallocOk callocOk : Bool) : Option (Hashmap κ ν) :=
  if !mallocOk then
    none
  else
    let bucketCount := initialBucketCount initialCapacity
    if callocBuckets bucketCount callocOk then
      some { buckets := List.replicate bucketCount [], hash, equals, size := 0 }
    else
      none

-- The cast to `size_t` extends the sign.
def calculateIndex (bucketCount : Nat) (hash : BitVec 32) : Nat :=
  (hash.signExtend 64 &&& BitVec.ofNat 64 (bucketCount - 1)).toNat

def equalKeys [DecidableEq κ] (keyA : κ) (hashA : BitVec 32) (keyB : κ) (hashB : BitVec 32)
    (equals : κ → κ → Bool) : Bool :=
  if keyA = keyB then
    true
  else if hashA ≠ hashB then
    false
  else
    equals keyA keyB

namespace Hashmap

section

variable (map : Hashmap κ ν)

def bucketCount : Nat :=
  map.buckets.length

def hashmapSize : Nat :=
  map.size

-- The entries in the order of the loops over the table.
def entries : List (Entry κ ν) :=
  map.buckets.flatten

def hashKey (key : κ) : BitVec 32 :=
  let h := map.hash key
  let h := h + ~~~(h <<< 9)
  let h := h ^^^ (h >>> 14)
  let h := h + (h <<< 4)
  h ^^^ (h >>> 10)

def index (key : κ) : Nat :=
  calculateIndex map.bucketCount (map.hashKey key)

def bucket (key : κ) : List (Entry κ ν) :=
  map.buckets.getD (map.index key) []

def setBucket (key : κ) (chain : List (Entry κ ν)) : Hashmap κ ν :=
  { map with buckets := map.buckets.set (map.index key) chain }

-- Moves every entry, bucket by bucket, to the front of its chain in the new table. The flag is that of
-- `errno`.
def expandIfNecessary (callocOk : Bool) : Hashmap κ ν × Bool :=
  if map.size > u64 (map.bucketCount * 3) / 4 then
    let newBucketCount := u64 (map.bucketCount <<< 1)
    if callocBuckets newBucketCount callocOk then
      let newBuckets := map.entries.foldl (link fun entry => calculateIndex newBucketCount entry.hash)
        (List.replicate newBucketCount [])
      ({ map with buckets := newBuckets }, false)
    else
      (map, true)
  else
    (map, false)

-- What `hashmapPut` and `hashmapMemoize` do at the end of a chain; `none` if there is no memory for the
-- entry.
def addEntry (key : κ) (value : Option ν) (mallocOk callocOk : Bool) :
    Option (Hashmap κ ν × Bool) :=
  if mallocOk then
    let entry := { key, hash := map.hashKey key, value }
    let map := map.setBucket key (map.bucket key ++ [entry])
    some (expandIfNecessary { map with size := map.size + 1 } callocOk)
  else
    none

end

variable [DecidableEq κ]

variable (map : Hashmap κ ν) (key : κ)

def holds (entry : Entry κ ν) : Bool :=
  equalKeys entry.key entry.hash key (map.hashKey key) map.equals

def hashmapPut (value : Option ν) (mallocOk callocOk : Bool) : Return κ ν :=
  match walk (map.holds key) (fun current => [{ current with value }]) (map.bucket key) with
  | some (current, chain) =>
    { value := current.value, map := map.setBucket key chain, enomem := false }
  | none =>
    match map.addEntry key value mallocOk callocOk with
    | some (map, enomem) => { value := none, map, enomem }
    | none => { value := none, map, enomem := true }

def hashmapGet : Option ν :=
  match (map.bucket key).find? (map.holds key) with
  | some entry => entry.value
  | none => none

def hashmapContainsKey : Bool :=
  (map.bucket key).any (map.holds key)

-- `initialValue` is called once the entry is allocated and does not touch the map.
def hashmapMemoize (initialValue : κ → Option ν) (mallocOk callocOk : Bool) : Return κ ν :=
  match (map.bucket key).find? (map.holds key) with
  | some current => { value := current.value, map, enomem := false }
  | none =>
    match map.addEntry key (initialValue key) mallocOk callocOk with
    | some (map, enomem) => { value := initialValue key, map, enomem }
    | none => { value := none, map, enomem := true }

def hashmapRemove : Option ν × Hashmap κ ν :=
  match walk (map.holds key) (fun _ => []) (map.bucket key) with
  | some (current, chain) =>
    (current.value, { map.setBucket key chain with size := map.size - 1 })
  | none => (none, map)

end Hashmap

-- The inner loop of `hashmapForEach`; the flag says whether to go on.
def visitChain (callback : κ → Option ν → σ → σ × Bool) : List (Entry κ ν) → σ → σ × Bool
  | [], context => (context, true)
  | entry :: chain, context =>
    match callback entry.key entry.value context with
    | (context, true)  => visitChain callback chain context
    | (context, false) => (context, false)

def visitBuckets (callback : κ → Option ν → σ → σ × Bool) : List (List (Entry κ ν)) → σ → σ
  | [], context => context
  | chain :: buckets, context =>
    match visitChain callback chain context with
    | (context, true)  => visitBuckets callback buckets context
    | (context, false) => context

def Hashmap.hashmapForEach (map : Hashmap κ ν) (callback : κ → Option ν → σ → σ × Bool)
    (context : σ) : σ :=
  visitBuckets callback map.buckets context

-- The calls, with the outcome of `malloc` for the entry and of `calloc` for a larger table.
inductive Call (κ ν : Type)
  | put (key : κ) (value : Option ν) (mallocOk callocOk : Bool)
  | get (key : κ)
  | containsKey (key : κ)
  | memoize (key : κ) (initialValue : κ → Option ν) (mallocOk callocOk : Bool)
  | remove (key : κ)

inductive Answer (ν : Type)
  | value (v : Option ν)
  | bool (b : Bool)
  deriving DecidableEq

namespace Hashmap

variable [DecidableEq κ]

def step (map : Hashmap κ ν) : Call κ ν → Answer ν × Hashmap κ ν
  | .put key value mallocOk callocOk =>
    let ret := map.hashmapPut key value mallocOk callocOk
    (.value ret.value, ret.map)
  | .get key => (.value (map.hashmapGet key), map)
  | .containsKey key => (.bool (map.hashmapContainsKey key), map)
  | .memoize key initialValue mallocOk callocOk =>
    let ret := map.hashmapMemoize key initialValue mallocOk callocOk
    (.value ret.value, ret.map)
  | .remove key =>
    let (value, map) := map.hashmapRemove key
    (.value value, map)

def run (map : Hashmap κ ν) : List (Call κ ν) → List (Answer ν) × Hashmap κ ν
  | [] => ([], map)
  | call :: calls =>
    let (answer, map)  := map.step call
    let (answers, map) := map.run calls
    (answer :: answers, map)

end Hashmap

end Cutils
