import Mathlib.Data.Finmap
import PlatformKnife.Cutils.Hashmap

open Buckets CInt

namespace Cutils

open Multiset

open Option

-- The two functions of a map: an equivalence of keys, and a hash that respects it.
structure Keys (κ : Type) where
  hash    : κ → BitVec 32
  equals  : κ → κ → Bool
  equiv   : Equivalence fun a b => equals a b = true
  hash_eq : equals a b = true → hash a = hash b

namespace Keys

def setoid (k : Keys κ) : Setoid κ :=
  ⟨_, k.equiv⟩

abbrev Class (k : Keys κ) : Type :=
  Quotient k.setoid

def toClass (k : Keys κ) (key : κ) : k.Class :=
  Quotient.mk _ key

-- What an entry says in terms of classes.
def binding (k : Keys κ) (e : Entry κ ν) : Sigma fun _ : k.Class => Option ν :=
  ⟨k.toClass e.key, e.value⟩

theorem toClass_eq {k : Keys κ} : k.toClass a = k.toClass b ↔ k.equals a b :=
  Quotient.eq (r := k.setoid)

end Keys

noncomputable section

open Classical

-- What a map is for: a finite map from classes of keys to values.
abbrev Content (k : Keys κ) (ν : Type) : Type :=
  Finmap fun _ : k.Class => Option ν

namespace Content

variable {k : Keys κ}

-- Without memory for an entry only the keys that are there already can be bound.
def bind (m : Content k ν) (key : κ) (value : Option ν) (mallocOk : Bool) : Content k ν :=
  if k.toClass key ∈ m ∨ mallocOk = true then m.insert (k.toClass key) value else m

def step (m : Content k ν) : Call κ ν → Answer ν × Content k ν
  | .put key value mallocOk _ =>
    (.value (m.lookup (k.toClass key)).join, m.bind key value mallocOk)
  | .get key => (.value (m.lookup (k.toClass key)).join, m)
  | .containsKey key => (.bool (decide (k.toClass key ∈ m)), m)
  | .memoize key initialValue mallocOk _ =>
    match m.lookup (k.toClass key) with
    | some value => (.value value, m)
    | none =>
      (.value (if mallocOk then initialValue key else none), m.bind key (initialValue key) mallocOk)
  | .remove key => (.value (m.lookup (k.toClass key)).join, m.erase (k.toClass key))

def run (m : Content k ν) : List (Call κ ν) → List (Answer ν) × Content k ν
  | [] => ([], m)
  | call :: calls =>
    let (answer, m)  := m.step call
    let (answers, m) := m.run calls
    (answer :: answers, m)

end Content

end

section Bindings

variable [DecidableEq α] {β : α → Type}

omit [DecidableEq α] in
theorem toFinmap_of_cons (h : s.entries = x ::ₘ r) :
    ∃ (l : List (Sigma β)) (hl : (x :: l).NodupKeys), r = l ∧ s = AList.toFinmap ⟨x :: l, hl⟩ := by
  induction r using Quotient.inductionOn
  case h l =>
    have hl : (x :: l).NodupKeys := by
      have hs := s.nodupKeys
      rw [h] at hs
      exact coe_nodupKeys.mp hs
    exact ⟨l, hl, rfl, Finmap.ext h⟩

theorem entries_insert_of_cons {s : Finmap β} {b : β a} (h : s.entries = ⟨a, b⟩ ::ₘ r) (b' : β a) :
    (s.insert a b').entries = ⟨a, b'⟩ ::ₘ r := by
  obtain ⟨l, hl, rfl, rfl⟩ := toFinmap_of_cons h
  rw [Finmap.insert_toFinmap, AList.toFinmap_entries, AList.entries_insert]
  simp

theorem entries_erase_of_cons {s : Finmap β} {b : β a} (h : s.entries = ⟨a, b⟩ ::ₘ r) :
    (s.erase a).entries = r := by
  obtain ⟨l, hl, rfl, rfl⟩ := toFinmap_of_cons h
  rw [Finmap.erase_toFinmap, AList.toFinmap_entries]
  simp [AList.erase]

end Bindings

section Index

theorem calculateIndex_eq (h : n ≤ 63) (hash : BitVec 32) :
    calculateIndex (2 ^ n) hash = (hash.signExtend 64).toNat % 2 ^ n := by
  have hn : 2 ^ n - 1 < 2 ^ 64 := by
    have := Nat.pow_le_pow_right (n := 2) (by decide) h
    omega
  simp only [calculateIndex, BitVec.toNat_and, BitVec.toNat_ofNat, Nat.mod_eq_of_lt hn]
  exact Nat.and_two_pow_sub_one_eq_mod _ n

theorem calculateIndex_lt (h : n ≤ 63) (hash : BitVec 32) : calculateIndex (2 ^ n) hash < 2 ^ n :=
  calculateIndex_eq h hash ▸ Nat.mod_lt _ (Nat.two_pow_pos n)

theorem callocBuckets_pow (h : callocBuckets (2 ^ n) ok) : n ≤ 60 := by
  simp only [callocBuckets, Bool.and_eq_true, decide_eq_true_eq] at h
  have hp : 2 ^ (n + 3) < 2 ^ 64 := by simpa [pow_add] using h.2
  have := (Nat.pow_lt_pow_iff_right (a := 2) (by decide)).mp hp
  omega

theorem shiftLeft_pow (h : n ≤ 62) : u64 (2 ^ n <<< 1) = 2 ^ (n + 1) := by
  rw [Nat.shiftLeft_eq, ← pow_add]
  exact u64_of_lt (Nat.pow_lt_pow_right (by decide) (by omega))

-- A power of two is doubled until it is above the minimum, before it overflows.
theorem growBucketCount_pow (hm : minimum < 2 ^ 63) (hf : 64 ≤ n + fuel) (hn : n ≤ 63) :
    ∃ m, growBucketCount minimum fuel (2 ^ n) = 2 ^ m ∧ minimum < 2 ^ m := by
  induction fuel generalizing n
  case zero => omega
  case succ fuel ih =>
    rw [growBucketCount]
    split
    case isTrue hle =>
      have hlt : n < 63 := (Nat.pow_lt_pow_iff_right (a := 2) (by decide)).mp (hle.trans_lt hm)
      rw [shiftLeft_pow (by omega)]
      exact ih (by omega) hlt
    case isFalse hgt => exact ⟨n, rfl, by omega⟩

theorem initialBucketCount_pow (initialCapacity : Nat) :
    ∃ m, initialBucketCount initialCapacity = 2 ^ m ∧ u64 (initialCapacity * 4) / 3 < 2 ^ m := by
  have hm : u64 (initialCapacity * 4) / 3 < 2 ^ 63 := by
    have : u64 (initialCapacity * 4) < 2 ^ 64 := Nat.mod_lt _ (by decide)
    omega
  exact growBucketCount_pow (n := 0) hm (by decide) (by decide)

end Index

namespace Hashmap

variable {k : Keys κ} {map map' : Hashmap κ ν}

-- The invariant of the table.
structure Ok (k : Keys κ) (map : Hashmap κ ν) : Prop where
  hash    : map.hash = k.hash
  equals  : map.equals = k.equals
  count   : ∃ n ≤ 60, map.bucketCount = 2 ^ n
  inPlace : InPlace (fun entry => calculateIndex map.bucketCount entry.hash) map.buckets
  stored  : ∀ entry ∈ map.entries, entry.hash = map.hashKey entry.key

namespace Ok

section

variable (h : map.Ok k)

include h

theorem calculateIndex_lt_bucketCount (hash : BitVec 32) :
    calculateIndex map.bucketCount hash < map.bucketCount := by
  obtain ⟨n, hn, hc⟩ := h.count
  exact hc ▸ calculateIndex_lt (by omega) hash

theorem getElem?_index (key : κ) : map.buckets[map.index key]? = map.bucket key := by
  have hi : map.index key < map.buckets.length := h.calculateIndex_lt_bucketCount _
  simp [bucket, List.getD_eq_getElem?_getD, hi]

theorem hashKey_congr (he : k.equals a b) : map.hashKey a = map.hashKey b := by
  simp only [hashKey, h.hash, k.hash_eq he]

theorem mem_entries (he : e ∈ map.bucket key) : e ∈ map.entries :=
  mem_flatten_of_bucket (h.getElem?_index key) he

theorem place (he : e ∈ map.bucket key) :
    calculateIndex map.bucketCount e.hash = map.index key ∧ e.hash = map.hashKey e.key :=
  ⟨h.inPlace _ _ _ (h.getElem?_index key) he, h.stored e (h.mem_entries he)⟩

theorem mem_bucket (he : e ∈ map.entries) (heq : k.equals e.key key) : e ∈ map.bucket key := by
  apply h.inPlace.mem_bucket he
  rw [h.stored e he, h.hashKey_congr heq]
  exact h.getElem?_index key

end

theorem holds_iff [DecidableEq κ] (h : map.Ok k) (he : e ∈ map.entries) :
    map.holds key e ↔ k.equals e.key key := by
  simp only [holds, equalKeys, h.equals, h.stored e he]
  split
  case isTrue hk => simp [hk, k.equiv.refl key]
  split
  case isTrue hh => simpa using mt h.hashKey_congr hh
  case isFalse => rfl

theorem setBucket (h : map.Ok k)
    (hc : ∀ e ∈ chain, calculateIndex map.bucketCount e.hash = map.index key ∧
      e.hash = map.hashKey e.key) : (map.setBucket key chain).Ok k where
  hash    := h.hash
  equals  := h.equals
  count   := by simpa [Hashmap.setBucket, bucketCount] using h.count
  inPlace := by
    have := h.inPlace.set (i := map.index key) (fun e he => (hc e he).1)
    simpa [Hashmap.setBucket, bucketCount] using this
  stored  := by
    intro e he
    obtain ⟨c, hm, hec⟩ := List.mem_flatten.mp he
    obtain hm | rfl := List.mem_or_eq_of_mem_set hm
    · exact h.stored e (List.mem_flatten.mpr ⟨c, hm, hec⟩)
    · exact (hc e hec).2

theorem withSize (h : map.Ok k) (n : Nat) : { map with size := n }.Ok k :=
  ⟨h.hash, h.equals, h.count, h.inPlace, h.stored⟩

end Ok

theorem Ok.expandIfNecessary (h : map.Ok k) (callocOk : Bool) :
    (map.expandIfNecessary callocOk).1.Ok k ∧ (map.expandIfNecessary callocOk).1.entries.Perm map.entries ∧
      (map.expandIfNecessary callocOk).1.size = map.size := by
  obtain ⟨n, hn, hc⟩ := h.count
  rw [Hashmap.expandIfNecessary]
  split
  case isFalse => exact ⟨h, .refl _, rfl⟩
  simp only [hc, shiftLeft_pow (n := n) (by omega)]
  split
  case isFalse => exact ⟨h, .refl _, rfl⟩
  case isTrue hok =>
    have hn' := callocBuckets_pow hok
    have hlt : ∀ e ∈ map.entries, calculateIndex (2 ^ (n + 1)) e.hash <
        (List.replicate (2 ^ (n + 1)) ([] : List (Entry κ ν))).length := by
      intro e _
      rw [List.length_replicate]
      exact calculateIndex_lt (by omega) e.hash
    have hlink := foldl_link hlt InPlace.replicate
    generalize map.entries.foldl _ _ = newBuckets at hlink ⊢
    rw [List.length_replicate, List.flatten_replicate_nil, List.append_nil] at hlink
    obtain ⟨hl, hi, hp⟩ := hlink
    have hstored : ∀ e ∈ newBuckets.flatten, e.hash = map.hashKey e.key :=
      fun e he => h.stored e (hp.subset he)
    dsimp only
    refine ⟨⟨h.hash, h.equals, ⟨n + 1, hn', hl⟩, ?_, hstored⟩, hp, rfl⟩
    simpa only [bucketCount, hl] using hi

-- A new entry makes the table too full, without memory for a larger one.
def growthFails (map : Hashmap κ ν) (callocOk : Bool) : Bool :=
  decide (map.size + 1 > u64 (map.bucketCount * 3) / 4) &&
    !callocBuckets (u64 (map.bucketCount <<< 1)) callocOk

theorem expandIfNecessary_snd (map : Hashmap κ ν) (callocOk : Bool) :
    (map.expandIfNecessary callocOk).2 = (decide (map.size > u64 (map.bucketCount * 3) / 4) &&
      !callocBuckets (u64 (map.bucketCount <<< 1)) callocOk) := by
  simp only [expandIfNecessary]
  split
  case isTrue h => split <;> simp_all
  case isFalse h => simp_all

-- The map stands for `m`.
structure Refines (k : Keys κ) (map : Hashmap κ ν) (m : Content k ν) : Prop where
  ok : map.Ok k
  size : map.size = map.entries.length
  content : m.entries = map.entries.map k.binding

namespace Refines

variable {m : Content k ν}

open Classical

section

variable (h : Refines k map m)

include h

theorem lookup_of_mem (he : e ∈ map.entries)
    (heq : k.equals e.key key) : m.lookup (k.toClass key) = some e.value := by
  rw [← Keys.toClass_eq.mpr heq, Finmap.lookup_eq_some_iff, h.content]
  exact mem_coe.mpr (List.mem_map.mpr ⟨e, he, rfl⟩)

theorem lookup_eq_none (hn : ∀ e ∈ map.entries, ¬k.equals e.key key) :
    m.lookup (k.toClass key) = none := by
  apply eq_none_iff_forall_not_mem.mpr
  intro v hv
  rw [mem_def, Finmap.lookup_eq_some_iff, h.content, mem_coe, List.mem_map] at hv
  obtain ⟨e, he, hs⟩ := hv
  exact hn e he (Keys.toClass_eq.mp (Sigma.mk.inj hs).1)

theorem entry_unique (he : e ∈ map.entries) (he' : e' ∈ map.entries)
    (hk : k.toClass e.key = k.toClass e'.key) : e = e' := by
  have hn : ((map.entries.map k.binding).map Sigma.fst).Nodup :=
    coe_nodupKeys.mp (h.content ▸ m.nodupKeys)
  rw [List.map_map] at hn
  exact List.inj_on_of_nodup_map hn he he' hk

theorem add (hn : m.lookup (k.toClass e.key) = none) (hok : map'.Ok k)
    (hp : map'.entries.Perm (e :: map.entries)) (hs : map'.size = map.size + 1) :
    Refines k map' (m.insert (k.toClass e.key) e.value) where
  ok := hok
  size := by rw [hs, h.size, hp.length_eq, List.length_cons]
  content := by
    rw [Finmap.entries_insert_of_notMem (Finmap.lookup_eq_none.mp hn), h.content]
    exact coe_eq_coe.mpr (hp.map k.binding).symm

variable (he : map.entries.Perm (e :: rest))

include he

theorem entries_of_perm : m.entries = k.binding e ::ₘ (rest.map k.binding : List _) :=
  h.content.trans (coe_eq_coe.mpr (he.map k.binding))

theorem rebind (hok : map'.Ok k)
    (hp : map'.entries.Perm ({ e with value } :: rest)) (hs : map'.size = map.size) :
    Refines k map' (m.insert (k.toClass e.key) value) where
  ok := hok
  size := by rw [hs, h.size, hp.length_eq, he.length_eq, List.length_cons, List.length_cons]
  content := by
    rw [entries_insert_of_cons (h.entries_of_perm he)]
    exact coe_eq_coe.mpr (hp.map k.binding).symm

theorem unbind (hok : map'.Ok k) (hp : map'.entries.Perm rest) (hs : map'.size = map.size - 1) :
    Refines k map' (m.erase (k.toClass e.key)) where
  ok := hok
  size := by rw [hs, h.size, hp.length_eq, he.length_eq, List.length_cons, Nat.add_sub_cancel]
  content := by
    rw [entries_erase_of_cons (h.entries_of_perm he)]
    exact coe_eq_coe.mpr (hp.map k.binding).symm

end

section Calls

variable [DecidableEq κ]

theorem lookup_of_bucket (h : Refines k map m) (he : e ∈ map.bucket key) (hh : map.holds key e) :
    m.lookup (k.toClass key) = some e.value ∧ k.toClass e.key = k.toClass key := by
  have heq := (h.ok.holds_iff (h.ok.mem_entries he)).mp hh
  exact ⟨h.lookup_of_mem (h.ok.mem_entries he) heq, Keys.toClass_eq.mpr heq⟩

theorem lookup_eq_none_of_bucket (h : Refines k map m)
    (hn : ∀ e ∈ map.bucket key, ¬map.holds key e) : m.lookup (k.toClass key) = none := by
  apply h.lookup_eq_none
  intro e he heq
  exact hn e (h.ok.mem_bucket he heq) ((h.ok.holds_iff he).mpr heq)

theorem find_bucket (h : Refines k map m) (key : κ) :
    ((map.bucket key).find? (map.holds key)).map Entry.value = m.lookup (k.toClass key) := by
  cases hf : (map.bucket key).find? (map.holds key)
  case none =>
    exact (h.lookup_eq_none_of_bucket (by simpa using List.find?_eq_none.mp hf)).symm
  case some e =>
    exact (h.lookup_of_bucket (List.mem_of_find?_eq_some hf) (List.find?_some hf)).1.symm

theorem walk_bucket (h : Refines k map m)
    (hw : walk (map.holds key) f (map.bucket key) = some (e, chain)) :
    (m.lookup (k.toClass key) = some e.value ∧ k.toClass e.key = k.toClass key) ∧
      (∀ x ∈ chain, x ∈ map.bucket key ∨ x ∈ f e) ∧ e ∈ map.bucket key ∧
      ∃ rest, map.entries.Perm (e :: rest) ∧ (map.setBucket key chain).entries.Perm (f e ++ rest) := by
  obtain ⟨l₁, l₂, hb, hc, hh⟩ := walk_eq_some hw
  have he : e ∈ map.bucket key := by simp [hb]
  obtain ⟨r, hp, hp'⟩ := walk_perm hw
  refine ⟨h.lookup_of_bucket he hh, ?_, he, flatten_set_exchange (h.ok.getElem?_index key) hp hp'⟩
  intro x hx
  simp only [hc, List.mem_append] at hx
  simp only [hb, List.mem_append, List.mem_cons]
  tauto

theorem get_eq (h : Refines k map m) : map.hashmapGet key = (m.lookup (k.toClass key)).join := by
  rw [← h.find_bucket, hashmapGet]
  cases (map.bucket key).find? (map.holds key) <;> rfl

theorem containsKey_eq (h : Refines k map m) :
    map.hashmapContainsKey key = decide (k.toClass key ∈ m) := by
  rw [hashmapContainsKey, Bool.eq_iff_iff, decide_eq_true_iff, ← Finmap.lookup_isSome,
    ← h.find_bucket, isSome_map, List.find?_isSome, List.any_eq_true]

omit [DecidableEq κ] in
theorem addEntry (h : Refines k map m)
    (ha : map.addEntry key value mallocOk callocOk = some (map', enomem)) :
    mallocOk ∧ map'.Ok k ∧ map'.entries.Perm (⟨key, map.hashKey key, value⟩ :: map.entries) ∧
      map'.size = map.size + 1 ∧ enomem = map.growthFails callocOk := by
  rw [Hashmap.addEntry] at ha
  split at ha
  case isFalse => cases ha
  case isTrue hmalloc =>
  have hmap : _ = map' := congrArg Prod.fst (some.inj ha)
  have hflag : _ = enomem := congrArg Prod.snd (some.inj ha)
  have hset : (map.setBucket key (map.bucket key ++ [⟨key, map.hashKey key, value⟩])).Ok k := by
    apply h.ok.setBucket
    intro e he
    obtain he | rfl := by simpa using he
    · exact h.ok.place he
    · exact ⟨rfl, rfl⟩
  obtain ⟨hok, hp, hs⟩ := (hset.withSize (map.size + 1)).expandIfNecessary callocOk
  refine ⟨hmalloc, hmap ▸ hok, hmap ▸ hp.trans ?_, hmap ▸ hs, ?_⟩
  · obtain ⟨hi, hg⟩ := List.getElem?_eq_some_iff.mp (h.ok.getElem?_index key)
    obtain ⟨rest, hr⟩ := flatten_set_perm hi
    have hold := hr (map.bucket key)
    rw [← hg, List.set_getElem_self, hg] at hold
    exact (hr _).trans ((List.perm_append_comm.append_right rest).trans (hold.symm.cons _))
  · rw [← hflag, expandIfNecessary_snd]
    simp [growthFails, Hashmap.setBucket, bucketCount]

variable (h : Refines k map m)

include h

theorem put_cases (key : κ) (value : Option ν) (mallocOk callocOk : Bool) :
    (∃ e rest chain, k.toClass e.key = k.toClass key ∧ m.lookup (k.toClass key) = some e.value ∧
      map.entries.Perm (e :: rest) ∧ chain.Ok k ∧ chain.entries.Perm ({ e with value } :: rest) ∧
      chain.size = map.size ∧ map.hashmapPut key value mallocOk callocOk = ⟨e.value, chain, false⟩) ∨
    m.lookup (k.toClass key) = none ∧
      ((mallocOk = false ∧ map.hashmapPut key value mallocOk callocOk = ⟨none, map, true⟩) ∨
      mallocOk ∧ ∃ map', map'.Ok k ∧ map'.entries.Perm (⟨key, map.hashKey key, value⟩ :: map.entries) ∧
        map'.size = map.size + 1 ∧
        map.hashmapPut key value mallocOk callocOk = ⟨none, map', map.growthFails callocOk⟩) := by
  rw [hashmapPut]
  split
  case h_1 current chain hw =>
    obtain ⟨⟨hl, hk⟩, hsub, he, rest, hp, hp'⟩ := h.walk_bucket hw
    refine .inl ⟨current, rest, _, hk, hl, hp, h.ok.setBucket ?_, hp', rfl, rfl⟩
    intro x hx
    obtain hx | hx := hsub x hx
    · exact h.ok.place hx
    obtain rfl := List.mem_singleton.mp hx
    exact h.ok.place (e := current) he
  case h_2 hw =>
    refine .inr ⟨h.lookup_eq_none_of_bucket (walk_eq_none.mp hw), ?_⟩
    split
    case h_1 ha =>
      obtain ⟨hmalloc, hok, hp, hs, rfl⟩ := h.addEntry ha
      exact .inr ⟨hmalloc, _, hok, hp, hs, rfl⟩
    case h_2 ha => exact .inl ⟨by simpa [Hashmap.addEntry] using ha, rfl⟩

theorem put (key : κ) (value : Option ν) (mallocOk callocOk : Bool) :
    (map.hashmapPut key value mallocOk callocOk).value = (m.lookup (k.toClass key)).join ∧
      Refines k (map.hashmapPut key value mallocOk callocOk).map (m.bind key value mallocOk) := by
  obtain ⟨e, rest, map', hk, hl, hp, hok, hp', hs, hr⟩ | ⟨hn, ⟨rfl, hr⟩ | ⟨rfl, map', hok, hp, hs, hr⟩⟩ :=
    h.put_cases key value mallocOk callocOk
  · have hm : k.toClass key ∈ m := Finmap.lookup_isSome.mp (by simp [hl])
    rw [hr, Content.bind, if_pos (.inl hm)]
    exact ⟨by simp [hl], hk ▸ h.rebind hp hok hp' hs⟩
  · rw [hr, Content.bind, if_neg (by simpa using Finmap.lookup_eq_none.mp hn)]
    exact ⟨by simp [hn], h⟩
  · rw [hr, Content.bind, if_pos (.inr rfl)]
    exact ⟨by simp [hn], h.add (e := ⟨key, map.hashKey key, value⟩) hn hok hp hs⟩

theorem memoize :
    .value (map.hashmapMemoize key initialValue mallocOk callocOk).value =
        (m.step (.memoize key initialValue mallocOk callocOk)).1 ∧
      Refines k (map.hashmapMemoize key initialValue mallocOk callocOk).map
        (m.step (.memoize key initialValue mallocOk callocOk)).2 := by
  have hf := h.find_bucket key
  rw [hashmapMemoize, Content.step, ← hf]
  split
  case h_1 current hw =>
    simpa only [hw, map_some, true_and] using h
  case h_2 hw =>
    have hn : m.lookup (k.toClass key) = none := by simp [← hf, hw]
    simp only [hw, map_none]
    split
    case h_1 ha =>
      obtain ⟨rfl, hok, hp, hs, -⟩ := h.addEntry ha
      refine ⟨rfl, ?_⟩
      rw [Content.bind, if_pos (.inr rfl)]
      exact h.add (e := ⟨key, map.hashKey key, initialValue key⟩) hn hok hp hs
    case h_2 ha =>
      obtain rfl : mallocOk = false := by simpa [Hashmap.addEntry] using ha
      refine ⟨rfl, ?_⟩
      rwa [Content.bind, if_neg (by simpa using Finmap.lookup_eq_none.mp hn)]

theorem remove_cases (key : κ) :
    (∃ e rest map', k.toClass e.key = k.toClass key ∧ m.lookup (k.toClass key) = some e.value ∧
      map.entries.Perm (e :: rest) ∧ map'.Ok k ∧ map'.entries.Perm rest ∧
      map'.size = map.size - 1 ∧ map.hashmapRemove key = (e.value, map')) ∨
    m.lookup (k.toClass key) = none ∧ map.hashmapRemove key = (none, map) := by
  rw [hashmapRemove]
  split
  case h_1 current chain hw =>
    obtain ⟨⟨hl, hk⟩, hsub, he, rest, hp, hp'⟩ := h.walk_bucket hw
    refine .inl ⟨current, rest, _, hk, hl, hp, (h.ok.setBucket ?_).withSize (map.size - 1), hp', rfl, rfl⟩
    intro x hx
    exact h.ok.place (by simpa using hsub x hx)
  case h_2 hw => exact .inr ⟨h.lookup_eq_none_of_bucket (walk_eq_none.mp hw), rfl⟩

theorem remove :
    (map.hashmapRemove key).1 = (m.lookup (k.toClass key)).join ∧
      Refines k (map.hashmapRemove key).2 (m.erase (k.toClass key)) := by
  obtain ⟨e, rest, map', hk, hl, hp, hok, hp', hs, hr⟩ | ⟨hn, hr⟩ := h.remove_cases key
  · exact ⟨by simp [hr, hl], hr ▸ hk ▸ h.unbind hp hok hp' hs⟩
  have he : m.erase (k.toClass key) = m := by
    apply Finmap.ext_lookup
    intro x
    by_cases hx : x = k.toClass key
    · rw [hx, Finmap.lookup_erase, hn]
    · exact Finmap.lookup_erase_ne hx
  exact ⟨by simp [hr, hn], hr ▸ he.symm ▸ h⟩

theorem step (call : Call κ ν) :
    (map.step call).1 = (m.step call).1 ∧ Refines k (map.step call).2 (m.step call).2 := by
  cases call
  case put key value mallocOk callocOk =>
    obtain ⟨hv, hr⟩ := h.put key value mallocOk callocOk
    exact ⟨congrArg Answer.value hv, hr⟩
  case get key => exact ⟨congrArg Answer.value h.get_eq, h⟩
  case containsKey key => exact ⟨congrArg Answer.bool h.containsKey_eq, h⟩
  case memoize key initialValue mallocOk callocOk => exact h.memoize
  case remove key => exact ⟨congrArg Answer.value h.remove.1, h.remove.2⟩

theorem run (calls : List (Call κ ν)) :
    (map.run calls).1 = (m.run calls).1 ∧ Refines k (map.run calls).2 (m.run calls).2 := by
  induction calls generalizing map m
  case nil => exact ⟨rfl, h⟩
  case cons call calls ih =>
    obtain ⟨ha, hr⟩ := h.step call
    obtain ⟨has, hrs⟩ := ih hr
    exact ⟨congrArg₂ List.cons ha has, hrs⟩

end Calls

theorem create (h : hashmapCreate initialCapacity k.hash k.equals mallocOk callocOk = some map) :
    Refines k map (∅ : Content k ν) := by
  rw [hashmapCreate] at h
  split at h
  case isTrue => cases h
  case isFalse =>
  obtain ⟨n, hn, -⟩ := initialBucketCount_pow initialCapacity
  simp only [hn] at h
  split at h
  case isFalse => cases h
  case isTrue hok =>
  cases h
  refine ⟨⟨rfl, rfl, ⟨n, callocBuckets_pow hok, ?_⟩, InPlace.replicate, ?_⟩, ?_, ?_⟩
  · simp [bucketCount]
  · simp [entries]
  · simp [entries]
  · simp only [entries, List.flatten_replicate_nil]
    rfl

theorem size_eq (h : Refines k map m) : map.hashmapSize = m.keys.card := by
  rw [hashmapSize, h.size, Finmap.keys, Finset.card_mk, h.content, coe_keys, coe_card]
  simp [List.keys]

end Refines

-- The pairs for the callback of `hashmapForEach`, while it asks for more.
def visits (map : Hashmap κ ν) : List (κ × Option ν) :=
  map.hashmapForEach (fun key value seen => (seen ++ [(key, value)], true)) []

theorem visitChain_record (chain : List (Entry κ ν)) (seen : List (κ × Option ν)) :
    visitChain (fun key value seen => (seen ++ [(key, value)], true)) chain seen =
      (seen ++ chain.map fun e => (e.key, e.value), true) := by
  induction chain generalizing seen
  case nil => simp [visitChain]
  case cons e chain ih => simp [visitChain, ih]

theorem visits_eq (map : Hashmap κ ν) : map.visits = map.entries.map fun e => (e.key, e.value) := by
  suffices ∀ (buckets : List (List (Entry κ ν))) seen,
      visitBuckets (fun key value seen => (seen ++ [(key, value)], true)) buckets seen =
        seen ++ buckets.flatten.map fun e => (e.key, e.value) from this map.buckets []
  intro buckets
  induction buckets
  case nil => simp [visitBuckets]
  case cons chain buckets ih => simp [visitBuckets, visitChain_record, ih]

-- Over all calls the map answers as the finite map and stays a table of it.
theorem run_eq_finmap [DecidableEq κ] (k : Keys κ) (initialCapacity : Nat) (callocOk : Bool)
    (halloc : callocBuckets (initialBucketCount initialCapacity) callocOk = true)
    (calls : List (Call κ ν)) :
    ∃ map, hashmapCreate initialCapacity k.hash k.equals true callocOk = some map ∧
      (map.run calls).1 = ((∅ : Content k ν).run calls).1 ∧
      (map.run calls).2.hashmapSize = ((∅ : Content k ν).run calls).2.keys.card ∧
      ((∅ : Content k ν).run calls).2.entries =
        (map.run calls).2.visits.map (fun x => (⟨k.toClass x.1, x.2⟩ : (_ : k.Class) × Option ν)) ∧
      (∃ n, (map.run calls).2.bucketCount = 2 ^ n) ∧
      ∀ i chain e, (map.run calls).2.buckets[i]? = some chain → e ∈ chain →
        calculateIndex (map.run calls).2.bucketCount e.hash = i := by
  have hc : (hashmapCreate initialCapacity k.hash k.equals true callocOk : Option (Hashmap κ ν)) =
      some _ := if_pos halloc
  obtain ⟨ha, hr⟩ := (Refines.create hc).run calls
  refine ⟨_, hc, ha, hr.size_eq, ?_, ?_, hr.ok.inPlace⟩
  · rw [visits_eq, hr.content, List.map_map]
    rfl
  · obtain ⟨n, -, hn⟩ := hr.ok.count
    exact ⟨n, hn⟩

-- Integers modulo 10, of which all hash to their last digit.
def digitKeys : Keys Nat where
  hash n := BitVec.ofNat 32 (n % 10)
  equals m n := m % 10 == n % 10
  equiv := ⟨fun _ => by simp, fun h => by simp_all, fun h h' => by simp_all⟩
  hash_eq h := by simp_all

theorem run_eq_finmap_digits :
    callocBuckets (initialBucketCount 3) true = true ∧
      ∃ map, hashmapCreate 3 digitKeys.hash digitKeys.equals true true = some map ∧
        (map.run [.put 1 (some 5) true true, .get 11, .remove 21, .get 1]).1 =
          ((∅ : Content digitKeys Nat).run [.put 1 (some 5) true true, .get 11, .remove 21, .get 1]).1 := by
  refine ⟨by decide, ?_⟩
  obtain ⟨map, hc, ha, -⟩ := run_eq_finmap digitKeys 3 true (by decide)
    [.put 1 (some 5) true true, .get 11, .remove 21, .get 1]
  exact ⟨map, hc, ha⟩

end Hashmap

end Cutils
