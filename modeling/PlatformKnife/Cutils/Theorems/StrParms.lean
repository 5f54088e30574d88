import PlatformKnife.Cutils.StrParms
import PlatformKnife.Cutils.Theorems.Hashmap

open CInt

namespace Cutils

open Option

open List

def strKeys : Keys Str where
  hash := strHashFn
  equals := strEq
  equiv := ⟨fun _ => by simp [strEq], fun h => by simp_all [strEq], fun h h' => by simp_all [strEq]⟩
  hash_eq h := by simp_all [strEq, strHashFn]

theorem strKeys_toClass_eq : strKeys.toClass a = strKeys.toClass b ↔ a.text = b.text := by
  simp [Keys.toClass_eq, strKeys, strEq]

section Heap

variable {heap : Heap}

@[simp]
theorem Heap.free_none (heap : Heap) : heap.free none = heap :=
  rfl

section

variable {live : Finset Nat} {doubleFree : Bool}

theorem Heap.free_live (h : str.addr ∈ live) :
    Heap.free ⟨live, doubleFree⟩ (some str) = ⟨live.erase str.addr, doubleFree⟩ := by
  simp [Heap.free, h]

theorem Heap.free_fresh (h : a ∉ live) :
    Heap.free ⟨insert a live, doubleFree⟩ (some ⟨a, text⟩) = ⟨live, doubleFree⟩ := by
  simp [Heap.free, h]

theorem Heap.free_fresh₂ (ha : a ∉ live) (hb : b ∉ insert a live) :
    (Heap.free ⟨insert b (insert a live), doubleFree⟩ (some ⟨a, text⟩)).free (some ⟨b, text'⟩) =
      ⟨live, doubleFree⟩ := by
  rw [Finset.mem_insert, not_or] at hb
  rw [Finset.insert_comm, Heap.free_fresh (by simpa [Ne.symm hb.1] using ha), Heap.free_fresh hb.2]

end

def Entry.strings (e : Entry Str Str) : List Nat :=
  e.key.addr :: (e.value.map Str.addr).toList

-- The entries hold strings that are allocated, none of them twice.
def Owns (live : Finset Nat) (entries : List (Entry Str Str)) : Prop :=
  (entries.flatMap Entry.strings).Nodup ∧ ∀ a ∈ entries.flatMap Entry.strings, a ∈ live

theorem Owns.perm (h : Owns live l) (hp : l'.Perm l) : Owns live l' := by
  have hf := hp.flatMap_right Entry.strings
  exact ⟨hf.nodup_iff.mpr h.1, fun a ha => h.2 a (hf.subset ha)⟩

theorem Owns.mono (h : Owns live l) (hl : ∀ a ∈ l.flatMap Entry.strings, a ∈ live → a ∈ live') :
    Owns live' l :=
  ⟨h.1, fun a ha => hl a ha (h.2 a ha)⟩

theorem owns_cons : Owns live (e :: l) ↔
    e.strings.Nodup ∧ (∀ a ∈ e.strings, a ∈ live) ∧ Owns live l ∧
      ∀ a ∈ e.strings, a ∉ l.flatMap Entry.strings := by
  simp only [Owns, flatMap_cons, nodup_append, mem_append]
  grind

variable {k v : Nat} {live : Finset Nat}

theorem Owns.add (ho : Owns live l) (hk : k ∉ live) (hv : v ∉ insert k live) :
    Owns (insert v (insert k live)) (⟨⟨k, key⟩, h, some ⟨v, value⟩⟩ :: l) := by
  rw [owns_cons]
  have hsub := ho.2
  simp only [Entry.strings, map_some, toList_some, Finset.mem_insert] at hv ⊢
  refine ⟨by simp; grind, by simp, ho.mono (by simp; grind), ?_⟩
  simp only [mem_cons, not_mem_nil, or_false, forall_eq_or_imp, forall_eq]
  grind

theorem Owns.replace (ho : Owns live (e :: l)) (he : e.value = some old) (hk : k ∉ live)
    (hv : v ∉ insert k live) (value : List UInt8) :
    Owns (((insert v (insert k live)).erase k).erase old.addr) ({ e with value := some ⟨v, value⟩ } :: l) ∧
      old.addr ∈ (insert v (insert k live)).erase k ∧ v ≠ old.addr := by
  rw [owns_cons] at ho ⊢
  obtain ⟨hnd, hlive, hl, hdisj⟩ := ho
  have hsub := hl.2
  simp only [Entry.strings, he, map_some, toList_some, nodup_cons,
    mem_cons, not_mem_nil, or_false, forall_eq_or_imp, forall_eq, Finset.mem_insert,
    Finset.mem_erase] at hnd hlive hdisj hv ⊢
  refine ⟨⟨?_, ?_, hl.mono ?_, ?_⟩, ?_, ?_⟩
  all_goals
    try simp only [Finset.mem_insert, Finset.mem_erase]
    grind

end Heap

namespace StrParms

-- The state between two calls.
structure Valid (s : StrParms) : Prop where
  refines : ∃ m, Hashmap.Refines strKeys s.map m
  values : ∀ e ∈ s.map.entries, e.value.isSome = true
  owns : Owns s.heap.live s.map.entries
  doubleFree : s.heap.doubleFree = false

variable {s : StrParms}

open Classical in
theorem lookup_eq (h : Hashmap.Refines strKeys s.map m) (addr : Nat) :
    s.lookup key = (m.lookup (strKeys.toClass ⟨addr, key⟩)).join := by
  rw [lookup, h.get_eq]
  congr 2
  exact strKeys_toClass_eq.mpr rfl

section Destroy

theorem removePair_valid (h : s.Valid) (he : e ∈ s.map.entries) :
    (removePair e.key e.value s).1.Valid ∧
      s.map.entries.Perm (e :: (removePair e.key e.value s).1.map.entries) := by
  obtain ⟨m, hr⟩ := h.refines
  obtain ⟨e', rest, map', hk, -, hp, -, hp', -, hrem⟩ | ⟨hn, -⟩ := hr.remove_cases e.key
  case inr => simp [hr.lookup_of_mem he (strKeys.equiv.refl e.key)] at hn
  case inl =>
  obtain rfl := hr.entry_unique (hp.symm.subset mem_cons_self) he hk
  obtain ⟨hnd, hlive, hrest, hdisj⟩ := owns_cons.mp (h.owns.perm hp.symm)
  obtain ⟨v, hv⟩ := isSome_iff_exists.mp (h.values _ he)
  simp only [Entry.strings, hv, map_some, toList_some, nodup_cons,
    mem_cons, not_mem_nil, or_false, forall_eq_or_imp, forall_eq] at hnd hlive hdisj
  have hv' : v.addr ∈ s.heap.live.erase e'.key.addr := by grind
  have hfree : ((s.heap.free (some e'.key)).free (some v)) =
      ⟨(s.heap.live.erase e'.key.addr).erase v.addr, s.heap.doubleFree⟩ := by
    rw [Heap.free_live hlive.1, Heap.free_live hv']
  simp only [removePair, hrem, hv, hfree]
  refine ⟨⟨⟨_, hrem ▸ hr.remove.2⟩, ?_, ?_, h.doubleFree⟩, hp.trans (hp'.symm.cons _)⟩
  · exact fun x hx => h.values x (hp.symm.subset (mem_cons_of_mem _ (hp'.subset hx)))
  · refine (hrest.perm hp').mono fun a ha hl => ?_
    have ha := (hp'.flatMap_right _).subset ha
    simp only [Finset.mem_erase]
    grind

theorem visitChain_removePair (h : s.Valid) (hc : chain.Subperm s.map.entries) :
    (visitChain removePair chain s).1.Valid := by
  induction chain generalizing s
  case nil => exact h
  case cons e chain ih =>
    have he : e ∈ s.map.entries := hc.subset mem_cons_self
    obtain ⟨hv, hp⟩ := removePair_valid h he
    exact ih hv ((subperm_cons e).mp (hc.trans hp.subperm))

theorem strParmsDestroy_valid (h : s.Valid) : s.strParmsDestroy.Valid := by
  rw [strParmsDestroy]
  generalize range s.map.bucketCount = l
  induction l generalizing s
  case nil => exact h
  case cons i l ih =>
    refine ih (visitChain_removePair h ?_)
    rw [getD_eq_getElem?_getD]
    cases hi : s.map.buckets[i]?
    case none => exact nil_subperm
    case some chain => exact (sublist_flatten_of_mem (mem_of_getElem? hi)).subperm

end Destroy

section AddStr

variable {c : AddStr}

-- A new key makes the table too full, with memory for all but a larger one.
def GrowthFails (s : StrParms) (c : AddStr) : Prop :=
  s.lookup c.key = none ∧ c.keyCopy.isSome = true ∧ c.valueCopy.isSome = true ∧
    c.mallocOk = true ∧ s.map.growthFails c.callocOk = true

def Outcome (s : StrParms) (c : AddStr) : Prop :=
  ((s.addStr c).1 = 0 ∧
    (∃ str, (s.addStr c).2.lookup c.key = some str ∧ str.text = c.value ∧
      str.addr ∈ (s.addStr c).2.heap.live) ∧
    ∀ key ≠ c.key, (s.addStr c).2.lookup key = s.lookup key) ∨
  ((s.addStr c).1 < 0 ∧ ∀ key, (s.addStr c).2.lookup key = s.lookup key)

-- What holds between two calls: the strings of the map are allocated, and none was freed twice or would
-- be if the object were destroyed now.
def Sound (s : StrParms) : Prop :=
  (∀ e ∈ s.map.entries, e.key.addr ∈ s.heap.live ∧
    ∃ v, e.value = some v ∧ v.addr ∈ s.heap.live) ∧
  s.heap.doubleFree = false ∧ s.strParmsDestroy.heap.doubleFree = false

theorem Valid.sound (h : s.Valid) : s.Sound := by
  refine ⟨fun e he => ?_, h.doubleFree, (strParmsDestroy_valid h).doubleFree⟩
  obtain ⟨v, hv⟩ := isSome_iff_exists.mp (h.values e he)
  have hl := h.owns.2
  have hs : ∀ a ∈ e.strings, a ∈ s.heap.live :=
    fun a ha => hl a (mem_flatMap.mpr ⟨e, he, ha⟩)
  simp only [Entry.strings, hv, map_some, toList_some] at hs
  exact ⟨hs _ (by simp), v, hv, hs _ (by simp)⟩

-- The bindings after a put that found memory.
open Classical in
theorem lookup_insert {s' : StrParms} {m : Content strKeys Str} (h : Hashmap.Refines strKeys s.map m)
    (h' : Hashmap.Refines strKeys s'.map (m.insert (strKeys.toClass ⟨addr, key⟩) (some v))) :
    s'.lookup key = some v ∧ ∀ key' ≠ key, s'.lookup key' = s.lookup key' := by
  refine ⟨?_, fun key' hne => ?_⟩
  · rw [lookup_eq h' addr]
    simp
  · rw [lookup_eq h' addr, lookup_eq h addr, Finmap.lookup_insert_of_ne]
    exact fun heq => hne (strKeys_toClass_eq.mp heq)

theorem addStr_cases (s : StrParms) (c : AddStr) :
    ¬(c.keyCopy.isSome ∧ c.valueCopy.isSome) ∧ s.addStr c = (-ENOMEM, s) ∨
    (c.keyCopy.isSome ∧ c.valueCopy.isSome) ∧
      ∃ k v : Nat, k ∉ s.heap.live ∧ v ∉ insert k s.heap.live ∧
        s.addStr c = s.putCopies ⟨insert v (insert k s.heap.live), s.heap.doubleFree⟩ ⟨k, c.key⟩
          ⟨v, c.value⟩ c.mallocOk c.callocOk := by
  rw [addStr]
  obtain _ | a := c.keyCopy
  · exact .inl ⟨by simp, rfl⟩
  cases c.valueCopy
  case none =>
    refine .inl ⟨by simp, ?_⟩
    simp only [Heap.strdup, cleanUp, Heap.free_none, Heap.free_fresh a.fresh, if_true]
  case some b => exact .inr ⟨by simp, _, _, a.fresh, b.fresh, rfl⟩

theorem putCopies_of_value {heap : Heap}
    (h : s.map.hashmapPut k (some v) mallocOk callocOk = ⟨some old, map', false⟩) :
    s.putCopies heap k v mallocOk callocOk = (0, ⟨(heap.free (some k)).free (some old), map'⟩) := by
  simp [putCopies, h, cleanUp]

theorem putCopies_of_null {heap : Heap}
    (h : s.map.hashmapPut k (some v) mallocOk callocOk = ⟨none, map', enomem⟩) :
    s.putCopies heap k v mallocOk callocOk =
      if enomem then (-ENOMEM, ⟨(heap.free (some k)).free (some v), map'⟩) else (0, ⟨heap, map'⟩) := by
  cases enomem <;> simp [putCopies, h, cleanUp]

open Classical in
theorem outcome_of_insert {s' : StrParms} {m : Content strKeys Str}
    (hr : Hashmap.Refines strKeys s.map m) (ha : s.addStr c = (0, s'))
    (h' : Hashmap.Refines strKeys s'.map (m.insert (strKeys.toClass ⟨k, c.key⟩) (some ⟨v, c.value⟩)))
    (hv : v ∈ s'.heap.live) : s.Outcome c := by
  obtain ⟨hl, hne⟩ := lookup_insert hr h'
  refine .inl ⟨congrArg Prod.fst ha, ⟨⟨v, c.value⟩, ?_, rfl, ?_⟩, ?_⟩
  · rw [ha, hl]
  · rwa [ha]
  · rwa [ha]

theorem addStr_valid (h : s.Valid) (hg : ¬s.GrowthFails c) : s.Outcome c ∧ (s.addStr c).2.Valid := by
  classical
  obtain ⟨m, hr⟩ := h.refines
  obtain ⟨-, ha⟩ | ⟨⟨hk, hv⟩, k, v, hkf, hvf, ha⟩ := s.addStr_cases c
  · exact ⟨.inr ⟨by simp [ha, ENOMEM], by simp [ha]⟩, ha ▸ h⟩
  have hput := (hr.put ⟨k, c.key⟩ (some ⟨v, c.value⟩) c.mallocOk c.callocOk).2
  obtain ⟨e, rest, map', hcl, hl, hp, -, hp', -, hpr⟩ |
      ⟨hn, ⟨hmalloc, hpr⟩ | ⟨hmalloc, map', -, hp, -, hpr⟩⟩ :=
    hr.put_cases ⟨k, c.key⟩ (some ⟨v, c.value⟩) c.mallocOk c.callocOk
  · obtain ⟨old, hold⟩ := isSome_iff_exists.mp (h.values e (hp.symm.subset mem_cons_self))
    obtain ⟨hown, hmem, hne⟩ := (h.owns.perm hp.symm).replace hold hkf hvf c.value
    rw [hpr, Content.bind, if_pos (.inl (Finmap.lookup_isSome.mp (by simp [hl])))] at hput
    have hkl : (Str.mk k c.key).addr ∈ insert v (insert k s.heap.live) := by simp
    rw [putCopies_of_value (hold ▸ hpr), Heap.free_live hkl, Heap.free_live hmem] at ha
    have hvk : v ≠ k := fun heq => hvf (by simp [heq])
    refine ⟨outcome_of_insert hr ha hput (by simp [hne, hvk]), ?_⟩
    rw [ha]
    refine ⟨⟨_, hput⟩, fun x hx => ?_, hown.perm hp', h.doubleFree⟩
    obtain rfl | hx := mem_cons.mp (hp'.subset hx)
    · rfl
    · exact h.values x (hp.symm.subset (mem_cons_of_mem _ hx))
  · rw [putCopies_of_null hpr, if_pos rfl, Heap.free_fresh₂ hkf hvf] at ha
    exact ⟨.inr ⟨by simp [ha, ENOMEM], by simp [ha]⟩, ha ▸ h⟩
  · have hgrow : s.map.growthFails c.callocOk = false := by
      by_contra hc
      refine hg ⟨?_, hk, hv, hmalloc, by simpa using hc⟩
      rw [lookup_eq hr k, hn]
      rfl
    rw [hpr, Content.bind, if_pos (.inr hmalloc)] at hput
    rw [putCopies_of_null hpr, hgrow, if_neg (by simp)] at ha
    refine ⟨outcome_of_insert hr ha hput (by simp), ?_⟩
    rw [ha]
    refine ⟨⟨_, hput⟩, fun x hx => ?_, (h.owns.add hkf hvf).perm hp, h.doubleFree⟩
    obtain rfl | hx := mem_cons.mp (hp.subset hx)
    · rfl
    · exact h.values x hx

theorem addStr_growthFails (h : s.Valid) (hg : s.GrowthFails c) : ¬s.Outcome c := by
  classical
  obtain ⟨hl, hkc, hvc, hmalloc, hgrow⟩ := hg
  obtain ⟨m, hr⟩ := h.refines
  obtain ⟨hn, -⟩ | ⟨-, k, v, -, -, ha⟩ := s.addStr_cases c
  · exact absurd ⟨hkc, hvc⟩ hn
  have hput := (hr.put ⟨k, c.key⟩ (some ⟨v, c.value⟩) c.mallocOk c.callocOk).2
  rw [Content.bind, if_pos (.inr hmalloc)] at hput
  obtain ⟨e, rest, map', -, hl', hp, -, -, -, hpr⟩ | ⟨hn, ⟨hmalloc', -⟩ | ⟨-, map', -, hp, -, hpr⟩⟩ :=
    hr.put_cases ⟨k, c.key⟩ (some ⟨v, c.value⟩) c.mallocOk c.callocOk
  · have hsome := h.values e (hp.symm.subset mem_cons_self)
    rw [lookup_eq hr k, hl', join_some] at hl
    simp [hl] at hsome
  · simp [hmalloc] at hmalloc'
  · rw [putCopies_of_null hpr, hgrow, if_pos rfl] at ha
    have hmap : (s.addStr c).2.map = map' := by rw [ha]
    rw [hpr, ← hmap] at hput
    have hbound : (s.addStr c).2.lookup c.key = _ := (lookup_insert hr hput).1
    rintro (⟨hret, -⟩ | ⟨-, hsame⟩)
    · simp [ha, ENOMEM] at hret
    · rw [hsame, hl] at hbound
      cases hbound

end AddStr

-- The calls of a run do what they have to, and all its states are sound.
def RunOk : StrParms → List AddStr → Prop
  | s, [] => s.Sound
  | s, c :: calls => s.Sound ∧ s.Outcome c ∧ RunOk (s.addStr c).2 calls

-- No call of a run fails to grow the table.
def Grows : StrParms → List AddStr → Prop
  | _, [] => True
  | s, c :: calls => ¬s.GrowthFails c ∧ Grows (s.addStr c).2 calls

theorem runOk_iff (h : s.Valid) (calls : List AddStr) : s.RunOk calls ↔ s.Grows calls := by
  induction calls generalizing s
  case nil => exact iff_of_true h.sound trivial
  case cons c calls ih =>
    rw [RunOk, Grows]
    by_cases hg : s.GrowthFails c
    · simp [hg, addStr_growthFails h hg]
    obtain ⟨ho, hv⟩ := addStr_valid h hg
    simp [hg, h.sound, ho, ih hv]

theorem strParmsCreate_valid {heap : Heap} (hh : heap.doubleFree = false)
    (h : strParmsCreate heap ok mallocOk callocOk = some s) : s.Valid := by
  rw [strParmsCreate] at h
  split at h
  case isFalse => cases h
  case isTrue =>
  obtain ⟨map, hc, rfl⟩ := map_eq_some_iff.mp h
  have hr : Hashmap.Refines strKeys map ∅ := Hashmap.Refines.create hc
  have he : map.entries = [] := map_eq_nil_iff.mp ((Multiset.coe_eq_zero _).mp hr.content.symm)
  exact ⟨⟨_, hr⟩, by simp [he], by simp [Owns, he], hh⟩

def nextAddr : Allocator where
  pick live := live.sup id + 1
  fresh h   := Nat.lt_irrefl _ (Finset.le_sup (f := id) h)

-- Adds a key of one letter, with memory for all but maybe a larger table.
def addLetter (letter : UInt8) (callocOk : Bool) : AddStr :=
  { key := [letter], value := [], keyCopy := nextAddr, valueCopy := nextAddr, mallocOk := true, callocOk }

def emptyParms : StrParms where
  heap := { live := ∅, doubleFree := false }
  map  := { buckets := List.replicate 8 [], hash := strHashFn, equals := strEq, size := 0 }

theorem runOk_addLetter : strParmsCreate ⟨∅, false⟩ true true true = some emptyParms ∧
    emptyParms.RunOk [addLetter 97 false] := by
  have hc : strParmsCreate ⟨∅, false⟩ true true true = some emptyParms := rfl
  have hg : emptyParms.map.growthFails false = false := by decide
  refine ⟨hc, (runOk_iff (strParmsCreate_valid rfl hc) _).mpr ⟨fun h => ?_, trivial⟩⟩
  exact absurd h.2.2.2.2 (by simp [addLetter, hg])

theorem RunOk.append (h : s.RunOk (calls ++ [c])) :
    (calls.foldl (fun s c => (s.addStr c).2) s).Outcome c := by
  induction calls generalizing s
  case nil => exact h.2.1
  case cons d calls ih => exact ih h.2.2

-- Eight buckets hold six keys; the seventh asks for a larger table.
theorem not_runOk_seventhLetter :
    ¬emptyParms.RunOk ([97, 98, 99, 100, 101, 102].map (addLetter · true) ++ [addLetter 103 false]) := by
  intro h
  have ho := h.append
  generalize hs : foldl _ _ _ = s at ho
  have hret : (s.addStr (addLetter 103 false)).1 = -ENOMEM := hs ▸ by decide +kernel
  have hold : s.lookup [103] = none := hs ▸ by decide +kernel
  have hnew : ((s.addStr (addLetter 103 false)).2.lookup [103]).isSome = true := hs ▸ by decide +kernel
  obtain ⟨h0, -⟩ | ⟨-, hsame⟩ := ho
  · simp [hret, ENOMEM] at h0
  · simp [hsame, hold] at hnew

end StrParms

end Cutils
