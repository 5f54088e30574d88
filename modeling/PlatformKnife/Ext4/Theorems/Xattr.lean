import PlatformKnife.Ext4.Theorems.XattrEntry

namespace Ext4

open CInt List Option Xattr Except

section Placement

variable {attrs : List Xattr} {a : Xattr}

-- The attributes with the offsets of their values, put from `stop` downwards.
def placed : Nat → List Xattr → List (Xattr × Nat)
  | _, [] => []
  | stop, a :: as =>
    (a, stop - xattrSize a.value.length) :: placed (stop - xattrSize a.value.length) as

def placedEntries (stop : Nat) (attrs : List Xattr) : List XattrEntry :=
  (placed stop attrs).map fun p => entryOf p.fst p.snd

def valueBytes (attrs : List Xattr) : List UInt8 :=
  attrs.reverse.flatMap fun a => paddedValue a.value

def nameSpace (attrs : List Xattr) : Nat :=
  (attrs.map fun a => xattrLen a.name.length).sum

@[simp]
theorem valueSpace_cons (a : Xattr) (as : List Xattr) :
    valueSpace (a :: as) = xattrSize a.value.length + valueSpace as :=
  rfl

@[simp]
theorem valueSpace_singleton (a : Xattr) : valueSpace [a] = xattrSize a.value.length := by
  simp [valueSpace]

theorem valueSpace_append (as bs : List Xattr) :
    valueSpace (as ++ bs) = valueSpace as + valueSpace bs := by
  simp [valueSpace]

theorem neededSpace_append (as bs : List Xattr) :
    neededSpace (as ++ bs) = neededSpace as + neededSpace bs := by
  simp [neededSpace]

@[simp]
theorem neededSpace_singleton (a : Xattr) : neededSpace [a] = a.needed := by
  simp [neededSpace]

theorem neededSpace_eq (attrs : List Xattr) : neededSpace attrs = nameSpace attrs + valueSpace attrs := by
  induction attrs
  case nil => rfl
  case cons a as hi =>
    simp only [neededSpace, nameSpace, valueSpace, needed, map_cons, sum_cons] at hi ⊢
    omega

section

variable (stop : Nat)

theorem placed_append (as bs : List Xattr) :
    placed stop (as ++ bs) = placed stop as ++ placed (stop - valueSpace as) bs := by
  induction as generalizing stop
  case nil => simp [placed, valueSpace]
  case cons a as hi => simp [placed, hi, Nat.sub_sub]

theorem placed_map_fst (attrs : List Xattr) : (placed stop attrs).map Prod.fst = attrs := by
  induction attrs generalizing stop
  case nil => rfl
  case cons a as hi => simp [placed, hi]

theorem exists_of_mem_placedEntries (h : e ∈ placedEntries stop attrs) :
    ∃ a ∈ attrs, ∃ n, e = entryOf a n := by
  obtain ⟨p, hp, rfl⟩ := mem_map.mp h
  rw [← placed_map_fst stop attrs]
  exact ⟨_, mem_map_of_mem hp, _, rfl⟩

theorem placedEntries_length (attrs : List Xattr) : (placedEntries stop attrs).length = attrs.length := by
  have hl := congrArg length (placed_map_fst stop attrs)
  rw [length_map] at hl
  rw [placedEntries, length_map, hl]

theorem placedEntries_append (as bs : List Xattr) :
    placedEntries stop (as ++ bs) = placedEntries stop as ++ placedEntries (stop - valueSpace as) bs := by
  simp [placedEntries, placed_append]

theorem entriesLen_placedEntries (attrs : List Xattr) :
    entriesLen (placedEntries stop attrs) = nameSpace attrs := by
  induction attrs generalizing stop
  case nil => rfl
  case cons a as hi =>
    rw [nameSpace, map_cons, sum_cons, ← nameSpace, ← hi (stop - xattrSize a.value.length)]
    rfl

theorem sizesLen_placedEntries (h : ∀ a ∈ attrs, a.value.length < 2 ^ 32) :
    sizesLen (placedEntries stop attrs) = valueSpace attrs := by
  induction attrs generalizing stop
  case nil => rfl
  case cons a as hi =>
    have hi := hi (stop - xattrSize a.value.length) fun x hx => h x (by simp [hx])
    rw [valueSpace_cons, ← hi, placedEntries, placed, map_cons, sizesLen_cons, entryOf,
      u32_of_lt (h a (by simp))]
    rfl

end

theorem paddedValue_length (value : List UInt8) : (paddedValue value).length = xattrSize value.length := by
  have := le_xattrSize value.length
  simp only [paddedValue, length_append, length_replicate]
  omega

theorem valueBytes_length (attrs : List Xattr) : (valueBytes attrs).length = valueSpace attrs := by
  simp [valueBytes, valueSpace, paddedValue_length, length_flatMap]

theorem valueBytes_append (as bs : List Xattr) :
    valueBytes (as ++ bs) = valueBytes bs ++ valueBytes as := by
  simp [valueBytes]

theorem mem_placed_bounds (h : p ∈ placed stop attrs) (hs : valueSpace attrs ≤ stop) :
    stop - valueSpace attrs ≤ p.snd ∧ p.snd + xattrSize p.fst.value.length ≤ stop := by
  induction attrs generalizing stop
  case nil => cases h
  case cons a as hi =>
    rw [valueSpace_cons] at hs ⊢
    rw [placed, mem_cons] at h
    rcases h with rfl | h
    · dsimp only
      omega
    have := hi h (by omega)
    omega

end Placement

-- The range holds the attributes: entries from its start on, values from its end downwards, zeros between
-- them.
structure XattrRange.Holds (r : XattrRange) (attrs : List Xattr) (data : List UInt8) : Prop where
  names : ∀ a ∈ attrs, 1 ≤ a.name.length ∧ a.name.length ≤ 255
  fits  : neededSpace attrs ≤ r.size
  data  : data = entriesBytes (placedEntries (r.base + r.size) attrs)
            ++ (List.replicate (r.size - neededSpace attrs) 0 ++ valueBytes attrs)

namespace XattrRange.Holds

variable {r : XattrRange} {attrs : List Xattr} {data : List UInt8} {a : Xattr}

theorem zero (r : XattrRange) : r.Holds [] (replicate r.size 0) where
  names := by simp
  fits  := Nat.zero_le _
  data  := by simp [entriesBytes, placedEntries, placed, valueBytes, neededSpace]

section

variable (h : r.Holds attrs data)

include h

theorem length : data.length = r.size := by
  have hf := h.fits
  rw [neededSpace_eq] at hf
  rw [h.data]
  simp only [length_append, entriesBytes_length, entriesLen_placedEntries, length_replicate,
    valueBytes_length, neededSpace_eq]
  omega

theorem needed_le (ha : a ∈ attrs) : a.needed ≤ r.size :=
  le_trans (le_sum_of_mem (mem_map_of_mem ha)) h.fits

theorem value_lt (ha : a ∈ attrs) : a.value.length + 3 < 2 ^ 32 := by
  have hn := h.needed_le ha
  have hl := le_xattrLen a.name.length
  have hs := le_xattrSize a.value.length
  have hr := r.lt
  rw [needed] at hn
  omega

theorem encodable : ∀ e ∈ placedEntries (r.base + r.size) attrs, e.Encodable := by
  intro e he
  obtain ⟨a, ha, _, rfl⟩ := exists_of_mem_placedEntries _ he
  exact {
    name_pos := (h.names _ ha).1
    name_le  := (h.names _ ha).2
    offs_lt  := Nat.mod_lt _ (by decide)
    block_lt := Nat.two_pow_pos 32
    size_lt  := u32_lt _
    hash_lt  := Nat.two_pow_pos 32 }

theorem entriesAt (hw : neededSpace attrs + 4 ≤ r.size) :
    EntriesAt data 0 (placedEntries (r.base + r.size) attrs)
      (replicate 4 0 ++ (replicate (r.size - neededSpace attrs - 4) 0 ++ valueBytes attrs)) := by
  refine ⟨[], ?_, rfl⟩
  rw [h.data, nil_append, ← append_assoc (replicate 4 0),
    replicate_append_replicate, show 4 + (r.size - neededSpace attrs - 4)
      = r.size - neededSpace attrs by omega]

theorem entriesAt_stop (hw : neededSpace attrs + 4 ≤ r.size) :
    EntriesAt data (nameSpace attrs) []
      (replicate 4 0 ++ (replicate (r.size - neededSpace attrs - 4) 0 ++ valueBytes attrs)) := by
  obtain ⟨front, hd, hp⟩ := h.entriesAt hw
  refine ⟨entriesBytes (placedEntries (r.base + r.size) attrs), ?_, ?_⟩
  · rw [hd, eq_nil_of_length_eq_zero hp.symm, nil_append]
    rfl
  · rw [entriesBytes_length, entriesLen_placedEntries]

theorem exists_fuel : ∃ k, data.length + 1 = (placedEntries (r.base + r.size) attrs).length + (k + 1) := by
  have hl := length_le_entriesLen (placedEntries (r.base + r.size) attrs)
  have hn := neededSpace_eq attrs
  have hf := h.fits
  rw [entriesLen_placedEntries] at hl
  exact ⟨data.length - (placedEntries (r.base + r.size) attrs).length, by rw [h.length]; omega⟩

theorem xattrGetLast (hw : neededSpace attrs + 4 ≤ r.size) :
    xattrGetLast data = .ok (nameSpace attrs) := by
  obtain ⟨k, hk⟩ := h.exists_fuel
  rw [Ext4.xattrGetLast, hk, (h.entriesAt hw).getLastLoop h.encodable, entriesLen_placedEntries,
    zero_add, getLastLoop, (h.entriesAt_stop hw).isLastEntry_zero]
  rfl

theorem xattrFreeSpace (hw : neededSpace attrs + 4 ≤ r.size) :
    xattrFreeSpace force data = .ok (r.size - neededSpace attrs) := by
  obtain ⟨k, hk⟩ := h.exists_fuel
  have hn := neededSpace_eq attrs
  have hv : ∀ a ∈ attrs, a.value.length < 2 ^ 32 := fun a ha => by
    have := h.value_lt ha
    omega
  have hs : ∀ e ∈ placedEntries (r.base + r.size) attrs, e.eValueSize + 3 < 2 ^ 32 := by
    intro e he
    obtain ⟨a, ha, _, rfl⟩ := exists_of_mem_placedEntries _ he
    have hl := h.value_lt ha
    simp only [entryOf, u32_of_lt (hv _ ha)]
    exact hl
  rw [Ext4.xattrFreeSpace, hk, (h.entriesAt hw).freeSpaceLoop h.encodable hs (k + 1)
    (by rw [entriesLen_placedEntries, sizesLen_placedEntries _ hv, h.length]; omega),
    entriesLen_placedEntries, sizesLen_placedEntries _ hv, h.length, zero_add, freeSpaceLoop,
    (h.entriesAt_stop hw).isLastEntry_zero]
  simp only [ok_bind, Bool.not_true, Bool.false_and, Bool.false_eq_true, if_false, pure_eq_ok]
  rw [if_neg (by omega)]
  congr 1
  omega

end

theorem storeBytes_zeros_left (h : s.length ≤ n) :
    storeBytes (front ++ (replicate n 0 ++ back)) front.length s
      = .ok (front ++ (s ++ (replicate (n - s.length) 0 ++ back))) := by
  rw [storeBytes_append (by simp; omega), drop_append_of_le_length (by simpa using h), drop_replicate]

theorem storeBytes_zeros_right (front back : List UInt8) (h : s.length ≤ n)
    (hi : i = front.length + (n - s.length)) :
    storeBytes (front ++ (replicate n 0 ++ back)) i s
      = .ok (front ++ (replicate (n - s.length) 0 ++ (s ++ back))) := by
  have hd : front ++ (replicate n 0 ++ back) = (front ++ replicate (n - s.length) 0)
      ++ (replicate s.length 0 ++ back) := by
    rw [append_assoc, ← append_assoc (replicate _ _), replicate_append_replicate, Nat.sub_add_cancel h]
  have hi' : i = (front ++ replicate (n - s.length) (0 : UInt8)).length := by simpa using hi
  rw [hd, hi', storeBytes_append (by simp), drop_append_of_le_length (by simp)]
  simp

variable (h : r.Holds attrs data)

include h

theorem add (hn : 1 ≤ a.name.length) (hf : r.Fits attrs a)
    (hv : val = nameSpace attrs + (r.size - neededSpace attrs) - xattrSize a.value.length) :
    ∃ data₁ data₂, storeBytes data (nameSpace attrs) (entryOf a (r.base + val)).bytes = .ok data₁ ∧
      storeBytes data₁ val (paddedValue a.value) = .ok data₂ ∧ r.Holds (attrs ++ [a]) data₂ := by
  obtain ⟨hle, hfit⟩ := hf
  have hns := neededSpace_eq attrs
  have hel : (entriesBytes (placedEntries (r.base + r.size) attrs)).length = nameSpace attrs := by
    rw [entriesBytes_length, entriesLen_placedEntries]
  have hbl : (entryOf a (r.base + val)).bytes.length = xattrLen a.name.length :=
    XattrEntry.bytes_length _
  have hpl := paddedValue_length a.value
  rw [needed] at hfit
  have h₁ : storeBytes data (nameSpace attrs) (entryOf a (r.base + val)).bytes
      = .ok (entriesBytes (placedEntries (r.base + r.size) attrs) ++ ((entryOf a (r.base + val)).bytes
        ++ (replicate (r.size - neededSpace attrs - xattrLen a.name.length) 0
        ++ valueBytes attrs))) := by
    rw [h.data, ← hel, ← hbl]
    exact storeBytes_zeros_left (by omega)
  have h₂ := storeBytes_zeros_right
    (entriesBytes (placedEntries (r.base + r.size) attrs) ++ (entryOf a (r.base + val)).bytes)
    (valueBytes attrs)
    (show (paddedValue a.value).length ≤ r.size - neededSpace attrs - xattrLen a.name.length by omega)
    (show val = _ by rw [length_append, hel, hbl, hpl]; omega)
  rw [append_assoc] at h₂
  refine ⟨_, _, h₁, h₂, ?_, ?_, ?_⟩
  · rw [forall_mem_append, forall_mem_singleton]
    exact ⟨h.names, hn, hle⟩
  · rw [neededSpace_append, neededSpace_singleton, needed]
    omega
  · have hoff : r.base + r.size - valueSpace attrs - xattrSize a.value.length = r.base + val := by
      omega
    have hent : entriesBytes (placedEntries (r.base + r.size) (attrs ++ [a]))
        = entriesBytes (placedEntries (r.base + r.size) attrs) ++ (entryOf a (r.base + val)).bytes := by
      rw [placedEntries_append, entriesBytes, flatMap_append, ← hoff]
      simp [entriesBytes, placedEntries, placed]
    have hval : valueBytes (attrs ++ [a]) = paddedValue a.value ++ valueBytes attrs := by
      rw [valueBytes_append]
      simp [valueBytes]
    rw [hent, hval, hpl, neededSpace_append, neededSpace_singleton, needed, Nat.sub_sub, Nat.sub_sub]

theorem addtoRange_of_not_fits (hw : neededSpace attrs + 4 ≤ r.size)
    (hf : ¬r.Fits attrs a) : xattrAddtoRange force r.base data a = .ok (data, none) := by
  rw [Ext4.xattrAddtoRange]
  split
  case isTrue => rfl
  case isFalse hn =>
    rw [h.xattrFreeSpace hw]
    have hlt : r.size - neededSpace attrs < xattrLen a.name.length + xattrSize a.value.length := by
      by_contra hc
      have := h.fits
      exact hf ⟨by omega, by rw [needed]; omega⟩
    simp only [ok_bind, if_pos hlt]
    rfl

theorem addtoRange_of_fits (hw : neededSpace attrs + 4 ≤ r.size)
    (hn : 1 ≤ a.name.length) (hf : r.Fits attrs a) :
    ∃ data', r.Holds (attrs ++ [a]) data' ∧ ∀ force, xattrAddtoRange force r.base data a = (do
      xattrAssertSane force data'
      return (data', some (nameSpace attrs))) := by
  obtain ⟨data₁, data₂, h₁, h₂, h'⟩ := h.add hn hf rfl
  obtain ⟨hle, hfit⟩ := hf
  rw [Xattr.needed] at hfit
  refine ⟨data₂, h', fun force => ?_⟩
  have hlt : ¬r.size - neededSpace attrs < xattrLen a.name.length + xattrSize a.value.length := by
    omega
  rw [Ext4.xattrAddtoRange, if_neg (by omega), h.xattrFreeSpace hw]
  simp only [ok_bind, if_neg hlt, h.xattrGetLast hw, h₁, h₂]

theorem xattrAssertSane (force : Bool) (hw : neededSpace attrs + 4 ≤ r.size) :
    xattrAssertSane force data = .ok () ∨ force = false ∧ ∃ msg ∈ [notSorted, duplicateDetected],
      xattrAssertSane force data = .error (.longjmp msg) := by
  obtain ⟨k, hk⟩ := h.exists_fuel
  exact (h.entriesAt hw).assertSaneLoop h.encodable (by omega)

end XattrRange.Holds

section Reading

variable {r : XattrRange} {attrs : List Xattr} {data : List UInt8} {es : List XattrEntry}

theorem entryPositions_map_snd (pos : Nat) (es : List XattrEntry) :
    (entryPositions pos es).map Prod.snd = es := by
  induction es generalizing pos
  case nil => rfl
  case cons e es hi => simp [entryPositions, hi]

theorem mem_entryPositions (h : x ∈ entryPositions pos es) :
    pos ≤ x.fst ∧ x.fst + xattrLen x.snd.eName.length ≤ pos + entriesLen es := by
  induction es generalizing pos
  case nil => cases h
  case cons e es hi =>
    rw [entriesLen_cons]
    rw [entryPositions, mem_cons] at h
    rcases h with rfl | h
    · dsimp only
      omega
    have := hi h
    omega

theorem entryPositions_pairwise (pos : Nat) (es : List XattrEntry) :
    (entryPositions pos es).Pairwise fun e e' => e.fst + xattrLen e.snd.eName.length ≤ e'.fst := by
  induction es generalizing pos
  case nil => exact List.Pairwise.nil
  case cons e es hi =>
    rw [entryPositions, pairwise_cons]
    exact ⟨fun x hx => (mem_entryPositions hx).1, hi _⟩

theorem placed_pairwise (hs : valueSpace attrs ≤ stop) :
    (placed stop attrs).Pairwise fun p p' => p'.snd + xattrSize p'.fst.value.length ≤ p.snd := by
  induction attrs generalizing stop
  case nil => exact List.Pairwise.nil
  case cons a as hi =>
    rw [valueSpace_cons] at hs
    rw [placed, pairwise_cons]
    exact ⟨fun p hp => (mem_placed_bounds hp (by omega)).2, hi (by omega)⟩

theorem entryOf_offs (h : offs < 2 ^ 16) : (entryOf a offs).eValueOffs = offs :=
  Nat.mod_eq_of_lt h

-- The offsets of the values have 16 bits.
def XattrRange.SmallOffsets (r : XattrRange) (attrs : List Xattr) : Prop :=
  ∀ p ∈ placed (r.base + r.size) attrs, p.snd < 2 ^ 16

theorem walkXattrs_nil (h : walkXattrs fuel pos rest = some ([], stop)) : stop = pos := by
  obtain _ | fuel := fuel
  · cases h
  rw [walkXattrs] at h
  split at h
  case isTrue  => cases h
  split at h
  case isTrue  => exact (Prod.mk.inj (some.inj h)).2.symm
  obtain ⟨e, _, h⟩ := bind_eq_some_iff.mp h
  obtain ⟨_, _, h⟩ := bind_eq_some_iff.mp h
  cases h

namespace XattrRange.Holds

theorem valueSpace_le (h : r.Holds attrs data) : valueSpace attrs ≤ r.base + r.size := by
  have hf := h.fits
  rw [neededSpace_eq] at hf
  omega

theorem walkXattrs (h : r.Holds attrs data) (hw : neededSpace attrs + 4 ≤ r.size) :
    walkXattrs (data.length + 1) 0 data
      = some (entryPositions 0 (placedEntries (r.base + r.size) attrs), nameSpace attrs) := by
  obtain ⟨k, hk⟩ := h.exists_fuel
  obtain ⟨front, hd, hp⟩ := h.entriesAt hw
  rw [eq_nil_of_length_eq_zero hp.symm, nil_append] at hd
  rw [hk, hd, walkXattrs_entries h.encodable, entriesLen_placedEntries, Ext4.walkXattrs,
    if_neg (by simp), take_left' (by simp), if_pos (by decide)]
  simp

theorem value (h : r.Holds (as ++ a :: bs) data)
    (hs : r.base + r.size - valueSpace as - xattrSize a.value.length < 2 ^ 16) :
    (entryOf a (r.base + r.size - valueSpace as - xattrSize a.value.length)).value r.base data
      = some a.value := by
  have hlt := h.value_lt (a := a) (by simp)
  have hf := h.fits
  have hn := neededSpace_eq (as ++ a :: bs)
  have hv := valueSpace_append as (a :: bs)
  have hle := le_xattrSize a.value.length
  rw [valueSpace_cons] at hv
  -- what stands before the value and after it
  obtain ⟨front, back, hsplit, hlen⟩ : ∃ front back, data = front ++ (a.value ++ back) ∧
      front.length = r.base + r.size - valueSpace as - xattrSize a.value.length - r.base := by
    refine ⟨entriesBytes (placedEntries (r.base + r.size) (as ++ a :: bs))
      ++ (replicate (r.size - neededSpace (as ++ a :: bs)) 0 ++ valueBytes bs),
      replicate (xattrSize a.value.length - a.value.length) 0 ++ valueBytes as, ?_, ?_⟩
    · rw [h.data, append_cons, valueBytes_append, valueBytes_append]
      simp [valueBytes, paddedValue]
    · simp only [length_append, entriesBytes_length, entriesLen_placedEntries, length_replicate,
        valueBytes_length]
      omega
  have hsl := Slice.slice_append front a.value back
  rw [← hsplit, hlen] at hsl
  rw [XattrEntry.value, entryOf]
  simp only [u16, Nat.mod_eq_of_lt hs, u32_of_lt (show a.value.length < 2 ^ 32 by omega)]
  rw [if_pos ⟨by omega, by rw [h.length]; omega⟩, hsl]

theorem yields (h : r.Holds (as ++ bs) data) (hs : r.SmallOffsets (as ++ bs)) (pos : Nat) :
    (entryPositions pos (placedEntries (r.base + r.size - valueSpace as) bs)).map
        (fun e => (e.snd.eNameIndex, e.snd.eName, e.snd.value r.base data))
      = bs.map fun a => (a.nameIndex, a.name, some a.value) := by
  induction bs generalizing as pos
  case nil => rfl
  case cons b bs hi =>
    have hb : r.base + r.size - valueSpace as - xattrSize b.value.length < 2 ^ 16 := by
      apply hs (b, _)
      simp [placed_append, placed]
    have hv := h.value hb
    rw [append_cons] at h hs
    have hi := hi h hs (pos + xattrLen b.name.length)
    rw [valueSpace_append, valueSpace_singleton, ← Nat.sub_sub] at hi
    rw [placedEntries, placed, map_cons, entryPositions, map_cons, map_cons, hv]
    exact congrArg _ hi

theorem parseable (h : r.Holds attrs data) (hw : neededSpace attrs + 4 ≤ r.size)
    (hs : r.SmallOffsets attrs) : Parseable r.base data attrs := by
  have hn := neededSpace_eq attrs
  have hent : ∀ e ∈ entryPositions 0 (placedEntries (r.base + r.size) attrs),
      ∃ p ∈ placed (r.base + r.size) attrs, e.snd = entryOf p.fst p.snd := by
    intro e he
    have hm := mem_map_of_mem (f := Prod.snd) he
    rw [entryPositions_map_snd] at hm
    obtain ⟨p, hp, he⟩ := mem_map.mp hm
    exact ⟨p, hp, he.symm⟩
  refine ⟨_, _, h.walkXattrs hw, ?_, ?_, ?_, ?_, entryPositions_pairwise _ _, ?_⟩
  · exact yields (show r.Holds ([] ++ attrs) data from h) hs 0
  · obtain ⟨front, rfl, hp⟩ := h.entriesAt_stop hw
    rw [entriesBytes, flatMap_nil, nil_append]
    exact bytesAt_append hp rfl
  · intro e he
    obtain ⟨p, hp, he⟩ := hent e he
    have hb := mem_placed_bounds hp h.valueSpace_le
    rw [he, entryOf_offs (hs p hp)]
    omega
  · intro e he
    have hm := (mem_entryPositions he).2
    rwa [entriesLen_placedEntries, zero_add] at hm
  · rw [← pairwise_map (R := XattrEntry.Apart), entryPositions_map_snd, placedEntries, pairwise_map]
    refine (placed_pairwise h.valueSpace_le).imp_of_mem fun {p p'} hp hp' hpp => .inl ?_
    have hle := le_xattrSize p'.fst.value.length
    have hu := u32_le p'.fst.value.length
    rw [entryOf_offs (hs p hp), entryOf_offs (hs p' hp')]
    simp only [entryOf]
    omega

theorem not_parseable (h : r.Holds attrs data) (hw : r.size < neededSpace attrs + 4)
    (hb : r.base + r.size < 2 ^ 16) : ¬Parseable r.base data attrs := by
  rintro ⟨entries, stop, hp⟩
  obtain ⟨k, hk⟩ := h.exists_fuel
  have hn := neededSpace_eq attrs
  have hv := h.valueSpace_le
  -- All entries of the walk are those of the attributes, so that it stops behind them.
  obtain ⟨rfl, rfl⟩ : entries = entryPositions 0 (placedEntries (r.base + r.size) attrs) ∧
      stop = nameSpace attrs := by
    have hwalk := hp.walk
    have hlen := congrArg List.length hp.yields
    rw [hk, h.data, walkXattrs_entries h.encodable, entriesLen_placedEntries, zero_add,
      map_eq_some_iff] at hwalk
    obtain ⟨⟨es, stop'⟩, hrest, heq⟩ := hwalk
    obtain ⟨rfl, rfl⟩ := Prod.mk.inj heq
    have hpos := congrArg List.length (entryPositions_map_snd 0 (placedEntries (r.base + r.size) attrs))
    rw [List.length_map, placedEntries_length] at hpos
    simp only [List.length_map, List.length_append, hpos] at hlen
    have hes : es = [] := List.eq_nil_of_length_eq_zero (by omega)
    subst hes
    exact ⟨List.append_nil _, walkXattrs_nil hrest⟩
  have hz := hp.zero_word
  have hsz : nameSpace attrs + 4 ≤ r.size := by
    rw [bytesAt, h.length] at hz
    split at hz
    case isTrue hle => exact hle
    case isFalse => cases hz
  rcases List.eq_nil_or_concat' attrs with rfl | ⟨as, a, rfl⟩
  · rw [neededSpace, List.map_nil, List.sum_nil] at hw
    omega
  have hm : entryOf a (r.base + r.size - valueSpace as - xattrSize a.value.length)
      ∈ placedEntries (r.base + r.size) (as ++ [a]) := by
    simp [placedEntries, placed_append, placed]
  rw [← entryPositions_map_snd 0 (placedEntries _ _)] at hm
  obtain ⟨e, he, hes⟩ := List.mem_map.mp hm
  have hbelow := hp.word_below e he
  rw [valueSpace_append, valueSpace_singleton] at hn hv
  rw [hes, entryOf_offs (by omega)] at hbelow
  omega

end XattrRange.Holds

end Reading

section Calls

variable {r : XattrRange} {attrs : List Xattr} {data : List UInt8} {calls : List Xattr}

-- What holds after calls on a range that holds attributes.
def CallsParseable (force : Bool) (r : XattrRange) (data : List UInt8) (attrs calls : List Xattr) :
    Prop :=
  match addXattrs force r.base data calls with
  | .ok (data, added) => Parseable r.base data (attrs ++ added)
  | .error (.longjmp msg) => force = false ∧ msg ∈ [notSorted, duplicateDetected]
  | .error (.fault _) => False

theorem callsParseable_cons (h : xattrAddtoRange force r.base data a = .ok (data', res)) :
    CallsParseable force r data attrs (a :: calls) ↔
      CallsParseable force r data' (if res.isSome then attrs ++ [a] else attrs) calls := by
  rw [CallsParseable, CallsParseable, addXattrs, h]
  rcases hr : addXattrs force r.base data' calls with (_ | _) | ⟨data₂, added⟩ <;> cases res <;> simp [hr]

theorem XattrRange.SmallOffsets.append (h : r.SmallOffsets attrs) (ha : r.Leaves attrs a) :
    r.SmallOffsets (attrs ++ [a]) := by
  intro p hp
  rw [placed_append, mem_append] at hp
  rcases hp with hp | hp
  · exact h p hp
  simp only [placed, mem_singleton] at hp
  exact hp ▸ ha.offset

theorem callsParseable_of_allLeave (h : r.Holds attrs data) (hw : neededSpace attrs + 4 ≤ r.size)
    (hs : r.SmallOffsets attrs) (hn : ∀ a ∈ calls, 1 ≤ a.name.length)
    (hl : r.AllLeave attrs calls) : CallsParseable force r data attrs calls := by
  induction calls generalizing attrs data
  case nil => simpa [CallsParseable, addXattrs] using h.parseable hw hs
  case cons a as hi =>
    have hn' : ∀ a ∈ as, 1 ≤ a.name.length := fun x hx => hn x (by simp [hx])
    obtain ⟨ha, has⟩ := hl
    by_cases hf : r.Fits attrs a
    case neg =>
      rw [callsParseable_cons (h.addtoRange_of_not_fits hw hf)]
      rw [if_neg hf] at has
      exact hi h hw hs hn' has
    rw [if_pos hf] at has
    obtain ⟨data', h', hadd⟩ := h.addtoRange_of_fits hw (hn a (by simp)) hf
    have hw' : neededSpace (attrs ++ [a]) + 4 ≤ r.size := by
      rw [neededSpace_append, neededSpace_singleton]
      exact (ha hf).word
    rcases h'.xattrAssertSane force hw' with hok | ⟨hforce, msg, hmsg, herr⟩
    case inr =>
      rw [CallsParseable, addXattrs, hadd, herr]
      exact ⟨hforce, hmsg⟩
    have hc : xattrAddtoRange force r.base data a = .ok (data', some (nameSpace attrs)) := by
      rw [hadd, hok]
      rfl
    rw [callsParseable_cons hc]
    exact hi h' hw' (hs.append (ha hf)) hn' has

theorem allLeave_of_callsParseable (h : r.Holds attrs data) (hw : neededSpace attrs + 4 ≤ r.size)
    (hb : r.base + r.size < 2 ^ 16) (hn : ∀ a ∈ calls, 1 ≤ a.name.length)
    (hp : ∀ n, CallsParseable true r data attrs (calls.take n)) : r.AllLeave attrs calls := by
  induction calls generalizing attrs data
  case nil => trivial
  case cons a as hi =>
    have hn' : ∀ a ∈ as, 1 ≤ a.name.length := fun x hx => hn x (by simp [hx])
    have hsucc (n : Nat) := hp (n + 1)
    simp only [take_succ_cons] at hsucc
    by_cases hf : r.Fits attrs a
    case neg =>
      refine ⟨fun hf' => absurd hf' hf, ?_⟩
      rw [if_neg hf]
      exact hi h hw hn' fun n =>
        (callsParseable_cons (h.addtoRange_of_not_fits hw hf)).mp (hsucc n)
    obtain ⟨data', h', hadd⟩ := h.addtoRange_of_fits hw (hn a (by simp)) hf
    have hsum : neededSpace (attrs ++ [a]) = neededSpace attrs + a.needed := by
      rw [neededSpace_append, neededSpace_singleton]
    have hcall (hok : xattrAssertSane true data' = .ok ()) :
        xattrAddtoRange true r.base data a = .ok (data', some (nameSpace attrs)) := by
      rw [hadd, hok]
      rfl
    have hword : neededSpace (attrs ++ [a]) + 4 ≤ r.size := by
      by_contra hc
      have h₁ := hsucc 0
      rcases hsane : xattrAssertSane true data' with stop | _
      case error =>
        rw [take_zero, CallsParseable, addXattrs, hadd, hsane] at h₁
        cases stop
        case fault => exact h₁
        case longjmp => exact absurd h₁.1 (by decide)
      case ok =>
        rw [callsParseable_cons (hcall hsane)] at h₁
        exact h'.not_parseable (by omega) hb (by simpa [CallsParseable, addXattrs] using h₁)
    rcases h'.xattrAssertSane true hword with hok | ⟨hforce, _⟩
    case inr => exact absurd hforce (by decide)
    refine ⟨fun _ => ⟨by omega, by omega⟩, ?_⟩
    rw [if_pos hf]
    exact hi h' hword hn' fun n => (callsParseable_cons (hcall hok)).mp (hsucc n)

theorem XattrRange.AllLeave.take (h : r.AllLeave attrs calls) (n : Nat) :
    r.AllLeave attrs (calls.take n) := by
  induction calls generalizing attrs n
  case nil => simpa using h
  case cons a as hi =>
    cases n
    case zero => trivial
    case succ n => exact ⟨h.1, hi h.2 n⟩

-- After every call the range can be read, if there is room for a word in it at first, and every attribute
-- that fits leaves room for one and has a 16-bit offset. In a range where all offsets have 16 bits this
-- is also necessary.
theorem xattrs_parseable (r : XattrRange) (calls : List Xattr)
    (hn : ∀ a ∈ calls, 1 ≤ a.name.length ∧ a.name.length ≤ 255) :
    (4 ≤ r.size ∧ r.AllLeave [] calls → ∀ force n, XattrsParseable force r (calls.take n)) ∧
    (r.base + r.size < 2 ^ 16 → (∀ force n, XattrsParseable force r (calls.take n)) →
      4 ≤ r.size ∧ r.AllLeave [] calls) := by
  have hn' : ∀ a ∈ calls, 1 ≤ a.name.length := fun a ha => (hn a ha).1
  have hz : r.Holds [] (replicate r.size 0) := .zero r
  constructor
  · rintro ⟨h4, hl⟩ force n
    exact callsParseable_of_allLeave hz (by simpa [neededSpace] using h4)
      (by simp [XattrRange.SmallOffsets, placed]) (fun a ha => hn' a (mem_of_mem_take ha)) (hl.take n)
  · intro hb hp
    have h4 : 4 ≤ r.size := by
      by_contra hc
      exact hz.not_parseable (by rw [neededSpace, map_nil, sum_nil]; omega) hb (hp true 0)
    exact ⟨h4, allLeave_of_callsParseable hz (by simpa [neededSpace] using h4) hb hn' (hp true)⟩

def inodeRange : XattrRange where
  base := 0
  size := 96

def selinuxName : List UInt8 :=
  [115, 101, 108, 105, 110, 117, 120]

theorem xattrs_parseable_inodeRange :
    (4 ≤ inodeRange.size ∧ inodeRange.AllLeave [] [⟨6, selinuxName, [117, 0], by decide⟩]) ∧
    ∀ force n, XattrsParseable force inodeRange ([⟨6, selinuxName, [117, 0], by decide⟩].take n) :=
  have h : 4 ≤ inodeRange.size ∧ inodeRange.AllLeave [] [⟨6, selinuxName, [117, 0], by decide⟩] :=
    ⟨by decide, fun _ => ⟨by decide, by decide⟩, trivial⟩
  ⟨h, (xattrs_parseable inodeRange [⟨6, selinuxName, [117, 0], by decide⟩] (by decide)).1 h⟩

-- A value of 72 bytes takes up all of the range, and is read as another entry.

def exactValue : List UInt8 :=
  [1, 7] ++ List.replicate 70 0

theorem not_xattrs_parseable_exact :
    ¬XattrsParseable false inodeRange [⟨6, selinuxName, exactValue, by decide⟩] := by
  have hdata : addXattrs false 0 (replicate 96 0) [⟨6, selinuxName, exactValue, by decide⟩]
      = .ok ((entryOf ⟨6, selinuxName, exactValue, by decide⟩ 24).bytes ++ exactValue,
        [⟨6, selinuxName, exactValue, by decide⟩]) := by
    decide +kernel
  have hwalk : (walkXattrs 97 0 ((entryOf ⟨6, selinuxName, exactValue, by decide⟩ 24).bytes
      ++ exactValue)).map (fun r => r.fst.length) = some 2 := by
    decide +kernel
  intro h
  rw [XattrsParseable, inodeRange, hdata] at h
  obtain ⟨entries, stop, hp⟩ := h
  have hlen := congrArg length hp.yields
  have hw : walkXattrs 97 0 _ = some (entries, stop) := hp.walk
  rw [hw] at hwalk
  simp at hwalk hlen
  omega

end Calls

end Ext4
