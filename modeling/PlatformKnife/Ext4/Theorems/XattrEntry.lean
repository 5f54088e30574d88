import PlatformKnife.Ext4.Xattr

namespace Ext4

open CInt List Slice Bytes Ext4 Except UInt8

theorem le_xattrLen (n : Nat) : 16 + n ≤ xattrLen n := by
  simp only [xattrLen]
  omega

theorem le_xattrSize (n : Nat) : n ≤ xattrSize n := by
  simp only [xattrSize]
  omega

theorem slice_fields {offs block size hash name : List UInt8} (ho : offs.length = 2)
    (hb : block.length = 4) (hs : size.length = 4) (hh : hash.length = 4)
    (hl : l = offs ++ (block ++ (size ++ (hash ++ (name ++ pad))))) :
    slice l 0 2 = offs ∧ slice l 2 6 = block ∧ slice l 6 10 = size ∧
    slice l 10 14 = hash ∧ slice l 14 (14 + name.length) = name := by
  have h₁ := slice_append [] offs (block ++ (size ++ (hash ++ (name ++ pad))))
  have h₂ := slice_append offs block (size ++ (hash ++ (name ++ pad)))
  have h₃ := slice_append (offs ++ block) size (hash ++ (name ++ pad))
  have h₄ := slice_append (offs ++ block ++ size) hash (name ++ pad)
  have h₅ := slice_append (offs ++ block ++ size ++ hash) name pad
  simp only [length_append, append_assoc, nil_append, length_nil, ho, hb, hs, hh, ← hl] at h₁ h₂ h₃ h₄ h₅
  exact ⟨h₁, h₂, h₃, h₄, h₅⟩

section Entries

variable {e : XattrEntry} {es : List XattrEntry} {data : List UInt8}

-- The fields of the entry have the values that are stored.
structure XattrEntry.Encodable (e : XattrEntry) : Prop where
  name_pos : 1 ≤ e.eName.length
  name_le  : e.eName.length ≤ 255
  offs_lt  : e.eValueOffs < 2 ^ 16
  block_lt : e.eValueBlock < 2 ^ 32
  size_lt  : e.eValueSize < 2 ^ 32
  hash_lt  : e.eHash < 2 ^ 32

namespace XattrEntry

theorem bytes_length (e : XattrEntry) : e.bytes.length = xattrLen e.eName.length := by
  have := le_xattrLen e.eName.length
  simp only [bytes, length_append, length_cons, length_nil, le_length, length_replicate]
  omega

theorem bytes_append (e : XattrEntry) (rest : List UInt8) : e.bytes ++ rest =
    ofNat e.eName.length :: e.eNameIndex :: (le 2 e.eValueOffs
      ++ (le 4 e.eValueBlock ++ (le 4 e.eValueSize ++ (le 4 e.eHash ++ (e.eName
      ++ (replicate (xattrLen e.eName.length - 16 - e.eName.length) 0 ++ rest)))))) := by
  simp [bytes]

theorem Encodable.nameLen (h : e.Encodable) : (ofNat e.eName.length).toNat = e.eName.length := by
  have := h.name_le
  simp only [toNat_ofNat']
  omega

theorem Encodable.read_bytes (h : e.Encodable) (rest : List UInt8) : read (e.bytes ++ rest) = some e := by
  rw [bytes_append, read]
  simp only [h.nameLen]
  obtain ⟨h₁, h₂, h₃, h₄, h₅⟩ := slice_fields (le_length 2 e.eValueOffs)
    (le_length 4 e.eValueBlock) (le_length 4 e.eValueSize) (le_length 4 e.eHash)
    (show _ = _ ++ (_ ++ (_ ++ (_ ++ (e.eName
      ++ (replicate (xattrLen e.eName.length - 16 - e.eName.length) 0 ++ rest))))) from rfl)
  rw [if_pos (by simp; omega), h₁, h₂, h₃, h₄, h₅, fromLe_le_of_lt h.offs_lt,
    fromLe_le_of_lt h.block_lt, fromLe_le_of_lt h.size_lt, fromLe_le_of_lt h.hash_lt]

theorem Encodable.take_bytes (h : e.Encodable) (rest : List UInt8) :
    4 ≤ (e.bytes ++ rest).length ∧ fromLe ((e.bytes ++ rest).take 4) ≠ 0 := by
  have hl := le_xattrLen e.eName.length
  have hp := h.name_pos
  constructor
  · rw [length_append, bytes_length]
    omega
  · rw [bytes_append, take_succ_cons, fromLe, h.nameLen]
    omega

end XattrEntry

section

variable (es : List XattrEntry)

def entriesLen : Nat :=
  (es.map fun e => xattrLen e.eName.length).sum

def sizesLen : Nat :=
  (es.map fun e => xattrSize e.eValueSize).sum

def entriesBytes : List UInt8 :=
  es.flatMap XattrEntry.bytes

end

@[simp]
theorem entriesLen_cons (e : XattrEntry) (es : List XattrEntry) :
    entriesLen (e :: es) = xattrLen e.eName.length + entriesLen es :=
  rfl

@[simp]
theorem sizesLen_cons (e : XattrEntry) (es : List XattrEntry) :
    sizesLen (e :: es) = xattrSize e.eValueSize + sizesLen es :=
  rfl

theorem entriesBytes_length (es : List XattrEntry) : (entriesBytes es).length = entriesLen es := by
  induction es
  case nil => rfl
  case cons e es hi =>
    rw [entriesBytes] at hi ⊢
    simp [e.bytes_length, hi]

theorem length_le_entriesLen (es : List XattrEntry) : es.length ≤ entriesLen es := by
  induction es
  case nil => exact le_refl _
  case cons e es hi =>
    have := le_xattrLen e.eName.length
    rw [entriesLen_cons, length_cons]
    omega

-- The entries are stored from a position on, followed by `rest`.
def EntriesAt (data : List UInt8) (pos : Nat) (es : List XattrEntry) (rest : List UInt8) : Prop :=
  ∃ front, data = front ++ (entriesBytes es ++ rest) ∧ pos = front.length

namespace EntriesAt

variable {rest : List UInt8}

section

variable (h : EntriesAt data pos (e :: es) rest)

include h

theorem tail : EntriesAt data (pos + xattrLen e.eName.length) es rest := by
  obtain ⟨front, hd, hp⟩ := h
  refine ⟨front ++ e.bytes, ?_, ?_⟩
  · simp [hd, entriesBytes]
  · simp [hp, e.bytes_length]

-- A field of the first entry, with what the entry holds in front of it and behind it.
theorem field (f x b : List UInt8)
    (hb : e.bytes = f ++ (x ++ b)) : bytesAt data (pos + f.length) x.length = .ok x := by
  obtain ⟨front, rfl, rfl⟩ := h
  have hs : front ++ (entriesBytes (e :: es) ++ rest)
      = (front ++ f) ++ (x ++ (b ++ (entriesBytes es ++ rest))) := by
    simp [entriesBytes, hb]
  rw [hs]
  exact bytesAt_append (by simp) rfl

theorem nameLen : bytesAt data pos 1 = .ok [ofNat e.eName.length] :=
  h.field [] [_] _ rfl

theorem nameIndex : bytesAt data (pos + 1) 1 = .ok [e.eNameIndex] :=
  h.field [_] [_] _ rfl

theorem valueSize : bytesAt data (pos + 8) 4 = .ok (le 4 e.eValueSize) :=
  h.field (_ :: _ :: (le 2 e.eValueOffs ++ le 4 e.eValueBlock)) (le 4 _) _
    (by simp only [XattrEntry.bytes, cons_append, append_assoc]; rfl)

theorem name : bytesAt data (pos + 16) e.eName.length = .ok e.eName :=
  h.field (_ :: _ :: (le 2 e.eValueOffs ++ (le 4 e.eValueBlock
    ++ (le 4 e.eValueSize ++ le 4 e.eHash)))) e.eName _
    (by simp only [XattrEntry.bytes, cons_append, append_assoc]; rfl)

theorem isLastEntry (he : e.Encodable) : isLastEntry data pos = .ok false := by
  obtain ⟨front, rfl, rfl⟩ := h
  obtain ⟨hl, hn⟩ := he.take_bytes (entriesBytes es ++ rest)
  rw [Ext4.isLastEntry, entriesBytes, flatMap_cons, append_assoc, ← entriesBytes,
    ← take_append_drop 4 (e.bytes ++ (entriesBytes es ++ rest)),
    bytesAt_append rfl (by rw [length_take]; omega)]
  simp [hn]

theorem xattrNext (he : e.Encodable) : xattrNext data pos = .ok (pos + xattrLen e.eName.length) := by
  rw [Ext4.xattrNext, h.nameLen]
  simp [Bytes.fromLe, he.nameLen]

end

theorem getLastLoop (h : EntriesAt data pos es rest) (he : ∀ e ∈ es, e.Encodable) (fuel : Nat) :
    getLastLoop data (es.length + fuel) pos = getLastLoop data fuel (pos + entriesLen es) := by
  induction es generalizing pos
  case nil => simp [entriesLen]
  case cons e es hi =>
    have hi := hi h.tail fun x hx => he x (by simp [hx])
    rw [length_cons, add_right_comm, Ext4.getLastLoop, h.isLastEntry (he e (by simp)),
      h.xattrNext (he e (by simp)), entriesLen_cons, ← add_assoc]
    exact hi

theorem freeSpaceLoop (h : EntriesAt data pos es rest) (he : ∀ e ∈ es, e.Encodable)
    (hs : ∀ e ∈ es, e.eValueSize + 3 < 2 ^ 32) (fuel : Nat)
    (hp : pos + entriesLen es + sizesLen es ≤ (stop : Nat)) :
    freeSpaceLoop data (es.length + fuel) pos (stop : Nat)
      = freeSpaceLoop data fuel (pos + entriesLen es) ((stop - sizesLen es : Nat) : Int) := by
  induction es generalizing pos stop
  case nil => simp [entriesLen, sizesLen]
  case cons e es hi =>
    have hl := le_xattrLen e.eName.length
    rw [entriesLen_cons, sizesLen_cons] at hp
    have hi := hi h.tail (fun x hx => he x (by simp [hx])) (fun x hx => hs x (by simp [hx]))
      (show _ ≤ stop - xattrSize e.eValueSize by omega)
    have hlt : (pos : Int) < (stop : Nat) := by omega
    have hv : Bytes.fromLe (Bytes.le 4 e.eValueSize) = e.eValueSize :=
      Bytes.fromLe_le_of_lt (he e (by simp)).size_lt
    have hz : (stop : Int) - u32 (e.eValueSize + 3) / 4 * 4
        = ((stop - xattrSize e.eValueSize : Nat) : Int) := by
      rw [u32_of_lt (hs e (by simp))]
      simp only [xattrSize] at hp ⊢
      omega
    rw [length_cons, add_right_comm, Ext4.freeSpaceLoop, h.isLastEntry (he e (by simp)),
      h.xattrNext (he e (by simp)), h.valueSize]
    simp only [ok_bind, hlt, Bool.not_false, decide_true, Bool.and_self, if_true, hv, hz, hi]
    rw [entriesLen_cons, sizesLen_cons, add_assoc, Nat.sub_sub]

theorem isLastEntry_zero (h : EntriesAt data pos [] (replicate 4 0 ++ rest)) :
    Ext4.isLastEntry data pos = .ok true := by
  obtain ⟨front, rfl, rfl⟩ := h
  rw [Ext4.isLastEntry, entriesBytes, flatMap_nil, nil_append, bytesAt_append rfl (by simp)]
  rfl

theorem compareEntries (h : EntriesAt data pos (e :: e' :: es) rest) (he : e.Encodable)
    (he' : e'.Encodable) :
    ∃ cmp, compareEntries data (pos + xattrLen e.eName.length) pos = .ok cmp := by
  have h' := h.tail
  have hn := h'.name
  have hn' := h.name
  have hlen : Bytes.fromLe [ofNat e.eName.length] = e.eName.length := by
    simp [Bytes.fromLe, he.nameLen]
  have hlen' : Bytes.fromLe [ofNat e'.eName.length] = e'.eName.length := by
    simp [Bytes.fromLe, he'.nameLen]
  simp only [Ext4.compareEntries, h.nameLen, h.nameIndex, h'.nameLen, h'.nameIndex, ok_bind, pure_eq_ok,
    hlen, hlen']
  split
  case isTrue => exact ⟨_, rfl⟩
  split
  case isTrue => exact ⟨_, rfl⟩
  case isFalse hl =>
    rw [← not_not.mp hl] at hn'
    rw [hn, hn']
    exact ⟨_, rfl⟩

theorem assertSaneLoop (h : EntriesAt data pos es (replicate 4 0 ++ rest))
    (he : ∀ e ∈ es, e.Encodable) (hf : es.length < fuel) :
    assertSaneLoop force data fuel pos = .ok () ∨
    force = false ∧ ∃ msg ∈ [notSorted, duplicateDetected],
      assertSaneLoop force data fuel pos = .error (.longjmp msg) := by
  induction es generalizing pos fuel
  case nil =>
    obtain ⟨fuel, rfl⟩ : ∃ k, fuel = k + 1 := ⟨fuel - 1, by simp at hf; omega⟩
    left
    simp only [Ext4.assertSaneLoop, h.isLastEntry_zero, ok_bind, if_true]
    rfl
  case cons e es hi =>
    obtain ⟨fuel, rfl⟩ : ∃ k, fuel = k + 1 := ⟨fuel - 1, by simp at hf; omega⟩
    have he₁ := he e (by simp)
    obtain _ | ⟨e', es⟩ := es
    · left
      simp only [Ext4.assertSaneLoop, h.isLastEntry he₁, h.xattrNext he₁, h.tail.isLastEntry_zero,
        ok_bind, if_true]
      rfl
    have he₂ := he e' (by simp)
    obtain ⟨cmp, hc⟩ := h.compareEntries he₁ he₂
    have hi := hi h.tail (fun x hx => he x (by simp [hx])) (show _ < fuel by simpa using hf)
    simp only [Ext4.assertSaneLoop, h.isLastEntry he₁, h.xattrNext he₁, h.tail.isLastEntry he₂, hc,
      ok_bind, Bool.false_eq_true, if_false, error]
    split
    case isTrue =>
      cases force
      case true  => exact .inl rfl
      case false => exact .inr ⟨rfl, notSorted, by simp, rfl⟩
    split
    case isFalse => exact hi
    cases force
    case true  => exact .inl rfl
    case false => exact .inr ⟨rfl, duplicateDetected, by simp, rfl⟩

end EntriesAt

def entryPositions : Nat → List XattrEntry → List (Nat × XattrEntry)
  | _, [] => []
  | pos, e :: es => (pos, e) :: entryPositions (pos + xattrLen e.eName.length) es

theorem walkXattrs_entries (he : ∀ e ∈ es, e.Encodable) (fuel pos : Nat) (rest : List UInt8) :
    walkXattrs (es.length + fuel) pos (entriesBytes es ++ rest)
      = (walkXattrs fuel (pos + entriesLen es) rest).map
        fun r => (entryPositions pos es ++ r.fst, r.snd) := by
  induction es generalizing pos
  case nil => simp [entriesBytes, entriesLen, entryPositions]
  case cons e es hi =>
    have he' := he e (by simp)
    have hi := hi (fun x hx => he x (by simp [hx])) (pos + xattrLen e.eName.length)
    have hb : entriesBytes (e :: es) ++ rest = e.bytes ++ (entriesBytes es ++ rest) := by
      simp [entriesBytes]
    obtain ⟨hl, hn⟩ := he'.take_bytes (entriesBytes es ++ rest)
    have hd : (e.bytes ++ (entriesBytes es ++ rest)).drop (xattrLen e.eName.length)
        = entriesBytes es ++ rest := by
      rw [← e.bytes_length, drop_left]
    rw [length_cons, add_right_comm, walkXattrs, hb, if_neg (by omega), if_neg hn, he'.read_bytes]
    simp only [Option.bind_eq_bind, Option.bind_some, hd, hi]
    rw [entriesLen_cons, ← add_assoc]
    cases walkXattrs fuel (pos + xattrLen e.eName.length + entriesLen es) rest <;> rfl

end Entries

end Ext4
