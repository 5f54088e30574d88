import PlatformKnife.Zipfile.CentralDir

namespace Zipfile

open CString Slice List

variable {buf : List UInt8} {entry : Member buf} {entries : List (Member buf)} {entryName : Str}

-- What a lookup should give.
structure Exact (entries : List (Member buf)) (entryName : Str) (r : Option (Member buf)) : Prop where
  named : ∀ entry ∈ r, entry ∈ entries ∧ entry.name = entryName.bytes
  none  : r = none ↔ ∀ entry ∈ entries, entry.name ≠ entryName.bytes

-- A name that can be told from the one that is looked up.
def TellsApart (entryName : Str) (entry : Member buf) : Prop :=
  entry.name.length ≤ entryName.bytes.length + 1 ∧ ¬entry.name <+: entryName.bytes ++ [0]

theorem Member.name_length (entry : Member buf) : entry.name.length = entry.fileNameLength := by
  rw [name, slice_length entry.inside, Nat.add_sub_cancel_left]

theorem memcmpEq_of_le (h : entry.name.length ≤ l.length) :
    memcmpEq l (buf.drop (entry.fileName.getD 0)) entry.fileNameLength = .ok (entry.name <+: l) := by
  have hin := entry.inside
  have hname : entry.name = (buf.drop (entry.fileName.getD 0)).take entry.fileNameLength := by
    rw [Member.name, slice, drop_take, Nat.add_sub_cancel_left]
  rw [entry.name_length] at h
  rw [memcmpEq, if_pos ⟨h, by rw [length_drop]; omega⟩, ← hname]
  simp only [prefix_iff_eq_take, entry.name_length, eq_comm]

theorem lookupZipentry_of_lt (h : entryName.bytes.length + 1 < entry.name.length) :
    lookupZipentry entryName (entry :: entries) = .error .outOfBounds := by
  rw [entry.name_length] at h
  rw [lookupZipentry, memcmpEq, if_neg fun hc => by simp at hc; omega]
  rfl

theorem lookupZipentry_of_starts (h : entry.name <+: entryName.bytes ++ [0]) :
    lookupZipentry entryName (entry :: entries) = .ok (some entry) := by
  rw [lookupZipentry, memcmpEq_of_le h.length_le]
  simp [h]

theorem lookupZipentry_of_tellsApart (h : TellsApart entryName entry) :
    lookupZipentry entryName (entry :: entries) = lookupZipentry entryName entries := by
  rw [lookupZipentry, memcmpEq_of_le (by simpa using h.1)]
  simp [h.2]

theorem Exact.cons_iff (h : entry.name ≠ entryName.bytes) :
    Exact (entry :: entries) entryName r ↔ Exact entries entryName r := by
  have hnone : (∀ e ∈ entry :: entries, e.name ≠ entryName.bytes) ↔
      ∀ e ∈ entries, e.name ≠ entryName.bytes := by
    rw [forall_mem_cons]
    exact and_iff_right h
  constructor
  case mp =>
    rintro ⟨hnamed, hn⟩
    refine ⟨?_, hn.trans hnone⟩
    intro e he
    obtain ⟨hm, heq⟩ := hnamed e he
    refine ⟨(mem_cons.mp hm).resolve_left ?_, heq⟩
    rintro rfl
    exact h heq
  case mpr =>
    rintro ⟨hnamed, hn⟩
    exact ⟨fun e he => ⟨mem_cons_of_mem _ (hnamed e he).1, (hnamed e he).2⟩, hn.trans hnone.symm⟩

theorem exists_exact_iff (entryName : Str) (entries : List (Member buf)) :
    (∃ r, lookupZipentry entryName entries = .ok r ∧ Exact entries entryName r) ↔
      ∀ entry ∈ entries.takeWhile (·.name ≠ entryName.bytes), TellsApart entryName entry := by
  induction entries
  case nil => simpa using ⟨none, rfl, by simp, by simp⟩
  case cons entry entries hi =>
    by_cases heq : entry.name = entryName.bytes
    case pos =>
      rw [takeWhile_cons_of_neg (by simpa using heq)]
      have hr : Exact (entry :: entries) entryName (some entry) :=
        ⟨by simp [heq], by simp [heq]⟩
      exact iff_of_true ⟨_, lookupZipentry_of_starts (heq ▸ prefix_append _ _), hr⟩ (by simp)
    rw [takeWhile_cons_of_pos (by simpa using heq), forall_mem_cons]
    by_cases hlt : entryName.bytes.length + 1 < entry.name.length
    case pos =>
      rw [lookupZipentry_of_lt hlt]
      exact iff_of_false (by simp) fun hc => absurd hc.1.1 (by omega)
    by_cases hp : entry.name <+: entryName.bytes ++ [0]
    case pos =>
      rw [lookupZipentry_of_starts hp]
      refine iff_of_false ?_ fun hc => hc.1.2 hp
      rintro ⟨r, hr, hexact⟩
      exact heq (hexact.named entry (Except.ok.inj hr ▸ rfl)).2
    have ht : TellsApart entryName entry := ⟨by omega, hp⟩
    rw [lookupZipentry_of_tellsApart ht, and_iff_right ht, ← hi]
    simp only [Exact.cons_iff heq]

-- `unzip_file` fails for the names that are not in the archive, if nothing else does.
def UnzipsMembers (entryName : Str) (entries : List (Member buf)) : Prop :=
  ∀ content : Member buf → List UInt8, ∃ data, unzipFile (some ∘ content) entryName entries = .ok data ∧
    (data = none ↔ ∀ entry ∈ entries, entry.name ≠ entryName.bytes)

-- The names before the first equal one have to be told from it.
theorem lookup_exact_iff (entryName : Str) (entries : List (Member buf)) :
    ((∃ r, lookupZipentry entryName entries = .ok r ∧ Exact entries entryName r) ∧
        UnzipsMembers entryName entries) ↔
      ∀ entry ∈ entries.takeWhile (·.name ≠ entryName.bytes), TellsApart entryName entry := by
  rw [← exists_exact_iff]
  refine and_iff_left_of_imp ?_
  rintro ⟨r, hr, hexact⟩ content
  refine ⟨r.map content, ?_, ?_⟩
  · rw [unzipFile, hr]
    cases r <;> rfl
  · rw [Option.map_eq_none_iff, hexact.none]

-- An archive with the member `a` is asked for `ab`.

def letterA : Member [97] where
  fileNameLength := 1
  fileName := some 0
  compressionMethod := STORED
  uncompressedSize := 0
  compressedSize := 0
  data := 0
  inside := Nat.le_refl 1

theorem zero_notMem_letters : (0 : UInt8) ∉ [97, 98] := by
  decide

theorem not_lookup_exact_letterA :
    letterA.name ≠ [97, 98] ∧
      lookupZipentry ⟨[97, 98], zero_notMem_letters⟩ [letterA] = .ok (some letterA) :=
  ⟨by decide, lookupZipentry_of_starts (by decide)⟩

end Zipfile
