import PlatformKnife.Zipfile.CentralDir

namespace Zipfile

open Bytes CInt Slice Except

variable {buf : List UInt8} {p n w start : Nat}

-- The fields of the record of an entry at position `p`.

section

variable (buf : List UInt8) (p : Nat)

def nameLength : Nat :=
  leAt buf 2 (p + 0x1c)

def localHeader : Nat :=
  leAt buf 4 (p + 0x2a)

def dataStart : Nat :=
  u32 (localHeader buf p + LFH_SIZE + nameLength buf p + leAt buf 2 (localHeader buf p + 0x1c))

def nextEntry : Nat :=
  p + ENTRY_LEN + nameLength buf p + leAt buf 2 (p + 0x1e) + leAt buf 2 (p + 0x20)

def Signed : Prop :=
  leAt buf 4 p = ENTRY_SIGNATURE

end

instance : Decidable (Signed buf p) :=
  inferInstanceAs (Decidable (_ = _))

def entryAt (buf : List UInt8) (p : Nat) : Zipentry where
  fileNameLength := nameLength buf p
  fileName := if nameLength buf p ≠ 0 then some (p + ENTRY_LEN) else none
  compressionMethod := leAt buf 2 (p + 0x0a)
  uncompressedSize := leAt buf 4 (p + 0x18)
  compressedSize := leAt buf 4 (p + 0x14)
  data := dataStart buf p

-- The positions of the first `n` records of a directory that starts at `p`.
def records (buf : List UInt8) : Nat → Nat → List Nat
  | 0, _ => []
  | n + 1, p => p :: records buf n (nextEntry buf p)

-- The records up to the first without a signature and their local headers are in the buffer.
def Located (buf : List UInt8) : List Nat → Prop
  | [] => True
  | p :: l => p + 4 ≤ buf.length ∧ (Signed buf p →
      p + ENTRY_LEN ≤ buf.length ∧ localHeader buf p + LFH_SIZE ≤ buf.length ∧ Located buf l)

instance decidableLocated : (l : List Nat) → Decidable (Located buf l)
  | [] => .isTrue trivial
  | _ :: l =>
    have := decidableLocated l
    inferInstanceAs (Decidable (_ ∧ (_ → _ ∧ _ ∧ _)))

-- The name and the data of an entry are in the buffer, if it has any.
structure EntryInside (buf : List UInt8) (p : Nat) : Prop where
  name : nameLength buf p ≠ 0 → p + ENTRY_LEN + nameLength buf p ≤ buf.length
  data : leAt buf 2 (p + 0x0a) = STORED → leAt buf 4 (p + 0x18) ≠ 0 →
    dataStart buf p + leAt buf 4 (p + 0x18) ≤ buf.length

theorem readLe_of_le (h : p + w ≤ buf.length) : readLe buf w p = .ok (leAt buf w p) :=
  if_pos h

theorem readLe_of_lt (h : buf.length < p + w) : readLe buf w p = .error .outOfBounds :=
  if_neg (not_le.mpr h)

theorem readLe_bind_outOfBounds {f : Nat → Parser α} (h : ∀ v, f v = .error .outOfBounds) :
    (readLe buf w p >>= f) = .error .outOfBounds := by
  rw [readLe]
  split
  case isTrue  => exact h _
  case isFalse => rfl

theorem readCentralDirectoryEntry_eq (len : Int) (hl : (ENTRY_LEN : Int) ≤ len) :
    readCentralDirectoryEntry buf p len =
      if p + 4 ≤ buf.length then
        if Signed buf p then
          if p + ENTRY_LEN ≤ buf.length ∧ localHeader buf p + LFH_SIZE ≤ buf.length
          then .ok (entryAt buf p, nextEntry buf p)
          else .error .outOfBounds
        else .error .refused
      else .error .outOfBounds := by
  rw [readCentralDirectoryEntry, if_neg (by omega)]
  by_cases h₀ : p + 4 ≤ buf.length
  case neg => rw [if_neg h₀, readLeInt, readLe_of_lt (by omega)]; rfl
  rw [if_pos h₀, readLeInt, readLe_of_le h₀]
  simp only [ok_bind]
  rw [ite_not]
  refine ite_congr rfl (fun hs => ?_) fun _ => rfl
  by_cases h₁ : p + ENTRY_LEN ≤ buf.length
  case neg =>
    simp only [ENTRY_LEN] at h₁
    rw [if_neg (by simp only [ENTRY_LEN]; omega)]
    iterate 6 refine readLe_bind_outOfBounds fun _ => ?_
    rw [readLeInt, readLe_of_lt (by omega), error_bind]
  have h₂ := h₁
  simp only [ENTRY_LEN] at h₂
  simp only [readLeInt, readLeShort, readLe_of_le (show p + 0x0a + 2 ≤ buf.length by omega),
    readLe_of_le (show p + 0x14 + 4 ≤ buf.length by omega),
    readLe_of_le (show p + 0x18 + 4 ≤ buf.length by omega),
    readLe_of_le (show p + 0x1c + 2 ≤ buf.length by omega),
    readLe_of_le (show p + 0x1e + 2 ≤ buf.length by omega),
    readLe_of_le (show p + 0x20 + 2 ≤ buf.length by omega),
    readLe_of_le (show p + 0x2a + 4 ≤ buf.length by omega), ok_bind]
  by_cases h₃ : localHeader buf p + LFH_SIZE ≤ buf.length
  case neg =>
    have hf : buf.length < leAt buf 4 (p + 0x2a) + 0x1c + 2 := by
      simp only [localHeader, LFH_SIZE] at h₃
      omega
    rw [if_neg (not_and_of_not_right _ h₃), readLe_of_lt hf, error_bind]
  have hf : leAt buf 4 (p + 0x2a) + 0x1c + 2 ≤ buf.length := by
    simp only [localHeader, LFH_SIZE] at h₃
    omega
  rw [readLe_of_le hf, if_pos (show _ ∧ _ from ⟨h₁, h₃⟩)]
  rfl

theorem readEntries_eq (hl : (ENTRY_LEN : Int) ≤ len) (n p : Nat)
    (entries : List Zipentry) : readEntries buf len n p entries =
      if Located buf (records buf n p) then
        if ∀ q ∈ records buf n p, Signed buf q
        then .ok (((records buf n p).map (entryAt buf)).reverse ++ entries)
        else .error .refused
      else .error .outOfBounds := by
  induction n generalizing p entries
  case zero => rfl
  case succ n hi =>
    rw [readEntries, readCentralDirectoryEntry_eq len hl]
    by_cases h₀ : p + 4 ≤ buf.length
    case neg => simp [records, Located, h₀]
    by_cases hs : Signed buf p
    case neg => simp [records, Located, h₀, hs]
    by_cases h₁ : p + ENTRY_LEN ≤ buf.length ∧ localHeader buf p + LFH_SIZE ≤ buf.length
    case neg => simp [records, Located, h₀, hs, h₁, ← and_assoc]
    case pos => simp [records, Located, h₀, hs, h₁, hi]

-- The last signature of a directory's end, among the positions that are looked at.
structure EocdAt (buf : List UInt8) (p : Nat) : Prop where
  inside : p + 4 ≤ buf.length
  near   : buf.length ≤ p + MAX_EOCD_SEARCH
  signed : leAt buf 4 p = CD_SIGNATURE
  last   : ∀ q, p < q → q + 4 ≤ buf.length → leAt buf 4 q ≠ CD_SIGNATURE

theorem leAt_mod (h : p + 4 ≤ buf.length) : leAt buf 4 p % 256 = leAt buf 1 p := by
  have hl : (slice buf p (p + 1)).length = 1 := by
    rw [slice_length (by omega)]
    omega
  have hb := fromLe_lt (slice buf p (p + 1))
  rw [hl] at hb
  rw [leAt, ← slice_append_slice buf (show p ≤ p + 1 by omega) (show p + 1 ≤ p + 4 by omega) h,
    fromLe_append, hl, leAt]
  omega

theorem isEocd_eq (h : p + 4 ≤ buf.length) :
    isEocd buf p = .ok (decide (leAt buf 4 p = CD_SIGNATURE)) := by
  have hb : leAt buf 4 p = CD_SIGNATURE → leAt buf 1 p = 0x50 := by
    intro hs
    rw [← leAt_mod h, hs]
    rfl
  rw [isEocd, readLe_of_le (by omega), readLeInt, readLe_of_le h]
  by_cases h₁ : leAt buf 1 p = 0x50
  case pos => simp [h₁]
  case neg => simp [mt hb h₁]

theorem findEocd_succ (h : p + 1 + 4 ≤ buf.length) : findEocd buf start (p + 1) =
    if p + 1 < start then .error .refused
    else if leAt buf 4 (p + 1) = CD_SIGNATURE then .ok (p + 1)
    else findEocd buf start p := by
  rw [findEocd, isEocd_eq h]
  by_cases hs : leAt buf 4 (p + 1) = CD_SIGNATURE <;> simp [hs]

theorem findEocd_zero (h : 4 ≤ buf.length) : findEocd buf start 0 = if 0 < start then .error .refused
    else if leAt buf 4 0 = CD_SIGNATURE then .ok 0
    else .error .refused := by
  rw [findEocd, isEocd_eq (by omega)]
  by_cases hs : leAt buf 4 0 = CD_SIGNATURE <;> simp [hs]

theorem findEocd_cases (start : Nat) (h : p + 4 ≤ buf.length) :
    (∃ q, findEocd buf start p = .ok q ∧ start ≤ q ∧ q ≤ p ∧ leAt buf 4 q = CD_SIGNATURE ∧
      ∀ r, q < r → r ≤ p → leAt buf 4 r ≠ CD_SIGNATURE) ∨
    (findEocd buf start p = .error .refused ∧ ∀ q, start ≤ q → q ≤ p → leAt buf 4 q ≠ CD_SIGNATURE) := by
  induction p
  case zero =>
    rw [findEocd_zero (by omega)]
    by_cases hz : 0 < start
    case pos => exact .inr ⟨if_pos hz, fun q h₁ h₂ => by omega⟩
    rw [if_neg hz]
    by_cases hs : leAt buf 4 0 = CD_SIGNATURE
    case pos => exact .inl ⟨0, if_pos hs, by omega, le_refl 0, hs, fun r h₁ h₂ => by omega⟩
    refine .inr ⟨if_neg hs, fun q _ h₂ => ?_⟩
    rwa [Nat.le_zero.mp h₂]
  case succ p hi =>
    rw [findEocd_succ h]
    by_cases hz : p + 1 < start
    case pos => exact .inr ⟨if_pos hz, fun q h₁ h₂ => by omega⟩
    rw [if_neg hz]
    by_cases hs : leAt buf 4 (p + 1) = CD_SIGNATURE
    case pos => exact .inl ⟨p + 1, if_pos hs, by omega, le_refl _, hs, fun r h₁ h₂ => by omega⟩
    rw [if_neg hs]
    rcases hi (by omega) with ⟨q, hf, h₁, h₂, hq, hr⟩ | ⟨hf, hr⟩
    case inl =>
      refine .inl ⟨q, hf, h₁, by omega, hq, fun r hr₁ hr₂ => ?_⟩
      rcases lt_or_ge p r with hlt | hle
      case inl => rwa [show r = p + 1 by omega]
      case inr => exact hr r hr₁ hle
    refine .inr ⟨hf, fun r hr₁ hr₂ => ?_⟩
    rcases lt_or_ge p r with hlt | hle
    case inl => rwa [show r = p + 1 by omega]
    case inr => exact hr r hr₁ hle

-- The end of the directory of an archive on one disk.
structure EndRecord (buf : List UInt8) (p : Nat) : Prop extends EocdAt buf p where
  fits    : p + EOCD_LEN ≤ buf.length
  comment : 0 < leAt buf 2 (p + 0x14) → p + EOCD_LEN + leAt buf 2 (p + 0x14) ≤ buf.length
  disk    : leAt buf 2 (p + 0x04) = 0 ∧ leAt buf 2 (p + 0x06) = 0
  count   : leAt buf 2 (p + 0x08) = leAt buf 2 (p + 0x0a)

def directoryStart (buf : List UInt8) (p : Nat) : Nat :=
  leAt buf 4 (p + 0x10)

def directory (buf : List UInt8) (p : Nat) : List Nat :=
  records buf (leAt buf 2 (p + 0x0a)) (directoryStart buf p)

theorem EocdAt.unique (h₁ : EocdAt buf p) (h₂ : EocdAt buf q) : p = q := by
  rcases lt_trichotomy p q with h | h | h
  case inl => exact absurd h₂.signed (h₁.last q h h₂.inside)
  case inr.inl => exact h
  case inr.inr => exact absurd h₁.signed (h₂.last p h h₁.inside)

def valuesAt (buf : List UInt8) (p : Nat) : CentralDirValues where
  disknum := leAt buf 2 (p + 0x04)
  diskWithCentralDir := leAt buf 2 (p + 0x06)
  entryCount := leAt buf 2 (p + 0x08)
  totalEntryCount := leAt buf 2 (p + 0x0a)
  centralDirSize := leAt buf 4 (p + 0x0c)
  centralDirOffest := leAt buf 4 (p + 0x10)
  commentLen := leAt buf 2 (p + 0x14)

theorem readCentralDirValues_eq (h : p ≤ buf.length) :
    readCentralDirValues buf p (buf.length - p) =
      if p + EOCD_LEN ≤ buf.length ∧
        (0 < leAt buf 2 (p + 0x14) → p + EOCD_LEN + leAt buf 2 (p + 0x14) ≤ buf.length)
      then .ok (valuesAt buf p) else .error .refused := by
  rw [readCentralDirValues]
  by_cases hf : p + EOCD_LEN ≤ buf.length
  case neg => rw [if_pos (by omega), if_neg (not_and_of_not_left _ hf)]
  rw [if_neg (by omega)]
  have hl := hf
  simp only [EOCD_LEN] at hl
  simp only [readLeInt, readLeShort, readLe_of_le (show p + 0x04 + 2 ≤ buf.length by omega),
    readLe_of_le (show p + 0x06 + 2 ≤ buf.length by omega),
    readLe_of_le (show p + 0x08 + 2 ≤ buf.length by omega),
    readLe_of_le (show p + 0x0a + 2 ≤ buf.length by omega),
    readLe_of_le (show p + 0x0c + 4 ≤ buf.length by omega),
    readLe_of_le (show p + 0x10 + 4 ≤ buf.length by omega),
    readLe_of_le (show p + 0x14 + 2 ≤ buf.length by omega), ok_bind]
  by_cases hc : 0 < leAt buf 2 (p + 0x14) → p + EOCD_LEN + leAt buf 2 (p + 0x14) ≤ buf.length
  case pos => rw [if_neg (by omega), if_pos ⟨hf, hc⟩]; rfl
  case neg => rw [if_pos (by omega), if_neg (not_and_of_not_right _ hc)]

theorem initZipfile_cases (buf : List UInt8) :
    (initZipfile buf = .error .refused ∧ ∀ p, ¬EndRecord buf p) ∨
    ∃ p, EndRecord buf p ∧ initZipfile buf =
      readEntries buf (buf.length - directoryStart buf p) (leAt buf 2 (p + 0x0a))
        (directoryStart buf p) [] := by
  rw [initZipfile, readCentralDir]
  by_cases hl : buf.length < EOCD_LEN
  case pos => exact .inl ⟨if_pos hl, fun p hp => by have := hp.fits; omega⟩
  rw [if_neg hl]
  simp only [EOCD_LEN] at hl
  dsimp only
  generalize hst : (if buf.length > MAX_EOCD_SEARCH then buf.length - MAX_EOCD_SEARCH else 0) = start
  have hstart : ∀ q, start ≤ q ↔ buf.length ≤ q + MAX_EOCD_SEARCH := by
    intro q
    rw [← hst]
    split <;> omega
  rcases findEocd_cases start (show buf.length - 4 + 4 ≤ buf.length by omega) with
    ⟨q, hf, h₁, h₂, hq, hr⟩ | ⟨hf, hr⟩
  case inr =>
    refine .inl ⟨by rw [hf]; rfl, fun p hp => ?_⟩
    have := hp.inside
    exact hr p ((hstart p).mpr hp.near) (by omega) hp.signed
  case inl =>
    have he : EocdAt buf q :=
      ⟨by omega, (hstart q).mp h₁, hq, fun r h₃ h₄ => hr r h₃ (by omega)⟩
    have hu : ∀ p, EndRecord buf p → p = q := fun p hp => hp.toEocdAt.unique he
    rw [hf]
    simp only [ok_bind, readCentralDirValues_eq (show q ≤ buf.length by omega)]
    by_cases hv : q + EOCD_LEN ≤ buf.length ∧
        (0 < leAt buf 2 (q + 0x14) → q + EOCD_LEN + leAt buf 2 (q + 0x14) ≤ buf.length)
    case neg =>
      refine .inl ⟨by rw [if_neg hv, error_bind], fun p hp => ?_⟩
      rw [hu p hp] at hp
      exact hv ⟨hp.fits, hp.comment⟩
    rw [if_pos hv]
    by_cases hd : leAt buf 2 (q + 0x04) ≠ 0 ∨ leAt buf 2 (q + 0x06) ≠ 0 ∨
        leAt buf 2 (q + 0x08) ≠ leAt buf 2 (q + 0x0a)
    case neg =>
      refine .inr ⟨q, ⟨he, hv.left, hv.right, ?_, ?_⟩, if_neg hd⟩
      · omega
      · omega
    refine .inl ⟨if_pos hd, fun p hp => ?_⟩
    rw [hu p hp] at hp
    have := hp.disk
    have := hp.count
    omega

-- What is read is in the buffer, and so are names and copied data.
structure Safe (buf : List UInt8) : Prop where
  inside : initZipfile buf ≠ .error .outOfBounds
  name   : ∀ entries, initZipfile buf = .ok entries → ∀ e ∈ entries, ∀ f, e.fileName = some f →
    f + e.fileNameLength ≤ buf.length
  stored : ∀ entries, initZipfile buf = .ok entries → ∀ e ∈ entries, e.compressionMethod = STORED →
    ∀ uninflate, decompressZipentry uninflate buf e ≠ .error .outOfBounds

theorem entryInside_iff : EntryInside buf p ↔
    (∀ f, (entryAt buf p).fileName = some f → f + (entryAt buf p).fileNameLength ≤ buf.length) ∧
    ((entryAt buf p).compressionMethod = STORED →
      ∀ uninflate, decompressZipentry uninflate buf (entryAt buf p) ≠ .error .outOfBounds) := by
  have hn : (∀ f, (entryAt buf p).fileName = some f →
      f + (entryAt buf p).fileNameLength ≤ buf.length) ↔
        (nameLength buf p ≠ 0 → p + ENTRY_LEN + nameLength buf p ≤ buf.length) := by
    simp only [entryAt]
    by_cases hz : nameLength buf p = 0 <;> simp [hz]
  have hs : ((entryAt buf p).compressionMethod = STORED →
      ∀ uninflate, decompressZipentry uninflate buf (entryAt buf p) ≠ .error .outOfBounds) ↔
        (leAt buf 2 (p + 0x0a) = STORED → leAt buf 4 (p + 0x18) ≠ 0 →
          dataStart buf p + leAt buf 4 (p + 0x18) ≤ buf.length) := by
    refine imp_congr_right fun hm => ?_
    simp only [decompressZipentry, if_pos hm, forall_const, memcpy]
    by_cases hz : (entryAt buf p).uncompressedSize = 0 ∨
        (entryAt buf p).data + (entryAt buf p).uncompressedSize ≤ buf.length
    case pos => exact iff_of_true (by simp [if_pos hz]) fun h => hz.resolve_left h
    case neg => exact iff_of_false (by simp [if_neg hz]) fun h => hz (or_iff_not_imp_left.mpr h)
  rw [hn, hs]
  exact ⟨fun h => ⟨h.name, h.data⟩, fun h => ⟨h.left, h.right⟩⟩

theorem safe_iff (buf : List UInt8) : Safe buf ↔
    ∀ p, EndRecord buf p → directoryStart buf p + ENTRY_LEN ≤ buf.length →
      Located buf (directory buf p) ∧
      ((∀ q ∈ directory buf p, Signed buf q) → ∀ q ∈ directory buf p, EntryInside buf q) := by
  rcases initZipfile_cases buf with ⟨hr, hn⟩ | ⟨p, hp, hr⟩
  case inl => exact iff_of_true ⟨by simp [hr], by simp [hr], by simp [hr]⟩ fun p hp => absurd hp (hn p)
  have hu : ∀ q, EndRecord buf q → q = p := fun q hq => hq.toEocdAt.unique hp.toEocdAt
  by_cases hl : directoryStart buf p + ENTRY_LEN ≤ buf.length
  case neg =>
    refine iff_of_true ?_ fun q hq h => absurd (hu q hq ▸ h) hl
    rcases hc : leAt buf 2 (p + 0x0a) with _ | n
    · rw [hc, readEntries] at hr
      constructor <;> simp [hr]
    rw [hc, readEntries, readCentralDirectoryEntry, if_pos (by omega)] at hr
    constructor <;> simp [hr]
  rw [readEntries_eq (by omega), ← directory] at hr
  constructor
  case mp =>
    intro h q hq _
    rw [hu q hq]
    have hloc : Located buf (directory buf p) := by
      by_contra hn
      exact h.inside (by rw [hr, if_neg hn])
    refine ⟨hloc, fun hs q hq => ?_⟩
    rw [if_pos hloc, if_pos hs, List.append_nil] at hr
    have he := List.mem_reverse.mpr (List.mem_map_of_mem (f := entryAt buf) hq)
    exact entryInside_iff.mpr ⟨h.name _ hr _ he, h.stored _ hr _ he⟩
  case mpr =>
    intro h
    obtain ⟨hloc, hin⟩ := h p hp hl
    rw [if_pos hloc] at hr
    by_cases hs : ∀ q ∈ directory buf p, Signed buf q
    case neg =>
      rw [if_neg hs] at hr
      constructor <;> simp [hr]
    rw [if_pos hs, List.append_nil] at hr
    have he : ∀ entries, initZipfile buf = .ok entries → ∀ e ∈ entries,
        ∃ q, EntryInside buf q ∧ entryAt buf q = e := by
      intro entries ho e he
      rw [hr, ok.injEq] at ho
      rw [← ho] at he
      obtain ⟨q, hq, he⟩ := List.mem_map.mp (List.mem_reverse.mp he)
      exact ⟨q, hin hs q hq, he⟩
    constructor
    case inside => simp [hr]
    case name =>
      intro entries ho e hm
      obtain ⟨q, hq, he⟩ := he entries ho e hm
      exact he ▸ (entryInside_iff.mp hq).left
    case stored =>
      intro entries ho e hm
      obtain ⟨q, hq, he⟩ := he entries ho e hm
      exact he ▸ (entryInside_iff.mp hq).right

-- One record whose local header is far away, and the end of the directory.
def farHeader : List UInt8 :=
  le 4 ENTRY_SIGNATURE ++ List.replicate 38 0 ++ le 4 0x7fffffff ++
    le 4 CD_SIGNATURE ++ List.replicate 4 0 ++ le 2 1 ++ le 2 1 ++ List.replicate 10 0

theorem not_safe_farHeader : ¬Safe farHeader :=
  fun h => h.inside (by decide +kernel)

end Zipfile
