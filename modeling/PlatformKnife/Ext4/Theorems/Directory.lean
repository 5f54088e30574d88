import PlatformKnife.Ext4.Theorems.DirData

namespace Ext4

open CInt Packing List Nat Except

section Decoding

variable {es : List DirEntry}

theorem length_le_recLens (h : ∀ e ∈ es, e.Encodable) : es.length ≤ recLens es := by
  induction es
  case nil => exact le_refl _
  case cons e es hi =>
    have he := (h e (by simp)).name_le
    have hi := hi fun x hx => h x (by simp [hx])
    simp only [recLens, map_cons, sum_cons, length_cons] at hi ⊢
    omega

theorem decodes_flatMap (hb : 0 < b) (h : ∀ e ∈ es, e.Encodable) (h4 : ∀ e ∈ es, 4 ∣ e.recLen)
    (ht : Packing.Tiles b 0 ((positions 0 es).map fun r => (r.fst, r.snd.recLen)) len)
    (hlen : recLens es = len) (hd : b ∣ len) :
    Decodes b (es.map DirEntry.key) (es.flatMap DirEntry.bytes) := by
  subst hlen
  have hl := flatMap_bytes_length h
  have hw : walkDir (es.flatMap DirEntry.bytes) = some (positions 0 es) :=
    walkFrom_bytes h (hl ▸ length_le_recLens h) 0
  refine ⟨positions 0 es, hw, ?_, ?_, hl ▸ hd, ?_⟩
  · conv_rhs => rw [← positions_map_snd 0 es]
    simp [DirEntry.key]
  · intro r hr
    have hm : r.snd ∈ es := by
      rw [← positions_map_snd 0 es]
      exact mem_map_of_mem hr
    have hn := (h _ hm).name_le
    have hf := ht.fits_of_mem (mem_map_of_mem hr)
    exact ⟨by omega, h4 _ hm, hn, (within_iff hb (by omega)).mpr hf⟩
  · intro k hk
    have hs := ht.sum_block hb k
    have hle : k * b + b ≤ recLens es := by
      rw [← succ_mul, ← hl]
      exact (le_div_iff_mul_le hb).mp hk
    rw [filter_map, map_map] at hs
    refine Eq.trans hs ?_
    omega

end Decoding

section Size

variable {info : FsInfo} {dentries : List Dentry}

theorem dentrySizeStep_eq (hd : d.filename.length < 256) (hb : info.blockSize < 2 ^ 16)
    (hb₀ : 0 < info.blockSize) (h : place info.blockSize len d.len + d.len < 2 ^ 32) :
    dentrySizeStep info len d = place info.blockSize len d.len + d.len := by
  have hl := dentryLen_le_of_lt hd
  have hm := mod_lt len hb₀
  simp only [dentrySizeStep, Dentry.len] at h ⊢
  rw [u32_of_lt (show dentryLen d.filename.length < 2 ^ 32 by omega), u32_of_lt (by omega)]
  by_cases hc : info.blockSize < len % info.blockSize + dentryLen d.filename.length
  case pos =>
    rw [place, if_pos hc] at h ⊢
    rw [if_pos hc, u32_of_lt h]
  rw [place_of_fits (not_lt.mp hc)] at h ⊢
  rw [if_neg hc, u32_of_lt h]

-- All entries have room in a buffer whose size has 32 bits.
def Roomy (b : Nat) (dentries : List Dentry) : Prop :=
  directorySpace b dentries + b ≤ 2 ^ 32
  deriving Decidable

theorem le_directorySpace (b : Nat) (dentries : List Dentry) : 24 ≤ directorySpace b dentries :=
  le_trans (Nat.le_add_right _ _) (le_packed _ _ _)

variable (hb : info.blockSize < 2 ^ 16) (hb₀ : 0 < info.blockSize)
variable (hn : ∀ d ∈ dentries, d.filename.length < 256)

include hb hb₀ hn

theorem dentrySize_eq (h : directorySpace info.blockSize dentries < 2 ^ 32) :
    dentrySize info dentries = directorySpace info.blockSize dentries := by
  rw [dentrySize, directorySpace] at *
  generalize 24 = pos at *
  induction dentries generalizing pos
  case nil => rfl
  case cons d ds hi =>
    rw [map_cons, packed] at h ⊢
    have hle := le_packed info.blockSize (place info.blockSize pos d.len + d.len) (ds.map Dentry.len)
    rw [foldl_cons, dentrySizeStep_eq (hn d (by simp)) hb hb₀ (by omega)]
    exact hi (fun x hx => hn x (by simp [hx])) _ h

theorem directoryLen_eq (h : Roomy info.blockSize dentries) :
    directoryLen info dentries = (directorySpace info.blockSize dentries + info.blockSize - 1)
      / info.blockSize * info.blockSize := by
  rw [Roomy] at h
  have hle := div_mul_le_self (directorySpace info.blockSize dentries + info.blockSize - 1) info.blockSize
  have hu : u32 (directorySpace info.blockSize dentries + info.blockSize - 1)
      = directorySpace info.blockSize dentries + info.blockSize - 1 := u32_of_lt (by omega)
  rw [directoryLen, dentrySize_eq hb hb₀ hn (by omega), hu, u32_of_lt (by omega)]

theorem roomy_of_le (h : directorySpace info.blockSize dentries ≤ directoryLen info dentries) :
    Roomy info.blockSize dentries := by
  by_contra hc
  rw [Roomy, not_le] at hc
  have hlt : directoryLen info dentries < 2 ^ 32 := u32_lt _
  have h24 := le_directorySpace info.blockSize dentries
  have hz : directoryLen info dentries = 0 := by
    have hu : u32 (directorySpace info.blockSize dentries + info.blockSize - 1) < info.blockSize := by
      simp only [u32]
      omega
    rw [directoryLen, dentrySize_eq hb hb₀ hn (by omega), div_eq_of_lt hu, zero_mul]
    rfl
  omega

end Size

section Reading

variable {data : List UInt8} {dentries : List Dentry}

theorem walkFrom_tiles (h : walkFrom fuel pos rest = some recs)
    (hf : ∀ r ∈ recs, r.fst % b + r.snd.recLen ≤ b) :
    Packing.Tiles b pos (recs.map fun r => (r.fst, r.snd.recLen)) (pos + rest.length) := by
  induction fuel generalizing pos rest recs
  case zero =>
    rw [walkFrom] at h
    split at h
    case isTrue hr =>
      simp only [Option.some.injEq] at h
      simp [← h, hr, Packing.Tiles]
    case isFalse => cases h
  case succ fuel hi =>
    rw [walkFrom] at h
    split at h
    case isTrue hr =>
      simp only [Option.some.injEq] at h
      simp [← h, hr, Packing.Tiles]
    case isFalse hr =>
      obtain ⟨e, _, h⟩ := Option.bind_eq_some_iff.mp h
      split at h
      case isTrue => cases h
      case isFalse hne =>
        obtain ⟨recs', hw, h⟩ := Option.bind_eq_some_iff.mp h
        have hr : recs = (pos, e) :: recs' := (Option.some.inj h).symm
        subst hr
        have ht := hi hw fun r hr => hf r (by simp [hr])
        refine ⟨rfl, hf (pos, e) (by simp), ?_⟩
        rw [length_drop] at ht
        rwa [show pos + rest.length = pos + e.recLen + (rest.length - e.recLen) by omega]

theorem Decodes.dvd (h : Decodes b (x :: xs) data) (hb : 0 < b) : 4 ∣ b := by
  obtain ⟨recs, hw, hk, hp, hd, hs⟩ := h
  have hne : 0 < data.length := by
    rw [length_pos_iff]
    rintro rfl
    cases hw
    cases hk
  rw [← hs 0 (Nat.div_pos (le_of_dvd hne hd) hb)]
  apply dvd_sum
  intro n hn
  obtain ⟨r, hr, rfl⟩ := mem_map.mp hn
  exact (hp r (mem_filter.mp hr).1).dvd_recLen

theorem Decodes.space_le (h : Decodes b (directoryEntries inodeNum parent dentries) data)
    (hb : 24 ≤ b) : directorySpace b dentries ≤ data.length := by
  obtain ⟨recs, hw, hk, hp, _, _⟩ := h
  have hb₀ : 0 < b := by omega
  have ht := walkFrom_tiles (b := b) hw fun r hr =>
    (within_iff hb₀ (hp r hr).recLen_pos).mp (hp r hr).same_block
  have hns : 12 :: 12 :: dentries.map Dentry.len = recs.map fun r => dentryLen r.snd.name.length := by
    have hm := congrArg (map fun x => dentryLen x.snd.snd.length) hk
    rw [map_map] at hm
    exact Eq.trans (by simp [directoryEntries, dot, dentryLen, ext4Align4, Dentry.len]) hm.symm
  rw [directorySpace_eq hb, hns]
  rw [zero_add] at ht
  refine ht.packed_le hb₀ ?_ (le_refl 0)
  rw [forall₂_map_left_iff, forall₂_map_right_iff, forall₂_same]
  exact fun r hr => dentryLen_le_of_dvd (hp r hr).name_le (hp r hr).dvd_recLen

end Reading

section Length

variable {info : FsInfo} {dir dir' : DirData}

theorem makeRoom_length (h : makeRoom info dir recLen = .ok dir') :
    dir'.data.length = dir.data.length := by
  simp only [makeRoom] at h
  split at h
  case isFalse => cases h; rfl
  case isTrue  =>
    rw [padPrev] at h
    split at h
    · cases h
    · obtain ⟨data, hd, h⟩ := bind_eq_ok_iff.mp h
      cases h
      exact storeBytes_length hd

theorem addDentry_length (h : addDentry info dir inode name fileType = .ok dir') :
    dir'.data.length = dir.data.length := by
  obtain ⟨dir₁, hr, h⟩ := bind_eq_ok_iff.mp h
  obtain ⟨data, hd, h⟩ := bind_eq_ok_iff.mp h
  cases h
  exact (storeBytes_length hd).trans (makeRoom_length hr)

theorem addDentries_length (h : addDentries info len entries i ds dir = .ok (dir', inodes)) :
    dir'.data.length = dir.data.length := by
  induction ds generalizing i dir inodes
  case nil => cases h; rfl
  case cons d ds hi =>
    obtain ⟨dir₁, ha, h⟩ := bind_eq_ok_iff.mp h
    simp only at h
    split at h
    case isTrue  => cases h
    obtain ⟨⟨dir₂, inodes'⟩, hr, h⟩ := bind_eq_ok_iff.mp h
    cases h
    exact (hi hr).trans (addDentry_length ha)

theorem fillDirectory_length (h : fillDirectory info inodeNum parent len dentries = .ok (data, r)) :
    data.length = len := by
  obtain ⟨dir₁, h₁, h⟩ := bind_eq_ok_iff.mp h
  obtain ⟨dir₂, h₂, h⟩ := bind_eq_ok_iff.mp h
  obtain ⟨⟨dir₃, inodes⟩, h₃, h⟩ := bind_eq_ok_iff.mp h
  simp only at h
  split at h
  · cases h
  · obtain ⟨data', hd, h⟩ := bind_eq_ok_iff.mp h
    cases h
    rw [storeBytes_length hd, addDentries_length h₃, addDentry_length h₂, addDentry_length h₁,
      DirData.zero, length_replicate]

end Length

section Making

variable {info : FsInfo} {a : DirAllocation} {dentries : List Dentry}

theorem makeDirectory_of_succeeds (h : a.Succeeds dirInodeNum) (hb : info.blockSize ≠ 0)
    (hl : directoryLen info dentries ≠ 0) :
    makeDirectory force info flags a dirInodeNum dentries dirs = (do
      let (data, inodes, offset) ← fillDirectory info (newInode a dirInodeNum) (parentInode dirInodeNum)
        (directoryLen info dentries) dentries
      return some {
        inodeNum := newInode a dirInodeNum
        iMode := sIfDir
        iLinksCount := u16 (dirs + 2)
        iFlags := a.iFlags ||| flags
        data, inodes, offset }) := by
  obtain ⟨h₁, h₂, h₃⟩ := h
  simp [makeDirectory, hb, hl, h₁, h₂, h₃]

theorem makeDirectory_length
    (h : makeDirectory force info flags a dirInodeNum dentries dirs = .ok (some d))
    (ha : a.Succeeds dirInodeNum) (hb : info.blockSize ≠ 0) :
    d.data.length = directoryLen info dentries := by
  by_cases hl : directoryLen info dentries = 0
  case pos =>
    obtain ⟨h₁, h₂, h₃⟩ := ha
    cases force <;> simp [makeDirectory, error, hb, hl, h₁, h₂, h₃] at h
  rw [makeDirectory_of_succeeds ha hb hl] at h
  obtain ⟨⟨data, inodes, offset⟩, hf, h⟩ := bind_eq_ok_iff.mp h
  cases h
  exact fillDirectory_length hf

theorem fillDirectory_decodes (hb : 1024 ≤ info.blockSize) (hb' : info.blockSize ≤ 4096)
    (h4 : 4 ∣ info.blockSize) (hi : inodeNum < 2 ^ 32) (hp : parent < 2 ^ 32)
    (hn : ∀ d ∈ dentries, d.filename.length < 256) (hr : Roomy info.blockSize dentries) :
    ∃ data inodes, fillDirectory info inodeNum parent (directoryLen info dentries) dentries
        = .ok (data, inodes, dentrySize info dentries) ∧
      Decodes info.blockSize (directoryEntries inodeNum parent dentries) data := by
  have hl := directoryLen_eq (by omega) (by omega) hn hr
  have hlt : directoryLen info dentries < 2 ^ 32 := u32_lt _
  have hsp : dentrySize info dentries = directorySpace info.blockSize dentries := by
    rw [Roomy] at hr
    exact dentrySize_eq (by omega) (by omega) hn (by omega)
  have hm := mod_lt (directorySpace info.blockSize dentries + info.blockSize - 1)
    (show 0 < info.blockSize by omega)
  have hd := div_add_mod' (directorySpace info.blockSize dentries + info.blockSize - 1) info.blockSize
  obtain ⟨dir, inodes, es, e, hf, h, ho, hk⟩ :=
    fillDirectory_of_fits (by omega) (by omega) h4 hi hp hn hlt (by omega)
  have hdvd : info.blockSize ∣ directoryLen info dentries := hl ▸ Nat.dvd_mul_left _ _
  refine ⟨_, inodes, by rw [hf, hsp], ?_⟩
  rw [← ho, ← hk, show (es ++ [e]).map DirEntry.key
    = (es ++ [e.extend (directoryLen info dentries - dir.offset)]).map DirEntry.key by
      simp [DirEntry.key, DirEntry.extend]]
  obtain ⟨he, h4', hs, ht⟩ := h.extend_last hdvd h4 (by omega) (by omega)
  exact decodes_flatMap (by omega) he h4' ht hs hdvd

theorem directoryMade_of_not_succeeds (h : ¬a.Succeeds dirInodeNum) (hb : info.blockSize ≠ 0) :
    DirectoryMade info a dirInodeNum dentries
      (makeDirectory force info flags a dirInodeNum dentries dirs) := by
  by_cases h₁ : newInode a dirInodeNum = ext4AllocateFailed
  · cases force <;> simp [makeDirectory, DirectoryMade, error, h₁, hb, h]
  by_cases h₂ : a.hasInode
  case neg => cases force <;> simp [makeDirectory, DirectoryMade, error, h₁, h₂, hb, h]
  by_cases h₃ : a.hasData
  case neg => cases force <;> simp [makeDirectory, DirectoryMade, error, h₁, h₂, h₃, hb, h]
  exact absurd ⟨h₁, h₂, h₃⟩ h

theorem directoryMade_of_roomy (hb : 1024 ≤ info.blockSize) (hb' : info.blockSize ≤ 4096)
    (h4 : 4 ∣ info.blockSize) (hp : dirInodeNum < 2 ^ 32)
    (hn : ∀ d ∈ dentries, d.filename.length < 256) (hr : Roomy info.blockSize dentries) :
    DirectoryMade info a dirInodeNum dentries
      (makeDirectory force info flags a dirInodeNum dentries dirs) := by
  have hi : newInode a dirInodeNum < 2 ^ 32 := by
    rw [newInode]
    split
    case isTrue  => exact a.inodeNum_lt
    case isFalse => decide
  have hp' : parentInode dirInodeNum < 2 ^ 32 := by
    rw [parentInode]
    split
    case isTrue  => exact hp
    case isFalse => decide
  have hl : directoryLen info dentries ≠ 0 := by
    have h24 := le_directorySpace info.blockSize dentries
    have hq : 0 < (directorySpace info.blockSize dentries + info.blockSize - 1) / info.blockSize :=
      Nat.div_pos (by omega) (by omega)
    rw [directoryLen_eq (by omega) (by omega) hn hr]
    exact Nat.mul_ne_zero (by omega) (by omega)
  by_cases ha : a.Succeeds dirInodeNum
  case neg => exact directoryMade_of_not_succeeds ha (by omega)
  obtain ⟨data, inodes, hf, hd⟩ := fillDirectory_decodes hb hb' h4 hi hp' hn hr
  rw [makeDirectory_of_succeeds ha (by omega) hl, hf]
  exact ⟨rfl, hd⟩

theorem roomy_of_directoryMade
    (h : DirectoryMade info a dirInodeNum dentries
      (makeDirectory force info flags a dirInodeNum dentries dirs))
    (ha : a.Succeeds dirInodeNum) (hb : 1024 ≤ info.blockSize) (hb' : info.blockSize ≤ 4096)
    (hn : ∀ d ∈ dentries, d.filename.length < 256) :
    4 ∣ info.blockSize ∧ Roomy info.blockSize dentries := by
  rw [DirectoryMade.eq_def] at h
  split at h
  case h_1 d hd =>
    have hl := makeDirectory_length hd ha (by omega)
    have hs := h.2.space_le (by omega)
    exact ⟨h.2.dvd (by omega), roomy_of_le (by omega) (by omega) hn (hl ▸ hs)⟩
  · exact absurd ha h
  · exact absurd ha h.1
  · exact h.elim

-- A directory can be read back, whatever its parent and the allocations, exactly if the block size is a
-- multiple of 4 and the space for its entries and another block has 32 bits.
theorem makeDirectory_decodes_iff (info : FsInfo) (hb : 1024 ≤ info.blockSize)
    (hb' : info.blockSize ≤ 4096) (hp : dirInodeNum < 2 ^ 32) (dentries : List Dentry)
    (hn : ∀ d ∈ dentries, 1 ≤ d.filename.length ∧ d.filename.length ≤ 255) :
    (∀ force flags a dirs, DirectoryMade info a dirInodeNum dentries
      (makeDirectory force info flags a dirInodeNum dentries dirs)) ↔
      4 ∣ info.blockSize ∧ Roomy info.blockSize dentries := by
  have hn' : ∀ d ∈ dentries, d.filename.length < 256 := fun d hd => lt_succ_of_le (hn d hd).2
  constructor
  case mp =>
    intro h
    have ha : DirAllocation.Succeeds { inodeNum := 3, hasInode := true, hasData := true, iFlags := 0 }
        dirInodeNum := by
      refine ⟨?_, rfl, rfl⟩
      rw [newInode]
      split <;> decide
    exact roomy_of_directoryMade (h false 0 _ 0) ha hb hb' hn'
  case mpr =>
    rintro ⟨h4, hr⟩ force flags a dirs
    exact directoryMade_of_roomy hb hb' h4 hp hn' hr

def dirInfo (blockSize : Nat) (h : blockSize < 2 ^ 32) : FsInfo where
  len := 2 ^ 24
  blockSize := blockSize
  blocksPerGroup := 8192
  inodesPerGroup := 1024
  inodeSize := 256
  featRoCompat := 0
  bgDescReserveBlocks := 0
  blockSize_lt := h

theorem makeDirectory_decodes_oneFile :
    (4 ∣ 1024 ∧ Roomy 1024 [⟨[97], 1⟩]) ∧
    ∀ force flags a dirs, DirectoryMade (dirInfo 1024 (by decide)) a 2 [⟨[97], 1⟩]
      (makeDirectory force (dirInfo 1024 (by decide)) flags a 2 [⟨[97], 1⟩] dirs) :=
  ⟨by decide, (makeDirectory_decodes_iff (dirInfo 1024 (by decide)) (by decide) (by decide) (by decide)
    [⟨[97], 1⟩] (by decide)).mpr (by decide)⟩

-- The allocations of a directory that gets the inode 3.
def dirAllocation : DirAllocation where
  inodeNum := 3
  hasInode := true
  hasData  := true
  iFlags   := 0

-- With blocks of 2050 bytes, the entry `..` of an empty directory needs the length 2038.
theorem not_makeDirectory_decodes_unaligned :
    ¬DirectoryMade (dirInfo 2050 (by decide)) dirAllocation 2 []
      (makeDirectory false (dirInfo 2050 (by decide)) 0 dirAllocation 2 [] 0) := by
  generalize hi : dirInfo 2050 (by decide) = info
  have hb : info.blockSize = 2050 := by rw [← hi]; rfl
  intro h
  obtain ⟨hd, _⟩ := roomy_of_directoryMade h (by decide) (by omega) (by omega) (by simp)
  omega

end Making

end Ext4
