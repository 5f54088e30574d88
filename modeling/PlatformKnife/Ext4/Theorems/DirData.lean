import PlatformKnife.Ext4.Directory

namespace Ext4

open CInt Packing List Nat Bytes

theorem dentryLen_le (n : Nat) : 8 + n ≤ dentryLen n := by
  simp only [dentryLen, ext4Align4]
  omega

theorem dvd_dentryLen (n : Nat) : 4 ∣ dentryLen n := by
  simp only [dentryLen, ext4Align4]
  omega

theorem dentryLen_le_of_lt (h : n < 256) : dentryLen n ≤ 264 := by
  simp only [dentryLen, ext4Align4]
  omega

theorem dentryLen_le_of_dvd (h : 8 + n ≤ r) (hd : 4 ∣ r) : dentryLen n ≤ r := by
  simp only [dentryLen, ext4Align4]
  omega

section Encoding

-- An entry up to the start of the next one.
def DirEntry.bytes (e : DirEntry) : List UInt8 :=
  e.stored ++ List.replicate (e.recLen - 8 - e.name.length) 0

-- The fields of the entry have the values that are stored.
structure DirEntry.Encodable (e : DirEntry) : Prop where
  inode_lt  : e.inode < 2 ^ 32
  name_lt   : e.name.length < 256
  name_le   : 8 + e.name.length ≤ e.recLen
  recLen_lt : e.recLen < 2 ^ 16

section

variable (e : DirEntry)

def DirEntry.extend (n : Nat) : DirEntry :=
  { e with recLen := e.recLen + n }

@[simp]
theorem DirEntry.extend_recLen (n : Nat) : (e.extend n).recLen = e.recLen + n :=
  rfl

-- What is behind `rec_len`.
def DirEntry.tail : List UInt8 :=
  [UInt8.ofNat e.name.length, e.fileType] ++ e.name

theorem DirEntry.stored_eq : e.stored = le 4 e.inode ++ (le 2 e.recLen ++ e.tail) := by
  simp [stored, tail]

end

variable {e : DirEntry} {es : List DirEntry}

@[simp]
theorem DirEntry.stored_length (e : DirEntry) : e.stored.length = 8 + e.name.length := by
  simp [stored]
  omega

namespace DirEntry.Encodable

theorem bytes_length (h : e.Encodable) : e.bytes.length = e.recLen := by
  have := h.name_le
  simp only [bytes, length_append, stored_length, length_replicate]
  omega

theorem read_bytes (h : e.Encodable) (rest : List UInt8) : DirEntry.read (e.bytes ++ rest) = some e := by
  have hn := h.name_lt
  have hd : (e.bytes ++ rest).drop 6 = UInt8.ofNat e.name.length :: e.fileType
      :: (e.name ++ (replicate (e.recLen - 8 - e.name.length) 0 ++ rest)) := by
    simp [bytes, stored, drop_append]
  have hi : fromLe ((e.bytes ++ rest).take 4) = e.inode := by
    have hl := fromLe_le 4 e.inode
    rw [mod_eq_of_lt (by simpa using h.inode_lt)] at hl
    simpa [bytes, stored, take_append] using hl
  have hr : fromLe (Slice.slice (e.bytes ++ rest) 4 6) = e.recLen := by
    have hs := Slice.slice_append (le 4 e.inode) (le 2 e.recLen)
      (e.tail ++ (replicate (e.recLen - 8 - e.name.length) 0 ++ rest))
    have hl := fromLe_le 2 e.recLen
    rw [mod_eq_of_lt (by simpa using h.recLen_lt)] at hl
    simp only [le_length, reduceAdd] at hs
    rw [bytes, stored_eq]
    simp only [append_assoc, hs, hl]
  have ht : (UInt8.ofNat e.name.length).toNat = e.name.length := by
    simp only [UInt8.toNat_ofNat']
    omega
  simp only [DirEntry.read, hd, ht, length_append]
  rw [if_pos (by omega), hi, hr]
  simp

end DirEntry.Encodable

-- The positions of entries that follow each other.
def positions : Nat → List DirEntry → List (Nat × DirEntry)
  | _, [] => []
  | pos, e :: es => (pos, e) :: positions (pos + e.recLen) es

def recLens (es : List DirEntry) : Nat :=
  (es.map DirEntry.recLen).sum

theorem positions_append (pos : Nat) (es es' : List DirEntry) :
    positions pos (es ++ es') = positions pos es ++ positions (pos + recLens es) es' := by
  induction es generalizing pos
  case nil => simp [positions, recLens]
  case cons e es hi => simp [positions, hi, recLens, add_assoc]

theorem positions_map_snd (pos : Nat) (es : List DirEntry) : (positions pos es).map Prod.snd = es := by
  induction es generalizing pos
  case nil => rfl
  case cons e es hi => simp [positions, hi]

theorem recLens_append (es es' : List DirEntry) : recLens (es ++ es') = recLens es + recLens es' := by
  simp [recLens]

@[simp]
theorem recLens_singleton (e : DirEntry) : recLens [e] = e.recLen := by
  simp [recLens]

theorem dvd_recLens (h : ∀ e ∈ es, n ∣ e.recLen) : n ∣ recLens es :=
  dvd_sum fun _ hx => by
    obtain ⟨e, he, hr⟩ := mem_map.mp hx
    exact hr ▸ h e he

theorem flatMap_bytes_length (h : ∀ e ∈ es, e.Encodable) :
    (es.flatMap DirEntry.bytes).length = recLens es := by
  induction es
  case nil => rfl
  case cons e es hi =>
    have he := (h e (by simp)).bytes_length
    have hi := hi fun x hx => h x (by simp [hx])
    simp only [flatMap_cons, length_append, he, hi, recLens, map_cons, sum_cons]

theorem walkFrom_bytes (h : ∀ e ∈ es, e.Encodable) (hf : es.length ≤ fuel) (pos : Nat) :
    walkFrom fuel pos (es.flatMap DirEntry.bytes) = some (positions pos es) := by
  induction es generalizing fuel pos
  case nil => cases fuel <;> rfl
  case cons e es hi =>
    obtain ⟨fuel, rfl⟩ : ∃ k, fuel = k + 1 := ⟨fuel - 1, by simp at hf; omega⟩
    have he := h e (by simp)
    have hl := he.bytes_length
    have hp := he.name_le
    have hi := hi (fun x hx => h x (by simp [hx])) (by simpa using hf) (pos + e.recLen)
    have hc : e.bytes ++ es.flatMap DirEntry.bytes ≠ [] := by
      intro hn
      have hz : e.bytes = [] := (append_eq_nil_iff.mp hn).1
      rw [hz, length_nil] at hl
      omega
    have hr : ¬(e.recLen = 0 ∨ (e.bytes ++ es.flatMap DirEntry.bytes).length < e.recLen) := by
      rw [length_append]
      omega
    have hd : (e.bytes ++ es.flatMap DirEntry.bytes).drop e.recLen = es.flatMap DirEntry.bytes := by
      rw [← hl, drop_left]
    simp only [walkFrom, flatMap_cons, if_neg hc, he.read_bytes,
      Option.bind_eq_bind, Option.bind_some, if_neg hr, hd, hi, positions]
    rfl

end Encoding

section Stores

variable {e : DirEntry} {front : List UInt8}

theorem storeBytes_stored (he : e.Encodable) (hr : e.recLen ≤ r) :
    storeBytes (front ++ replicate r 0) front.length e.stored
      = .ok (front ++ (e.bytes ++ replicate (r - e.recLen) 0)) := by
  have hn := he.name_le
  rw [storeBytes_append (by simp; omega), DirEntry.bytes, append_assoc, drop_replicate,
    DirEntry.stored_length, replicate_append_replicate]
  congr 5
  omega

theorem addRecLen_bytes (he : e.Encodable) (hn : n ≤ r) :
    addRecLen (front ++ (e.bytes ++ replicate r 0)) front.length n
      = .ok (front ++ ((e.extend n).bytes ++ replicate (r - n) 0)) := by
  have hnl := he.name_le
  have hs : front ++ (e.bytes ++ replicate r 0) = (front ++ le 4 e.inode)
      ++ (le 2 e.recLen ++ (e.tail ++ replicate (e.recLen - 8 - e.name.length + r) 0)) := by
    simp [DirEntry.bytes, DirEntry.stored_eq, ← replicate_append_replicate]
  have hlen : (front ++ le 4 e.inode).length = front.length + 4 := by simp
  have hsl := Slice.slice_append (front ++ le 4 e.inode) (le 2 e.recLen)
    (e.tail ++ replicate (e.recLen - 8 - e.name.length + r) 0)
  have hv := fromLe_le 2 e.recLen
  rw [mod_eq_of_lt (by have := he.recLen_lt; simpa using this)] at hv
  rw [hlen, le_length] at hsl
  rw [addRecLen, hs, hsl, hv, ← hlen, storeBytes_append (by simp)]
  simp only [DirEntry.bytes, DirEntry.stored_eq, DirEntry.extend, DirEntry.tail, le_length,
    append_assoc, replicate_append_replicate]
  rw [drop_left' (le_length 2 e.recLen)]
  congr 7
  omega

end Stores

section Adding

def dirEntry (inode : Nat) (name : List UInt8) (fileType : UInt8) : DirEntry where
  inode := inode
  recLen := dentryLen name.length
  fileType := fileType
  name := name

theorem dirEntry_encodable (fileType : UInt8) (hi : inode < 2 ^ 32) (hn : name.length < 256) :
    (dirEntry inode name fileType).Encodable where
  inode_lt  := hi
  name_lt   := hn
  name_le   := dentryLen_le _
  recLen_lt := lt_of_le_of_lt (dentryLen_le_of_lt hn) (by decide)

-- The buffer of `len` bytes holds the entries `es`, followed by `e` and zeros.
structure Holds (b len : Nat) (es : List DirEntry) (e : DirEntry) (dir : DirData) : Prop where
  data : dir.data = es.flatMap DirEntry.bytes
                ++ (e.bytes ++ List.replicate (len - dir.offset) 0)
  offset : dir.offset = recLens es + e.recLen
  prev : dir.prev = some (recLens es)
  le : dir.offset ≤ len
  encodable : ∀ x ∈ es ++ [e], x.Encodable
  dvd : ∀ x ∈ es ++ [e], 4 ∣ x.recLen
  tiles : Packing.Tiles b 0 ((positions 0 es).map fun r => (r.fst, r.snd.recLen)) (recLens es)
  fits : recLens es % b + e.recLen ≤ b

variable {info : FsInfo} {dir dir' : DirData} {es : List DirEntry} {e : DirEntry} {name : List UInt8}

theorem addDentry_of_makeRoom (hi : inode < 2 ^ 32) (hn : name.length < 256)
    (hr : makeRoom info dir (dentryLen name.length) = .ok dir')
    (hd : dir'.data = front ++ replicate (len - dir'.offset) 0)
    (hf : front.length = dir'.offset) (hl : dir'.offset + dentryLen name.length ≤ len)
    (hlen : len < 2 ^ 32) :
    addDentry info dir inode name fileType = .ok {
      data   := front ++ ((dirEntry inode name fileType).bytes
                  ++ replicate (len - (dir'.offset + dentryLen name.length)) 0)
      offset := dir'.offset + dentryLen name.length
      prev   := some dir'.offset } := by
  have hu : u16 (dentryLen name.length) = dentryLen name.length := by
    have := dentryLen_le_of_lt hn
    exact mod_eq_of_lt (by omega)
  have hs : storeBytes dir'.data dir'.offset (dirEntry inode name fileType).stored
      = .ok (front ++ ((dirEntry inode name fileType).bytes
        ++ replicate (len - dir'.offset - dentryLen name.length) 0)) := by
    rw [hd, ← hf]
    exact storeBytes_stored (dirEntry_encodable fileType hi hn)
      (show dentryLen name.length ≤ len - front.length by omega)
  simp only [dirEntry] at hs
  rw [addDentry]
  simp only [mod_eq_of_lt hn, hu, take_length, hr, Except.ok_bind, hs, Except.pure_eq_ok,
    u32_of_lt (lt_of_le_of_lt hl hlen), Nat.sub_sub, dirEntry]

theorem makeRoom_of_fits (hr : 0 < recLen) (hb : 0 < info.blockSize) (hlt : dir.offset + recLen < 2 ^ 32)
    (h : dir.offset % info.blockSize + recLen ≤ info.blockSize) :
    makeRoom info dir recLen = .ok dir := by
  have hs := (within_iff hb hr).mpr h
  simp only [makeRoom]
  rw [u32_of_lt (by omega), ← hs, if_neg (by simp)]

theorem div_of_not_fits (hb : 0 < b) (hr : recLen ≤ b) (h : b < pos % b + recLen) :
    (pos + recLen - 1) / b = pos / b + 1 := by
  have hm := mod_lt pos hb
  have hd := div_add_mod pos b
  rw [Nat.div_eq_iff hb, add_mul, mul_comm (pos / b)]
  omega

section

variable (h : Holds info.blockSize len es e dir)

include h

theorem Holds.fits_extend (hr : recLen ≤ info.blockSize)
    (hn : info.blockSize < dir.offset % info.blockSize + recLen) :
    recLens es % info.blockSize + (e.recLen + (place info.blockSize dir.offset recLen - dir.offset))
      = info.blockSize := by
  have hf := h.fits
  have ho : (recLens es % info.blockSize + e.recLen) % info.blockSize = dir.offset % info.blockSize := by
    rw [h.offset, mod_add_mod]
  rcases Nat.lt_or_eq_of_le hf with hlt | heq
  case inr =>
    rw [heq, mod_self] at ho
    omega
  rw [mod_eq_of_lt hlt] at ho
  rw [place, if_pos hn]
  omega

theorem Holds.makeRoom (hb : 0 < info.blockSize) (hr : recLen ≤ info.blockSize) (hlen : len < 2 ^ 32)
    (hl : place info.blockSize dir.offset recLen + recLen ≤ len)
    (hn : info.blockSize < dir.offset % info.blockSize + recLen) :
    makeRoom info dir recLen = .ok {
      data   := es.flatMap DirEntry.bytes
                  ++ ((e.extend (place info.blockSize dir.offset recLen - dir.offset)).bytes
                  ++ replicate (len - place info.blockSize dir.offset recLen) 0)
      offset := place info.blockSize dir.offset recLen
      prev   := some (recLens es) } := by
  have hp := le_place info.blockSize dir.offset recLen
  have hpl := place_of_not_fits hb hn
  have he := h.encodable e (by simp)
  have hlen' : (es.flatMap DirEntry.bytes).length = recLens es :=
    flatMap_bytes_length fun x hx => h.encodable x (by simp [hx])
  have ha : addRecLen dir.data (recLens es) (place info.blockSize dir.offset recLen - dir.offset)
      = .ok (es.flatMap DirEntry.bytes
        ++ ((e.extend (place info.blockSize dir.offset recLen - dir.offset)).bytes
        ++ replicate (len - dir.offset - (place info.blockSize dir.offset recLen - dir.offset)) 0)) := by
    rw [h.data, ← hlen']
    exact addRecLen_bytes he (by omega)
  have hd := div_of_not_fits hb hr hn
  simp only [Ext4.makeRoom]
  rw [u32_of_lt (by omega), hd, if_pos (by omega), padPrev]
  simp only [h.prev]
  rw [← hpl, u32_of_lt (by omega), subU32_of_le hp (by omega), ha,
    show len - dir.offset - (place info.blockSize dir.offset recLen - dir.offset)
      = len - place info.blockSize dir.offset recLen by omega]
  rfl

theorem Holds.exists_room (hb : 0 < info.blockSize)
    (h4 : 4 ∣ info.blockSize) (hr₀ : 0 < recLen) (hr : recLen ≤ info.blockSize) (hlen : len < 2 ^ 32)
    (hl : place info.blockSize dir.offset recLen + recLen ≤ len) :
    ∃ n dir', Ext4.makeRoom info dir recLen = .ok dir' ∧
      dir'.data = es.flatMap DirEntry.bytes ++ ((e.extend n).bytes ++ replicate (len - dir'.offset) 0) ∧
      dir'.offset = place info.blockSize dir.offset recLen ∧
      dir'.offset = recLens es + (e.extend n).recLen ∧
      recLens es % info.blockSize + (e.extend n).recLen ≤ info.blockSize ∧
      4 ∣ (e.extend n).recLen := by
  have hp := le_place info.blockSize dir.offset recLen
  by_cases hc : info.blockSize < dir.offset % info.blockSize + recLen
  case neg =>
    have hpl := place_of_fits (not_lt.mp hc)
    rw [hpl] at hl ⊢
    exact ⟨0, dir, makeRoom_of_fits hr₀ hb (by omega) (not_lt.mp hc), h.data, rfl, h.offset, h.fits,
      h.dvd e (by simp)⟩
  have hf := h.fits_extend hr hc
  have ho := h.offset
  have hd : 4 ∣ recLens es := dvd_recLens fun x hx => h.dvd x (by simp [hx])
  refine ⟨_, _, h.makeRoom hb hr hlen hl hc, rfl, rfl, ?_, hf.le, ?_⟩
  · simp only [DirEntry.extend_recLen]
    omega
  · exact (Nat.dvd_add_right ((dvd_mod_iff h4).mpr hd)).mp (h4.trans (dvd_of_eq hf.symm))

theorem Holds.addDentry (hb : 264 ≤ info.blockSize)
    (hb' : info.blockSize < 2 ^ 16) (h4 : 4 ∣ info.blockSize) (fileType : UInt8) (hi : inode < 2 ^ 32)
    (hn : name.length < 256) (hlen : len < 2 ^ 32)
    (hl : place info.blockSize dir.offset (dentryLen name.length) + dentryLen name.length ≤ len) :
    ∃ n dir', addDentry info dir inode name fileType = .ok dir' ∧
      Holds info.blockSize len (es ++ [e.extend n]) (dirEntry inode name fileType) dir' ∧
      dir'.offset = place info.blockSize dir.offset (dentryLen name.length) + dentryLen name.length := by
  have hr := dentryLen_le_of_lt hn
  have hr' := dentryLen_le name.length
  obtain ⟨n, dir', hm, hd, hp, ho, hf, hdvd⟩ :=
    h.exists_room (by omega) h4 (by omega) (by omega) hlen hl
  have he := h.encodable e (by simp)
  have he' : (e.extend n).Encodable := {
    inode_lt  := he.inode_lt
    name_lt   := he.name_lt
    name_le   := le_trans he.name_le (Nat.le_add_right _ _)
    recLen_lt := by omega }
  have hes : ∀ x ∈ es ++ [e.extend n], x.Encodable := by
    intro x hx
    rcases mem_append.mp hx with hx | hx
    · exact h.encodable x (by simp [hx])
    · exact mem_singleton.mp hx ▸ he'
  have hsum : recLens (es ++ [e.extend n]) = dir'.offset := by
    rw [recLens_append, recLens_singleton, ho]
  have hfront : dir'.data = (es ++ [e.extend n]).flatMap DirEntry.bytes
      ++ replicate (len - dir'.offset) 0 := by
    simp [hd]
  have hadd : Ext4.addDentry info dir inode name fileType = _ :=
    addDentry_of_makeRoom hi hn hm hfront ((flatMap_bytes_length hes).trans hsum) (hp ▸ hl) hlen
  refine ⟨n, _, hadd, ?_, by rw [hp]⟩
  exact {
    data := rfl
    offset := by rw [hsum]; rfl
    prev := by rw [hsum]
    le := by rw [hp]; exact hl
    encodable := by
      intro x hx
      rcases mem_append.mp hx with hx | hx
      · exact hes x hx
      · exact mem_singleton.mp hx ▸ dirEntry_encodable fileType hi hn
    dvd := by
      intro x hx
      rcases mem_append.mp hx with hx | hx
      · rcases mem_append.mp hx with hx | hx
        · exact h.dvd x (by simp [hx])
        · exact mem_singleton.mp hx ▸ hdvd
      · exact mem_singleton.mp hx ▸ dvd_dentryLen _
    tiles := by
      rw [positions_append, map_append, recLens_append, recLens_singleton]
      have ht := Packing.Tiles.singleton hf
      exact h.tiles.append (by simpa [positions] using ht)
    fits := by
      rw [hsum, hp]
      exact place_mod_add_le (by omega) (show dentryLen name.length ≤ info.blockSize by omega) }

end

-- The fields of an entry that padding does not change.
def DirEntry.key (e : DirEntry) : Nat × UInt8 × List UInt8 :=
  (e.inode, e.fileType, e.name)

def Dentry.len (d : Dentry) : Nat :=
  dentryLen d.filename.length

theorem Holds.addDentries (h : Holds info.blockSize len es e dir) (hb : 264 ≤ info.blockSize)
    (hb' : info.blockSize < 2 ^ 16) (h4 : 4 ∣ info.blockSize) (hlen : len < 2 ^ 32)
    (hn : ∀ d ∈ ds, d.filename.length < 256) (hi : i + ds.length = entries)
    (hl : packed info.blockSize dir.offset (ds.map Dentry.len) ≤ len) :
    ∃ dir' inodes es' e', addDentries info len entries i ds dir = .ok (dir', inodes) ∧
      Holds info.blockSize len es' e' dir' ∧
      (es' ++ [e']).map DirEntry.key
        = (es ++ [e]).map DirEntry.key ++ ds.map (fun d => (0, d.fileType, d.filename)) ∧
      dir'.offset = packed info.blockSize dir.offset (ds.map Dentry.len) := by
  induction ds generalizing i es e dir
  case nil => exact ⟨dir, [], es, e, rfl, h, by simp, rfl⟩
  case cons d ds hds =>
    have hd := hn d (by simp)
    have hpk : packed info.blockSize dir.offset ((d :: ds).map Dentry.len)
        = packed info.blockSize (place info.blockSize dir.offset d.len + d.len) (ds.map Dentry.len) := rfl
    have hle := le_packed info.blockSize (place info.blockSize dir.offset d.len + d.len)
      (ds.map Dentry.len)
    rw [hpk] at hl
    obtain ⟨n, dir₁, ha, h₁, ho⟩ := h.addDentry hb hb' h4 d.fileType (show 0 < 2 ^ 32 by decide) hd hlen
      (le_trans (le_trans (Nat.le_add_right _ _) hle) hl)
    change dir₁.offset = place info.blockSize dir.offset d.len + d.len at ho
    rw [← ho] at hle hl
    have hok : ¬(len < dir₁.offset ∨ (dir₁.offset = len ∧ i ≠ entries - 1)) := by
      rintro (hlt | ⟨heq, hne⟩)
      · exact not_lt.mpr h₁.le hlt
      · -- Another entry would have to end behind the data.
        obtain _ | ⟨d', ds⟩ := ds
        · simp at hi; omega
        have hd' : 8 + d'.filename.length ≤ d'.len := dentryLen_le d'.filename.length
        rw [map_cons, sum_cons] at hle
        rw [map_cons] at hl
        omega
    obtain ⟨dir', inodes, es', e', hr, h', hk, ho'⟩ :=
      hds h₁ (fun x hx => hn x (by simp [hx])) (show i + 1 + ds.length = entries by simp at hi; omega) hl
    refine ⟨dir', dir₁.prev.toList ++ inodes, es', e', ?_, h', ?_, ?_⟩
    · simp only [Ext4.addDentries, ha, Except.ok_bind, if_neg hok, hr]
      rfl
    · rw [hk]
      simp [DirEntry.key, DirEntry.extend, dirEntry]
    · rw [ho', hpk, ho]

theorem addDentry_first (hb : 264 ≤ info.blockSize) (hi : inode < 2 ^ 32) (h : 12 ≤ len)
    (hlen : len < 2 ^ 32) :
    ∃ dir, addDentry info (.zero len) inode dot ext4FtDir = .ok dir ∧
      Holds info.blockSize len [] (dirEntry inode dot ext4FtDir) dir := by
  have hd : dentryLen dot.length = 12 := rfl
  have hz : (DirData.zero len).offset = 0 := rfl
  have hm : makeRoom info (.zero len) (dentryLen dot.length) = .ok (.zero len) :=
    makeRoom_of_fits (by omega) (by omega) (by omega) (by rw [hz, zero_mod]; omega)
  have ha : addDentry info (.zero len) inode dot ext4FtDir = _ :=
    addDentry_of_makeRoom hi (by decide) hm (show _ = [] ++ replicate len 0 from rfl) rfl (by omega) hlen
  refine ⟨_, ha, ?_⟩
  exact {
    data := rfl
    offset := rfl
    prev := rfl
    le := by simp [hd, hz]; omega
    encodable := by simpa using dirEntry_encodable ext4FtDir hi (by decide)
    dvd := by simpa [dirEntry] using dvd_dentryLen dot.length
    tiles := rfl
    fits := by simp [recLens, dirEntry, hd]; omega }

end Adding

section Filling

variable {info : FsInfo} {dir : DirData} {es : List DirEntry} {e : DirEntry} {dentries : List Dentry}

theorem Holds.addRecLen (h : Holds info.blockSize len es e dir) :
    addRecLen dir.data (recLens es) (len - dir.offset)
      = .ok ((es ++ [e.extend (len - dir.offset)]).flatMap DirEntry.bytes) := by
  have hl : (es.flatMap DirEntry.bytes).length = recLens es :=
    flatMap_bytes_length fun x hx => h.encodable x (by simp [hx])
  rw [h.data, ← hl, addRecLen_bytes (h.encodable e (by simp)) (le_refl _)]
  simp

-- The space that the entries take up, with those for `.` and `..`.
def directorySpace (b : Nat) (dentries : List Dentry) : Nat :=
  packed b 24 (dentries.map Dentry.len)

theorem directorySpace_eq (hb : 24 ≤ b) (dentries : List Dentry) :
    directorySpace b dentries = packed b 0 (12 :: 12 :: dentries.map Dentry.len) := by
  have h₁ : place b 0 12 = 0 := place_of_fits (by simp; omega)
  have h₂ : place b 12 12 = 12 := place_of_fits (by rw [mod_eq_of_lt (by omega)]; omega)
  simp [directorySpace, packed, h₁, h₂]

theorem fillDirectory_of_fits (hb : 264 ≤ info.blockSize) (hb' : info.blockSize < 2 ^ 16)
    (h4 : 4 ∣ info.blockSize) (hi : inodeNum < 2 ^ 32) (hp : parent < 2 ^ 32)
    (hn : ∀ d ∈ dentries, d.filename.length < 256) (hlen : len < 2 ^ 32)
    (hl : directorySpace info.blockSize dentries ≤ len) :
    ∃ data inodes es e, fillDirectory info inodeNum parent len dentries
        = .ok ((es ++ [e.extend (len - directorySpace info.blockSize dentries)]).flatMap DirEntry.bytes,
            inodes, directorySpace info.blockSize dentries) ∧
      Holds info.blockSize len es e data ∧
      data.offset = directorySpace info.blockSize dentries ∧
      (es ++ [e]).map DirEntry.key = directoryEntries inodeNum parent dentries := by
  have hle : 24 + (dentries.map Dentry.len).sum ≤ len := le_trans (le_packed _ _ _) hl
  obtain ⟨dir₁, ha₁, h₁⟩ := addDentry_first hb hi (show 12 ≤ len by omega) hlen
  have ho₁ : dir₁.offset = 12 := by
    rw [h₁.offset]
    rfl
  have hpl : place info.blockSize dir₁.offset 12 = 12 := by
    rw [ho₁]
    exact place_of_fits (by rw [mod_eq_of_lt (by omega)]; omega)
  obtain ⟨n, dir₂, ha₂, h₂, ho₂⟩ := h₁.addDentry hb hb' h4 ext4FtDir hp
    (show (dot ++ dot).length < 256 by decide) hlen
    (show place info.blockSize dir₁.offset 12 + 12 ≤ len by omega)
  change dir₂.offset = place info.blockSize dir₁.offset 12 + 12 at ho₂
  rw [hpl] at ho₂
  obtain ⟨dir, inodes, es, e, ha, h, hk, ho⟩ := h₂.addDentries hb hb' h4 hlen hn
    (show 0 + dentries.length = dentries.length by omega) (by rw [ho₂]; exact hl)
  rw [ho₂] at ho
  change dir.offset = directorySpace info.blockSize dentries at ho
  refine ⟨dir, inodes, es, e, ?_, h, ho, ?_⟩
  · simp only [fillDirectory, ha₁, ha₂, ha, Except.ok_bind, h.prev]
    rw [subU32_of_le h.le hlen, h.addRecLen, ho]
    rfl
  · rw [hk]
    simp [DirEntry.key, DirEntry.extend, dirEntry, directoryEntries]

theorem Holds.fits_last (h : Holds b len es e dir) (hd : b ∣ len) (hl : len < dir.offset + b) :
    recLens es % b + (e.extend (len - dir.offset)).recLen ≤ b := by
  have hf := h.fits
  have ho := h.offset
  have hle := h.le
  have hq := div_add_mod (recLens es) b
  have hlen : len ≤ b * (recLens es / b) + b := by
    obtain ⟨t, rfl⟩ := hd
    rw [← mul_succ]
    have hlt : b * t < b * (recLens es / b + 2) := by
      rw [mul_add]
      omega
    exact Nat.mul_le_mul_left b (le_of_lt_succ (Nat.lt_of_mul_lt_mul_left hlt))
  rw [DirEntry.extend_recLen]
  omega

theorem Holds.extend_last (h : Holds b len es e dir) (hd : b ∣ len) (h4 : 4 ∣ b) (hb : b < 2 ^ 16)
    (hl : len < dir.offset + b) :
    (∀ x ∈ es ++ [e.extend (len - dir.offset)], x.Encodable) ∧
    (∀ x ∈ es ++ [e.extend (len - dir.offset)], 4 ∣ x.recLen) ∧
    recLens (es ++ [e.extend (len - dir.offset)]) = len ∧
    Packing.Tiles b 0 ((positions 0 (es ++ [e.extend (len - dir.offset)])).map
      fun r => (r.fst, r.snd.recLen)) len := by
  have hf := h.fits_last hd hl
  have ho := h.offset
  have hle := h.le
  have he := h.encodable e (by simp)
  have hs : recLens es + (e.extend (len - dir.offset)).recLen = len := by
    rw [DirEntry.extend_recLen]
    omega
  have h4s : 4 ∣ recLens es := dvd_recLens fun x hx => h.dvd x (by simp [hx])
  simp only [forall_mem_append, forall_mem_singleton]
  refine ⟨⟨fun x hx => h.encodable x (by simp [hx]), ?_⟩, ⟨fun x hx => h.dvd x (by simp [hx]), ?_⟩,
    (recLens_append _ _).trans (by rw [recLens_singleton, hs]), ?_⟩
  · exact {
      inode_lt  := he.inode_lt
      name_lt   := he.name_lt
      name_le   := le_trans he.name_le (Nat.le_add_right _ _)
      recLen_lt := by omega }
  · exact (Nat.dvd_add_right h4s).mp ((h4.trans hd).trans (dvd_of_eq hs.symm))
  · rw [positions_append, map_append]
    have ht := Packing.Tiles.singleton hf
    rw [hs] at ht
    exact h.tiles.append (by simpa [positions] using ht)

end Filling

end Ext4
