import PlatformKnife.Cutils.MemStream

namespace Cutils

open CInt Slice Bytes List MemStream

theorem overwrite_getElem?_of_le (h : i + d.length ≤ l.length) (k : Nat) :
    (overwrite l i d)[k]? = if i ≤ k ∧ k < i + d.length then d[k - i]? else l[k]? := by
  rw [overwrite_getElem?]
  grind

theorem write_getElem? (f : File) (d : List UInt8) (k : Nat) :
    (f.write d).bytes[k]? = if k < f.pos then if k < f.bytes.length then f.bytes[k]? else some 0
      else if k < f.pos + d.length then d[k - f.pos]? else f.bytes[k]? := by
  simp only [File.write, resize, getElem?_append, length_append, length_take,
    length_replicate, getElem?_take, getElem?_replicate, getElem?_drop]
  grind

namespace MemStream

variable {s s' : MemStream} {f : File}

-- The buffer up to the end, with the saved character put back.
def content (s : MemStream) : List UInt8 :=
  (if s.offset < s.eof then overwrite s.buf s.offset [s.saved] else s.buf).take s.eof

structure Placed (s : MemStream) (f : File) : Prop where
  offset_eq : s.offset = f.pos
  eof_eq    : s.eof = f.bytes.length
  unwritten : s.buf = [] → s.eof = 0
  eof_nul   : s.buf ≠ [] → s.buf[s.eof]? = some 0
  buf_lt    : s.buf.length < 2 ^ 63
  offset_lt : s.offset < 2 ^ 63

-- The stream stands for a file, with no zero at the offset.
structure Plain (s : MemStream) (f : File) : Prop extends Placed s f where
  bytes : ∀ i < s.eof, f.bytes[i]? = s.buf[i]?

-- The stream between the operations.
structure Refines (s : MemStream) (f : File) : Prop extends Placed s f where
  bytes : ∀ i < s.eof, f.bytes[i]? = if i = s.offset then some s.saved else s.buf[i]?
  sizep_eq : s.sizep = min s.offset s.eof
  nul : s.buf ≠ [] → s.buf[s.sizep]? = some 0

theorem Placed.eof_le (h : Placed s f) : s.eof ≤ s.buf.length := by
  by_cases hb : s.buf = []
  case pos => simp [h.unwritten hb]
  case neg => exact (List.getElem?_eq_some_iff.mp (h.eof_nul hb)).choose.le

-- There is memory for half as much again as is needed.
def Gives (mem : Realloc) (neededSize : Nat) : Prop :=
  ∀ n ≤ max kInitialSize (neededSize + neededSize / 2), mem.gives n

theorem newSize_le (h : allocSize < neededSize) :
    newSize allocSize neededSize ≤ max kInitialSize (neededSize + neededSize / 2) := by
  rw [newSize]
  split <;> omega

theorem ensureCapacity_spec (hg : Gives mem (s.offset + n + 1)) (hb : s.buf.length < 2 ^ 63) :
    ∃ more, ensureCapacity mem s n = some { s with buf := s.buf ++ more } ∧
      s.offset + n < (s.buf ++ more).length ∧ (s.buf ++ more).length < 2 ^ 63 := by
  unfold ensureCapacity
  dsimp only
  split
  case isTrue h => exact ⟨[], by simp, by simp; omega, by simpa using hb⟩
  case isFalse h =>
    have hg := hg _ (newSize_le (Nat.lt_of_not_le h))
    have hlt := mem.lt hg
    have hn : s.offset + n + 1 ≤ newSize s.buf.length (s.offset + n + 1) := le_max_right _ _
    rw [if_pos hg]
    exact ⟨_, rfl, by simp; omega, by simp; omega⟩

theorem store_eq {buf : List UInt8} (h : i + d.length ≤ buf.length) :
    store buf i d = .ok (overwrite buf i d) :=
  if_pos h

theorem fillGap_spec (h : s.offset ≤ s.buf.length) :
    ∃ buf, fillGap s = .ok buf ∧ buf.length = s.buf.length ∧
      ∀ k, buf[k]? = if s.eof ≤ k ∧ k < s.offset then some 0 else s.buf[k]? := by
  rw [fillGap]
  split
  case isTrue hlt =>
    have hle : s.eof + (replicate (s.offset - s.eof) (0 : UInt8)).length ≤ s.buf.length := by
      simp
      omega
    refine ⟨_, store_eq hle, overwrite_length .., fun k => ?_⟩
    rw [overwrite_getElem?_of_le hle]
    grind
  case isFalse hlt => exact ⟨s.buf, rfl, rfl, fun k => by rw [if_neg (by omega)]⟩

theorem Plain.stomp (h : Plain s f) (hle : s.offset ≤ s.eof) (hb : s.buf ≠ []) :
    ∃ s', stomp s = .ok s' ∧ Refines s' f := by
  have hlt := (List.getElem?_eq_some_iff.mp (h.eof_nul hb)).choose
  have hs : s.offset + [(0 : UInt8)].length ≤ s.buf.length := by simp; omega
  have ho := overwrite_getElem?_of_le hs
  have hl := overwrite_length s.buf s.offset [(0 : UInt8)]
  have he := h.eof_nul hb
  refine ⟨⟨overwrite s.buf s.offset [0], s.offset, s.eof, s.offset, s.buf[s.offset]⟩,
    by rw [MemStream.stomp, load, dif_pos (by omega), store_eq hs]; rfl,
    ⟨h.offset_eq, h.eof_eq, fun hn => ?_, fun _ => ?_, hl ▸ h.buf_lt, h.offset_lt⟩, fun i hi => ?_,
    (min_eq_left hle).symm, fun _ => ?_⟩ <;> dsimp only at *
  · simp [hn] at hl; omega
  · grind
  · have := h.bytes i hi
    grind
  · grind

theorem Refines.restore (h : Refines s f) (n : Nat) (hn : n < 2 ^ 63) :
    ∃ buf, restore s = .ok buf ∧ Plain { s with buf, offset := n } (f.seekSet n) := by
  have hle := h.eof_le
  have hb := h.bytes
  rw [MemStream.restore]
  split
  case isTrue hlt =>
    have hs : s.offset + [s.saved].length ≤ s.buf.length := by simp; omega
    have ho := overwrite_getElem?_of_le hs
    have hl := overwrite_length s.buf s.offset [s.saved]
    refine ⟨_, store_eq hs, ⟨rfl, h.eof_eq, fun hn => ?_, fun hn => ?_, hl ▸ h.buf_lt, hn⟩,
      fun i hi => ?_⟩ <;> dsimp only at *
    · simp [hn] at hl; omega
    · have := h.eof_nul (fun hz => by simp [hz] at hs)
      grind
    · have := hb i hi
      grind [File.seekSet]
  case isFalse hlt =>
    refine ⟨s.buf, rfl, ⟨rfl, h.eof_eq, h.unwritten, h.eof_nul, h.buf_lt, hn⟩, fun i hi => ?_⟩
    have := hb i hi
    dsimp only at *
    grind [File.seekSet]

theorem Refines.copyData (h : Refines s f) (hd : d ≠ [])
    (hlen : s.offset + d.length < (s.buf ++ more).length) :
    ∃ buf, copyData { s with buf := s.buf ++ more } d = .ok { s with buf, offset := s.offset + d.length } ∧
      buf.length = (s.buf ++ more).length ∧
      (s.offset + d.length ≤ s.eof → buf[s.eof]? = some 0) ∧
      ∀ i < max (s.offset + d.length) s.eof, (f.write d).bytes[i]? = buf[i]? := by
  have hle := h.eof_le
  have hpos := length_pos_iff.mpr hd
  obtain ⟨buf₁, hs₁, hl₁, hb₁⟩ :=
    fillGap_spec (s := { s with buf := s.buf ++ more }) (by dsimp only; omega)
  dsimp only at hl₁ hb₁
  have hs : s.offset + d.length ≤ buf₁.length := by omega
  have hb₂ := overwrite_getElem?_of_le hs
  have ho := h.offset_eq
  have he := h.eof_eq
  refine ⟨overwrite buf₁ s.offset d, ?_, (overwrite_length ..).trans hl₁, fun hn => ?_, fun i hi => ?_⟩
  · rw [MemStream.copyData, hs₁]
    change (store buf₁ s.offset d >>= _) = _
    rw [store_eq hs]
    rfl
  · have hz := h.eof_nul (fun hz => by simp [hz] at hle; omega)
    grind
  · have := h.bytes i
    rw [write_getElem?]
    grind

theorem Refines.write (h : Refines s f) (hd : d ≠ []) (hg : Gives mem (f.pos + d.length + 1)) :
    ∃ s', writeMemstream mem s d = .ok (↑d.length, s') ∧ Refines s' (f.write d) := by
  obtain ⟨more, he, hlen, hlt⟩ := ensureCapacity_spec (h.offset_eq ▸ hg) h.buf_lt
  obtain ⟨buf, hc, hl, hz, hb⟩ := h.copyData hd hlen
  have heof := h.eof_eq
  have hoff := h.offset_eq
  have hwl : (f.write d).bytes.length = max (s.offset + d.length) s.eof := by
    simp [File.write]
    omega
  have hne : buf ≠ [] := fun hne => by simp [hne] at hl; simp at hlen; omega
  rw [writeMemstream, he]
  dsimp only
  rw [hc]
  by_cases hadv : s.eof < s.offset + d.length
  case neg =>
    have hp : Plain { s with buf, offset := s.offset + d.length } (f.write d) :=
      ⟨⟨by simp [hoff], by dsimp only; omega, fun hn => absurd hn hne, fun _ => hz (by omega),
        by dsimp only; omega, by dsimp only; omega⟩, fun i hi => hb i (by dsimp only at hi; omega)⟩
    obtain ⟨s', hs, hr⟩ := hp.stomp (by dsimp only; omega) hne
    refine ⟨s', ?_, hr⟩
    change (if _ then _ else _) = _
    rw [if_neg hadv, hs]
    rfl
  have hs : s.offset + d.length + [(0 : UInt8)].length ≤ buf.length := by simp; omega
  have ho := overwrite_getElem?_of_le hs
  have hol := overwrite_length buf (s.offset + d.length) [(0 : UInt8)]
  refine ⟨⟨overwrite buf (s.offset + d.length) [0], s.offset + d.length, s.offset + d.length,
    s.offset + d.length, s.saved⟩, ?_, ?_⟩
  · change (if _ then _ else _) = _
    rw [if_pos hadv, if_neg (by dsimp only; omega)]
    change (store buf _ [0] >>= _) = _
    rw [store_eq hs]
    rfl
  · refine ⟨⟨by simp [hoff], by dsimp only; omega, fun hn => ?_, fun _ => ?_, by dsimp only; omega,
      by dsimp only; omega⟩, fun i hi => ?_, by simp, fun _ => ?_⟩ <;> dsimp only at *
    · simp [hn] at hol; omega
    · grind
    · have := hb i (by omega)
      grind
    · grind

-- The offset that a file would be moved to. It is refused if it is not one.
def target (f : File) (offset : Int64) : Whence → Int
  | .set  => offset.toInt
  | .cur  => offset.toInt + f.pos
  | .end_ => offset.toInt + f.bytes.length

def fileSeek (f : File) (offset : Int64) (whence : Whence) : Int × File :=
  if 0 ≤ target f offset whence ∧ target f offset whence < 2 ^ 63 then
    (target f offset whence, f.seekSet (target f offset whence).toNat)
  else (-1, f)

theorem toI64_sum (offset : Int64) (h : n < 2 ^ 63) :
    toI64 (u64 (toU64 offset.toInt + n)) =
      if offset.toInt + n < 2 ^ 63 then offset.toInt + n else offset.toInt + n - 2 ^ 64 := by
  have h₁ := offset.toInt_lt
  have h₂ := offset.le_toInt
  rw [toI64, u64, toU64]
  split_ifs <;> omega

theorem Refines.seek (h : Refines s f) (offset : Int64) (whence : Whence) :
    ∃ s', seekMemstream s offset whence = .ok ((fileSeek f offset whence).fst, s') ∧
      Refines s' (fileSeek f offset whence).snd := by
  have hle := h.eof_le
  have hb := h.buf_lt
  have hoff := h.offset_lt
  have h₁ := offset.toInt_lt
  have h₂ := offset.le_toInt
  have hn : s.newPosn offset whence = if target f offset whence < 2 ^ 63 then target f offset whence
      else target f offset whence - 2 ^ 64 := by
    cases whence
    case set  => exact (if_pos h₁).symm
    case cur  => rw [newPosn, toI64_sum offset hoff, target, h.offset_eq]
    case end_ => rw [newPosn, toI64_sum offset (by omega), target, h.eof_eq]
  have hlt : target f offset whence < 2 ^ 64 := by
    have hpos := h.offset_eq
    have heof := h.eof_eq
    cases whence <;> rw [target] <;> omega
  rw [seekMemstream]
  by_cases hneg : s.newPosn offset whence < 0
  case pos =>
    have hf : fileSeek f offset whence = (-1, f) := if_neg (by split at hn <;> omega)
    rw [hf]
    exact ⟨s, if_pos hneg, h⟩
  have ht : s.newPosn offset whence = target f offset whence := by split at hn <;> omega
  obtain ⟨buf, hs, hp⟩ := h.restore (s.newPosn offset whence).toNat (by split at hn <;> omega)
  have hf : fileSeek f offset whence =
      (s.newPosn offset whence, f.seekSet (s.newPosn offset whence).toNat) := by
    rw [fileSeek, if_pos (by split at hn <;> omega), ht]
  rw [hf, if_neg hneg, hs]
  by_cases hlt : (s.newPosn offset whence).toNat < s.eof
  case pos =>
    obtain ⟨s', hst, hr⟩ := hp.stomp hlt.le (fun hz => by
      have := hp.unwritten hz
      dsimp only at this
      omega)
    refine ⟨s', ?_, hr⟩
    change (if _ then _ else _) = _
    rw [if_pos hlt, hst]
    rfl
  refine ⟨⟨buf, s.eof, s.eof, (s.newPosn offset whence).toNat, s.saved⟩, if_neg hlt,
    ⟨hp.toPlaced.offset_eq, hp.eof_eq, hp.unwritten, hp.eof_nul, hp.buf_lt, hp.offset_lt⟩,
    fun i hi => ?_, by dsimp only; omega, hp.eof_nul⟩
  have := hp.bytes i hi
  dsimp only at *
  rw [if_neg (by omega), this]

-- The calls of the stream. A write has a size that is a positive `int`, and the memory it finds.
inductive Op
  | write (mem : Realloc) (d : List UInt8) (size : 0 < d.length ∧ d.length < 2 ^ 31)
  | seek (offset : Int64) (whence : Whence)

-- The stream after some calls, with their results.
def run : List Op → MemStream → Except Fault (List Int × MemStream)
  | [], s => .ok ([], s)
  | .write mem d _ :: ops, s => do
    let (r, s) ← writeMemstream mem s d
    let (rs, s) ← run ops s
    return (r :: rs, s)
  | .seek offset whence :: ops, s => do
    let (r, s) ← seekMemstream s offset whence
    let (rs, s) ← run ops s
    return (r :: rs, s)

-- A file after the same calls. Every byte is written.
def fileRun : List Op → File → List Int × File
  | [], f => ([], f)
  | .write _ d _ :: ops, f =>
    let (rs, f) := fileRun ops (f.write d)
    (d.length :: rs, f)
  | .seek offset whence :: ops, f =>
    let (r, f) := fileSeek f offset whence
    let (rs, f) := fileRun ops f
    (r :: rs, f)

-- No allocation fails: each write finds memory for what the file has by then.
def Provides : List Op → File → Prop
  | [], _ => True
  | .write mem d _ :: ops, f => Gives mem (f.pos + d.length + 1) ∧ Provides ops (f.write d)
  | .seek offset whence :: ops, f => Provides ops (fileSeek f offset whence).snd

theorem Refines.run (h : Refines s f) (hp : Provides ops f) :
    ∃ s', run ops s = .ok ((fileRun ops f).fst, s') ∧ Refines s' (fileRun ops f).snd := by
  induction ops generalizing s f
  case nil => exact ⟨s, rfl, h⟩
  case cons op ops hi =>
    cases op
    case write mem d size =>
      obtain ⟨s₁, hw, h₁⟩ := h.write (length_pos_iff.mp size.left) hp.left
      obtain ⟨s₂, hr, h₂⟩ := hi h₁ hp.right
      refine ⟨s₂, ?_, h₂⟩
      rw [run, hw]
      change (run ops s₁ >>= _) = _
      rw [hr]
      rfl
    case seek offset whence =>
      obtain ⟨s₁, hs, h₁⟩ := h.seek offset whence
      obtain ⟨s₂, hr, h₂⟩ := hi h₁ hp
      refine ⟨s₂, ?_, h₂⟩
      rw [run, hs]
      change (run ops s₁ >>= _) = _
      rw [hr]
      rfl

theorem Refines.content_eq (h : Refines s f) : s.content = f.bytes := by
  have hle := h.eof_le
  apply ext_getElem?
  intro i
  have := h.bytes i
  have := h.eof_eq
  rw [content, getElem?_take]
  by_cases hlt : s.offset < s.eof
  case neg => grind
  rw [if_pos hlt, overwrite_getElem?_of_le (by simp; omega)]
  grind

theorem opened_refines : Refines opened .empty := by
  constructor
  case toPlaced => constructor <;> simp [opened, File.empty]
  all_goals simp [opened]

theorem run_refines (h : Provides ops .empty) :
    ∃ s, run ops opened = .ok ((fileRun ops .empty).fst, s) ∧
      s.content = (fileRun ops .empty).snd.bytes ∧ s.offset = (fileRun ops .empty).snd.pos ∧
      s.sizep = min s.offset s.eof ∧ (s.buf ≠ [] → s.buf[s.sizep]? = some 0) := by
  obtain ⟨s, hr, h⟩ := opened_refines.run h
  exact ⟨s, hr, h.content_eq, h.offset_eq, h.sizep_eq, h.nul⟩

def plenty : Realloc where
  gives n := n < 2 ^ 63
  fresh _ := 0
  lt h    := of_decide_eq_true h

theorem gives_plenty (h : n < 2 ^ 62) : Gives plenty n := by
  intro m hm
  rw [kInitialSize] at hm
  exact decide_eq_true (by omega)

-- Two bytes, one of them written over, and one behind a gap.
theorem run_refines_gap :
    ∃ s, run [.write plenty [1, 2] (by decide), .seek 0 .set, .write plenty [3] (by decide),
        .seek (-4) .cur, .seek 1 .end_, .write plenty [4] (by decide)] opened =
      .ok ([2, 0, 1, -1, 3, 1], s) ∧ s.content = [3, 2, 0, 4] := by
  have hp : Provides [.write plenty [1, 2] (by decide), .seek 0 .set, .write plenty [3] (by decide),
      .seek (-4) .cur, .seek 1 .end_, .write plenty [4] (by decide)] .empty :=
    ⟨gives_plenty (by decide), gives_plenty (by decide), gives_plenty (by decide), trivial⟩
  obtain ⟨s, hr, hc, _⟩ := run_refines hp
  exact ⟨s, hr, hc⟩

end MemStream

end Cutils
