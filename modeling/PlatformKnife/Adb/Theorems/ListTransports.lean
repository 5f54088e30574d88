import PlatformKnife.Adb.ListTransports

namespace Adb.ListTransports

open CString Printf Slice List Option Qual ListTransports

theorem sizeSub_of_le (h : b ≤ a) (ha : a < 2 ^ 64) : sizeSub a b = a - b := by
  rw [sizeSub]
  omega

theorem sizeSub_ne_zero (h : a < b) (hb : b < 2 ^ 64) : sizeSub a b ≠ 0 := by
  rw [sizeSub]
  omega

-- What is returned for a line of this length without the newline. The size wraps below zero if nothing
-- was left, and back when it is subtracted.
theorem sizeSub_newline (n : Nat) (hr : r < 2 ^ 63) : sizeSub r (sizeSub (r - n) 1) = min n r + 1 := by
  simp only [sizeSub]
  omega

-- The text that a call of `add_qual` stands for.
def Qual.shown (q : Qual) : List UInt8 :=
  match present q.qual with
  | none => []
  | some qual => q.start ++ (if q.sanitizeQual then qual.map sanitize else qual)

def quals (t : Atransport) : List Qual :=
  [⟨ofString " ", t.devpath, false⟩, ⟨ofString " product:", t.product, false⟩,
    ⟨ofString " model:", t.model, true⟩, ⟨ofString " device:", t.device, false⟩]

-- The pieces of a line in the long listing, without the newline.
def pieces (t : Atransport) : List (List UInt8) :=
  longHead t :: (quals t).map Qual.shown

def line (long : Bool) (t : Atransport) : List UInt8 :=
  if long then (pieces t).flatten ++ [10] else shortLine t

def listing (long : Bool) (ts : List Atransport) : List UInt8 :=
  ts.flatMap (line long)

-- There is room for the pieces of a line: each goes at most up to the end of the buffer, and none follows
-- one that goes exactly to it.
def Room : Nat → List (List UInt8) → Prop
  | _, [] => True
  | r, a :: as => r = 0 ∨ a.length ≤ intMax ∧ a.length ≤ r ∧ Room (r - a.length) as

def LineFits (long : Bool) (r : Nat) (t : Atransport) : Prop :=
  if long then Room r (pieces t) ∧ min (pieces t).flatten.length r < intMax
  else (shortLine t).length ≤ intMax

-- What is asked of the transports that are reached with this much space left.
def Listable (long : Bool) : Nat → List Atransport → Prop
  | _, [] => True
  | r, t :: ts =>
    LineFits long r t ∧ ((line long t).length < r → Listable long (r - (line long t).length) ts)

-- The transports whose lines fit, up to the first one whose line does not.
def fitting (long : Bool) : Nat → List Atransport → List Atransport
  | _, [] => []
  | r, t :: ts =>
    if (line long t).length < r then t :: fitting long (r - (line long t).length) ts else []

-- The buffer has whole lines and a terminator, with their length returned.
def Listed (ts : List Atransport) (buffer : List UInt8) (long : Bool) : Prop :=
  ∃ buffer' shown,
    listTransports ts buffer long = some (buffer', ((listing long shown).length : Int)) ∧
    buffer'.length = buffer.length ∧ shown <+: ts ∧ ofBuffer buffer' = listing long shown ∧
    (listing long shown).length < buffer.length

theorem fitting_isPrefixOf (long : Bool) (r : Nat) (ts : List Atransport) : fitting long r ts <+: ts := by
  induction ts generalizing r
  case nil => exact prefix_refl []
  case cons t ts hi =>
    rw [fitting]
    split
    case isTrue  => exact cons_prefix_cons.mpr ⟨rfl, hi _⟩
    case isFalse => exact List.nil_prefix

section

variable {N : Nat} {text : List UInt8} {c : Cursor} {q : Qual}

-- The cursor is in the buffer, which starts with a text, up to the cursor if there is space left.
structure Inside (N : Nat) (text : List UInt8) (c : Cursor) : Prop where
  length : c.buffer.length = N
  space : c.buf + c.size = N
  text_le : text.length ≤ c.buf
  take_eq : c.buffer.take text.length = text
  upTo : c.size ≠ 0 → c.buf = text.length

-- The cursor is behind the end of the buffer, and there is space left for it.
structure Outside (c : Cursor) : Prop where
  behind : c.buffer.length ≤ c.buf
  size   : c.size ≠ 0

theorem Qual.shown_of_none (h : present q.qual = none) : q.shown = [] := by
  rw [shown, h]

theorem Qual.shown_of_some (h : present q.qual = some l) :
    q.shown = q.start ++ (if q.sanitizeQual then l.map sanitize else l) := by
  rw [shown, h]

theorem Qual.shown_length (h : present q.qual = some l) : q.shown.length = (q.start ++ l).length := by
  rw [shown_of_some h]
  split <;> simp

theorem addQual_of_none (h : present q.qual = none) (c : Cursor) : addQual c q = some c := by
  rw [addQual, h]

theorem addQual_of_size (h : c.size = 0) (q : Qual) : addQual c q = some c := by
  rw [addQual]
  cases present q.qual
  case none => rfl
  case some => exact if_pos h

theorem addQual_of_overlong (h : intMax < q.shown.length) (hc : c.size ≠ 0) : addQual c q = none := by
  rcases hq : present q.qual with _ | l
  · simp [shown_of_none hq] at h
  rw [shown_length hq] at h
  rw [addQual, hq]
  dsimp only
  rw [if_neg hc, snprintf_of_overlong h]

theorem Outside.addQual (h : Outside c) (q : Qual) : addQual c q = none ∨ addQual c q = some c := by
  rcases hq : present q.qual with _ | l
  · exact .inr (addQual_of_none hq c)
  left
  rw [ListTransports.addQual, hq]
  dsimp only
  rw [if_neg h.size, snprintf_of_outside h.behind h.size]

theorem Outside.print (h : Outside c) (text : List UInt8) : c.print text = none := by
  rw [Cursor.print, snprintf_of_outside h.behind h.size]

theorem take_sanitizeRange (hb : buffer.take (front.length + l.length) = front ++ l)
    (hl : front.length + l.length ≤ buffer.length) :
    (overwrite buffer front.length
      ((slice buffer front.length (front.length + l.length)).map sanitize)).take
        (front.length + l.length) = front ++ l.map sanitize := by
  have hs : slice buffer front.length (front.length + l.length) = l := by
    rw [slice, hb, drop_left]
  have hm : front.length + (l.map sanitize).length ≤ buffer.length := by
    rw [length_map]
    exact hl
  have ho := take_overwrite_append hm
  have ht : buffer.take front.length = front := by
    have := congrArg (take front.length) hb
    rwa [take_take, min_eq_left (Nat.le_add_right _ _), take_left] at this
  rw [hs]
  rw [length_map, ht] at ho
  exact ho

theorem Inside.advance (h : Inside N text c) (hc : c.size ≠ 0) (hl : buffer.length = N)
    (hs : a.length ≤ c.size) (ht : buffer.take text.length = text)
    (ha : a.length < c.size → buffer.take (text.length + a.length) = text ++ a) :
    Inside N (if a.length < c.size then text ++ a else text)
      ⟨buffer, c.buf + a.length, c.size - a.length⟩ := by
  have hp := h.upTo hc
  have hn := h.space
  split
  case isTrue hlt =>
    refine ⟨hl, ?_, ?_, ?_, ?_⟩
    · dsimp only; omega
    · rw [length_append, hp]
    · rw [length_append, ha hlt]
    · intro _
      rw [length_append, hp]
  case isFalse hlt =>
    refine ⟨hl, ?_, ?_, ht, ?_⟩
    · dsimp only; omega
    · dsimp only; omega
    · dsimp only; omega

theorem Inside.addQual
    (h : Inside N text c) (hN : N < 2 ^ 63) (hc : c.size ≠ 0) (hi : q.shown.length ≤ intMax)
    (hs : q.shown.length ≤ c.size) :
    ∃ c', addQual c q = some c' ∧ c'.size = c.size - q.shown.length ∧
      Inside N (if q.shown.length < c.size then text ++ q.shown else text) c' := by
  have hp := h.upTo hc
  have hn := h.space
  rcases hq : present q.qual with _ | l
  · have he := shown_of_none hq
    refine ⟨c, addQual_of_none hq c, by simp [he], ?_⟩
    simpa [he, pos_of_ne_zero hc] using h
  have hlen := shown_length hq
  rw [hlen] at hi
  have hb : c.buf + c.size ≤ c.buffer.length := by rw [h.length, hn]
  rw [ListTransports.addQual, hq]
  dsimp only
  rw [if_neg hc, snprintf_of_room hi hc hb]
  dsimp only
  rw [← hlen, sizeSub_of_le hs (by omega)]
  have ht : (overwrite c.buffer c.buf ((q.start ++ l).take (c.size - 1) ++ [0])).take text.length =
      text := by
    rw [take_overwrite_of_le h.text_le, h.take_eq]
  have ha (hlt : q.shown.length < c.size) :
      (overwrite c.buffer c.buf ((q.start ++ l).take (c.size - 1) ++ [0])).take
        (text.length + (q.start ++ l).length) = text ++ (q.start ++ l) := by
    rw [hlen] at hlt
    have ht := take_overwrite_terminated hlt hb
    rw [hp, h.take_eq] at ht
    rw [hp, ht]
  split
  case isFalse hz =>
    have he : q.shown = q.start ++ l := by rw [shown_of_some hq, if_neg hz]
    rw [he] at hs ha ⊢
    exact ⟨_, rfl, rfl, h.advance hc (by rw [overwrite_length, h.length]) hs ht ha⟩
  case isTrue hz =>
    have he : q.shown = q.start ++ l.map sanitize := by rw [shown_of_some hq, if_pos hz]
    have hr : c.buf + q.shown.length ≤ c.buffer.length := by omega
    rw [sanitizeRange, overwrite_length, if_pos hr]
    dsimp only
    refine ⟨_, rfl, rfl, h.advance hc (by simp only [overwrite_length, h.length]) hs ?_ ?_⟩
    · rw [take_overwrite_of_le (by omega), ht]
    · intro hlt
      have hf : (text ++ q.start).length + l.length = text.length + q.shown.length := by
        rw [hlen, length_append, length_append, add_assoc]
      have hw := ha hlt
      rw [← hlen, ← hf, ← append_assoc] at hw
      have hz := take_sanitizeRange hw (by rw [overwrite_length, hf]; omega)
      rw [hf, length_append, ← hp, append_assoc, ← he] at hz
      rw [← hp, hz]

theorem Inside.addQual_of_lt (h : Inside N text c) (hc : c.size ≠ 0) (hi : q.shown.length ≤ intMax)
    (hs : c.size < q.shown.length) :
    ListTransports.addQual c q = none ∨ ∃ c', ListTransports.addQual c q = some c' ∧ Outside c' := by
  rcases hq : present q.qual with _ | l
  · simp [Qual.shown_of_none hq] at hs
  have hlen := Qual.shown_length hq
  have hn := h.space
  have hl := h.length
  have hz : sizeSub c.size q.shown.length ≠ 0 := by
    apply sizeSub_ne_zero hs
    rw [intMax] at hi
    omega
  rw [ListTransports.addQual, hq]
  dsimp only
  rw [if_neg hc, snprintf_of_room (hlen ▸ hi) hc (by omega)]
  dsimp only
  rw [← hlen]
  split
  case isFalse => exact .inr ⟨_, rfl, by dsimp only; rw [overwrite_length]; omega, hz⟩
  left
  rw [sanitizeRange, overwrite_length, if_neg (by omega)]

theorem Outside.foldlM (h : Outside c) (qs : List Qual) :
    (qs.foldlM ListTransports.addQual c).bind (·.print [10]) = none := by
  induction qs
  case nil => exact h.print [10]
  case cons q qs hi =>
    rw [foldlM_cons]
    rcases h.addQual q with he | he <;> rw [he]
    case inl => rfl
    case inr => exact hi

theorem Inside.foldlM
    (h : Inside N text c) (hN : N < 2 ^ 63) (qs : List Qual) (hr : Room c.size (qs.map Qual.shown)) :
    ∃ c' text', qs.foldlM ListTransports.addQual c = some c' ∧ Inside N text' c' ∧ text <+: text' ∧
      c'.size = c.size - (qs.map Qual.shown).flatten.length ∧
      (c'.size ≠ 0 → text' = text ++ (qs.map shown).flatten) := by
  induction qs generalizing c text
  case nil => exact ⟨c, text, rfl, h, prefix_refl _, by simp, by simp⟩
  case cons q qs hi =>
    by_cases hc : c.size = 0
    case pos =>
      -- Without space nothing is printed.
      obtain ⟨c', text', he, hin, hp, hs, -⟩ := hi h (by cases qs <;> simp [Room, hc])
      rw [foldlM_cons, addQual_of_size hc]
      exact ⟨c', text', he, hin, hp, by simp [hs, hc], fun hz => absurd (by simp [hs, hc]) hz⟩
    obtain ⟨hm, hle, hroom⟩ := hr.resolve_left hc
    obtain ⟨c₁, he₁, hs₁, hin₁⟩ := h.addQual hN hc hm hle
    rw [← hs₁] at hroom
    obtain ⟨c', text', he, hin, hp, hs, ht⟩ := hi hin₁ hroom
    refine ⟨c', text', ?_, hin, ?_, ?_, ?_⟩
    · rw [foldlM_cons, he₁]
      exact he
    · split at hp
      case isTrue  => exact (prefix_append _ _).trans hp
      case isFalse => exact hp
    · rw [hs, hs₁, map_cons, flatten_cons, length_append, Nat.sub_sub]
    · intro hz
      rw [ht hz, if_pos (by omega), map_cons, flatten_cons, append_assoc]

theorem Inside.foldlM_of_not_room
    (h : Inside N text c) (hN : N < 2 ^ 63) (qs : List Qual) (hr : ¬Room c.size (qs.map Qual.shown)) :
    (qs.foldlM ListTransports.addQual c).bind (·.print [10]) = none := by
  induction qs generalizing c text
  case nil => exact absurd trivial hr
  case cons q qs hi =>
    rw [map_cons, Room, not_or] at hr
    obtain ⟨hc, hr⟩ := hr
    rw [foldlM_cons]
    by_cases hm : q.shown.length ≤ intMax
    case neg =>
      rw [addQual_of_overlong (not_le.mp hm) hc]
      rfl
    by_cases hle : q.shown.length ≤ c.size
    case neg =>
      rcases h.addQual_of_lt hc hm (not_le.mp hle) with he | ⟨c', he, ho⟩ <;> rw [he]
      case inl => rfl
      case inr => exact ho.foldlM qs
    obtain ⟨c', he, hs, hin⟩ := h.addQual hN hc hm hle
    rw [he]
    apply hi hin
    rw [hs]
    exact fun hroom => hr ⟨hm, hle, hroom⟩

theorem Inside.newline (h : Inside N text c) :
    ∃ buffer, c.print [10] = some ⟨buffer, c.buf + 1, sizeSub c.size 1⟩ ∧ buffer.length = N ∧
      buffer.take text.length = text ∧
      (1 < c.size → buffer.take (text.length + 1) = text ++ [10]) := by
  have hn := h.space
  have hi : [10].length ≤ intMax := by decide
  by_cases hc : c.size = 0
  case pos =>
    rw [Cursor.print, hc, snprintf_zero hi]
    exact ⟨c.buffer, rfl, h.length, h.take_eq, fun hz => absurd hz (by decide)⟩
  have hb : c.buf + c.size ≤ c.buffer.length := by rw [h.length, hn]
  rw [Cursor.print, snprintf_of_room hi hc hb]
  refine ⟨_, rfl, ?_, ?_, ?_⟩
  · rw [overwrite_length, h.length]
  · rw [take_overwrite_of_le h.text_le, h.take_eq]
  · intro hlt
    have hl : ([10] : List UInt8).length < c.size := hlt
    have ht := take_overwrite_terminated hl hb
    have hp := h.upTo hc
    rw [hp, h.take_eq] at ht
    rw [hp]
    exact ht

end

theorem zero_notMem_present (h : present s = some l) : 0 ∉ l := by
  obtain _ | s := s
  · cases h
  rw [present] at h
  split at h
  case isTrue  => cases h
  case isFalse => exact some.inj h ▸ s.no_zero

section

variable (t : Atransport)

theorem zero_notMem_serialOf : 0 ∉ serialOf t := by
  rw [serialOf]
  cases h : present t.serial
  case none => decide +kernel
  case some l => exact zero_notMem_present h

theorem zero_notMem_statename : 0 ∉ statename t := by
  rw [statename]
  split <;> decide +kernel

theorem zero_notMem_longHead : 0 ∉ longHead t := by
  have h : 0 ∉ padRight 22 32 (serialOf t) :=
    zero_notMem_padRight (by decide) (zero_notMem_serialOf t)
  simp [longHead, h, zero_notMem_statename]

theorem longHead_ne_nil : longHead t ≠ [] := by
  simp [longHead]

end

theorem zero_notMem_sanitize (l : List UInt8) (h : 0 ∉ l) : 0 ∉ l.map sanitize := by
  intro hz
  obtain ⟨ch, hm, he⟩ := mem_map.mp hz
  rw [sanitize] at he
  split at he
  case isTrue  => exact absurd he (by decide)
  case isFalse => exact h (he ▸ hm)

theorem Qual.zero_notMem_shown {q : Qual} (h : 0 ∉ q.start) : 0 ∉ q.shown := by
  rcases hq : present q.qual with _ | l
  · simp [shown_of_none hq]
  have hl := zero_notMem_present hq
  rw [shown_of_some hq]
  split <;> simp [h, hl, zero_notMem_sanitize]

theorem zero_notMem_pieces (t : Atransport) : 0 ∉ (pieces t).flatten := by
  have h : ∀ q ∈ quals t, 0 ∉ q.start := by
    simp only [quals, forall_mem_cons]
    decide +kernel
  intro hz
  obtain ⟨a, ha, hm⟩ := mem_flatten.mp hz
  rcases mem_cons.mp ha with rfl | ha
  case inl => exact zero_notMem_longHead t hm
  obtain ⟨q, hq, rfl⟩ := mem_map.mp ha
  exact zero_notMem_shown (h q hq) hm

theorem zero_notMem_listing (long : Bool) (ts : List Atransport) : 0 ∉ listing long ts := by
  intro hz
  obtain ⟨t, -, hm⟩ := mem_flatMap.mp hz
  cases long
  case false =>
    refine absurd hm ?_
    simp [line, shortLine, zero_notMem_serialOf, zero_notMem_statename]
  case true =>
    refine absurd hm ?_
    simp only [line, if_true, mem_append, not_or]
    exact ⟨zero_notMem_pieces t, by decide⟩

def headQual (t : Atransport) : Qual :=
  ⟨[], some ⟨longHead t, zero_notMem_longHead t⟩, false⟩

theorem present_headQual (t : Atransport) : present (headQual t).qual = some (longHead t) :=
  if_neg (longHead_ne_nil t)

theorem pieces_eq_map (t : Atransport) : pieces t = (headQual t :: quals t).map shown := by
  rw [pieces, map_cons, shown_of_some (present_headQual t)]
  rfl

theorem print_longHead (h : c.size ≠ 0) (t : Atransport) :
    c.print (longHead t) = addQual c (headQual t) := by
  rw [addQual, present_headQual]
  dsimp only
  rw [if_neg h]
  rfl

theorem formatTransport_long (t : Atransport) (buffer : List UInt8) (buf : Nat) (h : size ≠ 0) :
    formatTransport t buffer buf size true =
      (((headQual t :: quals t).foldlM addQual ⟨buffer, buf, size⟩).bind (·.print [10])).bind
        fun c => some (c.buffer, sizeSub size c.size) := by
  rw [formatTransport, if_pos rfl, print_longHead h]
  simp only [foldlM_cons, foldlM_nil, quals, bind, bind_assoc, pure, bind_some]

section

variable {buffer out : List UInt8} (hN : buffer.length < 2 ^ 63) (ho : out.length < buffer.length)
variable (ht : buffer.take out.length = out)

include hN ho ht

theorem formatTransport_cases (long : Bool) (t : Atransport) :
    (LineFits long (buffer.length - out.length) t ∧ ∃ buffer' len,
      formatTransport t buffer out.length (buffer.length - out.length) long = some (buffer', len) ∧
      buffer'.length = buffer.length ∧ buffer'.take out.length = out ∧ len ≤ intMax ∧
      (buffer.length ≤ out.length + len ↔ buffer.length ≤ out.length + (line long t).length) ∧
      ((line long t).length < buffer.length - out.length → len = (line long t).length ∧
        buffer'.take (out ++ line long t).length = out ++ line long t)) ∨
    (¬LineFits long (buffer.length - out.length) t ∧
      (formatTransport t buffer out.length (buffer.length - out.length) long = none ∨
      ∃ buffer' len, intMax < len ∧
        formatTransport t buffer out.length (buffer.length - out.length) long = some (buffer', len))) := by
  have hz : buffer.length - out.length ≠ 0 := by omega
  have hs : out.length + (buffer.length - out.length) = buffer.length := by omega
  cases long
  case false =>
    have hl : line false t = shortLine t := rfl
    rw [LineFits, if_neg Bool.false_ne_true, formatTransport, if_neg Bool.false_ne_true]
    by_cases h : (shortLine t).length ≤ intMax
    case neg => exact .inr ⟨h, .inl (snprintf_of_overlong (not_le.mp h) ..)⟩
    rw [snprintf_of_room h hz hs.le, hl]
    refine .inl ⟨h, _, _, rfl, overwrite_length .., ?_, h, Iff.rfl, fun hlt => ⟨rfl, ?_⟩⟩
    · rw [take_overwrite_of_le (le_refl _), ht]
    · rw [length_append, take_overwrite_terminated hlt hs.le, ht]
  case true =>
    have hl : line true t = (pieces t).flatten ++ [10] := rfl
    have hin : Inside buffer.length out ⟨buffer, out.length, buffer.length - out.length⟩ :=
      ⟨rfl, hs, le_refl _, ht, fun _ => rfl⟩
    rw [LineFits, if_pos rfl, hl, pieces_eq_map, formatTransport_long t buffer out.length hz]
    by_cases hroom : Room (buffer.length - out.length) ((headQual t :: quals t).map Qual.shown)
    case neg => exact .inr ⟨fun h => hroom h.left, .inl (by rw [hin.foldlM_of_not_room hN _ hroom]; rfl)⟩
    obtain ⟨c, text, he, hin', hp, hsize, htext⟩ := hin.foldlM hN _ hroom
    obtain ⟨buffer', hn, hl', ht', hline⟩ := hin'.newline
    have hlen := sizeSub_newline ((headQual t :: quals t).map shown).flatten.length
      (by omega : buffer.length - out.length < 2 ^ 63)
    dsimp only at hsize
    rw [← hsize] at hlen
    rw [he, bind_some, hn, bind_some, hlen]
    by_cases hm : min ((headQual t :: quals t).map shown).flatten.length
        (buffer.length - out.length) < intMax
    case neg =>
      exact .inr ⟨fun h => hm h.right, .inr ⟨buffer', _, Nat.lt_succ_of_le (not_lt.mp hm), rfl⟩⟩
    have hto : buffer'.take out.length = out := by
      obtain ⟨back, rfl⟩ := hp
      have := congrArg (take out.length) ht'
      rwa [take_take, length_append, min_eq_left (Nat.le_add_right _ _), take_left] at this
    simp only [length_append, length_singleton]
    refine .inl ⟨⟨hroom, hm⟩, buffer', _, rfl, hl', hto, hm, ?_, ?_⟩
    · omega
    · intro hlt
      have htx := htext (by omega)
      refine ⟨by omega, ?_⟩
      have hb := hline (by omega)
      rw [htx, length_append, append_assoc, add_assoc] at hb
      exact hb

theorem listLoop_of_listable (h : Listable long (buffer.length - out.length) ts) :
    ∃ buffer', listLoop long ts buffer out.length = some (buffer',
        (out ++ listing long (fitting long (buffer.length - out.length) ts)).length) ∧
      buffer'.length = buffer.length ∧
      (out ++ listing long (fitting long (buffer.length - out.length) ts)).length < buffer.length ∧
      buffer'.take (out ++ listing long (fitting long (buffer.length - out.length) ts)).length =
        out ++ listing long (fitting long (buffer.length - out.length) ts) := by
  induction ts generalizing buffer out
  case nil =>
    exact ⟨buffer, by simp [listLoop, fitting, listing], rfl, by simpa [fitting, listing] using ho,
      by simpa [fitting, listing] using ht⟩
  case cons t ts hi =>
    obtain ⟨hfit, hrest⟩ := h
    obtain ⟨_, b, len, he, hl, hto, hm, hiff, hline⟩ :=
      (formatTransport_cases hN ho ht long t).resolve_right fun h => h.left hfit
    rw [listLoop, he, fitting]
    dsimp only
    rw [if_neg (not_lt.mpr hm), hl]
    split
    case isTrue hend =>
      rw [if_neg (by omega)]
      exact ⟨b, by simp [listing], hl, by simpa [listing] using ho, by simpa [listing] using hto⟩
    case isFalse hend =>
      have hlt : (line long t).length < buffer.length - out.length := by omega
      obtain ⟨rfl, htake⟩ := hline hlt
      have hsub : buffer.length - out.length - (line long t).length =
          b.length - (out ++ line long t).length := by
        rw [hl, length_append, Nat.sub_sub]
      have hoo : (out ++ line long t).length < b.length := by
        rw [length_append]
        omega
      have hr := hrest hlt
      rw [hsub] at hr
      obtain ⟨b', he', hl', hlt', ht'⟩ := hi (hl ▸ hN) hoo htake hr
      have hcat (l : List Atransport) :
          out ++ listing long (t :: l) = out ++ line long t ++ listing long l := by
        rw [listing, flatMap_cons, append_assoc, listing]
      rw [if_pos hlt, hsub, hcat, ← length_append]
      exact ⟨b', he', hl'.trans hl, hl ▸ hlt', ht'⟩

theorem listLoop_of_not_listable (h : ¬Listable long (buffer.length - out.length) ts) :
    listLoop long ts buffer out.length = none := by
  induction ts generalizing buffer out
  case nil => exact absurd trivial h
  case cons t ts hi =>
    rw [listLoop]
    rcases formatTransport_cases hN ho ht long t with
      ⟨hfit, b, len, he, hl, -, hm, hiff, hline⟩ | ⟨_, he | ⟨b, len, hm, he⟩⟩
    case inr.inl => rw [he]
    case inr.inr =>
      rw [he]
      exact if_pos hm
    rw [he]
    dsimp only
    rw [Listable, not_and, Classical.not_imp] at h
    obtain ⟨hlt, hrest⟩ := h hfit
    obtain ⟨rfl, htake⟩ := hline hlt
    rw [if_neg (not_lt.mpr hm), hl, if_neg (by omega), ← length_append]
    apply hi (hl ▸ hN) (by rw [length_append]; omega) htake
    rwa [hl, length_append, ← Nat.sub_sub]

end

theorem bmod_eq_self_iff (p : Nat) : Int.bmod p (2 ^ 32) = p ↔ p ≤ intMax := by
  rw [intMax, Int.bmod_def]
  omega

-- The listing is sound exactly if each line that is reached has room for its pieces and lengths are `int`s.
theorem listTransports_listed_iff
    (long : Bool) (ts : List Atransport) {buffer : List UInt8} (h₁ : 1 ≤ buffer.length)
    (h₂ : buffer.length < 2 ^ 63) :
    Listed ts buffer long ↔ Listable long buffer.length ts ∧
      (listing long (fitting long buffer.length ts)).length ≤ intMax := by
  by_cases hl : Listable long buffer.length ts
  case neg =>
    have hn : listLoop long ts buffer ([] : List UInt8).length = none :=
      listLoop_of_not_listable h₂ (by exact h₁) rfl hl
    have he : listTransports ts buffer long = none := by rw [listTransports, ← length_nil, hn]
    refine iff_of_false ?_ fun h => hl h.1
    rintro ⟨buffer', shown, hs, -⟩
    rw [he] at hs
    cases hs
  have ho : ([] : List UInt8).length < buffer.length := h₁
  obtain ⟨b, he, hb, hlt, ht⟩ := listLoop_of_listable h₂ ho rfl hl
  simp only [nil_append, length_nil, Nat.sub_zero] at he hlt ht
  have hp : (listing long (fitting long buffer.length ts)).length < b.length := hb ▸ hlt
  have hstr : ofBuffer (overwrite b (listing long (fitting long buffer.length ts)).length [0]) =
      listing long (fitting long buffer.length ts) := by
    rw [overwrite_singleton hp, ht, ofBuffer_append (zero_notMem_listing _ _)]
  simp only [Listed, listTransports, he, if_pos hp, some.injEq, Prod.mk.injEq]
  constructor
  case mp =>
    rintro ⟨buffer', shown, ⟨rfl, hret⟩, -, -, hshown, -⟩
    rw [hstr] at hshown
    rw [← hshown, bmod_eq_self_iff] at hret
    exact ⟨hl, hret⟩
  case mpr =>
    rintro ⟨-, hm⟩
    exact ⟨_, fitting long buffer.length ts, ⟨rfl, (bmod_eq_self_iff _).mpr hm⟩,
      (overwrite_length ..).trans hb, fitting_isPrefixOf .., hstr, hlt⟩

theorem zero_notMem_replicate_a (n : Nat) : 0 ∉ replicate n (97 : UInt8) := by
  intro h
  exact absurd (eq_of_mem_replicate h) (by decide)

-- A device without a serial number, whose name fits into its packet.
def longName : Atransport where
  serial := none
  product := some ⟨List.replicate 4066 97, zero_notMem_replicate_a 4066⟩
  model := none
  device := none
  devpath := none
  connectionState := 2

theorem longHead_longName_length : (longHead longName).length = 29 := by
  decide +kernel

theorem shortLine_longName_length : (shortLine longName).length = 20 := by
  decide +kernel

-- The short listing for `host:devices` shows the device.
theorem listed_longName_short :
    1 ≤ (List.replicate 4096 (0 : UInt8)).length ∧
    Listed [longName] (List.replicate 4096 0) false := by
  have hn : (replicate 4096 (0 : UInt8)).length = 4096 := length_replicate
  have hl : (line false longName).length = 20 := shortLine_longName_length
  have h₁ : 1 ≤ (replicate 4096 (0 : UInt8)).length := by omega
  have hiff := listTransports_listed_iff false [longName] h₁ (by omega)
  refine ⟨h₁, hiff.mpr ⟨⟨?_, fun _ => trivial⟩, ?_⟩⟩
  · rw [LineFits, if_neg Bool.false_ne_true, shortLine_longName_length]
    decide
  · rw [hn, fitting, hl, if_pos (by decide), fitting, listing, flatMap_singleton, hl]
    decide

-- The newline of the long listing is written behind this buffer.
theorem not_listed_longName : ¬Listed [longName] (List.replicate 4096 0) true := by
  have hn : (replicate 4096 (0 : UInt8)).length = 4096 := length_replicate
  have hp : (ofString " product:").length = 9 := by decide +kernel
  have hroom : ¬Room 4096 (pieces longName) := by
    change ¬Room 4096 [longHead longName, [], ofString " product:" ++ replicate 4066 97, [], []]
    simp only [Room, longHead_longName_length, length_append, hp,
      length_replicate, length_nil]
    omega
  have hl : ¬Listable true ((replicate 4096 (0 : UInt8)).length - ([] : List UInt8).length)
      [longName] := by
    rw [hn]
    exact fun h => hroom h.1.1
  have he : listLoop true [longName] (replicate 4096 0) ([] : List UInt8).length = none :=
    listLoop_of_not_listable (by omega) (by rw [hn]; decide) rfl hl
  rintro ⟨buffer', shown, hs, -⟩
  rw [listTransports, ← length_nil, he] at hs
  cases hs

end Adb.ListTransports
