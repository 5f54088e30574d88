import PlatformKnife.Cutils.RecordStream

namespace RecordStream

open Bytes Slice List RecordStream.Stream RecordStream

def encode (r : List UInt8) : List UInt8 :=
  be 4 r.length ++ r

-- The bytes that are in the buffer and not consumed.
def Stream.pending (rs : Stream) : List UInt8 :=
  (rs.buffer.drop rs.unconsumed).take (rs.readEnd - rs.unconsumed)

-- What is pending and still to be read are the records that were not returned.
structure Holds (rs : Stream) (input : List UInt8) (recs : List (List UInt8)) : Prop where
  max : rs.maxRecordLen ≤ 0xffff
  length_eq : rs.buffer.length = rs.maxRecordLen + HEADER_SIZE
  consumed : rs.unconsumed ≤ rs.readEnd
  readEnd_le : rs.readEnd ≤ rs.buffer.length
  bytes : rs.pending ++ input = recs.flatMap encode
  fits : ∀ r ∈ recs, r.length ≤ rs.maxRecordLen

variable {rs : Stream}

theorem pending_length (hc : rs.unconsumed ≤ rs.readEnd) (he : rs.readEnd ≤ rs.buffer.length) :
    rs.pending.length = rs.readEnd - rs.unconsumed := by
  simp only [pending, length_take, length_drop]
  omega

theorem readBetween_eq {buffer : List UInt8} (h : j ≤ buffer.length) :
    readBetween buffer i j = .ok ((buffer.drop i).take (j - i)) :=
  if_pos h

-- The length of the first record, according to its header.
def Stream.headerLen (rs : Stream) : Nat :=
  fromBe (rs.pending.take HEADER_SIZE)

theorem getNextRecord_eq (hc : rs.unconsumed ≤ rs.readEnd) (he : rs.readEnd ≤ rs.buffer.length) :
    getNextRecord rs = .ok (
      if rs.pending.length < HEADER_SIZE ∨ rs.pending.length < HEADER_SIZE + rs.headerLen then (none, rs)
      else (some ((rs.pending.drop HEADER_SIZE).take rs.headerLen),
        { rs with unconsumed := rs.unconsumed + HEADER_SIZE + rs.headerLen })) := by
  rw [pending_length hc he]
  by_cases h : rs.readEnd < rs.unconsumed + HEADER_SIZE
  case pos =>
    rw [if_pos (.inl (by omega)), getNextRecord, getEndOfRecord, if_pos h]
    rfl
  have hh : (rs.buffer.drop rs.unconsumed).take HEADER_SIZE = rs.pending.take HEADER_SIZE := by
    rw [pending, take_take, min_eq_left (by omega)]
  have hend : getEndOfRecord rs.buffer rs.unconsumed rs.readEnd = .ok (
      if rs.readEnd < rs.unconsumed + HEADER_SIZE + rs.headerLen then none
      else some (rs.unconsumed + HEADER_SIZE + rs.headerLen)) := by
    rw [getEndOfRecord, if_neg h, readBetween_eq (by omega), Nat.add_sub_cancel_left, hh,
      apply_ite Except.ok]
    rfl
  rw [getNextRecord, hend]
  by_cases hl : rs.readEnd < rs.unconsumed + HEADER_SIZE + rs.headerLen
  case pos =>
    rw [if_pos hl, if_pos (.inr (by omega))]
    rfl
  have hbody : readBetween rs.buffer (rs.unconsumed + HEADER_SIZE)
      (rs.unconsumed + HEADER_SIZE + rs.headerLen) =
      .ok ((rs.pending.drop HEADER_SIZE).take rs.headerLen) := by
    rw [readBetween_eq (by omega), Nat.add_sub_cancel_left, pending, drop_take,
      drop_drop, take_take, min_eq_left (by omega)]
  rw [if_neg hl, if_neg (by omega)]
  change (readBetween _ _ _ >>= _) = _
  rw [hbody]
  rfl

-- The first record is returned if all of it is there.
theorem Holds.getNextRecord (h : Holds rs input recs) :
    (∃ r recs' rs', recs = r :: recs' ∧ getNextRecord rs = .ok (some r, rs') ∧ Holds rs' input recs') ∨
    (getNextRecord rs = .ok (none, rs) ∧ rs.readEnd - rs.unconsumed < rs.buffer.length ∧
      (input = [] → recs = [])) := by
  have hb := h.bytes
  have hl := h.length_eq
  rw [getNextRecord_eq h.consumed h.readEnd_le, ← pending_length h.consumed h.readEnd_le]
  obtain _ | ⟨r, recs⟩ := recs
  · have hp : rs.pending = [] := (append_eq_nil_iff.mp hb).left
    exact .inr ⟨by rw [hp, if_pos (.inl (by decide))], by simp [hp, hl, HEADER_SIZE], fun _ => rfl⟩
  have hr := h.fits r (mem_cons_self ..)
  have hmax := h.max
  rw [flatMap_cons, encode, append_assoc] at hb
  have hlen := congrArg length hb
  simp only [length_append, be_length] at hlen
  have hh (h₄ : 4 ≤ rs.pending.length) : rs.headerLen = r.length := by
    have := congrArg (take 4) hb
    rw [take_append_of_le_length h₄, take_left' (be_length ..)] at this
    rw [headerLen, HEADER_SIZE, this, fromBe_be, Nat.mod_eq_of_lt (by omega)]
  rw [HEADER_SIZE] at hl ⊢
  by_cases hlt : rs.pending.length < 4 + r.length
  case pos =>
    refine .inr ⟨?_, by omega, fun hi => by simp [hi] at hlen; omega⟩
    by_cases h₄ : rs.pending.length < 4
    case pos => rw [if_pos (.inl h₄)]
    case neg => rw [if_pos (.inr (by rw [hh (by omega)]; exact hlt))]
  rw [if_neg (by rw [hh (by omega)]; omega), hh (by omega)]
  obtain ⟨p, hp⟩ : be 4 r.length ++ r <+: rs.pending := by
    apply prefix_of_prefix_length_le ⟨_, by rw [append_assoc, hb]⟩ (prefix_append _ input)
    simp
    omega
  rw [← hp, append_assoc, append_assoc] at hb
  have hrest : { rs with unconsumed := rs.unconsumed + 4 + r.length }.pending = p := by
    have := congrArg (drop (4 + r.length)) hp
    rw [drop_left' (by simp), pending, drop_take, drop_drop] at this
    rw [this, pending, add_assoc, Nat.sub_sub]
  have hpl := pending_length h.consumed h.readEnd_le
  refine .inl ⟨r, recs, { rs with unconsumed := rs.unconsumed + 4 + r.length }, rfl, ?_, h.max, hl, ?_,
    h.readEnd_le, ?_, fun r hr => h.fits r (mem_cons_of_mem _ hr)⟩
  · rw [← hp]; simp
  · dsimp only; omega
  · rw [hrest, append_cancel_left (append_cancel_left hb)]

theorem Holds.compact (h : Holds rs input recs) :
    ∃ rs', compact rs = .ok rs' ∧ Holds rs' input recs ∧ rs'.unconsumed = 0 ∧
      rs'.buffer.length = rs.buffer.length ∧ rs'.readEnd = rs.readEnd - rs.unconsumed := by
  by_cases hu : rs.unconsumed = 0
  case pos => exact ⟨rs, if_pos hu, h, hu, rfl, by omega⟩
  have hc := h.consumed
  have hp := pending_length hc h.readEnd_le
  have hle : rs.pending.length ≤ rs.buffer.length := by have := h.readEnd_le; omega
  refine ⟨⟨rs.maxRecordLen, overwrite rs.buffer 0 rs.pending, 0, rs.pending.length⟩, ?_, ?_, rfl,
    overwrite_length .., hp⟩
  · rw [RecordStream.compact, if_neg hu, readBetween_eq h.readEnd_le]
    rfl
  · refine ⟨h.max, (overwrite_length ..).trans h.length_eq, Nat.zero_le _, by simpa using hle, ?_, h.fits⟩
    rw [← h.bytes, pending]
    dsimp only
    rw [drop_zero, overwrite_zero hle, Nat.sub_zero, take_left]

def returned (outcomes : List Outcome) : List (List UInt8) :=
  outcomes.filterMap fun | .record r => some r | _ => none

-- What a call leaves of records and input. It gets on unless its `read` fails.
structure Returns (read : Option Nat) (outcome : Outcome) (input input' : List UInt8)
    (recs recs' : List (List UInt8)) : Prop where
  recs_eq  : recs = returned [outcome] ++ recs'
  ended    : outcome = .endOfStream → recs = []
  input_le : input'.length ≤ input.length
  progress : read.isSome → recs' = [] ∨ input'.length + recs'.length < input.length + recs.length

theorem Holds.append (h : Holds rs (data ++ input) recs) (hu : rs.unconsumed = 0)
    (hd : data.length ≤ rs.buffer.length - rs.readEnd) :
    Holds { rs with buffer := overwrite rs.buffer rs.readEnd data, readEnd := rs.readEnd + data.length }
      input recs := by
  have he := h.readEnd_le
  refine ⟨h.max, (overwrite_length ..).trans h.length_eq, by simp [hu], ?_, ?_, h.fits⟩
  · simp; omega
  · have hd : data.length ≤ (rs.buffer.drop rs.readEnd).length := by simpa using hd
    have ho := overwrite_append (rs.buffer.take rs.readEnd) hd
    rw [take_append_drop, length_take, Nat.min_eq_left he] at ho
    rw [← h.bytes, pending, pending, hu]
    dsimp only
    simp only [drop_zero, Nat.sub_zero, ho]
    rw [← append_assoc, take_left' (by simp [he]), append_assoc]

theorem Holds.afterRead (h : Holds rs input recs) (hu : rs.unconsumed = 0)
    (hlt : rs.readEnd < rs.buffer.length) (hin : input = [] → recs = []) (read : Option Nat) :
    ∃ outcome rs' input' recs', afterRead rs input read = .ok (outcome, rs', input') ∧
      Holds rs' input' recs' ∧ Returns read outcome input input' recs recs' := by
  obtain _ | count := read
  · exact ⟨.failed, rs, input, recs, rfl, h, rfl, by simp, le_rfl, by simp⟩
  rw [RecordStream.afterRead]
  generalize hn : min (count + 1) (rs.buffer.length - rs.readEnd) = n
  by_cases hd : input.take n = []
  case pos =>
    have hi : input = [] := (take_eq_nil_iff.mp hd).resolve_left (by omega)
    obtain rfl := hin hi
    exact ⟨.endOfStream, rs, input, [], if_pos hd, h, rfl, by simp, le_rfl, by simp⟩
  have hpos := length_pos_iff.mpr hd
  have hlen := length_take (i := n) (l := input)
  have hdrop : input.drop (input.take n).length = input.drop n := by simp
  rw [← take_append_drop n input] at h
  rcases (h.append hu (by omega)).getNextRecord with ⟨r, recs', rs', rfl, hg, h'⟩ | ⟨hg, _⟩
  case inl =>
    refine ⟨.record r, rs', input.drop n, recs', ?_, h', rfl, by simp, by simp, fun _ => .inr ?_⟩
    · simp only [if_neg hd, hg, hdrop]
      rfl
    · simp; omega
  refine ⟨.again, _, input.drop n, recs, ?_, h.append hu (by omega), rfl, by simp, by simp,
    fun _ => .inr ?_⟩
  · simp only [if_neg hd, hg, hdrop]
    rfl
  · simp; omega

theorem Holds.recordStreamGetNext (h : Holds rs input recs) (read : Option Nat) :
    ∃ outcome rs' input' recs', recordStreamGetNext rs input read = .ok (outcome, rs', input') ∧
      Holds rs' input' recs' ∧ Returns read outcome input input' recs recs' := by
  rw [RecordStream.recordStreamGetNext]
  rcases h.getNextRecord with ⟨r, recs', rs', rfl, hg, h'⟩ | ⟨hg, hlt, hin⟩
  case inl =>
    rw [hg]
    exact ⟨_, rs', input, recs', rfl, h', rfl, by simp, le_rfl, by simp⟩
  obtain ⟨rs', hc, h', hu, hl, he⟩ := h.compact
  obtain ⟨outcome, rs'', input', recs', ha, hr⟩ := h'.afterRead hu (by omega) hin read
  refine ⟨outcome, rs'', input', recs', ?_, hr⟩
  rw [hg, ← ha]
  change (if rs.unconsumed = 0 ∧ rs.readEnd = rs.buffer.length then _ else _) = _
  rw [if_neg (by omega), hc]
  exact if_neg (by omega)

theorem Holds.calls (h : Holds rs input recs) (reads : List (Option Nat)) :
    ∃ outs, calls reads rs input = .ok outs ∧ returned outs <+: recs ∧
      (∀ a b, outs = a ++ .endOfStream :: b → returned a = recs) ∧
      (input.length + recs.length ≤ (reads.filter Option.isSome).length → returned outs = recs) := by
  induction reads generalizing rs input recs
  case nil =>
    refine ⟨[], rfl, List.nil_prefix, by simp, fun hl => ?_⟩
    exact (eq_nil_of_length_eq_zero (by simp at hl; simp [hl])).symm
  case cons read reads hi =>
    obtain ⟨outcome, rs', input', recs', hg, h', hr⟩ := h.recordStreamGetNext read
    obtain ⟨outs, ho, hp, he, hl⟩ := hi h'
    have hcons (outs : List Outcome) : returned (outcome :: outs) = returned [outcome] ++ returned outs :=
      filterMap_append (l := [outcome])
    refine ⟨outcome :: outs, ?_, ?_, fun a b hab => ?_, fun hn => ?_⟩
    · rw [calls, hg]
      change (calls reads rs' input' >>= _) = _
      rw [ho]
      rfl
    · rw [hcons, hr.recs_eq]
      exact (prefix_append_right_inj _).mpr hp
    · rcases cons_eq_append_iff.mp hab with ⟨rfl, hab⟩ | ⟨a, rfl, hab⟩
      case inl => exact (hr.ended (cons.inj hab).left).symm
      case inr => rw [hcons, he a b (cons.inj hab).right, hr.recs_eq]
    · rw [hcons, hr.recs_eq, append_cancel_left_eq]
      have hle := congrArg length hr.recs_eq
      rw [length_append] at hle
      have hin := hr.input_le
      cases hs : read.isSome
      case false => exact hl (by simp [hs] at hn; omega)
      case true  =>
        rcases hr.progress hs with rfl | hlt
        case inl => exact prefix_nil.mp hp
        case inr => exact hl (by simp [hs] at hn; omega)

-- However the bytes are delivered, the records come out as they were sent.
theorem calls_returned (maxRecordLen : Nat) (h : maxRecordLen ≤ 0xffff) (fresh : Nat → UInt8)
    (recs : List (List UInt8)) (hr : ∀ r ∈ recs, r.length ≤ maxRecordLen) (reads : List (Option Nat)) :
    ∃ rs outs, recordStreamNew maxRecordLen fresh = .ok rs ∧
      calls reads rs (recs.flatMap encode) = .ok outs ∧ returned outs <+: recs ∧
      (∀ a b, outs = a ++ .endOfStream :: b → returned a = recs) ∧
      ((recs.flatMap encode).length + recs.length ≤ (reads.filter Option.isSome).length →
        returned outs = recs) := by
  have hh : Holds ⟨maxRecordLen, (range (maxRecordLen + HEADER_SIZE)).map fresh, 0, 0⟩
      (recs.flatMap encode) recs :=
    ⟨h, by simp, le_rfl, Nat.zero_le _, by simp [pending], hr⟩
  obtain ⟨outs, hc, hs⟩ := hh.calls reads
  exact ⟨_, outs, if_pos h, hc, hs⟩

theorem calls_returned_two : ∃ rs outs, recordStreamNew 2 (fun _ => 7) = .ok rs ∧
    calls (none :: replicate 12 (some 3)) rs ([[], [1, 2]].flatMap encode) = .ok outs ∧
      returned outs = [[], [1, 2]] := by
  obtain ⟨rs, outs, hn, hc, _, _, hall⟩ := calls_returned 2 (by decide) (fun _ => 7) [[], [1, 2]]
    (by decide) (none :: replicate 12 (some 3))
  exact ⟨rs, outs, hn, hc, hall (by decide)⟩

end RecordStream
