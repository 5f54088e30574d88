import PlatformKnife.Lib.CString
import PlatformKnife.Liblog.ProcessLogBuffer

namespace Liblog

open CInt CString Slice List

def strAt (mem : List UInt8) (p : Nat) : List UInt8 :=
  ofBuffer (mem.drop p)

-- Both strings start and end in the payload, and the message comes right after the tag.
structure Splits (buf : LoggerEntry) (e : AndroidLogEntry Nat) (mem : List UInt8) : Prop where
  tag : buf.msg ≤ e.tag ∧ e.tag < buf.msg + buf.len
  message : buf.msg ≤ e.message ∧ e.message < buf.msg + buf.len
  follows : e.tag + (strAt mem e.tag).length + 1 = e.message
  terminated : e.message + (strAt mem e.message).length < buf.msg + buf.len
  message_end : e.message + e.messageLen < buf.msg + buf.len
  len_lt : e.messageLen < buf.len

variable {buf : LoggerEntry} {t m rest : List UInt8}

theorem scanMessage_append (h : 0 ∉ t) (i : Nat) (start : Option Nat) (l : List UInt8) :
    scanMessage i start (t ++ l) = scanMessage (i + t.length) start l := by
  induction t generalizing i
  case nil => rfl
  case cons b t hi =>
    obtain ⟨hb, ht⟩ := not_or.mp (mem_cons.not.mp h)
    simp only [cons_append, scanMessage, if_neg (Ne.symm hb), hi ht, length_cons]
    rw [show i + 1 + t.length = i + (t.length + 1) by omega]

theorem scanMessage_of_not_mem (h : 0 ∉ t) (i : Nat) (start : Option Nat) :
    scanMessage i start t = (start, none) := by
  have hs := scanMessage_append h i start []
  rw [append_nil] at hs
  rw [hs, scanMessage.eq_def]

namespace LoggerEntry

theorem msg_add_len_le (buf : LoggerEntry) : buf.msg + buf.len ≤ buf.mem.length :=
  buf.inside

theorem payload_length (buf : LoggerEntry) : buf.payload.length = buf.len := by
  rw [payload, slice_length buf.msg_add_len_le, Nat.add_sub_cancel_left]

theorem mem_eq (buf : LoggerEntry) :
    ∃ pre post, pre.length = buf.msg ∧ buf.mem = pre ++ (buf.payload ++ post) := by
  have hm := buf.msg_add_len_le
  refine ⟨buf.mem.take buf.msg, buf.mem.drop (buf.msg + buf.len), ?_, ?_⟩
  · rw [length_take]; omega
  · rw [payload, slice, drop_take, Nat.add_sub_cancel_left, ← drop_drop,
      take_append_drop, take_append_drop]

end LoggerEntry

theorem splits_of_eq (hp : pre.length = buf.msg) (ht : 0 ∉ t) (hm : 0 ∉ m)
    (hl : (p :: (t ++ 0 :: (m ++ 0 :: rest))).length = buf.len) (he₁ : e.tag = buf.msg + 1)
    (he₂ : e.message = buf.msg + (t.length + 2)) (he₃ : e.messageLen = m.length) :
    Splits buf e (pre ++ (p :: (t ++ 0 :: (m ++ 0 :: rest)) ++ post)) := by
  have hs₁ : strAt (pre ++ (p :: (t ++ 0 :: (m ++ 0 :: rest)) ++ post)) e.tag = t := by
    rw [strAt, he₁, ← hp, drop_append, drop_of_length_le (by omega),
      Nat.add_sub_cancel_left, nil_append, cons_append, drop_one, tail_cons,
      append_assoc, cons_append, ofBuffer_append ht]
  have hs₂ : strAt (pre ++ (p :: (t ++ 0 :: (m ++ 0 :: rest)) ++ post)) e.message = m := by
    rw [strAt, he₂, ← hp, drop_append, drop_of_length_le (by omega),
      Nat.add_sub_cancel_left, nil_append, cons_append, drop_succ_cons,
      append_assoc, drop_append, drop_of_length_le (by omega),
      show t.length + 1 - t.length = 1 by omega, nil_append, cons_append, drop_one,
      tail_cons, append_assoc, cons_append, ofBuffer_append hm]
  simp only [length_cons, length_append] at hl
  constructor <;> (try rw [hs₁]) <;> (try rw [hs₂]) <;> omega

-- A zero behind the priority has to be in front of the last byte.
def LoggerEntry.TagEnds (buf : LoggerEntry) : Prop :=
  0 ∈ slice buf.payload 1 buf.len → 0 ∈ slice buf.payload 1 (buf.len - 1)

theorem LoggerEntry.tagEnds_iff (h : buf.payload = p :: l) : buf.TagEnds ↔ (0 ∈ l → 0 ∈ l.dropLast) := by
  have hl := buf.payload_length
  rw [h, length_cons] at hl
  rw [TagEnds, h, ← hl, slice, slice, take_succ_cons, take_length, Nat.add_sub_cancel,
    drop_one, drop_one, tail_cons]
  cases l
  case nil => simp
  case cons b l => rw [length_cons, take_succ_cons, tail_cons, dropLast_eq_take]; rfl

theorem splits_iff (hl : 3 ≤ buf.len) :
    (∀ e mem, processLogBuffer buf = some (e, mem) → Splits buf e mem) ↔ buf.TagEnds := by
  obtain ⟨pre, post, hpre, hmem⟩ := buf.mem_eq
  have hlen := buf.payload_length
  cases hp : buf.payload
  case nil => simp [hp] at hlen; omega
  case cons p l =>
  rw [LoggerEntry.tagEnds_iff hp, processLogBuffer, if_neg (by omega), hp, drop_one,
    tail_cons]
  rw [hp] at hmem hlen
  by_cases hz : 0 ∈ l
  case neg => simp [scanMessage_of_not_mem hz, hz]
  obtain ⟨t, u, rfl, ht⟩ := eq_append_cons_of_mem hz
  simp only [scanMessage_append ht, scanMessage, if_true]
  by_cases hu : 0 ∈ u
  case pos =>
    obtain ⟨m, rest, rfl, hm⟩ := eq_append_cons_of_mem hu
    have hd : 0 ∈ (t ++ 0 :: (m ++ 0 :: rest)).dropLast := by
      rw [dropLast_append_of_ne_nil (cons_ne_nil _ _)]
      simp [dropLast_cons_of_ne_nil]
    simp only [scanMessage_append hm, scanMessage, if_true, Option.some.injEq, Prod.mk.injEq]
    refine iff_of_true ?_ fun _ => hd
    rintro e _ ⟨rfl, rfl⟩
    rw [hmem]
    refine splits_of_eq hpre ht hm hlen rfl ?_ ?_
    · dsimp only; omega
    · simp only [length_cons, length_append] at hlen
      have := buf.len_lt
      dsimp only
      rw [toU64_sub (by omega) (by omega)]
      omega
  simp only [scanMessage_of_not_mem hu, Option.some.injEq, Prod.mk.injEq]
  rcases hu' : u.reverse with _ | ⟨x, m⟩
  · -- The message starts behind the payload.
    obtain rfl : u = [] := reverse_eq_nil_iff.mp hu'
    simp only [length_cons, length_append, length_nil] at hlen
    refine iff_of_false ?_ ?_
    · intro h
      have := (h _ _ ⟨rfl, rfl⟩).message
      dsimp only at this
      omega
    · simpa using ht
  obtain rfl : u = m.reverse ++ [x] := by
    rw [← reverse_cons, ← hu', reverse_reverse]
  have hd : 0 ∈ (t ++ 0 :: (m.reverse ++ [x])).dropLast := by
    rw [dropLast_append_of_ne_nil (cons_ne_nil _ _)]
    simp [dropLast_cons_of_ne_nil]
  have hm : 0 ∉ m.reverse := fun h => hu (mem_append_left _ h)
  simp only [length_cons, length_append, length_nil] at hlen
  refine iff_of_true ?_ fun _ => hd
  rintro e _ ⟨rfl, rfl⟩
  have hw : overwrite buf.mem (buf.msg + (buf.len - 1)) [0] =
      pre ++ (p :: (t ++ 0 :: (m.reverse ++ 0 :: [])) ++ post) := by
    have h := overwrite_append_cons (pre ++ p :: (t ++ 0 :: m.reverse)) post x 0
    simp only [length_append, length_cons, append_assoc, cons_append,
      nil_append] at h ⊢
    rw [hmem, ← hpre, show buf.len - 1 = t.length + (m.reverse.length + 1) + 1 by omega]
    simpa using h
  rw [hw]
  refine splits_of_eq hpre ht hm ?_ rfl ?_ ?_
  · simp only [length_cons, length_append, length_nil]
    omega
  · dsimp only; omega
  · have := buf.len_lt
    dsimp only
    rw [toU64_sub (by omega) (by omega)]
    omega

def LoggerEntry.ofPayload (payload : List UInt8) (h : payload.length < 2 ^ 16) : LoggerEntry where
  len := payload.length
  hdrSize := 0
  pid := 1
  tid := 1
  sec := 0
  nsec := 0
  mem := List.replicate loggerEntrySize 0 ++ payload
  len_lt := h
  inside := by simp

theorem splits_unterminated :
    3 ≤ (LoggerEntry.ofPayload [4, 97, 0, 98, 99] (by decide)).len ∧
    ∀ e mem, processLogBuffer (.ofPayload [4, 97, 0, 98, 99] (by decide)) = some (e, mem) →
      Splits (.ofPayload [4, 97, 0, 98, 99] (by decide)) e mem :=
  ⟨by decide, (splits_iff (by decide)).mpr fun _ => by decide⟩

theorem not_splits_tag :
    ∃ e mem, processLogBuffer (.ofPayload [4, 97, 0] (by decide)) = some (e, mem) ∧
      e.messageLen = 2 ^ 64 - 1 ∧ ¬Splits (.ofPayload [4, 97, 0] (by decide)) e mem :=
  ⟨_, _, rfl, rfl, fun h => absurd h.message.right (by decide)⟩

end Liblog
