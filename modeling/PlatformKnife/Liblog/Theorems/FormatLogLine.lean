import PlatformKnife.Liblog.FormatLogLine

namespace Liblog

open CInt CString Printf Slice List Option

-- The lines of a message. A final newline does not start another one.
def lines (message : List UInt8) : List (List UInt8) :=
  let pieces := message.splitOn 10
  if pieces.getLast? = some [] then pieces.dropLast else pieces

def formatted (format : PrintFormat) (entry : TextEntry) (time : TimeText) : List UInt8 :=
  let (first, last) := affixes format entry time
  if format = .long then
    first.take 127 ++ entry.message ++ last.take 127
  else
    (lines entry.message).flatMap fun line => first.take 127 ++ line ++ last.take 127

section Lines

variable {line rest : List UInt8}

theorem splitOn_line (h : 10 ∉ line) : line.splitOn 10 = [line] := by
  apply splitOnP_eq_singleton
  intro x hx
  exact beq_eq_false_iff_ne.mpr fun he => h (he ▸ hx)

@[simp]
theorem lines_nil : lines [] = [] :=
  rfl

theorem lines_last (hne : line ≠ []) (h : 10 ∉ line) : lines line = [line] := by
  simp [lines, splitOn_line h, hne]

theorem lines_cons (h : 10 ∉ line) : lines (line ++ 10 :: rest) = line :: lines rest := by
  have hne := splitOn_ne_nil 10 rest
  simp only [lines, splitOn_append_cons_self, splitOn_line h, singleton_append,
    getLast?_cons, dropLast_cons_of_ne_nil hne]
  rw [getLast?_eq_some_getLast hne, getD_some]
  split <;> rfl

theorem line_induction {P : List UInt8 → Prop} (nil : P []) (last : ∀ line, line ≠ [] → 10 ∉ line → P line)
    (cons : ∀ line rest, 10 ∉ line → P rest → P (line ++ 10 :: rest)) (message : List UInt8) :
    P message := by
  by_cases h : 10 ∈ message
  · obtain ⟨line, rest, he, hl⟩ := eq_append_cons_of_mem h
    exact he ▸ cons line rest hl (line_induction nil last cons rest)
  by_cases hne : message = []
  · exact hne ▸ nil
  · exact last message hne h
termination_by message.length
decreasing_by
  rw [he]
  simp
  omega

variable (message : List UInt8)

theorem lines_flatten_length : (lines message).flatten.length ≤ message.length := by
  induction message using line_induction
  case nil => simp
  case last line hne h => simp [lines_last hne h]
  case cons line rest h ih =>
    rw [lines_cons h]
    simp at ih ⊢
    omega

theorem lines_length : (lines message).length ≤ message.length := by
  induction message using line_induction
  case nil => simp
  case last line hne h => simpa [lines_last hne h] using Nat.one_le_iff_ne_zero.mpr (by simpa using hne)
  case cons line rest h ih =>
    rw [lines_cons h]
    simp
    omega

theorem countNewlines (n : Nat) :
    message.foldl (fun numLines c => if c = 10 then numLines + 1 else numLines) n =
      n + message.count 10 := by
  induction message generalizing n
  case nil => rfl
  case cons c message ih =>
    rw [foldl_cons, ih, count_cons]
    split <;> simp_all
    omega

theorem countLines_eq : countLines message = (lines message).length := by
  induction message using line_induction
  case nil => rfl
  case last line hne h =>
    have hlast : line.getLast? ≠ some 10 := fun he => h (mem_of_getLast? he)
    simp [countLines, countNewlines, lines_last hne h, hne, hlast, count_eq_zero.mpr h]
  case cons line rest h ih =>
    rw [lines_cons h, length_cons, ← ih]
    rcases hr : rest with _ | ⟨c, rest⟩
    · simp [countLines, countNewlines, count_eq_zero.mpr h]
    simp only [countLines, countNewlines, count_append, count_eq_zero.mpr h,
      count_cons_self, getLast?_append, getLast?_cons_cons]
    simp
    split <;> omega

end Lines

section Buffer

theorem clipLen_eq (l : List UInt8) : clipLen l = (clip l).length := by
  simp only [clipLen, clip, length_take]
  split <;> omega

theorem ofBuffer_clip (h : 0 ∉ l) : ofBuffer (clip l) = clip l :=
  ofBuffer_of_not_mem fun hc => h (mem_of_mem_take hc)

variable {first last : List UInt8} (hfirst : 0 ∉ first) (hlast : 0 ∉ last)

include hfirst hlast

theorem appendLine_append (out rest : List UInt8) (h : 0 ∉ src.take n) (hn : n ≤ src.length)
    (ht : text = clip first ++ src.take n ++ clip last) :
    appendLine first last (out ++ 0 :: rest) out.length src n =
      if text.length ≤ rest.length then
        some (out ++ text ++ 0 :: rest.drop text.length, (out ++ text).length)
      else
        none := by
  have hlen : text.length = (clip first).length + n + (clip last).length := by
    simp [ht, min_eq_left hn, add_assoc]
  have h₁ := strcat_append out rest (clip first)
  have h₂ := strcat_append (out ++ clip first) (rest.drop (clip first).length) (src.take n)
  have h₃ := strcat_append (out ++ clip first ++ src.take n)
    ((rest.drop (clip first).length).drop (src.take n).length) (clip last)
  simp only [length_append, length_drop, length_take, min_eq_left hn] at h₁ h₂ h₃
  simp only [appendLine, strncat, clipLen_eq, ofBuffer_of_not_mem h, ofBuffer_clip hfirst,
    ofBuffer_clip hlast, h₁, hlen]
  by_cases hroom : (clip first).length + n + (clip last).length ≤ rest.length
  · rw [if_pos (by omega)] at h₂ h₃ ⊢
    simp only [bind_eq_bind, bind_some, h₂, h₃, if_pos hroom]
    simp [ht, min_eq_left hn, add_assoc]
  rw [if_neg hroom]
  split
  case isFalse => rfl
  simp only [bind_eq_bind, bind_some, h₂]
  split
  case isFalse => rfl
  rw [bind_some, h₃, if_neg (by omega), bind_none]

-- A zero in the line ends the copy, with the cursor behind the only terminator.
omit hlast in
theorem appendLine_stray (out : List UInt8) (h : 0 ∈ src.take n) (hn : n ≤ src.length) :
    appendLine first last (out ++ 0 :: replicate m 255) out.length src n = none := by
  have hshort : (ofBuffer (src.take n)).length < n := by
    have hle : (ofBuffer (src.take n)).length ≤ n :=
      (List.takeWhile_prefix _).length_le.trans (length_take_le _ _)
    refine lt_of_le_of_ne hle fun heq => ?_
    have hall : ofBuffer (src.take n) = src.take n :=
      (List.takeWhile_prefix _).eq_of_length (by simp [ofBuffer] at heq ⊢; omega)
    rw [← hall] at h
    simpa using mem_takeWhile_imp h
  have h₁ := strcat_append out (replicate m 255) (clip first)
  have h₂ := strcat_append (out ++ clip first) (replicate (m - (clip first).length) 255)
    (ofBuffer (src.take n))
  rw [drop_replicate] at h₁ h₂
  simp only [length_append] at h₁ h₂
  simp only [appendLine, strncat, clipLen_eq, ofBuffer_clip hfirst, h₁]
  split
  case isFalse => rfl
  simp only [bind_eq_bind, bind_some, h₂]
  split
  case isFalse => rfl
  rw [bind_some, strcat_behind (by simp; omega) (by simp [mem_replicate]), bind_none]

omit hfirst hlast in
theorem appendLines_cons (h : 10 ∉ line) :
    appendLines first last buf p (line ++ 10 :: rest) =
      (appendLine first last buf p (line ++ 10 :: rest) line.length).bind
        fun (buf, p) => appendLines first last buf p rest := by
  have ht : ((line ++ 10 :: rest).takeWhile (· ≠ 10)) = line := by
    rw [takeWhile_append_of_pos (fun a ha => by simpa using fun he : a = 10 => h (he ▸ ha))]
    simp
  rcases hm : line ++ 10 :: rest with _ | ⟨c, pm⟩
  · simp at hm
  rw [appendLines, ← hm, ht]
  simp
  split <;> simp_all

omit hfirst hlast in
theorem appendLines_last (hne : line ≠ []) (h : 10 ∉ line) :
    appendLines first last buf p line = appendLine first last buf p line line.length := by
  have ht : (line.takeWhile (· ≠ 10)) = line :=
    takeWhile_eq_self_iff.mpr fun a ha => by simpa using fun he : a = 10 => h (he ▸ ha)
  rcases hm : line with _ | ⟨c, pm⟩
  · exact absurd hm hne
  rw [appendLines, ← hm, ht]
  simp
  split <;> simp_all [appendLines]

def body (first last message : List UInt8) : List UInt8 :=
  (lines message).flatMap fun line => clip first ++ line ++ clip last

theorem appendLines_append (out : List UInt8) (h : 0 ∉ message)
    (hroom : (body first last message).length ≤ rest.length) :
    appendLines first last (out ++ 0 :: rest) out.length message =
      some (out ++ body first last message ++ 0 :: rest.drop (body first last message).length,
        (out ++ body first last message).length) := by
  induction message using line_induction generalizing out rest
  case nil => simp [appendLines, body]
  case last line hne hl =>
    have hb : body first last line = clip first ++ line.take line.length ++ clip last := by
      simp [body, lines_last hne hl]
    rw [appendLines_last hne hl, appendLine_append hfirst hlast out rest (by simpa using h) le_rfl hb,
      if_pos hroom]
  case cons line tail hl ih =>
    have hb : body first last (line ++ 10 :: tail) =
        clip first ++ line ++ clip last ++ body first last tail := by
      simp [body, lines_cons hl]
    rw [hb, length_append] at hroom
    have hz : 0 ∉ line ∧ 0 ∉ tail := by simpa using h
    have htake : (line ++ 10 :: tail).take line.length = line := by simp
    rw [appendLines_cons hl,
      appendLine_append hfirst hlast out rest (by rw [htake]; exact hz.1) (by simp) (by rw [htake]),
      if_pos (by omega), bind_some]
    dsimp only
    rw [ih _ hz.2 (by rw [length_drop]; omega), hb]
    simp [add_assoc]

theorem appendLines_stray (out : List UInt8) (h : 0 ∈ message) :
    appendLines first last (out ++ 0 :: replicate m 255) out.length message = none := by
  induction message using line_induction generalizing out m
  case nil => cases h
  case last line hne hl => rw [appendLines_last hne hl, appendLine_stray hfirst out (by simpa using h) le_rfl]
  case cons line tail hl ih =>
    have htake : (line ++ 10 :: tail).take line.length = line := by simp
    rw [appendLines_cons hl]
    by_cases hz : 0 ∈ line
    · rw [appendLine_stray hfirst out (by rwa [htake]) (by simp), bind_none]
    have ht : 0 ∈ tail := by simpa [hz] using h
    rw [appendLine_append hfirst hlast out _ (by rwa [htake]) (by simp) rfl]
    split
    case isFalse => rfl
    rw [bind_some, drop_replicate]
    exact ih _ ht

end Buffer

section Format

variable {format : PrintFormat} {entry : TextEntry} {time : TimeText}

-- The property for a buffer of a given size: whatever the memory holds, the line is written inside of it,
-- and there is no result only without memory.
def Formats (format : PrintFormat) (size : Nat) (entry : TextEntry) (time : TimeText) : Prop :=
  ∀ (defaultBuffer : List UInt8) (malloc : Malloc), defaultBuffer.length = size →
    match formatLogLine format defaultBuffer malloc entry time with
    | none => False
    | some none => ∃ n > size, malloc.block n = none
    | some (some (ret, len)) => len ≤ ret.length ∧ ret.take len = formatted format entry time

theorem clipLen_le (l : List UInt8) : clipLen l ≤ 127 := by
  rw [clipLen_eq, clip]
  exact length_take_le 127 l

theorem bufferSize_eq (format : PrintFormat) (entry : TextEntry) (time : TimeText) :
    bufferSize format entry time = (if format = .long then 1 else (lines entry.message).length) *
      (clipLen (affixes format entry time).1 + clipLen (affixes format entry time).2) +
      entry.message.length + 1 := by
  have hlen := entry.messageLen_lt
  have hlines := lines_length entry.message
  have hn : (if format = .long then 1 else (lines entry.message).length) ≤ 2 ^ 31 := by
    rw [entry.messageLen_eq] at hlen
    split <;> omega
  have hmul := Nat.mul_le_mul hn (Nat.add_le_add (clipLen_le (affixes format entry time).1)
    (clipLen_le (affixes format entry time).2))
  simp only [bufferSize, countLines_eq, ← entry.messageLen_eq]
  rw [u64_of_lt (by omega)]

theorem body_length (first last message : List UInt8) :
    (body first last message).length =
      (lines message).length * (clipLen first + clipLen last) + (lines message).flatten.length := by
  simp only [body, clipLen_eq]
  induction lines message
  case nil => simp
  case cons line l ih =>
    simp only [flatMap_cons, length_append, flatten_cons, length_cons, ih]
    ring

theorem formatted_eq (format : PrintFormat) (entry : TextEntry) (time : TimeText) :
    formatted format entry time =
      if format = .long then
        clip (affixes format entry time).1 ++ entry.message ++ clip (affixes format entry time).2
      else
        body (affixes format entry time).1 (affixes format entry time).2 entry.message :=
  rfl

theorem formatted_length (format : PrintFormat) (entry : TextEntry) (time : TimeText) :
    (formatted format entry time).length < bufferSize format entry time := by
  rw [formatted_eq, bufferSize_eq]
  split
  case isTrue =>
    simp only [length_append, clipLen_eq]
    omega
  have := lines_flatten_length entry.message
  rw [body_length]
  omega

theorem filterPriToChar_ne_zero (pri : UInt8) : 0 ≠ filterPriToChar pri := by
  rw [filterPriToChar]
  split <;> decide

theorem affixes_text (format : PrintFormat) (entry : TextEntry) (time : TimeText) :
    0 ∉ (affixes format entry time).1 ∧ 0 ∉ (affixes format entry time).2 := by
  have hpri := filterPriToChar_ne_zero entry.priority
  have htag : 0 ∉ padTag entry := zero_notMem_padRight (by decide) entry.tag_text
  have hint (n : Int) : 0 ∉ width5 n := zero_notMem_padLeft (by decide) (zero_notMem_printInt n)
  have hmillis : 0 ∉ millis entry time := by
    simp [millis, time.no_zero, zero_notMem_printZeros]
    decide +kernel
  cases format <;> simp [affixes, hpri, htag, hint, hmillis, entry.tag_text] <;> decide +kernel

theorem appendMessage_eq (h : 0 ∉ entry.message)
    (hroom : (formatted format entry time).length ≤ ret.length) :
    appendMessage format entry time (0 :: ret) =
      some (formatted format entry time ++ 0 :: ret.drop (formatted format entry time).length,
        (formatted format entry time).length) := by
  have hm := entry.messageLen_eq
  obtain ⟨hfirst, hlast⟩ := affixes_text format entry time
  rw [formatted_eq] at hroom ⊢
  simp only [appendMessage]
  split
  case isTrue hf =>
    rw [if_pos hf] at hroom
    have ht : clip (affixes format entry time).1 ++ entry.message ++ clip (affixes format entry time).2 =
        clip (affixes format entry time).1 ++ entry.message.take entry.messageLen ++
          clip (affixes format entry time).2 := by
      rw [hm, take_length]
    exact (appendLine_append hfirst hlast [] ret (by simpa [hm] using h) hm.le ht).trans (if_pos hroom)
  case isFalse hf =>
    rw [if_neg hf] at hroom
    exact appendLines_append hfirst hlast [] h hroom

theorem appendMessage_stray (h : 0 ∈ entry.message) :
    appendMessage format entry time (0 :: replicate m 255) = none := by
  have hm := entry.messageLen_eq
  obtain ⟨hfirst, hlast⟩ := affixes_text format entry time
  simp only [appendMessage]
  split
  · exact appendLine_stray hfirst [] (by simpa [hm] using h) hm.le
  · exact appendLines_stray hfirst hlast [] h

def block (format : PrintFormat) (buf : List UInt8) (malloc : Malloc) (entry : TextEntry)
    (time : TimeText) : Option (List UInt8) :=
  if buf.length ≥ bufferSize format entry time then
    some buf
  else
    malloc.block (bufferSize format entry time)

theorem block_length (h : block format buf malloc entry time = some ret) :
    bufferSize format entry time ≤ ret.length := by
  rw [block] at h
  split at h
  case isTrue hle => exact some.inj h ▸ hle
  case isFalse => exact (malloc.length h).ge

theorem formatLogLine_block (h : block format buf malloc entry time = some (c :: ret)) :
    formatLogLine format buf malloc entry time = (appendMessage format entry time (0 :: ret)).map some := by
  have ho : overwrite (c :: ret) 0 [0] = 0 :: ret := overwrite_append_cons [] ret c 0
  rw [block] at h
  simp [formatLogLine, h, ho]

theorem formats_of_text (h : 0 ∉ entry.message) (size : Nat) : Formats format size entry time := by
  intro buf malloc hsize
  rcases hb : block format buf malloc entry time with _ | ret
  · rw [block] at hb
    split at hb
    case isTrue => cases hb
    case isFalse hlt =>
    simp only [formatLogLine, if_neg hlt, hb]
    exact ⟨_, by omega, hb⟩
  have hlen := formatted_length format entry time
  have hret := block_length hb
  obtain _ | ⟨c, ret⟩ := ret
  · simp at hret
    omega
  rw [formatLogLine_block hb, appendMessage_eq h (by simp at hret; omega)]
  simp

theorem not_formats_of_zero (hz : 0 ∈ entry.message) (size : Nat) : ¬Formats format size entry time := by
  intro h
  let malloc : Malloc := ⟨fun n => some (replicate n 255), by simp_all⟩
  have hf := h (replicate size 255) malloc (by simp)
  obtain ⟨n, hn⟩ : ∃ n, block format (replicate size 255) malloc entry time = some (replicate n 255) := by
    rw [block]
    split
    · exact ⟨size, rfl⟩
    · exact ⟨_, rfl⟩
  have hlen := formatted_length format entry time
  have hret := block_length hn
  obtain _ | n := n
  · simp at hret
    omega
  rw [formatLogLine_block hn, appendMessage_stray hz] at hf
  exact hf

theorem formats_iff (format : PrintFormat) (size : Nat) (entry : TextEntry) (time : TimeText) :
    Formats format size entry time ↔ 0 ∉ entry.message :=
  ⟨fun h hz => not_formats_of_zero hz size h, fun h => formats_of_text h size⟩

-- An event with a string of the two bytes `a` and zero.
def zeroEntry : TextEntry where
  tvSec := 0
  tvNsec := 0
  priority := 4
  pid := 0
  tid := 0
  tag := [116]
  messageLen := 2
  message := [97, 0]
  tag_text := by decide
  messageLen_eq := rfl
  messageLen_lt := by decide

theorem not_formats_zeroEntry : ¬Formats .raw 512 zeroEntry ⟨[], by decide⟩ :=
  not_formats_of_zero (by decide) 512

end Format

end Liblog
