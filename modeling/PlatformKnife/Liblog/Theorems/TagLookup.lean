import PlatformKnife.Lib.SortedList
import PlatformKnife.Liblog.Theorems.EventTagMap

namespace Liblog

open CInt CString Scan Slice List TagLine Item Int

section Count

variable {n : Nat} {l : List UInt8}

theorem count_indent (h : ∀ c ∈ l, isBlank c) : l.foldl countStep (n, true) = (n, true) := by
  induction l
  case nil => rfl
  case cons c l ih =>
    obtain ⟨hc, hw⟩ := isBlank_iff.mp (h c (by simp))
    have hd : isCharDigit c = false := by
      rw [← Bool.not_eq_true]
      intro hd
      simp [(isCharDigit_ne hd).2.2] at hw
    simpa [countStep, hc, hw, hd] using ih fun x hx => h x (by simp [hx])

theorem count_text (h : 10 ∉ l) : l.foldl countStep (n, false) = (n, false) := by
  induction l
  case nil => rfl
  case cons c l ih =>
    obtain ⟨hc, hl⟩ : 10 ≠ c ∧ 10 ∉ l := by simpa using h
    simpa [countStep, hc.symm] using ih hl

theorem count_newline : countStep (n, b) 10 = (n, true) := by
  simp [countStep]

theorem notMem_of_class {p : UInt8 → Bool} (hp : p 10 = false) (h : ∀ c ∈ l, p c) : 10 ∉ l :=
  fun hm => by simp [h 10 hm] at hp

theorem count_trail (t : TagLine) (h : t.Ok) :
    t.tail.foldl countStep (countStep (t.name.foldl countStep (n, false)) t.stop) = (n, true) := by
  rw [count_text (notMem_of_class (by decide) h.name)]
  rcases ht : t.trail with _ | p
  · simp [TagLine.stop, TagLine.tail, ht, count_newline]
  obtain ⟨c, text⟩ := p
  obtain ⟨hc, htext⟩ := h.trail c text ht
  have hstep : countStep (n, false) c = (n, false) := by simp [countStep, (isBlank_iff.mp hc).1]
  simp [TagLine.stop, TagLine.tail, ht, hstep, count_text htext, count_newline]

theorem count_item (i : Item) (h : i.Ok) : i.bytes.foldl countStep (n, true) = (n + i.counted, true) := by
  cases i
  case blank indent => simp [Item.bytes, Item.counted, count_indent h, count_newline]
  case comment indent text =>
    have hh : countStep (n, true) 35 = (n, false) := by simp [countStep, isCharDigit, isCharWhitespace]
    simp [Item.bytes, Item.counted, count_indent h.1, hh, count_text h.2, count_newline]
  case tag indent t =>
    obtain ⟨hi, ht⟩ := h
    have hd := isCharDigit_ne ht.digit
    have hdigit : countStep (n, true) t.digit = (n + 1, false) := by simp [countStep, hd.1, ht.digit]
    have hf10 : t.first ≠ 10 := by
      intro hf
      have := hf ▸ ht.first
      cases this
    simp only [Item.bytes, TagLine.bytes, TagLine.bytesWith, Item.counted, foldl_append,
      foldl_cons, count_indent hi, hdigit, count_text (notMem_of_class (by decide) ht.digits)]
    by_cases hs : t.sep = 10
    · -- The string is on the next line, where it may look like a number.
      have hfirst : countStep (n + 1, true) t.first =
          (if isCharDigit t.first = true then n + 2 else n + 1, false) := by
        by_cases hfd : isCharDigit t.first = true <;> simp [countStep, hf10, hfd, ht.first]
      rw [hs, count_newline, count_indent ht.gap, hfirst, count_trail t ht]
      by_cases hfd : isCharDigit t.first = true <;> simp [hfd]
    have hsep : countStep (n + 1, false) t.sep = (n + 1, false) := by simp [countStep, hs]
    have hfirst : countStep (n + 1, false) t.first = (n + 1, false) := by simp [countStep, hf10]
    rw [hsep, count_text (notMem_of_class (by decide) ht.gap), hfirst, count_trail t ht]
    simp [hs]

theorem count_items (items : List Item) (h : ∀ i ∈ items, i.Ok) :
    (items.flatMap Item.bytes).foldl countStep (n, true) = (n + (items.map Item.counted).sum, true) := by
  induction items generalizing n
  case nil => rfl
  case cons i items ih =>
    rw [flatMap_cons, foldl_append, count_item i (h i (by simp)), ih fun j hj => h j (by simp [hj])]
    simp [add_assoc]

theorem count_bare (h : Bare r) : r.foldl countStep (n, true) = (n + 1, true) := by
  obtain ⟨indent, x, w, hi, hx, hw, rfl⟩ := h
  have hstep : countStep (n, true) x = (n + 1, false) := by simp [countStep, (isCharDigit_ne hx).1, hx]
  simp [count_indent hi, hstep, count_text (notMem_of_class (by decide) hw), count_newline]

end Count

section Sorting

variable {tags : List EventTag}

theorem compareEventTags_le (h₁ : t₁.tagIndex < 2 ^ 31) (h₂ : t₂.tagIndex < 2 ^ 31) :
    compareEventTags t₁ t₂ ≤ 0 ↔ t₁.tagIndex ≤ t₂.tagIndex := by
  have hsub : subU32 t₁.tagIndex t₂.tagIndex = (t₁.tagIndex + (2 ^ 32 - t₂.tagIndex)) % 2 ^ 32 := rfl
  rw [compareEventTags, toI32]
  split <;> omega

def sorted (tags : List EventTag) : List EventTag :=
  tags.mergeSort fun t₁ t₂ => t₁.tagIndex ≤ t₂.tagIndex

theorem mergeSort_eq_sorted (h : ∀ t ∈ tags, t.tagIndex < 2 ^ 31) :
    (tags.mergeSort fun t₁ t₂ => compareEventTags t₁ t₂ ≤ 0) = sorted tags := by
  have hmap := map_mergeSort (f := id) (l := tags) (r := fun t₁ t₂ => decide (compareEventTags t₁ t₂ ≤ 0))
    (s := fun t₁ t₂ => decide (t₁.tagIndex ≤ t₂.tagIndex))
    fun t₁ h₁ t₂ h₂ => by simp [compareEventTags_le (h t₁ h₁) (h t₂ h₂)]
  simpa [sorted] using hmap

theorem sorted_perm (tags : List EventTag) : (sorted tags).Perm tags :=
  mergeSort_perm _ _

theorem sorted_pairwise (tags : List EventTag) :
    (sorted tags).Pairwise fun t₁ t₂ => t₁.tagIndex ≤ t₂.tagIndex := by
  have htrans (a b c : EventTag) : decide (a.tagIndex ≤ b.tagIndex) →
      decide (b.tagIndex ≤ c.tagIndex) → decide (a.tagIndex ≤ c.tagIndex) := by
    simpa using le_trans
  have htotal (a b : EventTag) :
      (decide (a.tagIndex ≤ b.tagIndex) || decide (b.tagIndex ≤ a.tagIndex)) := by
    simpa using le_total _ _
  simpa [sorted] using pairwise_mergeSort htrans htotal tags

theorem pairwise_lt_iff {l : List EventTag} (h : l.Pairwise fun t₁ t₂ => t₁.tagIndex ≤ t₂.tagIndex) :
    ((l.zip l.tail).any fun (t₁, t₂) => t₂.tagIndex = t₁.tagIndex) = false ↔
      l.Pairwise fun t₁ t₂ => t₁.tagIndex < t₂.tagIndex := by
  induction l
  case nil => simp
  case cons a l ih =>
    obtain _ | ⟨b, l⟩ := l
    · simp
    obtain ⟨ha, hl⟩ := pairwise_cons.mp h
    have hb := (pairwise_cons.mp hl).1
    have ih := ih hl
    rw [tail_cons] at ih
    rw [tail_cons, zip_cons_cons, any_cons, Bool.or_eq_false_iff, ih, pairwise_cons (a := a)]
    refine and_congr_left fun _ => ?_
    have hab := ha b (by simp)
    simp only [decide_eq_false_iff_not, forall_mem_cons]
    refine ⟨fun hne => ⟨by omega, fun t ht => ?_⟩, fun h => by omega⟩
    have := hb t ht
    omega

end Sorting

section Search

variable {tagArray : List EventTag} {k : Int}

theorem cmp_eq_zero {t : EventTag} (h : t.tagIndex < 2 ^ 31) (h₁ : -2 ^ 31 ≤ k) (h₂ : k < 2 ^ 31) :
    i32 (t.tagIndex - k) = 0 ↔ (t.tagIndex : Int) = k := by
  rw [i32, bmod_def]
  split <;> omega

theorem tagIndex_lt {t u : EventTag} {i j : Nat}
    (hs : tagArray.Pairwise fun t₁ t₂ => t₁.tagIndex < t₂.tagIndex)
    (ht : tagArray[i]? = some t) (hu : tagArray[j]? = some u) (h : i < j) :
    t.tagIndex < u.tagIndex := by
  obtain ⟨hi, rfl⟩ := List.getElem?_eq_some_iff.mp ht
  obtain ⟨hj, rfl⟩ := List.getElem?_eq_some_iff.mp hu
  exact pairwise_iff_getElem.mp hs i j hi hj h

theorem lookupLoop_spec (hs : tagArray.Pairwise fun t₁ t₂ => t₁.tagIndex < t₂.tagIndex)
    (hv : ∀ t ∈ tagArray, t.tagIndex < 2 ^ 31) (hlen : tagArray.length ≤ 2 ^ 30)
    (h₁ : -2 ^ 31 ≤ k) (h₂ : k < 2 ^ 31) (fuel lo : Nat) (hi : Int) (hhi : hi < tagArray.length)
    (hf : hi - lo + 1 < fuel) (hf0 : 0 < fuel) :
    ∃ found, lookupLoop tagArray k fuel lo hi = .ok found ∧
      (∀ t, found = some t → t ∈ tagArray ∧ (t.tagIndex : Int) = k) ∧
      (found = none → ∀ i t, lo ≤ i → (i : Int) ≤ hi → tagArray[i]? = some t →
        (t.tagIndex : Int) ≠ k) := by
  induction fuel generalizing lo hi
  case zero => omega
  case succ fuel ih =>
    rw [lookupLoop]
    split
    case isFalse hgt => exact ⟨none, rfl, by simp, fun _ i t _ _ _ => by omega⟩
    case isTrue hle =>
    obtain ⟨mid, hmid, hlo, hhi'⟩ :
        ∃ mid : Nat, (i32 (lo + hi)).tdiv 2 = mid ∧ lo ≤ mid ∧ (mid : Int) ≤ hi := by
      rw [i32_of_mem (by omega) (by omega), tdiv_eq_ediv_of_nonneg (by omega)]
      exact ⟨((lo + hi) / 2).toNat, by omega, by omega, by omega⟩
    have hlt : mid < tagArray.length := by omega
    have hget := getElem?_eq_getElem hlt
    generalize tagArray[mid] = found at hget
    have hmem := mem_of_getElem? hget
    simp only [hmid, toNat_natCast, hget, if_neg (show ¬(mid : Int) < 0 by omega)]
    have hfound := hv found hmem
    have hzero := cmp_eq_zero hfound h₁ h₂
    split
    case isTrue hneg =>
      obtain ⟨res, hres, hsome, hnone⟩ := ih (mid + 1) hi hhi (by push_cast; omega) (by omega)
      refine ⟨res, by simpa using hres, hsome, fun hn i t hi₁ hi₂ ht => ?_⟩
      by_cases hi₃ : mid + 1 ≤ i
      · exact hnone hn i t hi₃ hi₂ ht
      have hle : t.tagIndex ≤ found.tagIndex := by
        obtain rfl | hlt := Nat.eq_or_lt_of_le (Nat.lt_succ_iff.mp (not_le.mp hi₃))
        · exact (Option.some.inj (ht.symm.trans hget) ▸ le_refl _)
        · exact (tagIndex_lt hs ht hget hlt).le
      by_cases hk : 0 ≤ k
      · rw [i32_of_mem (by omega) (by omega)] at hneg
        omega
      · omega
    case isFalse hnneg =>
      split
      case isTrue hpos =>
        obtain ⟨res, hres, hsome, hnone⟩ := ih lo (mid - 1) (by omega) (by omega) (by omega)
        refine ⟨res, hres, hsome, fun hn i t hi₁ hi₂ ht => ?_⟩
        by_cases hi₃ : (i : Int) ≤ mid - 1
        · exact hnone hn i t hi₁ hi₃ ht
        have hle : found.tagIndex ≤ t.tagIndex := by
          obtain rfl | hlt := Nat.eq_or_lt_of_le (show mid ≤ i by omega)
          · exact (Option.some.inj (ht.symm.trans hget) ▸ le_refl _)
          · exact (tagIndex_lt hs hget ht hlt).le
        have := hv t (mem_of_getElem? ht)
        by_cases hk : 0 ≤ k
        · rw [i32_of_mem (by omega) (by omega)] at hpos
          omega
        · omega
      case isFalse hnpos =>
        exact ⟨some found, rfl, fun t ht => by cases ht; exact ⟨hmem, hzero.mp (by omega)⟩, by simp⟩

-- With more than 2^30 tags the sum of the bounds overflows on the way to the largest number.
theorem lookupLoop_overrun (hs : tagArray.Pairwise fun t₁ t₂ => t₁.tagIndex < t₂.tagIndex)
    (hv : ∀ t ∈ tagArray, t.tagIndex < 2 ^ 31) (hlen : 2 ^ 30 < tagArray.length)
    (hlt : tagArray.length < 2 ^ 31) (fuel lo : Nat) (hlo : lo < tagArray.length)
    (hf : tagArray.length - lo < fuel) :
    lookupLoop tagArray (2 ^ 31 - 1) fuel lo (tagArray.length - 1) = .error .overrun := by
  induction fuel generalizing lo
  case zero => omega
  case succ fuel ih =>
    rw [lookupLoop, if_pos (by omega)]
    by_cases hsum : (lo : Int) + (tagArray.length - 1) < 2 ^ 31
    · rw [i32_of_mem (by omega) hsum, tdiv_eq_ediv_of_nonneg (by omega)]
      obtain ⟨mid, hmid, hlo, hhi⟩ : ∃ mid : Nat, ((lo : Int) + (tagArray.length - 1)) / 2 = mid ∧
          lo ≤ mid ∧ mid + 1 < tagArray.length :=
        ⟨(((lo : Int) + (tagArray.length - 1)) / 2).toNat, by omega, by omega, by omega⟩
      have hget := getElem?_eq_getElem (show mid < tagArray.length by omega)
      have hnext := getElem?_eq_getElem hhi
      have hidx := tagIndex_lt hs hget hnext (Nat.lt_succ_self mid)
      have hbound := hv _ (mem_of_getElem? hnext)
      simp only [hmid, toNat_natCast, hget, if_neg (show ¬(mid : Int) < 0 by omega)]
      rw [i32_of_mem (by omega) (by omega), if_pos (by omega)]
      exact_mod_cast ih (mid + 1) hhi (by omega)
    have hneg : i32 (lo + (tagArray.length - 1)) = lo + (tagArray.length - 1) - 2 ^ 32 := by
      rw [i32, bmod_def]
      split <;> omega
    have hmid : (i32 (lo + (tagArray.length - 1))).tdiv 2 < 0 := by
      rw [hneg, ← Int.neg_neg (lo + (tagArray.length - 1) - 2 ^ 32), Int.neg_tdiv,
        Int.tdiv_eq_ediv_of_nonneg (by omega)]
      omega
    simp only [if_pos hmid]

end Search

section Unique

variable {r r' : List UInt8}

theorem TagLine.stop_not_valid {t : TagLine} (h : t.Ok) : isCharValidTag t.stop = false := by
  rw [← Bool.not_eq_true]
  intro hv
  have hne := isCharValidTag_ne hv
  rcases ht : t.trail with _ | p
  · exact hne.2.1 (by simp [stop, ht])
  obtain ⟨c, text⟩ := p
  have hc := (isBlank_iff.mp (h.trail c text ht).1).2
  simp only [stop, ht] at hne
  simp [hne.2.2] at hc

theorem TagLine.trail_inj {t u : TagLine} (ht : t.Ok) (hu : u.Ok)
    (h : t.stop :: (t.tail ++ r) = u.stop :: (u.tail ++ r')) : t.trail = u.trail ∧ r = r' := by
  have hblank {t : TagLine} {c : UInt8} {text : List UInt8} (h : t.Ok) (he : t.trail = some (c, text)) :
      c ≠ 10 ∧ 10 ∉ text :=
    ⟨(isBlank_iff.mp (h.trail c text he).1).1, (h.trail c text he).2⟩
  obtain ⟨hs, hr⟩ := cons.inj h
  rcases hx : t.trail with _ | p
  · rcases hy : u.trail with _ | p
    · exact ⟨rfl, by simpa [tail, hx, hy] using hr⟩
    obtain ⟨c, text⟩ := p
    simp only [stop, hx, hy] at hs
    exact absurd hs.symm (hblank hu hy).1
  obtain ⟨c, text⟩ := p
  rcases hy : u.trail with _ | q
  · simp only [stop, hx, hy] at hs
    exact absurd hs (hblank ht hx).1
  obtain ⟨d, text'⟩ := q
  simp only [stop, tail, hx, hy, append_assoc] at hs hr
  have hcut := List.cut_unique (p := (· ≠ 10)) hr (fun a ha he => (hblank ht hx).2 (he ▸ ha))
    (by simp) (fun a ha he => (hblank hu hy).2 (he ▸ ha)) (by simp)
  exact ⟨by rw [hs, hcut.1], by simpa using hcut.2⟩

theorem TagLine.bytes_inj {t u : TagLine} (ht : t.Ok) (hu : u.Ok)
    (h : t.bytes ++ r = u.bytes ++ r') : t = u ∧ r = r' := by
  have hb (t : TagLine) (r : List UInt8) : t.bytes ++ r = t.digit :: (t.digits ++ t.sep ::
      (t.gap ++ t.first :: (t.name ++ t.stop :: (t.tail ++ r)))) := by
    simp [bytes, bytesWith]
  rw [hb, hb] at h
  have hfirst {t : TagLine} (h : t.Ok) : isBlank t.first = false := not_isBlank_iff.mpr (.inr h.first)
  obtain ⟨h₁, h⟩ := cons.inj h
  obtain ⟨h₂, h⟩ := List.cut_unique (p := (isCharDigit ·)) h ht.digits (by simp [ht.sep])
    hu.digits (by simp [hu.sep])
  obtain ⟨h₃, h⟩ := cons.inj h
  obtain ⟨h₄, h⟩ := List.cut_unique (p := (isBlank ·)) h ht.gap (by simp [hfirst ht])
    hu.gap (by simp [hfirst hu])
  obtain ⟨h₅, h⟩ := cons.inj h
  obtain ⟨h₆, h⟩ := List.cut_unique (p := (isCharValidTag ·)) h ht.name
    (by simp [stop_not_valid ht]) hu.name (by simp [stop_not_valid hu])
  obtain ⟨h₇, h⟩ := trail_inj ht hu h
  refine ⟨?_, h⟩
  cases t
  cases u
  simp_all

theorem Item.bytes_eq (i : Item) (hi : i.Ok) (r : List UInt8) :
    ∃ indent c l, i.bytes ++ r = indent ++ c :: l ∧ (∀ c ∈ indent, isBlank c) ∧ isBlank c = false ∧
      match i with
      | .blank indent' => indent = indent' ∧ c = 10 ∧ l = r
      | .comment indent' text => indent = indent' ∧ c = 35 ∧ l = text ++ 10 :: r
      | .tag indent' line => indent = indent' ∧ isCharDigit c ∧ c :: l = line.bytes ++ r := by
  cases i
  case blank indent => exact ⟨indent, 10, r, by simp [bytes], hi, by decide, rfl, rfl, rfl⟩
  case comment indent text =>
    exact ⟨indent, 35, text ++ 10 :: r, by simp [bytes], hi.1, by decide, rfl, rfl, rfl⟩
  case tag indent line =>
    refine ⟨indent, line.digit, _, by simp [Item.bytes, TagLine.bytes, TagLine.bytesWith]; rfl, hi.1, ?_,
      rfl, hi.2.digit, by simp [TagLine.bytes, TagLine.bytesWith]⟩
    exact not_isBlank_iff.mpr (.inr (isCharDigit_ne hi.2.digit).2.2)

theorem Item.bytes_inj {i j : Item} (hi : i.Ok) (hj : j.Ok) (h : i.bytes ++ r = j.bytes ++ r') :
    i = j ∧ r = r' := by
  obtain ⟨indent, c, l, hb, hin, hc, hik⟩ := i.bytes_eq hi r
  obtain ⟨indent', c', l', hb', hin', hc', hjk⟩ := j.bytes_eq hj r'
  rw [hb, hb'] at h
  obtain ⟨rfl, htail⟩ := List.cut_unique (p := (isBlank ·)) h hin (by simp [hc]) hin' (by simp [hc'])
  obtain ⟨rfl, rfl⟩ := cons.inj htail
  cases i <;> cases j <;> simp only at hik hjk <;> obtain ⟨rfl, h₁, h₂⟩ := hik <;>
    obtain ⟨rfl, h₁', h₂'⟩ := hjk
  case blank.blank => exact ⟨rfl, h₂.symm.trans h₂'⟩
  case comment.comment text text' =>
    have hcut := List.cut_unique (p := (· ≠ 10)) (h₂.symm.trans h₂')
      (fun a ha he => hi.2 (he ▸ ha)) (by simp) (fun a ha he => hj.2 (he ▸ ha)) (by simp)
    exact ⟨by rw [hcut.1], (cons.inj hcut.2).2⟩
  case tag.tag t u =>
    obtain ⟨rfl, hr⟩ := TagLine.bytes_inj hi.2 hj.2 (h₂.symm.trans h₂')
    exact ⟨rfl, hr⟩
  all_goals
    subst_vars
    simp_all [isCharDigit]

theorem items_inj {items items' : List Item} (h : ∀ i ∈ items, i.Ok) (h' : ∀ i ∈ items', i.Ok)
    (he : items.flatMap Item.bytes = items'.flatMap Item.bytes) : items = items' := by
  induction items generalizing items'
  case nil =>
    obtain _ | ⟨j, items'⟩ := items'
    · rfl
    have := j.bytes_pos
    simp only [flatMap_nil, flatMap_cons] at he
    simp [(append_eq_nil_iff.mp he.symm).1] at this
  case cons i items ih =>
    obtain _ | ⟨j, items'⟩ := items'
    · have := i.bytes_pos
      simp only [flatMap_nil, flatMap_cons] at he
      simp [(append_eq_nil_iff.mp he).1] at this
    rw [flatMap_cons, flatMap_cons] at he
    obtain ⟨rfl, htail⟩ := bytes_inj (h i (by simp)) (h' j (by simp)) he
    rw [ih (fun x hx => h x (by simp [hx])) (fun x hx => h' x (by simp [hx])) htail]

end Unique

end Liblog
