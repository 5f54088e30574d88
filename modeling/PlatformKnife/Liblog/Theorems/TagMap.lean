import PlatformKnife.Liblog.Theorems.TagLookup

namespace Liblog

open CInt CString Scan Slice List EventTag

-- What has to hold for a file: it is refused or accepted without leaving it, and if accepted, its lines
-- have the documented form with distinct numbers and a final newline, and every number is looked up as
-- written.
def MapOk (file : List UInt8) : Prop :=
  ∀ callocOk, processFile file callocOk = .error .reject ∨
    ∃ (map : EventTagMap) (items : List Item), processFile file callocOk = .ok map ∧
      (∀ i ∈ items, i.Proper) ∧ file = items.flatMap Item.bytes ∧ file.getLast? = some 10 ∧
      ((items.flatMap Item.bindings).map Prod.fst).Nodup ∧
      ∀ k, -2 ^ 31 ≤ k → k < 2 ^ 31 → lookupEventTag map k =
        .ok (((items.flatMap Item.bindings).find? fun b => (b.1 : Int) = k).map Prod.snd)

def tagCount (items : List Item) : Nat :=
  (items.flatMap Item.bindings).length

def lineCount (items : List Item) : Nat :=
  (items.map Item.counted).sum

-- The files that are not handled as they should be: those that end with a bare number at which the parser
-- arrives, and those accepted although an item does not have the documented form or there are more tags
-- than the search can handle. Counts are compared as `int`s.
def Faulty (file : List UInt8) : Prop :=
  (∃ (items : List Item) (indent : List UInt8) (x : UInt8) (w : List UInt8),
    (∀ i ∈ items, i.Ok) ∧ (∀ c ∈ indent, isBlank c = true) ∧ isCharDigit x = true ∧
    (∀ c ∈ w, isCharDigit c = true) ∧
    file = items.flatMap Item.bytes ++ (indent ++ x :: (w ++ [10])) ∧
    tagCount items < i32 (lineCount items + 1 : Nat)) ∨
  (∃ items : List Item, (∀ i ∈ items, i.Ok) ∧ file = items.flatMap Item.bytes ∧
    tagCount items = i32 (lineCount items) ∧
    ((items.flatMap Item.bindings).map Prod.fst).Nodup ∧
    ((∃ i ∈ items, ¬i.Proper) ∨ 2 ^ 30 < tagCount items))

section Tags

theorem tagsOf_length (pos : Nat) (items : List Item) : (tagsOf pos items).length = tagCount items := by
  induction items generalizing pos
  case nil => rfl
  case cons i items ih => simpa [tagsOf, tagCount, Item.tags_length] using ih _

theorem tagsOf_index (pos : Nat) (items : List Item) :
    (tagsOf pos items).map tagIndex = (items.flatMap Item.bindings).map Prod.fst := by
  induction items generalizing pos
  case nil => rfl
  case cons i items ih => cases i <;> simp [tagsOf, Item.tags, Item.bindings, ih]

theorem tagsOf_lt (h : ∀ b ∈ items.flatMap Item.bindings, b.1 < 2 ^ 31) :
    ∀ t ∈ tagsOf pos items, t.tagIndex < 2 ^ 31 := by
  intro t ht
  have hmem := mem_map_of_mem (f := tagIndex) ht
  rw [tagsOf_index] at hmem
  obtain ⟨b, hb, he⟩ := mem_map.mp hmem
  exact he ▸ h b hb

theorem tagsOf_names (l : List UInt8) (items : List Item) (h : ∀ i ∈ items, i.Proper) :
    (tagsOf l.length items).map (fun t =>
      (t.tagIndex, ofBuffer ((l ++ items.flatMap Item.scanned).drop t.tagStr))) =
      items.flatMap Item.bindings := by
  induction items generalizing l
  case nil => rfl
  case cons i items ih =>
    have ih := ih (l ++ i.scanned) fun j hj => h j (by simp [hj])
    rw [length_append, Item.scanned_length] at ih
    rw [tagsOf, map_append, flatMap_cons, flatMap_cons, ← append_assoc, ih]
    congr 1
    cases i
    case blank indent => rfl
    case comment indent text => rfl
    case tag indent t =>
      have ht : t.Proper := (h (.tag indent t) (by simp)).2
      have hname : 0 ∉ t.first :: t.name := by
        intro hm
        obtain h0 | h0 := mem_cons.mp hm
        · exact (isCharValidTag_ne ht.first_valid).1 h0.symm
        · exact (isCharValidTag_ne (ht.name 0 h0)).1 rfl
      have hmem : l ++ (Item.tag indent t).scanned ++ items.flatMap Item.scanned =
          (l ++ (indent ++ t.digit :: (t.digits ++ 0 :: t.gap))) ++
            ((t.first :: t.name) ++ 0 :: (t.tail ++ items.flatMap Item.scanned)) := by
        simp [Item.scanned, TagLine.scanned, TagLine.bytesWith]
      simp only [Item.tags, Item.bindings, map_cons, map_nil, hmem, ← length_append,
        drop_left, ofBuffer_append hname]

theorem sorted_lt_iff : (sorted tags).Pairwise (fun t₁ t₂ => t₁.tagIndex < t₂.tagIndex) ↔
    (tags.map tagIndex).Nodup := by
  rw [← ((sorted_perm tags).map _).nodup_iff, List.Nodup, pairwise_map]
  exact ⟨fun hlt => hlt.imp ne_of_lt,
    fun hne => ((sorted_pairwise tags).and hne).imp fun h => Nat.lt_of_le_of_ne h.1 h.2⟩

theorem sortTags_eq (h : ∀ t ∈ tags, t.tagIndex < 2 ^ 31) :
    sortTags tags = if (tags.map tagIndex).Nodup then .ok (sorted tags) else .error .reject := by
  have hiff := (pairwise_lt_iff (sorted_pairwise tags)).trans sorted_lt_iff
  simp only [sortTags, mergeSort_eq_sorted h]
  by_cases hn : (tags.map tagIndex).Nodup
  · rw [if_pos hn, hiff.mpr hn]
    rfl
  · rw [if_neg hn, if_pos (by rw [← Bool.not_eq_false, hiff]; exact hn)]

theorem lookupEventTag_eq (hn : (tags.map tagIndex).Nodup)
    (hv : ∀ t ∈ tags, t.tagIndex < 2 ^ 31) (hlen : tags.length ≤ 2 ^ 30)
    (h₁ : -2 ^ 31 ≤ k) (h₂ : k < 2 ^ 31) :
    lookupEventTag ⟨mem, sorted tags⟩ k =
      .ok ((tags.find? fun t => (t.tagIndex : Int) = k).map fun t => ofBuffer (mem.drop t.tagStr)) := by
  have hperm := sorted_perm tags
  obtain ⟨found, hfound, hsome, hnone⟩ := lookupLoop_spec (sorted_lt_iff.mpr hn)
    (fun t ht => hv t (hperm.mem_iff.mp ht)) (hperm.length_eq ▸ hlen) h₁ h₂ ((sorted tags).length + 1) 0
    ((sorted tags).length - 1) (by omega) (by omega) (by omega)
  simp only [lookupEventTag]
  rw [show (0 : Int) = ((0 : Nat) : Int) from rfl, hfound]
  have hres : tags.find? (fun t => (t.tagIndex : Int) = k) = found := by
    obtain _ | t := found
    · rw [find?_eq_none]
      intro t ht
      obtain ⟨i, hi⟩ := mem_iff_getElem?.mp (hperm.mem_iff.mpr ht)
      have hlt : i < (sorted tags).length := (List.getElem?_eq_some_iff.mp hi).1
      simpa using hnone rfl i t (Nat.zero_le i) (by omega) hi
    obtain ⟨hmem, hk⟩ := hsome t rfl
    have hmem := hperm.mem_iff.mp hmem
    obtain ⟨u, hu⟩ : ∃ u, tags.find? (fun t => (t.tagIndex : Int) = k) = some u :=
      Option.isSome_iff_exists.mp (find?_isSome.mpr ⟨t, hmem, by simpa using hk⟩)
    have huk : (u.tagIndex : Int) = k := by simpa using find?_some hu
    rw [hu, inj_on_of_nodup_map hn (mem_of_find?_eq_some hu) hmem (by omega)]
  rw [hres]
  rfl

end Tags

section Process

variable {items : List Item} {numTags : Int} {tags : List EventTag}
variable {r : List UInt8}

theorem items_getLast? (items : List Item) (hne : items ≠ []) :
    (items.flatMap Item.bytes).getLast? = some 10 := by
  obtain ⟨front, i, rfl⟩ := eq_nil_or_concat items |>.resolve_left hne
  simp [getLast?_append, i.bytes_getLast?]

variable (h : ∀ i ∈ items, i.Ok)

include h

theorem countMapLines_items :
    countMapLines (items.flatMap Item.bytes) = i32 (lineCount items) := by
  rw [countMapLines, count_items items h, zero_add, lineCount]

theorem countMapLines_bare (hb : Bare r) :
    countMapLines (items.flatMap Item.bytes ++ r) = i32 (lineCount items + 1 : Nat) := by
  rw [countMapLines, foldl_append, count_items items h, count_bare hb, zero_add, lineCount]

variable (hv : ∀ b ∈ items.flatMap Item.bindings, b.1 < 2 ^ 31)

include hv

theorem parseLoop_items_full (hle : tags.length ≤ numTags)
    (hlt : numTags < tags.length + tagCount items) (l r : List UInt8) :
    parseLoop numTags (fuel + totalRounds items) (l ++ (items.flatMap Item.bytes ++ r)) l.length true tags =
      .error .reject := by
  induction items generalizing l tags
  case nil =>
    simp [tagCount] at hlt
    omega
  case cons i items ih =>
    have hf : fuel + totalRounds (i :: items) = fuel + totalRounds items + i.rounds := by
      simp [totalRounds]
      omega
    simp only [tagCount, flatMap_cons, length_append, mem_append] at hv hlt
    push_cast at hlt
    rw [hf, flatMap_cons, append_assoc]
    by_cases hfull : i.bindings ≠ [] ∧ numTags ≤ tags.length
    · exact parseLoop_full i (h i (by simp)) hfull.1 hfull.2
    have hone : i.bindings.length ≤ 1 := by cases i <;> simp [Item.bindings]
    have hroom : i.bindings ≠ [] → tags.length < numTags := fun hb =>
      not_le.mp fun hle => hfull ⟨hb, hle⟩
    have hpos : 0 < i.bindings.length → tags.length < numTags := fun hp =>
      hroom (length_pos_iff.mp hp)
    rw [parseLoop_item i (h i (by simp)) (fun b hb => hv b (.inl hb)) hroom]
    exact ih (fun j hj => h j (by simp [hj])) (fun b hb => hv b (.inr hb))
      (by rw [length_append, Item.tags_length]; push_cast; omega)
      (by rw [length_append, Item.tags_length, tagCount]; push_cast; omega) _

theorem parseLoop_file (h0 : 0 ≤ numTags) (r : List UInt8) :
    ∃ fuel, r.length < fuel ∧
      parseLoop numTags ((items.flatMap Item.bytes ++ r).length + 1) (items.flatMap Item.bytes ++ r) 0
        true [] =
        if tagCount items ≤ numTags then
          parseLoop numTags fuel (items.flatMap Item.scanned ++ r) (items.flatMap Item.scanned).length true
            (tagsOf 0 items)
        else .error .reject := by
  have hrounds := totalRounds_le items
  refine ⟨(items.flatMap Item.bytes).length - totalRounds items + r.length + 1, by omega, ?_⟩
  have hf : (items.flatMap Item.bytes ++ r).length + 1 =
      (items.flatMap Item.bytes).length - totalRounds items + r.length + 1 + totalRounds items := by
    rw [length_append]
    omega
  rw [hf]
  split
  case isTrue hle =>
    have hle : ((([] : List EventTag).length : Int) + (items.flatMap Item.bindings).length) ≤ numTags := by
      simpa only [length_nil, Nat.cast_zero, zero_add, tagCount] using hle
    exact parseLoop_items (l := []) items h hv hle
  case isFalse hgt =>
    exact parseLoop_items_full h hv (by simpa using h0) (by simpa using hgt) [] r

theorem parseMapLines_items (hne : items ≠ []) (h0 : 0 ≤ numTags) :
    parseMapLines numTags (items.flatMap Item.bytes) =
      if tagCount items = numTags then .ok (items.flatMap Item.scanned, tagsOf 0 items)
      else .error .reject := by
  obtain ⟨fuel, hf, hloop⟩ := parseLoop_file h hv h0 []
  obtain ⟨fuel, rfl⟩ := Nat.exists_eq_succ_of_ne_zero (Nat.ne_zero_of_lt hf)
  rw [append_nil, append_nil, parseLoop_end] at hloop
  rw [parseMapLines, if_neg (by simp [items_getLast? items hne]), hloop]
  by_cases hle : (tagCount items : Int) ≤ numTags
  · simp only [if_pos hle, tagsOf_length]
    split <;> simp_all
  · simp only [if_neg hle, if_neg (show ¬(tagCount items : Int) = numTags by omega)]

theorem parseMapLines_bare (h0 : 0 ≤ numTags) (hb : Bare r) :
    parseMapLines numTags (items.flatMap Item.bytes ++ r) =
      .error (if tagCount items < numTags then .overrun else .reject) := by
  obtain ⟨indent, x, w, hi, hx, hw, rfl⟩ := hb
  obtain ⟨fuel, hf, hloop⟩ := parseLoop_file h hv h0 (indent ++ x :: (w ++ [10]))
  obtain ⟨f, rfl⟩ : ∃ f, fuel = f + 1 + indent.length := by
    refine ⟨fuel - 1 - indent.length, ?_⟩
    simp at hf
    omega
  rw [parseMapLines, if_neg (by simp [getLast?_append, getLast?_cons]), hloop]
  by_cases hlt : (tagCount items : Int) < numTags
  · rw [if_pos hlt.le, parseLoop_overrun hi hx hw (by rwa [tagsOf_length]), if_pos hlt]
  have hfull : ((tagsOf 0 items).length : Int) ≥ numTags := by
    rw [tagsOf_length]
    omega
  simp only [if_neg hlt, parseLoop_indent hi, parseLoop_digit hx, if_pos hfull, ite_self]

theorem processFile_items (hne : items ≠ []) (callocOk : Bool) :
    processFile (items.flatMap Item.bytes) callocOk =
      if callocOk ∧ tagCount items = i32 (lineCount items) ∧
          ((items.flatMap Item.bindings).map Prod.fst).Nodup then
        .ok ⟨items.flatMap Item.scanned, sorted (tagsOf 0 items)⟩
      else .error .reject := by
  rw [processFile, countMapLines_items h]
  cases callocOk
  case false => simp
  case true =>
    by_cases hneg : i32 (lineCount items) < 0
    · rw [if_pos hneg, if_neg (fun hc => by omega)]
    rw [if_neg hneg, parseMapLines_items h hv hne (by omega)]
    by_cases hcount : (tagCount items : Int) = i32 (lineCount items)
    · have hlt : ∀ t ∈ tagsOf 0 items, t.tagIndex < 2 ^ 31 := tagsOf_lt hv
      have hsort := sortTags_eq hlt
      rw [tagsOf_index] at hsort
      by_cases hn : ((items.flatMap Item.bindings).map Prod.fst).Nodup <;> simp [hsort, hcount, hn]
    · simp [hcount]

theorem processFile_bare (hb : Bare r) (callocOk : Bool) :
    processFile (items.flatMap Item.bytes ++ r) callocOk =
      .error (if callocOk ∧ tagCount items < i32 (lineCount items + 1 : Nat) then .overrun
        else .reject) := by
  rw [processFile, countMapLines_bare h hb]
  cases callocOk
  case false => simp
  case true =>
    by_cases hneg : i32 (lineCount items + 1 : Nat) < 0
    · rw [if_pos hneg, if_neg (fun hc => by omega)]
    simp only [if_neg hneg, parseMapLines_bare h hv (Int.not_lt.mp hneg) hb, Bool.not_true,
      Bool.false_eq_true, if_false, true_and]

end Process

theorem processFile_ne (h : file.getLast? ≠ some 10) (callocOk : Bool) :
    processFile file callocOk = .error .reject := by
  simp only [processFile, parseMapLines, if_pos h]
  split
  · rfl
  · split <;> rfl

theorem processFile_cases (hlast : file.getLast? = some 10) (hv : NumbersBelow file) :
    (∃ items : List Item, (∀ i ∈ items, i.Ok) ∧ file = items.flatMap Item.bytes) ∨
      (∃ (items : List Item) (r : List UInt8), (∀ i ∈ items, i.Ok) ∧ Bare r ∧
        file = items.flatMap Item.bytes ++ r) ∨
      ∀ callocOk, processFile file callocOk = .error .reject := by
  obtain h | h | h := parseLoop_inv (countMapLines file) (file.length + 1) [] file [] (.inr hlast) hv
    (Nat.lt_succ_self _)
  · exact .inl h
  · exact .inr (.inl h)
  · refine .inr (.inr fun callocOk => ?_)
    rw [nil_append, length_nil] at h
    simp only [processFile, parseMapLines, if_neg (show ¬file.getLast? ≠ some 10 by simp [hlast]), h]
    split
    · rfl
    · split <;> rfl

section Lookup

variable {items : List Item}

theorem lookup_tagsOf (h : ∀ i ∈ items, i.Proper) (hv : ∀ b ∈ items.flatMap Item.bindings, b.1 < 2 ^ 31)
    (hn : ((items.flatMap Item.bindings).map Prod.fst).Nodup) (hlen : tagCount items ≤ 2 ^ 30)
    (h₁ : -2 ^ 31 ≤ k) (h₂ : k < 2 ^ 31) :
    lookupEventTag ⟨items.flatMap Item.scanned, sorted (tagsOf 0 items)⟩ k =
      .ok (((items.flatMap Item.bindings).find? fun b => (b.1 : Int) = k).map Prod.snd) := by
  rw [lookupEventTag_eq (by rwa [tagsOf_index]) (tagsOf_lt hv) (by rwa [tagsOf_length]) h₁ h₂,
    ← tagsOf_names [] items h, find?_map, Option.map_map]
  rfl

theorem lookup_tagsOf_overrun (hv : ∀ b ∈ items.flatMap Item.bindings, b.1 < 2 ^ 31)
    (hn : ((items.flatMap Item.bindings).map Prod.fst).Nodup) (hlen : 2 ^ 30 < tagCount items)
    (hlt : tagCount items < 2 ^ 31) (mem : List UInt8) :
    lookupEventTag ⟨mem, sorted (tagsOf 0 items)⟩ (2 ^ 31 - 1) = .error .overrun := by
  have hlength : (sorted (tagsOf 0 items)).length = tagCount items := by
    rw [(sorted_perm _).length_eq, tagsOf_length]
  have hover := lookupLoop_overrun (sorted_lt_iff.mpr ((tagsOf_index 0 items).symm ▸ hn))
    (fun t ht => tagsOf_lt hv t ((sorted_perm _).mem_iff.mp ht)) (by rwa [hlength]) (by rwa [hlength])
    ((sorted (tagsOf 0 items)).length + 1) 0 (by omega) (by omega)
  rw [lookupEventTag]
  exact congrArg (Except.map _) hover

end Lookup

section Main

variable {file : List UInt8}

theorem not_mapOk_of_faulty (hv : NumbersBelow file) (h : Faulty file) (hne : file ≠ []) :
    ¬MapOk file := by
  intro hok
  obtain ⟨items, indent, x, w, hi, hin, hx, hw, rfl, hlt⟩ | ⟨items, hi, rfl, hc, hn, hbad⟩ := h
  · have hres := processFile_bare hi (hv.items hi) ⟨_, _, _, hin, hx, hw, rfl⟩ true
    rw [if_pos ⟨rfl, hlt⟩] at hres
    obtain hok | ⟨map, items', hok, -⟩ := hok true <;> cases hres.symm.trans hok
  have hv := NumbersBelow.items (r := []) (by rwa [append_nil]) hi
  have hne : items ≠ [] := by
    rintro rfl
    exact hne rfl
  have hres := processFile_items hi hv hne true
  rw [if_pos ⟨rfl, hc, hn⟩] at hres
  obtain hok | ⟨map, items', hok, hp, he, -, -, hlookup⟩ := hok true
  · cases hres.symm.trans hok
  cases hres.symm.trans hok
  obtain rfl := items_inj hi (fun i hi => (hp i hi).ok) he
  obtain ⟨i, hmem, hnot⟩ | hmany := hbad
  · exact hnot (hp i hmem)
  have hlt : tagCount items < 2 ^ 31 := by
    have := i32_lt (lineCount items : Int)
    omega
  have hlookup := hlookup (2 ^ 31 - 1) (by omega) (by omega)
  rw [lookup_tagsOf_overrun hv hn hmany hlt] at hlookup
  cases hlookup

theorem mapOk_of_not_faulty (hv : NumbersBelow file) (h : ¬Faulty file) (hne : file ≠ []) :
    MapOk file := by
  intro callocOk
  by_cases hlast : file.getLast? = some 10
  · obtain ⟨items, hi, rfl⟩ | ⟨items, r, hi, hb, rfl⟩ | hreject :=
      processFile_cases hlast hv
    · have hv := NumbersBelow.items (r := []) (by rwa [append_nil]) hi
      have hne : items ≠ [] := by
        rintro rfl
        exact hne rfl
      rw [processFile_items hi hv hne]
      split
      case isTrue hacc =>
        obtain ⟨-, hc, hn⟩ := hacc
        have hgood := fun hbad => h (.inr ⟨items, hi, rfl, hc, hn, hbad⟩)
        have hp : ∀ i ∈ items, i.Proper := fun i hmem =>
          Classical.byContradiction fun hnot => hgood (.inl ⟨i, hmem, hnot⟩)
        have hlen : tagCount items ≤ 2 ^ 30 := not_lt.mp fun hmany => hgood (.inr hmany)
        exact .inr ⟨_, items, rfl, hp, rfl, hlast, hn, fun k h₁ h₂ => lookup_tagsOf hp hv hn hlen h₁ h₂⟩
      case isFalse => exact .inl rfl
    · rw [processFile_bare hi (hv.items hi) hb]
      obtain ⟨indent, x, w, hin, hx, hw, rfl⟩ := hb
      rw [if_neg fun hc => h (.inl ⟨items, indent, x, w, hi, hin, hx, hw, rfl, hc.2⟩)]
      exact .inl rfl
    · exact .inl (hreject callocOk)
  · exact .inl (processFile_ne hlast callocOk)

-- The files for which parsing and lookup do what they should.
theorem mapOk_iff (file : List UInt8) (hne : file ≠ []) (hv : NumbersBelow file) :
    MapOk file ↔ ¬Faulty file :=
  ⟨fun hok hf => not_mapOk_of_faulty hv hf hne hok, fun hf => mapOk_of_not_faulty hv hf hne⟩

theorem numbersBelow_of_length (h : file.length ≤ 9) : NumbersBelow file := by
  intro front indent digits back he _ _ hd
  have hlen : digits.length ≤ 9 := by
    rw [he] at h
    simp only [length_append] at h
    omega
  exact (valueOf_lt (by decide) digits).trans_le
    ((Nat.pow_le_pow_right (by decide) hlen).trans (by decide))

-- The file `1 a`.
theorem mapOk_oneTag : MapOk [49, 32, 97, 10] := by
  refine (mapOk_iff _ (by decide) (numbersBelow_of_length (by decide))).mpr ?_
  rintro (⟨items, indent, x, w, -, -, hx, hw, he, -⟩ | ⟨items, hi, he, -, -, hbad⟩)
  · have he : [49, 32, 97] = items.flatMap Item.bytes ++ (indent ++ x :: w) :=
        append_cancel_right (show [49, 32, 97] ++ [10] = _ ++ [10] by simpa using he)
    have hmem : 97 ∈ x :: w := by
      have hlast := congrArg getLast? he
      rw [← append_assoc, getLast?_append_of_ne_nil _ (cons_ne_nil x w)] at hlast
      exact mem_of_getLast? hlast.symm
    obtain h | h := mem_cons.mp hmem
    · exact absurd hx (by rw [← h]; decide)
    · exact absurd (hw 97 h) (by decide)
  · have hp : (Item.tag [] ⟨49, [], 32, [], 97, [], none⟩).Proper :=
      ⟨by simp, ⟨by decide, by simp, by decide, by simp, by decide, by simp, by simp⟩, by decide, by decide⟩
    obtain rfl : items = [.tag [] ⟨49, [], 32, [], 97, [], none⟩] :=
      items_inj hi (by simpa using hp.ok) (he.symm.trans (by decide))
    simp [hp, tagCount, Item.bindings] at hbad

-- A file with nothing but the line `1`: the newline is overwritten, and the loop that looks for it leaves
-- the file.
theorem not_mapOk_bareNumber : ¬MapOk [49, 10] :=
  not_mapOk_of_faulty (numbersBelow_of_length (by decide))
    (.inl ⟨[], [], 49, [], by simp, by simp, by decide, by simp, by decide, by decide⟩) (by decide)

end Main

end Liblog
