import Mathlib.Tactic

namespace Slice

open List

variable {α : Type*} {l s : List α}

-- The elements from position `i` up to position `j`.
def slice (l : List α) (i j : Nat) : List α :=
  (l.take j).drop i

-- The list with the elements of `s` from position `i` on. Its length stays.
def overwrite (l : List α) (i : Nat) (s : List α) : List α :=
  l.mapIdx fun k a => if i ≤ k then s.getD (k - i) a else a

@[simp]
theorem overwrite_length (l : List α) (i : Nat) (s : List α) : (overwrite l i s).length = l.length := by
  simp [overwrite]

theorem overwrite_getElem? (l : List α) (i k : Nat) (s : List α) :
    (overwrite l i s)[k]? = l[k]?.map fun a => if i ≤ k then s.getD (k - i) a else a := by
  simp [overwrite]

theorem overwrite_append (l₁ : List α) (h : s.length ≤ l₂.length) :
    overwrite (l₁ ++ l₂) l₁.length s = l₁ ++ (s ++ l₂.drop s.length) := by
  apply ext_getElem?
  intro k
  rw [overwrite_getElem?]
  by_cases hk : k < l₁.length
  · rw [getElem?_append_left hk, getElem?_append_left hk]
    simp [Nat.not_le.mpr hk, getElem?_eq_getElem hk]
  obtain ⟨j, rfl⟩ := Nat.exists_eq_add_of_le (Nat.not_lt.mp hk)
  simp only [getElem?_append_right (Nat.le_add_right _ _), Nat.add_sub_cancel_left,
    Nat.le_add_right, if_true, getD_eq_getElem?_getD]
  by_cases hj : j < s.length
  · rw [getElem?_append_left hj, getElem?_eq_getElem (by omega : j < l₂.length), getElem?_eq_getElem hj]
    rfl
  obtain ⟨i, rfl⟩ := Nat.exists_eq_add_of_le (Nat.not_lt.mp hj)
  simp [getElem?_append_right]

theorem overwrite_zero (h : s.length ≤ l.length) : overwrite l 0 s = s ++ l.drop s.length := by
  simpa using overwrite_append [] h

theorem overwrite_append_cons (l₁ l₂ : List α) (a b : α) :
    overwrite (l₁ ++ a :: l₂) l₁.length [b] = l₁ ++ b :: l₂ := by
  have h : [b].length ≤ (a :: l₂).length := by simp
  simpa using overwrite_append l₁ h

theorem overwrite_singleton (h : i < l.length) (a : α) :
    overwrite l i [a] = l.take i ++ a :: l.drop (i + 1) := by
  have ho := overwrite_append_cons (l.take i) (l.drop (i + 1)) l[i] a
  rwa [length_take, min_eq_left h.le, getElem_cons_drop, take_append_drop] at ho

theorem slice_append (l₁ s l₂ : List α) :
    slice (l₁ ++ (s ++ l₂)) l₁.length (l₁.length + s.length) = s := by
  simp [slice, take_append]

theorem slice_length (h : j ≤ l.length) : (slice l i j).length = j - i := by
  simp only [slice, length_drop, length_take]
  omega

theorem slice_getElem? (l : List α) (i j k : Nat) :
    (slice l i j)[k]? = if i + k < j then l[i + k]? else none := by
  rw [slice, getElem?_drop, getElem?_take]

@[simp]
theorem slice_self (l : List α) (i : Nat) : slice l i i = [] := by
  simp [slice]

theorem slice_append_slice (l : List α) (h₁ : i ≤ j) (h₂ : j ≤ k) (hk : k ≤ l.length) :
    slice l i j ++ slice l j k = slice l i k := by
  apply ext_getElem?
  intro n
  rw [getElem?_append, slice_length (by omega)]
  simp only [slice_getElem?]
  split
  case isTrue h  => rw [if_pos (by omega), if_pos (by omega)]
  case isFalse h => rw [show j + (n - (j - i)) = i + n by omega]

theorem slice_overwrite_of_le (h : j ≤ k) : slice (overwrite l k s) i j = slice l i j := by
  apply ext_getElem?
  intro n
  simp only [slice_getElem?, overwrite_getElem?]
  split
  case isTrue hn =>
    simp only [show ¬k ≤ i + n by omega, ite_false]
    exact Option.map_id'
  case isFalse => rfl

theorem slice_overwrite_of_ge (h : k + s.length ≤ i) : slice (overwrite l k s) i j = slice l i j := by
  apply ext_getElem?
  intro n
  simp only [slice_getElem?, overwrite_getElem?]
  split
  case isTrue hn =>
    have hs : ∀ a, s.getD (i + n - k) a = a := by
      intro a
      rw [getD_eq_getElem?_getD, getElem?_eq_none (by omega)]
      rfl
    simp only [hs, ite_self]
    exact Option.map_id'
  case isFalse => rfl

theorem slice_overwrite (h : k + s.length ≤ l.length) : slice (overwrite l k s) k (k + s.length) = s := by
  apply ext_getElem?
  intro n
  simp only [slice_getElem?, overwrite_getElem?]
  split
  case isTrue hn =>
    have hl : k + n < l.length := by omega
    have hs : n < s.length := by omega
    simp [getElem?_eq_getElem hl, getElem?_eq_getElem hs]
  case isFalse hn => rw [getElem?_eq_none (by omega)]

theorem slice_overwrite_append (hi : i ≤ k) (h : k + s.length ≤ l.length) :
    slice (overwrite l k s) i (k + s.length) = slice l i k ++ s := by
  rw [← slice_append_slice _ hi (Nat.le_add_right _ _) (by simpa using h),
    slice_overwrite_of_le (le_refl _), slice_overwrite h]

theorem take_overwrite_of_le (h : j ≤ k) : (overwrite l k s).take j = l.take j :=
  slice_overwrite_of_le (i := 0) h

theorem take_overwrite_append (h : k + s.length ≤ l.length) :
    (overwrite l k s).take (k + s.length) = l.take k ++ s :=
  slice_overwrite_append (Nat.zero_le k) h

end Slice
