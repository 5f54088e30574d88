import Mathlib.Data.List.Flatten
import Mathlib.Data.List.Perm.Basic
import Mathlib.Tactic

-- Chained tables: a list of buckets, each the chain of the elements with its index.
namespace Buckets

open List

-- The first element with `p`, and the chain with `f` of it in its place.
def walk (p : α → Bool) (f : α → List α) : List α → Option (α × List α)
  | [] => none
  | a :: l =>
    if p a then
      some (a, f a ++ l)
    else
      (walk p f l).map fun (found, rest) => (found, a :: rest)

theorem walk_eq_none : walk p f l = none ↔ ∀ a ∈ l, ¬p a := by
  induction l <;> simp_all [walk]
  split <;> simp_all

theorem walk_eq_some (h : walk p f l = some (a, l')) :
    ∃ l₁ l₂, l = l₁ ++ a :: l₂ ∧ l' = l₁ ++ (f a ++ l₂) ∧ p a = true := by
  induction l generalizing l'
  case nil => simp [walk] at h
  case cons b l ih =>
    rw [walk] at h
    split at h
    case isTrue hp =>
      cases h
      exact ⟨[], l, rfl, rfl, hp⟩
    obtain ⟨⟨c, rest⟩, hw, hr⟩ := Option.map_eq_some_iff.mp h
    cases hr
    obtain ⟨l₁, l₂, rfl, rfl, hp⟩ := ih hw
    exact ⟨b :: l₁, l₂, rfl, rfl, hp⟩

theorem walk_perm (h : walk p f l = some (a, l')) : ∃ r, l.Perm (a :: r) ∧ l'.Perm (f a ++ r) := by
  obtain ⟨l₁, l₂, rfl, rfl, -⟩ := walk_eq_some h
  exact ⟨l₁ ++ l₂, perm_middle, by simpa using perm_append_comm_assoc l₁ (f a) l₂⟩

theorem flatten_set_perm {t : List (List α)} (h : i < t.length) :
    ∃ rest, ∀ c, (t.set i c).flatten.Perm (c ++ rest) := by
  refine ⟨(t.take i).flatten ++ (t.drop (i + 1)).flatten, fun c => ?_⟩
  rw [set_eq_take_append_cons_drop, if_pos h, flatten_append, flatten_cons]
  exact perm_append_comm_assoc _ _ _

theorem flatten_set_exchange {t : List (List α)} (h : t[i]? = some c) (hc : c.Perm (a :: r))
    (hd : d.Perm (l ++ r)) :
    ∃ rest, t.flatten.Perm (a :: rest) ∧ (t.set i d).flatten.Perm (l ++ rest) := by
  obtain ⟨hi, hg⟩ := List.getElem?_eq_some_iff.mp h
  obtain ⟨rest, hp⟩ := flatten_set_perm hi
  refine ⟨r ++ rest, ?_, (hp d).trans (by simpa using hd.append_right rest)⟩
  have hs : t.set i c = t := hg ▸ set_getElem_self hi
  exact (hs ▸ hp c).trans (hc.append_right rest)

section

variable {index : α → Nat} {t : List (List α)}

-- Every element is in the bucket that its index selects.
def InPlace (index : α → Nat) (t : List (List α)) : Prop :=
  ∀ i c a, t[i]? = some c → a ∈ c → index a = i

theorem InPlace.replicate : InPlace index (replicate n []) := by
  intro i c a hc ha
  rw [getElem?_replicate] at hc
  split at hc <;> cases hc
  cases ha

theorem InPlace.set (h : InPlace index t) (hc : ∀ a ∈ c, index a = i) : InPlace index (t.set i c) := by
  intro j d a hd ha
  rw [getElem?_set] at hd
  split at hd
  case isTrue hij =>
    split at hd <;> cases hd
    exact hij ▸ hc a ha
  case isFalse => exact h j d a hd ha

theorem InPlace.mem_bucket (h : InPlace index t) (ha : a ∈ t.flatten) (hc : t[index a]? = some c) :
    a ∈ c := by
  obtain ⟨d, hd, had⟩ := mem_flatten.mp ha
  obtain ⟨i, hi, rfl⟩ := getElem_of_mem hd
  have := h i _ a (getElem?_eq_getElem hi) had
  subst this
  rw [getElem?_eq_getElem hi] at hc
  cases hc
  exact had

theorem mem_flatten_of_bucket {i : Nat} (hc : t[i]? = some c) (ha : a ∈ c) : a ∈ t.flatten :=
  mem_flatten.mpr ⟨c, mem_of_getElem? hc, ha⟩

end

-- Moving an element to the front of the bucket that `index` selects.
def link (index : α → Nat) (t : List (List α)) (a : α) : List (List α) :=
  t.set (index a) (a :: t.getD (index a) [])

variable {index : α → Nat}

@[simp]
theorem link_length : (link index t a).length = t.length := by
  simp [link]

theorem link_inPlace (h : InPlace index t) : InPlace index (link index t a) := by
  apply h.set
  intro b hb
  obtain rfl | hb := mem_cons.mp hb
  · rfl
  rw [getD_eq_getElem?_getD] at hb
  cases hc : t[index a]?
  case none => simp [hc] at hb
  case some c => exact h _ _ _ hc (by simpa [hc] using hb)

theorem link_perm (h : index a < t.length) : (link index t a).flatten.Perm (a :: t.flatten) := by
  obtain ⟨rest, hp⟩ := flatten_set_perm h
  have hs := hp t[index a]
  rw [set_getElem_self h] at hs
  rw [link, getD_eq_getElem?_getD, getElem?_eq_getElem h]
  exact (hp _).trans (hs.symm.cons a)

theorem foldl_link {l : List α} {t : List (List α)} (ht : ∀ a ∈ l, index a < t.length) (h : InPlace index t) :
    (l.foldl (link index) t).length = t.length ∧ InPlace index (l.foldl (link index) t) ∧
      (l.foldl (link index) t).flatten.Perm (l ++ t.flatten) := by
  induction l generalizing t
  case nil => exact ⟨rfl, h, .refl _⟩
  case cons a l ih =>
    obtain ⟨hl, hi, hp⟩ := ih (t := link index t a)
      (by simpa using fun b hb => ht b (mem_cons_of_mem _ hb)) (link_inPlace h)
    refine ⟨by simpa using hl, hi, hp.trans ?_⟩
    have ha := link_perm (ht a mem_cons_self)
    exact (ha.append_left l).trans perm_middle

end Buckets
