import Mathlib.Tactic

-- Scanning a text for the first element that is not in a class.
namespace Scan

variable {p : α → Bool} {l w r : List α} {a b : α}

-- Where `while (p(*++cp));` ends, or `none` if it runs out of the text.
def scan (p : α → Bool) (mem : List α) (cp : Nat) : Option Nat :=
  ((mem.drop (cp + 1)).findIdx? (!p ·)).map (cp + 1 + ·)

theorem drop_append_cons (l r : List α) (a : α) : (l ++ a :: r).drop (l.length + 1) = r := by
  simp [List.drop_append]

section

variable (hw : ∀ x ∈ w, p x = true)

include hw

theorem findIdx?_append_cons (hb : p b = false) : (w ++ b :: r).findIdx? (!p ·) = some w.length := by
  induction w
  case nil => simp [List.findIdx?_cons, hb]
  case cons x w ih =>
    have hx := hw x (by simp)
    have := ih fun y hy => hw y (by simp [hy])
    simp [List.findIdx?_cons, hx, this]

theorem scan_eq_some (hb : p b = false) :
    scan p (l ++ a :: (w ++ b :: r)) l.length = some (l.length + 1 + w.length) := by
  rw [scan, drop_append_cons, findIdx?_append_cons hw hb, Option.map_some]

theorem scan_eq_none : scan p (l ++ a :: w) l.length = none := by
  have hf : w.findIdx? (!p ·) = none := by
    rw [List.findIdx?_eq_none_iff]
    intro x hx
    simp [hw x hx]
  rw [scan, drop_append_cons, hf, Option.map_none]

end

theorem exists_stop (p : α → Bool) (r : List α) :
    (∀ x ∈ r, p x = true) ∨ ∃ w b r', r = w ++ b :: r' ∧ (∀ x ∈ w, p x = true) ∧ p b = false := by
  induction r
  case nil => exact .inl (by simp)
  case cons a r ih =>
    cases ha : p a
    case false => exact .inr ⟨[], a, r, rfl, by simp, ha⟩
    case true =>
      obtain h | ⟨w, b, r', rfl, hw, hb⟩ := ih
      · exact .inl (by simpa [ha] using h)
      · exact .inr ⟨a :: w, b, r', rfl, by simpa [ha] using hw, hb⟩

end Scan
