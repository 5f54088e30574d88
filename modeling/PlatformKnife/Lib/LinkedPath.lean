import Mathlib.Tactic

-- Nodes in a memory that are linked by pointers, of which `none` is the null pointer.
namespace LinkedPath

variable {ι ν : Type} {next : ν → Option ι} {mem mem' : ι → ν} {p q r : Option ι}
variable {is js : List ι} {i : ι}

-- The addresses that are met from a pointer on, `fuel` of them at most.
def walk (next : ν → Option ι) (mem : ι → ν) : Nat → Option ι → List ι
  | 0, _ => []
  | _ + 1, none => []
  | fuel + 1, some i => i :: walk next mem fuel (next (mem i))

@[simp]
theorem walk_none : walk next mem fuel none = [] := by
  cases fuel <;> rfl

-- A way from a pointer to another one, with the addresses on it.
def Path (next : ν → Option ι) (mem : ι → ν) : Option ι → List ι → Option ι → Prop
  | p, [], q => p = q
  | p, i :: is, q => p = some i ∧ Path next mem (next (mem i)) is q

namespace Path

theorem append_iff : Path next mem p (is ++ js) q ↔ ∃ r, Path next mem p is r ∧ Path next mem r js q := by
  induction is generalizing p
  case nil => simp [Path]
  case cons i is ih =>
    simp only [List.cons_append, Path, ih]
    constructor
    case mp  =>
      rintro ⟨hp, r, hi, hj⟩
      exact ⟨r, ⟨hp, hi⟩, hj⟩
    case mpr =>
      rintro ⟨r, ⟨hp, hi⟩, hj⟩
      exact ⟨hp, r, hi, hj⟩

theorem append (h : Path next mem p is r) (h' : Path next mem r js q) : Path next mem p (is ++ js) q :=
  append_iff.mpr ⟨r, h, h'⟩

theorem head?_eq (h : Path next mem p is none) : is.head? = p := by
  cases is
  case nil  => exact h.symm
  case cons => exact h.left.symm

theorem walk_eq (h : Path next mem p is none) (hf : is.length ≤ fuel) : walk next mem fuel p = is := by
  induction is generalizing p fuel
  case nil =>
    rw [show p = none from h, walk_none]
  case cons i is ih =>
    obtain _ | fuel := fuel
    · simp at hf
    obtain ⟨hp, h⟩ := h
    rw [hp, walk, ih h (Nat.le_of_succ_le_succ hf)]

theorem congr (h : Path next mem p is q) (hm : ∀ i ∈ is, next (mem' i) = next (mem i)) :
    Path next mem' p is q := by
  induction is generalizing p
  case nil => exact h
  case cons i is ih =>
    obtain ⟨hp, h⟩ := h
    refine ⟨hp, ?_⟩
    rw [hm i (by simp)]
    exact ih h fun j hj => hm j (by simp [hj])

theorem redirect (h : Path next mem p (is ++ [i]) q) (hm : ∀ j ∈ is, next (mem' j) = next (mem j))
    (hi : next (mem' i) = r) : Path next mem' p (is ++ [i]) r := by
  obtain ⟨_, h, hp, _⟩ := append_iff.mp h
  exact (h.congr hm).append ⟨hp, hi⟩

end Path

theorem length_le_of_lt {is : List Nat} (hn : is.Nodup) (hlt : ∀ i ∈ is, i < size) : is.length ≤ size := by
  have hsub : is ⊆ List.range size := fun i hi => List.mem_range.mpr (hlt i hi)
  simpa using (hn.subperm hsub).length_le

end LinkedPath
