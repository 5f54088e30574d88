import Mathlib.Tactic

-- The trees of a file system. A directory is a list of named entries, in the order of reading.
inductive DirTree (φ δ : Type)
  | leaf (a : φ)
  | dir (d : δ) (entries : List (List UInt8 × DirTree φ δ))

namespace DirTree

variable {φ δ : Type}

abbrev Entries (φ δ : Type) := List (List UInt8 × DirTree φ δ)

mutual

def depth : DirTree φ δ → Nat
  | leaf _ => 0
  | dir _ entries => entriesDepth entries + 1

-- How deep the directories are nested in a list of entries.
def entriesDepth : List (List UInt8 × DirTree φ δ) → Nat
  | [] => 0
  | (_, t) :: rest => max t.depth (entriesDepth rest)

end

theorem depth_le_of_mem (h : (name, t) ∈ entries) : t.depth ≤ entriesDepth entries := by
  induction entries
  case nil => exact absurd h List.not_mem_nil
  case cons e rest hi =>
    rw [entriesDepth]
    cases List.mem_cons.mp h
    case inl h => exact h ▸ le_max_left _ _
    case inr h => exact (hi h).trans (le_max_right _ _)

theorem entriesDepth_lt_of_mem (h : (name, dir d sub) ∈ entries) :
    entriesDepth sub < entriesDepth entries := by
  have := depth_le_of_mem h
  rw [depth] at this
  omega

end DirTree
