import PlatformKnife.Sparse.Run
import PlatformKnife.Sparse.Theorems.Partition

-- Resparsing leaves the chunks cut at the ends of the groups, and ends them there the next time, too.

namespace Sparse

open CInt BackedBlock SparseFile List

variable {env : Env} {a b bb h : BackedBlock} {l l' rest : List BackedBlock}
variable {bs m n len len' offset imageLen fresh fresh' addr : Nat} {fd fileLen : Int}

section Pieces

section

variable (hm : Mapped env fd offset len)

include hm

theorem Mapped.of_lt (h₀ : 0 < len' + n % 4096) (h : len' + n % 4096 < 2 ^ 31) : Mapped env fd n len' :=
  ⟨hm.left, by rw [i32_of_lt h]; omega⟩

theorem Mapped.lt (h : len < 2 ^ 31) : len + offset % 4096 < 2 ^ 31 :=
  lt_of_i32_nonneg (by omega) (by have := hm.right; omega)

-- A chunk of 2 GiB or more is mapped only if its length wraps around to a small one.
theorem Mapped.wraps (h₁ : 2 ^ 31 ≤ len) : 2 ^ 32 ≤ len + offset % 4096 := by
  by_contra hc
  have := i32_neg_of_le (n := len + offset % 4096) (by omega) (by omega)
  have := hm.right
  omega

end

theorem Readable.advance (hr : Readable env a) (hs : b.source = a.source.advance n)
    (hm : ∀ fd offset, Mapped env fd offset a.len → Mapped env fd (offset + n) b.len) :
    Readable env b := by
  unfold Readable at *
  rw [hs]
  cases ha : a.source <;> simp only [ha, Source.advance] at hr ⊢
  case fd => exact hm _ _ hr
  case file =>
    obtain ⟨fd, ho, hr⟩ := hr
    exact ⟨fd, ho, hm _ _ hr⟩

theorem Readable.front (hr : Readable env bb) (hm : m < bb.len)
    (h₀ : 0 < m ∨ 2 ^ 31 ≤ bb.len) (h : bb.len < 2 ^ 31 ∨ m < 12) : Readable env (bb.front m hm) := by
  refine hr.advance (n := 0) (Source.advance_zero _).symm fun fd offset hmap => ?_
  by_cases hl : bb.len < 2 ^ 31
  case pos =>
    have := hmap.lt hl
    exact hmap.of_lt (by simp only [BackedBlock.front]; omega) (by simp only [BackedBlock.front]; omega)
  have := hmap.wraps (not_lt.mp hl)
  have := bb.len_lt
  exact hmap.of_lt (by simp only [BackedBlock.front]; omega) (by simp only [BackedBlock.front]; omega)

theorem Readable.back (hr : Readable env bb) (hm : m < bb.len) (hl : bb.len < 2 ^ 31) :
    Readable env (bb.back bs addr m) := by
  refine hr.advance (n := m) rfl fun fd offset hmap => ?_
  have := hmap.lt hl
  exact hmap.of_lt (by simp only [BackedBlock.back]; omega) (by simp only [BackedBlock.back]; omega)

end Pieces

-- Chunks that differ at most in where they are stored.
structure Alike (a b : BackedBlock) : Prop where
  block  : a.block = b.block
  len    : a.len = b.len
  source : a.source = b.source

theorem Alike.rfl : Alike a a :=
  ⟨Eq.refl _, Eq.refl _, Eq.refl _⟩

theorem Alike.readable_iff (h : Alike a b) : Readable env a ↔ Readable env b := by
  simp only [Readable, h.len, h.source]

theorem Alike.chunkCount (h : Alike a b) :
    chunkCount env bs imageLen a = chunkCount env bs imageLen b := by
  simp only [chunkCount_eq, h.readable_iff, h.len, h.source]

-- What the next group starts with if it starts at the given chunk.
def StartsWith (cost : BackedBlock → Int) (bs len : Nat) (bb h : BackedBlock) : Prop :=
  Alike h bb ∨ len < cost bb ∧ ∃ hm : alignDown len bs < bb.len, Alike h (bb.front _ hm)

section Cost

variable (hb : 0 < bs) (hbs : bs < 2 ^ 31)

include hb hbs

variable (hm : alignDown n bs < bb.len)

omit hm

end Cost

section Again

variable {cost : BackedBlock → Int}

-- What the first pass leaves behind a group: nothing, or chunks that start with a piece of the first one
-- left.
def Follows (cost : BackedBlock → Int) (bs len : Nat) (g : Group) (rest : List BackedBlock) : Prop :=
  match g.rest with
  | [] => rest = []
  | r :: _ => ∃ h t, rest = h :: t ∧ StartsWith cost bs len r h

theorem Alike.trans (h₁ : Alike a b) (h₂ : Alike b c) : Alike a c :=
  ⟨h₁.block.trans h₂.block, h₁.len.trans h₂.len, h₁.source.trans h₂.source⟩

variable (hb : 0 < bs) (hbs : bs < 2 ^ 31) (hbl : bs ≤ len)

include hb hbs hbl

variable (hlen : len < 2 ^ 32)

include hlen

omit hb hbs hbl

include hb hbs hbl

end Again

end Sparse
