import PlatformKnife.Ext4.Theorems.Allocator

namespace Ext4

open CInt List Except BlockGroupInfo

-- The best group: the fullest one that is large enough, or else the emptiest one.
structure Best (bgs : List BlockGroupInfo) (len foundBg foundLen : Nat) : Prop where
  found   : 0 < foundLen → ∃ bg, bgs[foundBg]? = some bg ∧ bg.freeBlocks = foundLen
  largest : foundLen < len → ∀ bg ∈ bgs, bg.freeBlocks ≤ foundLen
  tight   : len ≤ foundLen → ∀ bg ∈ bgs, len ≤ bg.freeBlocks → foundLen ≤ bg.freeBlocks

-- The regions that are taken for a request, one group after the other.
inductive BestFit (l : Layout) : List BlockGroupInfo → Nat → List Region → List BlockGroupInfo → Prop
  | nil : BestFit l bgs 0 [] bgs
  | cons : 0 < len → bgs[g]? = some bg → 0 < bg.freeBlocks → Best bgs len g bg.freeBlocks →
    BestFit l (bgs.set g (bg.reserved bg.firstFreeBlock (min len bg.freeBlocks)))
      (len - min len bg.freeBlocks) regs bgs' →
    BestFit l bgs len (⟨l.first g + bg.firstFreeBlock, min len bg.freeBlocks, g⟩ :: regs) bgs'

variable {l : Layout} {bgs bgs' : List BlockGroupInfo} {bg : BlockGroupInfo} {force : Bool}
variable {regs regs' : List Region}

theorem findBestFit_best (hlen : 0 < len) {pre : List BlockGroupInfo} (h : Best pre len found.1 found.2) :
    Best (pre ++ bgs) len (findBestFit len bgs pre.length found).1
      (findBestFit len bgs pre.length found).2 := by
  induction bgs generalizing pre found
  case nil => simpa [findBestFit] using h
  case cons bg bgs ih =>
    obtain ⟨foundBg, foundLen⟩ := found
    simp only at h
    have happ : pre ++ bg :: bgs = (pre ++ [bg]) ++ bgs := by simp
    have hlength : pre.length + 1 = (pre ++ [bg]).length := by simp
    simp only [findBestFit]
    rw [happ, hlength]
    split
    case isTrue hc =>
      apply ih
      refine ⟨fun _ => ⟨bg, by simp⟩, ?_, ?_⟩
      · simp only [mem_append, mem_singleton]
        intro hlt b hb
        cases hb
        case inl hb => have := h.largest (by omega) b hb; omega
        case inr hb => simp [hb]
      · simp only [mem_append, mem_singleton]
        intro hle b hb hlb
        cases hb
        case inl hb =>
          by_cases hfl : foundLen < len
          case pos => have := h.largest hfl b hb; omega
          case neg => have := h.tight (by omega) b hb hlb; omega
        case inr hb => simp [hb]
    case isFalse hc =>
      apply ih
      refine ⟨?_, ?_, ?_⟩
      · intro hpos
        obtain ⟨b, hb, hf⟩ := h.found hpos
        have hlt : foundBg < pre.length := (List.getElem?_eq_some_iff.mp hb).fst
        exact ⟨b, by simpa [getElem?_append_left hlt] using hb, hf⟩
      · simp only [mem_append, mem_singleton]
        intro hlt b hb
        cases hb
        case inl hb => exact h.largest hlt b hb
        case inr hb => subst hb; omega
      · simp only [mem_append, mem_singleton]
        intro hle b hb hlb
        cases hb
        case inl hb => exact h.tight hle b hb hlb
        case inr hb => subst hb; omega

theorem best_of_findBestFit (hlen : 0 < len)
    (h : findBestFit len bgs 0 (0, 0) = (foundBg, foundLen)) : Best bgs len foundBg foundLen := by
  have := @findBestFit_best bgs len (0, 0) hlen [] ⟨by simp, by simp, by simp⟩
  simpa [h] using this

section

variable (ha : l.Addressable) (h : BgsOk l bgs)

include ha h

theorem ext4AllocateBestFitPartial_cases (force : Bool) (hlen : 0 < len) :
    (∃ g bg, bgs[g]? = some bg ∧ 0 < bg.freeBlocks ∧ Best bgs len g bg.freeBlocks ∧
      ext4AllocateBestFitPartial force bgs len =
        .ok (bgs.set g (bg.reserved bg.firstFreeBlock (min len bg.freeBlocks)),
          some ⟨l.first g + bg.firstFreeBlock, min len bg.freeBlocks, g⟩)) ∨
    (∀ bg ∈ bgs, bg.freeBlocks = 0) ∧
      (force ∧ ext4AllocateBestFitPartial force bgs len = .ok (bgs, none) ∨
        ∃ msg, ext4AllocateBestFitPartial force bgs len = .error (.longjmp msg)) := by
  rcases hf : findBestFit len bgs 0 (0, 0) with ⟨g, foundLen⟩
  have hbest := best_of_findBestFit hlen hf
  simp only [ext4AllocateBestFitPartial, hf]
  by_cases hz : foundLen = 0
  case pos =>
    refine .inr ⟨fun bg hbg => Nat.le_zero.mp (hz ▸ hbest.largest (by omega) bg hbg), ?_⟩
    rw [if_pos hz]
    cases force
    case false => exact .inr ⟨_, rfl⟩
    case true  => exact .inl ⟨rfl, rfl⟩
  obtain ⟨bg, hi, rfl⟩ := hbest.found (by omega)
  have hs := Layout.first_succ_le ha (h.lt hi)
  have hle := (h.group _ bg hi).le
  have hne : l.first g + bg.firstFreeBlock ≠ ext4AllocateFailed := by
    simp only [ext4AllocateFailed]
    omega
  refine .inl ⟨g, bg, hi, pos_of_ne_zero hz, hbest, ?_⟩
  simp only [hz, if_false, ext4AllocateBlocksFromBlockGroup_ok ha h hi (min_le_right _ _), ok_bind,
    hne, pure_eq_ok]

theorem ext4AllocateBestFitPartial_ok (hlen : 0 < len)
    (hr : ext4AllocateBestFitPartial force bgs len = .ok (bgs', some reg)) :
    ∃ bg, bgs[reg.bg]? = some bg ∧ 0 < bg.freeBlocks ∧ Best bgs len reg.bg bg.freeBlocks ∧
      bgs' = bgs.set reg.bg (bg.reserved bg.firstFreeBlock (min len bg.freeBlocks)) ∧
      reg = ⟨l.first reg.bg + bg.firstFreeBlock, min len bg.freeBlocks, reg.bg⟩ := by
  obtain ⟨g, bg, hi, hpos, hbest, he⟩ | ⟨-, ⟨-, he⟩ | ⟨msg, he⟩⟩ :=
    ext4AllocateBestFitPartial_cases ha h force hlen
  · rw [he, ok.injEq, Prod.mk.injEq, Option.some.injEq] at hr
    obtain ⟨rfl, rfl⟩ := hr
    exact ⟨bg, hi, hpos, hbest, rfl, rfl⟩
  · simp [he] at hr
  · simp [he] at hr

theorem ext4AllocateBestFitPartial_none (hlen : 0 < len)
    (hr : ext4AllocateBestFitPartial force bgs len = .ok (bgs', none)) :
    bgs' = bgs ∧ force ∧ ∀ bg ∈ bgs, bg.freeBlocks = 0 := by
  obtain ⟨g, bg, -, -, -, he⟩ | ⟨hz, ⟨hforce, he⟩ | ⟨msg, he⟩⟩ :=
    ext4AllocateBestFitPartial_cases ha h force hlen
  · simp [he] at hr
  · simp only [he, ok.injEq, Prod.mk.injEq, and_true] at hr
    exact ⟨hr.symm, hforce, hz⟩
  · simp [he] at hr

theorem BgsOk.reserve (hi : bgs[i]? = some bg)
    (hn : num ≤ bg.freeBlocks) : BgsOk l (bgs.set i (bg.reserved bg.firstFreeBlock num)) :=
  h.set <| (h.group i bg hi).reserved ha hn

theorem bestFitLoop_bestFit (hf : len ≤ fuel)
    (hr : bestFitLoop force fuel bgs len regs = .ok (bgs', regs')) (hne : regs' ≠ []) :
    ∃ new, regs' = regs ++ new ∧ BestFit l bgs len new bgs' := by
  induction fuel generalizing bgs len regs
  case zero =>
    simp only [bestFitLoop, ok.injEq, Prod.mk.injEq] at hr
    obtain ⟨hbgs, hregs⟩ := hr
    subst hbgs hregs
    refine ⟨[], by simp, ?_⟩
    rw [show len = 0 by omega]
    exact .nil
  case succ fuel ih =>
    rw [bestFitLoop] at hr
    by_cases hlen : 0 < len
    case neg =>
      simp only [gt_iff_lt, hlen, if_false, ok.injEq, Prod.mk.injEq] at hr
      obtain ⟨hbgs, hregs⟩ := hr
      subst hbgs hregs
      refine ⟨[], by simp, ?_⟩
      rw [show len = 0 by omega]
      exact .nil
    rw [if_pos hlen] at hr
    obtain ⟨⟨bgs₁, _ | reg⟩, hp, hr⟩ := bind_eq_ok_iff.mp hr
    · simp only [pure_eq_ok, ok.injEq, Prod.mk.injEq] at hr
      exact absurd hr.right.symm hne
    obtain ⟨bg, hi, hpos, hbest, hbgs, hreg⟩ := ext4AllocateBestFitPartial_ok ha h hlen hp
    have hrl : reg.len = min len bg.freeBlocks := by rw [hreg]
    obtain ⟨new, hregs, hnew⟩ := ih (hbgs ▸ h.reserve ha hi (min_le_right _ _)) (by omega) hr
    refine ⟨reg :: new, by simp [hregs], ?_⟩
    rw [hrl, hbgs] at hnew
    rw [hreg]
    exact .cons hlen hi hpos hbest hnew

theorem ext4AllocateBestFit_bestFit
    (hr : ext4AllocateBestFit force bgs len = .ok (bgs', regs)) (hne : regs ≠ []) :
    BestFit l bgs len regs bgs' := by
  obtain ⟨new, hregs, hnew⟩ := bestFitLoop_bestFit ha h (le_refl _) hr hne
  rw [nil_append] at hregs
  exact hregs ▸ hnew

end

namespace BestFit

theorem sum_len (h : BestFit l bgs len regs bgs') : (regs.map Region.len).sum = len := by
  induction h
  case nil => rfl
  case cons ih => simp only [map_cons, sum_cons, ih]; omega

theorem len_pos (h : BestFit l bgs len regs bgs') : ∀ reg ∈ regs, 0 < reg.len := by
  induction h
  case nil => simp
  case cons ih =>
    intro reg hreg
    cases mem_cons.mp hreg
    case inl hr => simp only [hr]; omega
    case inr hr => exact ih reg hr

theorem eq_nil (h : BestFit l bgs 0 regs bgs') : regs = [] ∧ bgs' = bgs := by
  cases h
  case nil  => exact ⟨rfl, rfl⟩
  case cons => omega

theorem getElem?_of_full {i : Nat} (h : BestFit l bgs len regs bgs') (hi : bgs[i]? = some bg)
    (hf : bg.freeBlocks = 0) : bgs'[i]? = some bg := by
  induction h
  case nil => exact hi
  case cons g b _ _ _ hg hpos _ _ ih =>
    apply ih
    by_cases hgi : g = i
    case neg => rwa [getElem?_set_ne hgi]
    subst hgi
    rw [hg, Option.some.injEq] at hi
    subst hi
    omega

theorem allocates (ha : l.Addressable) (h : BgsOk l bgs) (hb : BestFit l bgs len regs bgs') :
    Allocates l bgs bgs' (regs.flatMap Region.blocks) := by
  induction hb
  case nil => exact .refl h
  case cons len _ _ bg _ _ _ hg _ _ _ ih =>
    have hmin := min_le_right len bg.freeBlocks
    have h₁ := allocates_reserved ha h hg hmin
    have h₂ := ih (h.reserve ha hg hmin)
    exact (h₁.trans h₂).subperm perm_append_comm.subperm

-- The first region ends at the first free block of its group, as it takes all of it unless it is the only
-- one.
theorem head_end (h : BgsOk l bgs) (hb : BestFit l bgs len (reg :: regs) bgs') :
    ∃ bg, bgs'[reg.bg]? = some bg ∧ reg.block + reg.len = l.first reg.bg + bg.firstFreeBlock ∧
      bg.firstFreeBlock ≤ l.groupLen reg.bg ∧ cursor bgs reg.bg + reg.len = bg.firstFreeBlock := by
  cases hb
  case cons g bg hlen hg hpos hbest hrest =>
    have hmin := min_le_right len bg.freeBlocks
    have hlt : g < bgs.length := (List.getElem?_eq_some_iff.mp hg).fst
    obtain ⟨_, hle⟩ := (h.group g bg hg).add_le hmin
    have hset : (bgs.set g (bg.reserved bg.firstFreeBlock (min len bg.freeBlocks)))[g]?
        = some (bg.reserved bg.firstFreeBlock (min len bg.freeBlocks)) := by simp [hlt]
    have hend : bgs'[g]? = some (bg.reserved bg.firstFreeBlock (min len bg.freeBlocks)) := by
      by_cases hf : len ≤ bg.freeBlocks
      case pos =>
        rw [min_eq_left hf] at *
        rw [Nat.sub_self] at hrest
        rw [hrest.eq_nil.right, hset]
      apply hrest.getElem?_of_full hset
      simp only [reserved]
      omega
    refine ⟨_, hend, ?_, ?_, ?_⟩
    · simp only [reserved, if_true, add_assoc]
    · simp only [reserved, if_true]; omega
    · simp only [reserved, if_true, cursor_of_some hg]

end BestFit
end Ext4
