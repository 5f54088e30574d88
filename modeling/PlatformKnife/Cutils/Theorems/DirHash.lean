import PlatformKnife.Cutils.DirHash

namespace Cutils.DirHash

open Fallible List

variable {m m' : Memory} {list : List (Node Entry)} {entries : List Entry} {out out' : Out}

theorem free_of_notMem {p : Option Nat} (h : ∀ q ∈ p, q ∉ m.freed) :
    free p m = (some (), { m with freed := p.toList ++ m.freed }) := by
  rcases p with _ | p
  · rfl
  · simp [free, bind_apply, access, h p rfl]

def blocks (list : List (Node α)) : List Nat :=
  list.flatMap fun f => [f.addr, f.name]

theorem blocks_cons (f : Node α) (list : List (Node α)) :
    blocks (f :: list) = f.addr :: f.name :: blocks list :=
  rfl

theorem freeList_of_pairwise {list : List (Node α)} (h : (blocks list).Pairwise (· > ·))
    (hf : ∀ p ∈ blocks list, p ∉ m.freed) :
    ∃ freed, freeList list m = (some (), { m with freed }) ∧
      ∀ p ∈ freed, p ∈ blocks list ∨ p ∈ m.freed := by
  induction list generalizing m
  case nil => exact ⟨m.freed, rfl, fun _ => .inr⟩
  case cons f rest hi =>
    simp only [blocks_cons, pairwise_cons, mem_cons, forall_eq_or_imp] at h hf
    obtain ⟨⟨hne, ha⟩, hn, h⟩ := h
    have hnode : freeNode f m = (some (), { m with freed := f.addr :: f.name :: m.freed }) := by
      simp [freeNode, free, access, bind_apply, hne.ne', hf.1, hf.2.1]
    obtain ⟨freed, hrest, hfreed⟩ := @hi { m with freed := f.addr :: f.name :: m.freed } h
      fun p hp => by simp [(ha p hp).ne, (hn p hp).ne, hf.2.2 p hp]
    refine ⟨freed, by rw [freeList, bind_of_some hnode, hrest], ?_⟩
    intro p hp
    have := hfreed p hp
    simp only [mem_cons, blocks_cons] at this ⊢
    tauto

-- The loop reads the first node after it was freed.
theorem freeListLate_ne_some (h : list ≠ []) : freeListLate list m ≠ (some (), m') := by
  obtain ⟨f, rest, rfl⟩ := exists_cons_of_ne_nil h
  by_cases ha : f.addr ∈ m.freed
  case pos => simp [freeListLate, freeNode, access, bind_apply, ha]
  by_cases hn : f.name ∈ m.freed
  case pos => simp [freeListLate, freeNode, free, access, bind_apply, ha, hn]
  by_cases he : f.addr = f.name <;> simp [freeListLate, freeNode, free, access, bind_apply, ha, hn, he]

-- The objects that are listed, each of which takes two allocations.
def listed (entries : List Entry) : Nat :=
  entries.countP fun e => !isDot e.1

-- What the first loop does when an allocation fails. It frees blocks that are older than those of the
-- last two calls, each older than the one before.
theorem free_of_pairwise {p q : Option Nat} (hf : m.freed = [])
    (h : (m.calls :: blocks list).Pairwise (· > ·)) (hp : ∀ r ∈ p, r = m.calls)
    (hq : ∀ r ∈ q, r = m.calls + 1) :
    ∃ freed, (freeList list >>= fun _ => free p >>= fun _ => free q >>= fun _ => pure (none : Option α))
        { m with calls := m.calls + 2 }
      = (some none, { m with calls := m.calls + 2, freed }) := by
  obtain ⟨hlt, h⟩ := pairwise_cons.mp h
  obtain ⟨freed, hlist, hfreed⟩ := @freeList_of_pairwise { m with calls := m.calls + 2 } _ list h
    (by simp [hf])
  have hnew (r) (hr : m.calls ≤ r) : r ∉ freed := fun hmem => by
    have := hlt r ((hfreed r hmem).resolve_right (by simp [hf]))
    omega
  have hp' := @free_of_notMem { m with calls := m.calls + 2, freed } p fun r hr => hnew r (hp r hr).ge
  have hmem (r) (hr : r ∈ q) : r ∉ p.toList ++ freed := by
    have hr' := hq r hr
    simp only [mem_append, Option.mem_toList, not_or]
    exact ⟨fun hrp => by have := hp r hrp; omega, hnew r (by omega)⟩
  have hq' := @free_of_notMem { m with calls := m.calls + 2, freed := p.toList ++ freed } q hmem
  exact ⟨_, by rw [bind_of_some hlist, bind_of_some hp', bind_of_some hq']; rfl⟩

theorem readList_spec (hf : m.freed = []) (h : (m.calls :: blocks list).Pairwise (· > ·)) :
    ∃ r m', readList entries list m = (some r, m') ∧ (r = none → ∃ i < m'.calls, m.fails i) ∧
      (r = none ↔ ∃ i < 2 * listed entries, m.fails (m.calls + i)) := by
  induction entries generalizing list m
  case nil => exact ⟨some list, m, rfl, nofun, by simp [listed]⟩
  case cons e entries hi =>
    by_cases hd : isDot e.1
    case pos => simpa [readList, hd, listed] using hi hf h
    have hlisted : listed (e :: entries) = listed entries + 1 := by simp [listed, hd]
    obtain ⟨freed, hfree⟩ := @free_of_pairwise m list (List (Node Entry))
      (if m.fails m.calls then none else some m.calls)
      (if m.fails (m.calls + 1) then none else some (m.calls + 1)) hf h (by simp) (by simp)
    rw [readList, if_neg hd, bind_of_some (by rfl), bind_of_some (by rfl), hlisted]
    dsimp only
    by_cases h₁ : m.fails m.calls
    case pos =>
      rw [if_pos h₁] at hfree ⊢
      exact ⟨none, _, hfree, fun _ => ⟨_, by simp, h₁⟩, by simpa using ⟨0, by omega, h₁⟩⟩
    by_cases h₂ : m.fails (m.calls + 1)
    case pos =>
      rw [if_neg h₁, if_pos h₂] at hfree ⊢
      exact ⟨none, _, hfree, fun _ => ⟨_, by simp, h₂⟩, by simpa using ⟨1, by omega, h₂⟩⟩
    rw [if_neg h₁, if_neg h₂]
    obtain ⟨r, m', hr, hcalls, hiff⟩ := @hi { m with calls := m.calls + 2 }
      ({ addr := m.calls + 1, name := m.calls, data := e } :: list) hf (by
        simp only [blocks_cons, pairwise_cons, mem_cons, forall_eq_or_imp] at h ⊢
        refine ⟨⟨by simp, by simp, fun p hp => ?_⟩, ⟨by simp, fun p hp => ?_⟩, h.1, h.2⟩
        all_goals
          have := h.1 p hp
          simp
          omega)
    refine ⟨r, m', hr, hcalls, hiff.trans ?_⟩
    constructor
    case mp =>
      rintro ⟨i, hlt, hfi⟩
      exact ⟨i + 2, by omega, by rwa [add_comm i, ← add_assoc]⟩
    case mpr =>
      rintro ⟨i, hlt, hfi⟩
      match i with
      | 0 => exact absurd hfi h₁
      | 1 => exact absurd hfi h₂
      | i + 2 => exact ⟨i, by omega, by rwa [add_assoc, add_comm 2]⟩

-- Behind the first loop, no call returns: freed memory or the value of `used` is used, or the function's
-- end is reached.
theorem hashList_ne_some (hl : fs = [] ∨ list ≠ []) :
    hashList digest again path list fs out m ≠ (some (some v, out'), m') := by
  induction fs generalizing out m
  case nil =>
    intro h
    simp only [hashList, bind_eq_some_iff, pure_eq_some_iff] at h
    obtain ⟨_, _, _, h, _⟩ := h
    cases h
  case cons f fs hi =>
    have hl := hl.resolve_left (by simp)
    intro h
    simp only [hashList, bind_eq_some_iff] at h
    obtain ⟨_, _, _, _, _, _, p, m₁, _, h⟩ := h
    cases p
    case none =>
      obtain ⟨_, _, hfree, _⟩ := bind_eq_some_iff.mp h
      exact freeListLate_ne_some hl hfree
    simp only [bind_eq_some_iff] at h
    obtain ⟨_, _, hhash, p, _, _, q, _, _, h⟩ := h
    rcases hf : f.data.2 with _ | _
    case dir =>
      rw [hf] at hhash
      cases hhash
    rcases p with _ | p <;> rcases q with _ | q
    case some.some =>
      rw [hf] at h
      exact hi (.inr hl) h
    all_goals
      obtain ⟨_, _, hfree, _⟩ := bind_eq_some_iff.mp h
      exact freeListLate_ne_some hl hfree

-- The objects below a directory.
def paths (path : List UInt8) : List Entry → List (List UInt8)
  | [] => []
  | (name, .leaf _) :: rest => (path ++ 47 :: name) :: paths path rest
  | (name, .dir _ entries) :: rest =>
    (path ++ 47 :: name) :: paths (path ++ 47 :: name) entries ++ paths path rest

-- One line for each of the objects, sorted by `strcmp`.
def Manifest (path : List UInt8) (entries : List Entry) (text : List UInt8) : Prop :=
  ∃ ps lines : List (List UInt8), ps.Perm (paths path entries) ∧
    Forall₂ (fun p line => ∃ hash, line = p ++ 32 :: hash ++ [10]) ps lines ∧
    lines.Pairwise (· ≤ ·) ∧ text = lines.flatten

-- Nothing undefined is used, and the result tells whether an allocation failed.
def Disciplined (digest : List UInt8 → List UInt8) (fails : Nat → Bool) (path : List UInt8)
    (entries : List Entry) : Prop :=
  ∃ v text m, getRecursiveHashManifest digest path entries { fails, calls := 0, freed := [] }
      = (some (v, text), m) ∧
    ((∃ i < m.calls, fails i) → v < 0) ∧
    ((∀ i < m.calls, ¬fails i) → ∃ s, text = some s ∧ v = s.length ∧ Manifest path entries s)

theorem readList_start (fails : Nat → Bool) (entries : List Entry) :
    ∃ r m, readList entries [] { fails, calls := 0, freed := [] } = (some r, m) ∧
      (r = none → ∃ i < m.calls, fails i) ∧ (r = none ↔ ∃ i < 2 * listed entries, fails i) := by
  simpa using @readList_spec { fails, calls := 0, freed := [] } [] entries rfl (pairwise_singleton _ _)

theorem fails_of_disciplined (h : Disciplined digest fails path entries) :
    ∃ i < 2 * listed entries, fails i := by
  obtain ⟨r, m, hread, _, hiff⟩ := readList_start fails entries
  obtain ⟨v, text, m', h, _⟩ := h
  obtain ⟨⟨v, out⟩, m₁, hr, h⟩ := bind_eq_some_iff.mp h
  rw [recurse, bind_of_some hread] at hr
  cases r
  case none => exact hiff.mp rfl
  cases v
  case none =>
    obtain ⟨_, _, hv, _⟩ := bind_eq_some_iff.mp h
    cases hv
  exact absurd hr (hashList_ne_some (or_iff_not_imp_left.mpr id))

theorem disciplined_iff : Disciplined digest fails path entries ↔
    ∃ i < 2 * listed entries, fails i := by
  refine ⟨fails_of_disciplined, fun hf => ?_⟩
  obtain ⟨r, m, hread, hcalls, hiff⟩ := readList_start fails entries
  cases hiff.mpr hf
  obtain ⟨i, hlt, hi⟩ := hcalls rfl
  refine ⟨-1, none, m, ?_, fun _ => by decide, fun hnone => absurd hi (hnone i hlt)⟩
  have hr : recurse digest (DirTree.entriesDepth entries + 1) path entries []
      { fails, calls := 0, freed := [] } = (some (some (-1), []), m) := by
    rw [recurse, bind_of_some hread]
    rfl
  rw [getRecursiveHashManifest, bind_of_some hr]
  rfl

-- A directory with the empty file `a`, of which the path cannot be allocated.
theorem not_disciplined_name : ¬Disciplined id (· = 2) [46] [([97], .leaf (⟨0, 0, 0⟩, []))] := by
  intro h
  obtain ⟨i, hlt, hi⟩ := fails_of_disciplined h
  have hle : listed [([97], .leaf (⟨0, 0, 0⟩, []))] ≤ 1 := countP_le_length
  have := of_decide_eq_true hi
  omega

end Cutils.DirHash
