import Mathlib.Tactic

-- Circular lists that are linked in both directions, with a node as head.
namespace Ring

open List Function

structure Links (α : Type) where
  next : α → α
  prev : α → α

variable {α : Type} {L L' : Links α} {a b h n x y : α} {l l₁ l₂ : List α}

-- From a node through others to a node.
def Path (L : Links α) : α → List α → α → Prop
  | a, [], b => L.next a = b ∧ L.prev b = a
  | a, x :: l, b => (L.next a = x ∧ L.prev x = a) ∧ Path L x l b

-- The nodes behind the head, in their order.
structure IsRing (L : Links α) (h : α) (l : List α) : Prop where
  path  : Path L h l h
  nodup : (h :: l).Nodup

namespace Path

theorem append_iff : Path L a (l₁ ++ x :: l₂) b ↔ Path L a l₁ x ∧ Path L x l₂ b := by
  induction l₁ generalizing a
  case nil => rfl
  case cons y l₁ hi => simp only [cons_append, Path, hi, and_assoc]

section

variable (hp : Path L a l b)

include hp

theorem congr (hn : ∀ x ∈ a :: l, L'.next x = L.next x)
    (hv : ∀ x ∈ l ++ [b], L'.prev x = L.prev x) : Path L' a l b := by
  induction l generalizing a
  case nil => exact ⟨(hn a (by simp)).trans hp.1, (hv b (by simp)).trans hp.2⟩
  case cons x l hi =>
    obtain ⟨⟨h₁, h₂⟩, hp⟩ := hp
    refine ⟨⟨(hn a (by simp)).trans h₁, (hv x (by simp)).trans h₂⟩, hi hp ?_ ?_⟩
    · exact fun y hy => hn y (mem_cons_of_mem a hy)
    · exact fun y hy => hv y (mem_cons_of_mem x hy)

theorem next_eq : L.next a = (l ++ [b]).head (by simp) := by
  cases l
  case nil  => exact hp.1
  case cons => exact hp.1.1

theorem prev_mem : L.prev b ∈ a :: l := by
  induction l generalizing a
  case nil => simp [hp.2]
  case cons x l hi => exact mem_cons_of_mem a (hi hp.2)

theorem next_mem : L.next a ∈ l ++ [b] := by
  rw [hp.next_eq]
  exact head_mem _

end

theorem retarget
    (hp : Path L a l y) (hd : (a :: l).Nodup) (h₁ : L'.next (L.prev y) = n) (h₂ : L'.prev n = L.prev y)
    (hn : ∀ x ∈ a :: l, x ≠ L.prev y → L'.next x = L.next x) (hv : ∀ x ∈ l, L'.prev x = L.prev x) :
    Path L' a l n := by
  induction l generalizing a
  case nil =>
    rw [hp.2] at h₁ h₂
    exact ⟨h₁, h₂⟩
  case cons x l hi =>
    obtain ⟨⟨hx₁, hx₂⟩, hp⟩ := hp
    obtain ⟨ha, hd⟩ := nodup_cons.mp hd
    have hne : a ≠ L.prev y := fun he => ha (he ▸ hp.prev_mem)
    refine ⟨⟨(hn a (by simp) hne).trans hx₁, (hv x (by simp)).trans hx₂⟩, hi hp hd ?_ ?_⟩
    · exact fun z hz => hn z (mem_cons_of_mem a hz)
    · exact fun z hz => hv z (mem_cons_of_mem x hz)

end Path

namespace IsRing

section

variable (hr : IsRing L h l)

include hr

theorem head_notMem : h ∉ l :=
  (nodup_cons.mp hr.nodup).1

theorem prev_head_mem : L.prev h ∈ h :: l :=
  hr.path.prev_mem

theorem congr (hn : ∀ x ∈ h :: l, L'.next x = L.next x)
    (hv : ∀ x ∈ h :: l, L'.prev x = L.prev x) : IsRing L' h l where
  path  := hr.path.congr hn fun x hx => hv x (by simpa [or_comm] using hx)
  nodup := hr.nodup

theorem next_head : L.next h = l.head?.getD h := by
  have hp := hr.path
  cases l
  case nil  => exact hp.1
  case cons => exact hp.1.1

end

variable (hr : IsRing L h (l₁ ++ x :: l₂))

include hr

theorem next_of_mem : L.next x = l₂.head?.getD h := by
  have hp := (Path.append_iff.mp hr.path).2
  cases l₂
  case nil  => exact hp.1
  case cons => exact hp.1.1

theorem prev_mem : L.prev x ∈ h :: l₁ :=
  (Path.append_iff.mp hr.path).1.prev_mem

theorem next_mem : L.next x ∈ l₂ ++ [h] :=
  (Path.append_iff.mp hr.path).2.next_mem

theorem nodup_middle : (x :: (h :: (l₁ ++ l₂))).Nodup := by
  have hd := hr.nodup
  rw [← List.cons_append, List.nodup_middle] at hd
  exact hd

end IsRing

variable [DecidableEq α]

namespace Links

-- The list with no nodes but its head.
def empty (L : Links α) (h : α) : Links α where
  next := Function.update L.next h h
  prev := Function.update L.prev h h

-- `x->next = h; x->prev = h->prev; x->prev->next = x; h->prev = x`
def insert (L : Links α) (h x : α) : Links α where
  next := Function.update (Function.update L.next x h) (L.prev h) x
  prev := Function.update (Function.update L.prev x (L.prev h)) h x

-- `x->prev->next = x->next; x->next->prev = x->prev; x->next = x->prev = x`, the first two in any order.
def unlink (L : Links α) (x : α) : Links α where
  next := Function.update (Function.update L.next (L.prev x) (L.next x)) x x
  prev := Function.update (Function.update L.prev (L.next x) (L.prev x)) x x

end Links

theorem isRing_empty (L : Links α) (h : α) : IsRing (L.empty h) h [] where
  path  := ⟨update_self .., update_self ..⟩
  nodup := nodup_singleton h

namespace IsRing

theorem insert_next_of_ne (hx : y ≠ x) (hp : y ≠ L.prev h) : (L.insert h x).next y = L.next y := by
  rw [Links.insert]
  dsimp only
  rw [update_of_ne hp, update_of_ne hx]

theorem insert_prev_of_ne (hx : y ≠ x) (hh : y ≠ h) : (L.insert h x).prev y = L.prev y := by
  rw [Links.insert]
  dsimp only
  rw [update_of_ne hh, update_of_ne hx]

theorem insert (hr : IsRing L h l) (hx : x ∉ h :: l) : IsRing (L.insert h x) h (l ++ [x]) := by
  have hne {z} (hz : z ∈ h :: l) : z ≠ x := fun he => hx (he ▸ hz)
  have hxh : x ≠ h := (hne (by simp)).symm
  have hxp : x ≠ L.prev h := (hne hr.prev_head_mem).symm
  refine ⟨Path.append_iff.mpr ⟨?_, ?_, ?_⟩, ?_⟩
  · apply hr.path.retarget hr.nodup
    · exact update_self ..
    · rw [Links.insert]
      dsimp only
      rw [update_of_ne hxh, update_self]
    · exact fun z hz hp => insert_next_of_ne (hne hz) hp
    · intro z hz
      exact insert_prev_of_ne (hne (mem_cons_of_mem h hz)) fun he => hr.head_notMem (he ▸ hz)
  · rw [Links.insert]
    dsimp only
    rw [update_of_ne hxp, update_self]
  · exact update_self ..
  · rw [← cons_append]
    exact nodup_append_comm.mp (nodup_cons.mpr ⟨hx, hr.nodup⟩)

theorem insert_frame (hr : IsRing L h l) (hx : y ≠ x) (hy : y ∉ h :: l) :
    (L.insert h x).next y = L.next y ∧ (L.insert h x).prev y = L.prev y := by
  refine ⟨insert_next_of_ne hx fun he => hy (he ▸ hr.prev_head_mem), insert_prev_of_ne hx fun he => ?_⟩
  exact hy (he ▸ mem_cons_self)

theorem unlink_next_of_ne (hx : y ≠ x) (hp : y ≠ L.prev x) : (L.unlink x).next y = L.next y := by
  rw [Links.unlink]
  dsimp only
  rw [update_of_ne hx, update_of_ne hp]

theorem unlink_prev_of_ne (hx : y ≠ x) (hn : y ≠ L.next x) : (L.unlink x).prev y = L.prev y := by
  rw [Links.unlink]
  dsimp only
  rw [update_of_ne hx, update_of_ne hn]

theorem unlink (hr : IsRing L h (l₁ ++ x :: l₂)) : IsRing (L.unlink x) h (l₁ ++ l₂) := by
  obtain ⟨hp₁, hp₂⟩ := Path.append_iff.mp hr.path
  obtain ⟨hx, hd⟩ := nodup_cons.mp hr.nodup_middle
  have hne {z} (hz : z ∈ h :: (l₁ ++ l₂)) : z ≠ x := fun he => hx (he ▸ hz)
  have hdis {z w} (hz : z ∈ h :: l₁) (hw : w ∈ l₂) : z ≠ w :=
    (nodup_append.mp (cons_append ▸ hd)).2.2 z hz w hw
  have hprev := hr.prev_mem
  have hnext := hr.next_mem
  have hpx : L.prev x ≠ x := hne (by simp only [mem_cons, mem_append] at hprev ⊢; tauto)
  have hnx : L.next x ≠ x := hne (by simp only [mem_cons, mem_append] at hnext ⊢; tauto)
  have hn : (L.unlink x).next (L.prev x) = L.next x := by
    rw [Links.unlink]
    dsimp only
    rw [update_of_ne hpx, update_self]
  have hv : (L.unlink x).prev (L.next x) = L.prev x := by
    rw [Links.unlink]
    dsimp only
    rw [update_of_ne hnx, update_self]
  -- The nodes in front keep their links but for the last one.
  have hfront : Path (L.unlink x) h l₁ (L.next x) := by
    refine hp₁.retarget (hd.sublist (by simp)) hn hv ?_ ?_
    · intro z hz hzp
      exact unlink_next_of_ne (hne (by simp only [mem_cons, mem_append] at hz ⊢; tauto)) hzp
    · intro z hz
      refine unlink_prev_of_ne (hne (by simp [hz])) ?_
      rcases mem_append.mp hnext with hm | hm
      · exact hdis (mem_cons_of_mem h hz) hm
      rw [mem_singleton.mp hm]
      exact fun he => (nodup_cons.mp hd).1 (he ▸ mem_append_left l₂ hz)
  refine ⟨?_, hd⟩
  obtain _ | ⟨z, l₂⟩ := l₂
  · rw [hp₂.1] at hfront
    rwa [append_nil]
  obtain ⟨⟨hz, -⟩, hp₂⟩ := hp₂
  rw [hz] at hfront
  refine Path.append_iff.mpr ⟨hfront, hp₂.congr ?_ ?_⟩
  · intro w hw
    refine unlink_next_of_ne (hne ?_) (hdis hprev hw).symm
    exact mem_cons_of_mem h (mem_append_right l₁ hw)
  · intro w hw
    have hzw := (List.nodup_middle.mp (List.cons_append ▸ hd : ((h :: l₁) ++ z :: l₂).Nodup))
    have hw' : w ∈ h :: (l₁ ++ l₂) := by
      simp only [mem_cons, mem_append, not_mem_nil, or_false] at hw ⊢
      tauto
    refine unlink_prev_of_ne (hne ?_) ?_
    · simp only [mem_cons, mem_append] at hw' ⊢
      tauto
    · rw [hz]
      exact fun he => (nodup_cons.mp hzw).1 (he ▸ hw')

theorem unlink_frame (hr : IsRing L h (l₁ ++ x :: l₂)) (hy : y ∉ h :: (l₁ ++ x :: l₂)) :
    (L.unlink x).next y = L.next y ∧ (L.unlink x).prev y = L.prev y := by
  have hprev := hr.prev_mem
  have hnext := hr.next_mem
  simp only [mem_cons, mem_append, not_mem_nil, or_false] at hy hprev hnext
  have hx : y ≠ x := by tauto
  refine ⟨unlink_next_of_ne hx ?_, unlink_prev_of_ne hx ?_⟩
  · rintro rfl
    tauto
  · rintro rfl
    tauto

end IsRing

end Ring
