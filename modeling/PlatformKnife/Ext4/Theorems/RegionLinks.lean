import PlatformKnife.Ext4.Cursor

namespace Ext4

open CInt LinkedPath List Option Heap LinkedAllocation

variable {h h' : Heap} {n : RegionNode} {i j reg len : Nat} {next prev stop : Option Nat}
variable {list list' : ListRef} {ids run oob : List Nat}

namespace Heap

theorem set_node : (h.set i n).node j = if j = i then n else h.node j := by
  simp only [set, Function.update_apply]

@[simp]
theorem set_size : (h.set i n).size = h.size :=
  rfl

@[simp]
theorem setNext_size : (h.setNext i next).size = h.size :=
  rfl

@[simp]
theorem setPrev_size : (h.setPrev i prev).size = h.size :=
  rfl

theorem setNext_node : (h.setNext i next).node j = { h.node j with
    next := if i = j then next else (h.node j).next } := by
  rw [setNext, set_node]
  split
  case isTrue hj  => simp [hj]
  case isFalse hj => simp [Ne.symm hj]

theorem setNext?_node : (h.setNext? p next).node j = { h.node j with
    next := if p = some j then next else (h.node j).next } := by
  cases p
  case none => rfl
  case some i => simp only [setNext?, setNext_node, some.injEq]

theorem setPrev?_node : (h.setPrev? p prev).node j = { h.node j with
    prev := if p = some j then prev else (h.node j).prev } := by
  obtain _ | i := p
  · rfl
  simp only [setPrev?, setPrev, set_node, some.injEq]
  split
  case isTrue hj  => simp [hj]
  case isFalse hj => simp [Ne.symm hj]

@[simp]
theorem setNext?_size : (h.setNext? p next).size = h.size := by
  cases p <;> rfl

@[simp]
theorem setPrev?_size : (h.setPrev? p prev).size = h.size := by
  cases p <;> rfl

end Heap

-- What `region_list_remove` does to the links.
structure Removed (h : Heap) (list : ListRef) (reg : Nat) (h' : Heap) (list' : ListRef) : Prop where
  size   : h'.size = h.size
  region : ∀ i, (h'.node i).toRegion = (h.node i).toRegion
  next   : ∀ i ≠ reg, (h'.node i).next =
    if (h.node reg).prev = some i then (h.node reg).next else (h.node i).next
  prev   : ∀ i ≠ reg, (h.node reg).next = some i → (h'.node i).prev = (h.node reg).prev
  first  : list'.first = if list.first = some reg then (h.node reg).next else list.first
  iter   : list'.iter = list.iter
  offset : list'.partialIter = list.partialIter

theorem regionListRemove_region (h : Heap) (list : ListRef) (reg i : Nat) :
    ((regionListRemove h list reg).1.node i).toRegion = (h.node i).toRegion := by
  simp only [regionListRemove, set_node]
  split
  case isTrue hi => simp [setPrev?_node, setNext?_node, hi]
  case isFalse => simp [setPrev?_node, setNext?_node]

theorem regionListRemove_removed (list : ListRef) (hp : (h.node reg).prev ≠ some reg) :
    Removed h list reg (regionListRemove h list reg).1 (regionListRemove h list reg).2 := by
  constructor
  case size => simp [regionListRemove]
  case first => simp [regionListRemove, setNext?_node, hp, setPrev?_node]
  case iter => rfl
  case offset => rfl
  case region => exact regionListRemove_region h list reg
  case next =>
    intro i hi
    simp [regionListRemove, set_node, hi, setPrev?_node, setNext?_node]
  case prev =>
    intro i hi hnext
    simp [regionListRemove, set_node, hi, setPrev?_node, setNext?_node, hp, hnext]

-- What `region_list_append` does to the links.
structure Appended (h : Heap) (list : ListRef) (reg : Nat) (h' : Heap) (list' : ListRef) : Prop where
  size   : h'.size = h.size
  region : ∀ i, (h'.node i).toRegion = (h.node i).toRegion
  self   : (h'.node reg).next = none
  next   : ∀ i ≠ reg, (h'.node i).next =
    if list.first ≠ none ∧ list.last = some i then some reg else (h.node i).next
  prev   : ∀ i ≠ reg, (h'.node i).prev = (h.node i).prev
  first  : list'.first = list.first.or (some reg)
  last   : list'.last = some reg

theorem regionListAppend_appended (h : Heap) (list : ListRef) (reg : Nat)
    (hl : list.first = none ∨ list.last ≠ none) :
    ∃ h' list', regionListAppend h list reg = .ok (h', list') ∧ Appended h list reg h' list' := by
  rcases hf : list.first with _ | first
  · refine ⟨_, _, by rw [regionListAppend, hf], ?_⟩
    constructor
    case size => rfl
    case self => simp [set_node]
    case next => intro i hi; simp [set_node, hi, hf]
    case prev => intro i hi; simp [set_node, hi]
    case first => simp [hf]
    case last => rfl
    case region =>
      intro i
      rw [set_node]
      split
      case isTrue hi => rw [hi]
      case isFalse => rfl
  obtain ⟨last, hlast⟩ := ne_none_iff_exists'.mp (hl.resolve_left (by simp [hf]))
  refine ⟨_, _, by simp only [regionListAppend, hf, hlast]; rfl, ?_⟩
  constructor
  case size => rfl
  case self => simp [set_node]
  case next => intro i hi; simp [set_node, setNext_node, hi, hf, hlast]
  case prev => intro i hi; simp [set_node, setNext_node, hi]
  case first => simp [hf]
  case last => rfl
  case region =>
    intro i
    rw [set_node]
    split
    case isTrue hi => simp [hi, setNext_node]
    case isFalse => simp [setNext_node]

theorem Appended.path (ha : Appended h list reg h' list')
    (hp : Path RegionNode.next h.node list.first ids none) (hlast : list.last = ids.getLast?)
    (hreg : reg ∉ ids) (hn : ids.Nodup) :
    Path RegionNode.next h'.node list'.first (ids ++ [reg]) none := by
  have hself : Path RegionNode.next h'.node (some reg) [reg] none := ⟨rfl, ha.self⟩
  rcases eq_nil_or_concat' ids with hnil | ⟨init, last, hids⟩
  · subst hnil
    rw [ha.first, show list.first = none from hp]
    exact hself
  subst hids
  have hfirst : list.first ≠ none := by
    rw [← hp.head?_eq]
    simp
  rw [getLast?_append_of_ne_nil _ (by simp), getLast?_singleton] at hlast
  have hsame : list'.first = list.first := by
    rw [ha.first]
    exact or_of_isSome (isSome_iff_ne_none.mpr hfirst)
  have hne (j : Nat) (hj : j ∈ init ++ [last]) : j ≠ reg := fun he => hreg (he ▸ hj)
  obtain ⟨_, _, hdis⟩ := nodup_append.mp hn
  have hinit (j : Nat) (hj : j ∈ init) : (h'.node j).next = (h.node j).next := by
    have hl : last ≠ j := Ne.symm (hdis j hj last (by simp))
    rw [ha.next j (hne j (by simp [hj]))]
    simp [hlast, hl]
  have hend : (h'.node last).next = some reg := by
    rw [ha.next last (hne last (by simp))]
    simp [hlast, hfirst]
  rw [hsame]
  exact (hp.redirect hinit hend).append hself

-- A run of regions that the loop of `reserve_oob_blocks` moves, up to the one at `iter`. The `prev` of the
-- first one is `back`.
structure Movable (a : LinkedAllocation) (reg : Option Nat) (run oob : List Nat)
    (back stop : Option Nat) : Prop where
  path  : Path RegionNode.next a.heap.node reg run stop
  ends  : stop = a.list.iter
  iter  : ∀ i ∈ run, a.list.iter ≠ some i
  first : ∀ i ∈ run, a.list.first = some i → run.head? = some i
  prev  : ∀ i, run.head? = some i → (a.heap.node i).prev = back
  back  : ∀ i, back = some i → i ∉ run ∧ i ∉ oob
  oobs  : Path RegionNode.next a.heap.node a.oobList.first oob none
  last  : a.oobList.last = oob.getLast?
  nodup : (run ++ oob).Nodup

structure MovedOob (a : LinkedAllocation) (run oob : List Nat) (back stop : Option Nat)
    (a' : LinkedAllocation) : Prop where
  size   : a'.heap.size = a.heap.size
  region : ∀ i, (a'.heap.node i).toRegion = (a.heap.node i).toRegion
  oobs   : Path RegionNode.next a'.heap.node a'.oobList.first (oob ++ run) none
  next   : ∀ i, i ∉ run → i ∉ oob → (a'.heap.node i).next =
    if run ≠ [] ∧ back = some i then stop else (a.heap.node i).next
  first  : a'.list.first = if run ≠ [] ∧ a.list.first = run.head? then stop else a.list.first
  prev   : ∀ i, stop = some i →
    (a'.heap.node i).prev = if run = [] then (a.heap.node i).prev else back
  last   : a'.oobList.last = (oob ++ run).getLast?
  iter   : a'.list.iter = a.list.iter
  offset : a'.list.partialIter = a.list.partialIter

section Step

variable {a a' : LinkedAllocation} {back stop : Option Nat}

section

variable (hm : Movable a (some reg) (reg :: run) oob back stop)

include hm

theorem Movable.next_eq
    (hr : Removed a.heap a.list reg h list) (ha : Appended h a.oobList reg h' list') (hi : i ≠ reg)
    (hoob : i ∉ oob) :
    (h'.node i).next = if back = some i then (a.heap.node reg).next else (a.heap.node i).next := by
  have hlast : a.oobList.last ≠ some i := by
    rw [hm.last]
    exact fun hl => hoob (mem_of_getLast? hl)
  rw [ha.next i hi, if_neg (fun hc => hlast hc.right), hr.next i hi, hm.prev reg rfl]

theorem Movable.head?_eq (hrun : run ≠ []) : (a.heap.node reg).next = run.head? := by
  obtain ⟨_, hpath⟩ := hm.path
  cases run
  case nil => exact absurd rfl hrun
  case cons _ _ => exact hpath.left

theorem Movable.step (hr : Removed a.heap a.list reg h list) (ha : Appended h a.oobList reg h' list') :
    Movable ⟨h', list, list'⟩ (a.heap.node reg).next run (oob ++ [reg]) back stop := by
  have hnodup := hm.nodup
  simp only [cons_append, nodup_cons, mem_append, not_or] at hnodup
  obtain ⟨⟨hreg, hregoob⟩, hn⟩ := hnodup
  obtain ⟨_, hoobn, hdis⟩ := nodup_append.mp hn
  have hne (i : Nat) (hi : i ∈ run) : i ≠ reg := fun he => hreg (he ▸ hi)
  constructor
  case path =>
    refine hm.path.right.congr fun i hi => ?_
    have hb : back ≠ some i := fun hb => (hm.back i hb).left (by simp [hi])
    rw [hm.next_eq hr ha (hne i hi) (fun ho => hdis i hi i ho rfl), if_neg hb]
  case ends => rw [hr.iter]; exact hm.ends
  case iter =>
    intro i hi
    rw [hr.iter]
    exact hm.iter i (by simp [hi])
  case first =>
    intro i hi hf
    have hrun : run ≠ [] := ne_nil_of_mem hi
    rw [hr.first] at hf
    split at hf
    case isTrue  => rw [← hm.head?_eq hrun, hf]
    have := hm.first i (by simp [hi]) hf
    simp only [head?_cons, some.injEq] at this
    exact absurd this.symm (hne i hi)
  case prev =>
    intro i hi
    have hmem := mem_of_head? hi
    have hnext : (a.heap.node reg).next = some i := by
      rw [hm.head?_eq (ne_nil_of_mem hmem), hi]
    rw [ha.prev i (hne i hmem), hr.prev i (hne i hmem) hnext, hm.prev reg rfl]
  case back =>
    intro i hi
    obtain ⟨hrun, hoob⟩ := hm.back i hi
    simp only [mem_cons, not_or] at hrun
    simp [hrun, hoob]
  case oobs =>
    refine ha.path (hm.oobs.congr fun i hi => ?_) hm.last hregoob hoobn
    have hi' : i ≠ reg := fun he => hregoob (he ▸ hi)
    have hb : back ≠ some i := fun hb => (hm.back i hb).right hi
    rw [hr.next i hi', hm.prev reg rfl, if_neg hb]
  case last => rw [ha.last]; simp
  case nodup =>
    have hperm : (run ++ (oob ++ [reg])).Perm (reg :: run ++ oob) := by
      rw [← append_assoc]
      exact perm_append_comm
    exact hperm.nodup_iff.mpr hm.nodup

theorem MovedOob.step (hr : Removed a.heap a.list reg h list) (ha : Appended h a.oobList reg h' list')
    (hrest : MovedOob ⟨h', list, list'⟩ run (oob ++ [reg]) back stop a') :
    MovedOob a (reg :: run) oob back stop a' := by
  have hstop (hrun : run = []) : (a.heap.node reg).next = stop := by
    obtain ⟨_, hpath⟩ := hm.path
    rwa [hrun] at hpath
  constructor
  case size => rw [hrest.size, ha.size, hr.size]
  case iter => rw [hrest.iter, hr.iter]
  case offset => rw [hrest.offset, hr.offset]
  case region =>
    intro i
    rw [hrest.region, ha.region, hr.region]
  case oobs => simpa using hrest.oobs
  case last => simpa using hrest.last
  case prev =>
    intro i hi
    have hreg : i ≠ reg := by
      rintro rfl
      exact hm.iter i (by simp) (hm.ends ▸ hi)
    rw [hrest.prev i hi, if_neg (cons_ne_nil reg run)]
    split
    case isTrue hrun =>
      rw [ha.prev i hreg, hr.prev i hreg ((hstop hrun).trans hi), hm.prev reg rfl]
    case isFalse => rfl
  case next =>
    intro i hi hoob
    simp only [mem_cons, not_or] at hi
    rw [hrest.next i hi.right (by simp [hoob, hi.left]), hm.next_eq hr ha hi.left hoob]
    by_cases hb : back = some i
    case neg => simp [hb]
    by_cases hrun : run = []
    case pos => simp [hb, hrun, hstop hrun]
    case neg => simp [hb, hrun]
  case first =>
    rw [hrest.first, hr.first]
    by_cases hf : a.list.first = some reg
    case pos =>
      by_cases hrun : run = []
      case pos => simp [hf, hrun, hstop hrun]
      case neg => simp [hf, hrun, hm.head?_eq hrun]
    have hhead : run ≠ [] → a.list.first ≠ run.head? := by
      intro hrun hh
      obtain _ | ⟨i, _⟩ := run
      · exact absurd rfl hrun
      have hhead := hm.first i (by simp) hh
      exact hf (hh.trans hhead.symm)
    simp only [hf, if_false, ne_eq, reduceCtorEq, not_false_eq_true, head?_cons, and_false]
    exact if_neg fun hc => hhead hc.left hc.right

end

theorem Movable.appendable (hm : Movable a p run oob back stop) :
    a.oobList.first = none ∨ a.oobList.last ≠ none := by
  have hh := hm.oobs.head?_eq
  have hl := hm.last
  cases oob
  case nil => exact .inl hh.symm
  case cons _ _ => exact .inr (by simp [hl])

theorem moveOob_movedOob (hm : Movable a p run oob back stop) (hf : run.length < fuel) :
    ∃ a', moveOob fuel a p = .ok a' ∧ MovedOob a run oob back stop a' := by
  induction run generalizing a p oob fuel
  case nil =>
    obtain _ | fuel := fuel
    · exact absurd hf (Nat.not_lt_zero _)
    refine ⟨a, ?_, ⟨rfl, fun _ => rfl, by simpa using hm.oobs, by simp, by simp, by simp,
      by simpa using hm.last, rfl, rfl⟩⟩
    have hp : p = a.list.iter := hm.path.trans hm.ends
    cases p
    case none => rfl
    case some reg => rw [moveOob, if_pos hp.symm]
  case cons reg run ih =>
    obtain _ | fuel := fuel
    · exact absurd hf (Nat.not_lt_zero _)
    have hp : p = some reg := hm.path.left
    subst hp
    have hprev : (a.heap.node reg).prev ≠ some reg := by
      rw [hm.prev reg rfl]
      intro hb
      obtain ⟨hnot, _⟩ := hm.back reg hb
      simp at hnot
    have hr := regionListRemove_removed a.list hprev
    obtain ⟨h', list', happ, ha⟩ :=
      regionListAppend_appended (regionListRemove a.heap a.list reg).1 a.oobList reg hm.appendable
    have hstep := hm.step hr ha
    obtain ⟨a', hmove, hmoved⟩ := ih hstep (Nat.lt_of_succ_lt_succ hf)
    refine ⟨a', ?_, .step hm hr ha hmoved⟩
    rw [moveOob, if_neg (hm.iter reg (by simp))]
    simp only [happ, Except.ok_bind, hmove]

-- What the loop leaves as it is, however the regions are linked.
structure Kept (a a' : LinkedAllocation) : Prop where
  size   : a'.heap.size = a.heap.size
  region : ∀ i, (a'.heap.node i).toRegion = (a.heap.node i).toRegion
  iter   : a'.list.iter = a.list.iter
  offset : a'.list.partialIter = a.list.partialIter

theorem moveOob_kept (hl : a.oobList.first = none ∨ a.oobList.last ≠ none) (fuel : Nat)
    (reg : Option Nat) : ∃ a', moveOob fuel a reg = .ok a' ∧ Kept a a' := by
  induction fuel generalizing a reg
  case zero => exact ⟨a, rfl, rfl, fun _ => rfl, rfl, rfl⟩
  case succ fuel hi =>
    obtain _ | reg := reg
    · exact ⟨a, rfl, rfl, fun _ => rfl, rfl, rfl⟩
    rw [moveOob]
    split
    case isTrue => exact ⟨a, rfl, rfl, fun _ => rfl, rfl, rfl⟩
    obtain ⟨h', list', happ, ha⟩ :=
      regionListAppend_appended (regionListRemove a.heap a.list reg).1 a.oobList reg hl
    have hlast : list'.first = none ∨ list'.last ≠ none := .inr (by simp [ha.last])
    obtain ⟨a', hmove, hk⟩ := @hi ⟨h', (regionListRemove a.heap a.list reg).2, list'⟩ hlast
      (a.heap.node reg).next
    refine ⟨a', ?_, ?_⟩
    · simp only [happ, Except.ok_bind, hmove]
    · exact ⟨hk.size.trans (ha.size.trans (by simp [regionListRemove])),
        fun i => (hk.region i).trans ((ha.region i).trans (regionListRemove_region ..)), hk.iter,
        hk.offset⟩

end Step
end Ext4
