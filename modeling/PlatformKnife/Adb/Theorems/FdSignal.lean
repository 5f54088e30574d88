import PlatformKnife.Adb.Theorems.FdTable
import PlatformKnife.Lib.BitMask

namespace Adb.Fdevent

open BitMask List Function Option Except

-- The events in which an `fdevent` is interested.
def Fde.mask (fde : Fde) : Mask :=
  fde.state &&& fdeEventmask

def Fde.isActive (fde : Fde) : Bool :=
  any fde.state fdeActive

def Fde.isPending (fde : Fde) : Bool :=
  any fde.state fdePending

section History

-- What happens to an `fdevent`: its interest is set, events are reported, its function is called with
-- events. In a history the last of these comes first.
inductive Obs
  | interest (a : Nat) (mask : Mask)
  | report (a : Nat) (events : Mask)
  | call (a : Nat) (events : Mask)
  deriving DecidableEq

variable (m₀ : Nat → Mask) (a : Nat)

def interest : List Obs → Mask
  | [] => m₀ a
  | .interest b m :: h => if b = a then m else interest h
  | .report _ _ :: h => interest h
  | .call _ _ :: h => interest h

-- The events reported since the last call.
def reported : List Obs → Mask
  | [] => 0#16
  | .interest _ _ :: h => reported h
  | .report b e :: h => if b = a then reported h ||| e else reported h
  | .call b _ :: h => if b = a then 0#16 else reported h

-- The events among them that were wanted all the time since they were reported.
def kept : List Obs → Mask
  | [] => 0#16
  | .interest b m :: h => if b = a then kept h &&& m else kept h
  | .report b e :: h => if b = a then kept h ||| (e &&& interest m₀ a h) else kept h
  | .call b _ :: h => if b = a then 0#16 else kept h

-- Every call has only events that were reported and are wanted, and all those that were wanted all the
-- time.
def Proper : List Obs → Prop
  | [] => True
  | .interest _ _ :: h => Proper h
  | .report _ _ :: h => Proper h
  | .call a e :: h =>
    Within e (reported a h &&& interest m₀ a h) ∧ Within (kept m₀ a h) e ∧ Proper h

end History

section Run

variable (pl : Platform)

def Registered (s : State) (a : Nat) : Prop :=
  a ≠ 0 ∧ ∃ i < s.fdTableMax, slot pl s i = a

-- What a successful `select` does: the descriptors that are left in the sets were in them and are below
-- `nfds`, and their number is returned.
structure Selects (s : State) (sel : Select) : Prop where
  read : 0 ≤ sel.n → ∀ i, sel.rfd i = true → i < s.selectN ∧ s.readFds i = true
  write : 0 ≤ sel.n → ∀ i, sel.wfd i = true → i < s.selectN ∧ s.writeFds i = true
  error : 0 ≤ sel.n → ∀ i, sel.efd i = true → i < s.selectN ∧ s.errorFds i = true
  n : 0 ≤ sel.n →
    sel.n = ((List.range' 0 s.selectN).map (Ready.count ⟨sel.rfd, sel.wfd, sel.efd⟩)).sum

def report (s : State) (ready : Ready) (i : Nat) : Option Obs :=
  if ready.events i = 0 then none else some (.report (slot pl s i) (ready.events i))

def reports (s : State) (sel : Select) : List Obs :=
  match received pl s sel with
  | none => []
  | some (_, ready) => ((List.range' 0 s.selectN).filterMap (report pl s ready)).reverse

inductive Op
  | set (a : Nat) (events : Mask)
  | add (a : Nat) (events : Mask)
  | del (a : Nat) (events : Mask)
  | process (sel : Select)
  | call

-- The calls on what is registered, the rounds of `select`, and those of the loop over the list in
-- `fdevent_loop`.
inductive Step (s : State) : Op → List Obs → State → Prop
  | set : Registered pl s a → fdeventSet pl s a events = .ok s' →
    Step s (.set a events) [.interest a (s'.fdes a).mask] s'
  | add : Registered pl s a → fdeventAdd pl s a events = .ok s' →
    Step s (.add a events) [.interest a (s'.fdes a).mask] s'
  | del : Registered pl s a → fdeventDel pl s a events = .ok s' →
    Step s (.del a events) [.interest a (s'.fdes a).mask] s'
  | process : Selects s sel → fdeventProcess pl s sel = .ok s' →
    Step s (.process sel) (reports pl s sel) s'
  | call : fdeventPlistDequeue s = some (a, s₁) → fdeventCallFdfunc s₁ a = (s', some events) →
    Step s .call [.call a events] s'
  | skip : fdeventPlistDequeue s = some (a, s₁) → fdeventCallFdfunc s₁ a = (s', none) →
    Step s .call [] s'

inductive Run (P : State → Op → Prop) (s₀ : State) : List Obs → State → Prop
  | start : Run P s₀ [] s₀
  | step  : Run P s₀ h s → P s op → Step pl s op obs s' → Run P s₀ (obs ++ h) s'

-- The interest of an `fdevent` on the list stays as it is, and a closed descriptor is not taken for a
-- readable one unless this was asked for.
def Careful (s : State) : Op → Prop
  | .set a events => (s.fdes a).isPending → events &&& fdeEventmask = (s.fdes a).mask
  | .add a events => (s.fdes a).isPending →
    (s.fdes a).mask ||| (events &&& fdeEventmask) = (s.fdes a).mask
  | .del a events => (s.fdes a).isPending →
    (s.fdes a).mask &&& ~~~(events &&& fdeEventmask) = (s.fdes a).mask
  | .process sel => sel.n = 0 ∨ sel.n < 0 ∧ sel.errno = .ebadf →
    ∀ i < s.selectN, slot pl s i ≠ 0 → sel.closed i = true → any (s.fdes (slot pl s i)).mask fdeRead
  | .call => True

-- The descriptors in a set belong to an `fdevent` that asks for its events.
def Listed (s : State) (fds : FdSet) (bit : Mask) : Prop :=
  ∀ i, fds i = true → i < s.fdTableMax ∧ slot pl s i ≠ 0 ∧ any (s.fdes (slot pl s i)).mask bit = true

-- The variables belong together.
structure Sound (s : State) : Prop where
  n : s.selectN ≤ s.fdTableMax
  fd : ∀ i < s.fdTableMax, slot pl s i ≠ 0 → (s.fdes (slot pl s i)).fd = i
  active : ∀ a, Registered pl s a → (s.fdes a).isActive = true
  read : Listed pl s s.readFds fdeRead
  write : Listed pl s s.writeFds fdeWrite
  error : Listed pl s s.errorFds fdeError
  nodup : s.pending.Nodup
  pending : ∀ a, a ∈ s.pending ↔ Registered pl s a ∧ (s.fdes a).isPending = true
  events : ∀ a, Registered pl s a → ((s.fdes a).isPending = true ↔ (s.fdes a).events ≠ 0#16)

-- A state in which nothing is on the list.
structure Quiet (s : State) : Prop extends Sound pl s where
  idle : s.pending = []

end Run

section Bits

variable {m ev : Mask} {fde : Fde}

theorem statemask_eq : fdeStatemask = ~~~fdeEventmask := by
  decide

theorem any_iff (hb : bit = BitVec.twoPow 16 k) (hk : k < 16) : any m bit ↔ m.getLsbD k := by
  rw [← and_twoPow_ne_zero_iff hk, ← hb, any, bne_iff_ne]
  rfl

theorem any_pending : any m fdePending ↔ m.getLsbD 9 :=
  any_iff (by decide) (by decide)

theorem any_active : any m fdeActive ↔ m.getLsbD 8 :=
  any_iff (by decide) (by decide)

theorem Fde.mask_within (fde : Fde) : Within fde.mask fdeEventmask :=
  and_within_right _ _

section

variable (h : Within ev fdeEventmask)

include h

theorem Fde.mask_withEvents : (fde.withEvents ev).mask = ev := by
  rw [mask, withEvents, statemask_eq, replace_and h]

theorem Fde.isPending_withEvents : (fde.withEvents ev).isPending ↔ fde.isPending := by
  rw [isPending, isPending, any_pending, any_pending, withEvents, statemask_eq,
    replace_getLsbD h (by decide)]

theorem Fde.isActive_withEvents : (fde.withEvents ev).isActive ↔ fde.isActive := by
  rw [isActive, isActive, any_active, any_active, withEvents, statemask_eq, replace_getLsbD h (by decide)]

end

theorem Fde.withEvents_withEvents (fde : Fde) (ev : Mask) :
    (fde.withEvents ev).withEvents ev = fde.withEvents ev := by
  have hstate : (((fde.state &&& fdeStatemask) ||| ev) &&& fdeStatemask) ||| ev
      = (fde.state &&& fdeStatemask) ||| ev := by
    refine BitVec.eq_of_getLsbD_eq fun i _ => ?_
    simp only [BitVec.getLsbD_or, BitVec.getLsbD_and]
    cases fde.state.getLsbD i <;> cases fdeStatemask.getLsbD i <;> cases ev.getLsbD i <;> rfl
  rw [withEvents, withEvents, hstate]

theorem and_pending_getLsbD (h : i ≠ 9) : (m &&& ~~~fdePending).getLsbD i = m.getLsbD i := by
  have hp : fdePending = BitVec.twoPow 16 9 := by decide
  by_cases hi : i < 16
  case neg => simp only [BitVec.getLsbD_of_ge _ _ (by omega : 16 ≤ i)]
  simp only [hp, BitVec.getLsbD_and, BitVec.getLsbD_not, BitVec.getLsbD_twoPow, hi]
  simp [Ne.symm h]

theorem or_pending_getLsbD (h : i ≠ 9) : (m ||| fdePending).getLsbD i = m.getLsbD i := by
  have hp : fdePending = BitVec.twoPow 16 9 := by decide
  simp [hp, Ne.symm h]

theorem and_eventmask_congr (h : ∀ i < 8, m.getLsbD i = n.getLsbD i) :
    m &&& fdeEventmask = n &&& fdeEventmask := by
  have hbit : ∀ i < 16, 8 ≤ i → fdeEventmask.getLsbD i = false := by decide
  refine BitVec.eq_of_getLsbD_eq fun i hi => ?_
  rw [BitVec.getLsbD_and, BitVec.getLsbD_and]
  by_cases h8 : i < 8
  case pos => rw [h i h8]
  case neg => rw [hbit i hi (by omega), Bool.and_false, Bool.and_false]

-- The object has the descriptor and the interest of the one it replaces.
structure Like (fde' fde : Fde) : Prop where
  fd : fde'.fd = fde.fd
  mask : fde'.mask = fde.mask
  active : fde.isActive = true → fde'.isActive = true

theorem Like.of_state (h : ∀ i ≠ 9, m.getLsbD i = fde.state.getLsbD i) (events : Mask) :
    Like { fde with state := m, events := events } fde where
  fd := rfl
  mask := and_eventmask_congr fun i hi => h i (by omega)
  active := by
    rw [Fde.isActive, Fde.isActive, any_active, any_active, h 8 (by decide)]
    exact id

theorem Fde.isPending_setPending (fde : Fde) (events : Mask) :
    ({ fde with state := fde.state ||| fdePending, events := events } : Fde).isPending := by
  rw [isPending, any_pending, BitVec.getLsbD_or, show fdePending.getLsbD 9 = true by decide, Bool.or_true]

theorem Fde.isPending_clearPending (fde : Fde) (events : Mask) :
    ¬({ fde with state := fde.state &&& ~~~fdePending, events := events } : Fde).isPending := by
  rw [isPending, any_pending, BitVec.getLsbD_and, show (~~~fdePending).getLsbD 9 = false by decide,
    Bool.and_false]
  decide

end Bits

section Steps

variable {pl : Platform} {s s' : State} {m₀ : Nat → Mask} {h : List Obs} {a : Nat} {ev : Mask}

def replace (s : State) (a : Nat) (fde : Fde) (pending : List Nat) : State :=
  { s with fdes := Function.update s.fdes a fde, pending := pending }

theorem forall_update {f : Nat → Fde} {p : Nat → Fde → Prop} (ha : p a fde) (h : ∀ b, b ≠ a → p b (f b)) :
    ∀ b, p b (update f a fde b) :=
  (forall_update_iff f p).mpr ⟨ha, h⟩

theorem fdeventCallFdfunc_of_pending (hp : (s.fdes a).isPending) : fdeventCallFdfunc s a =
    (replace s a { s.fdes a with state := (s.fdes a).state &&& ~~~fdePending, events := 0#16 } s.pending,
      some (s.fdes a).events) := by
  simp only [fdeventCallFdfunc, setFde_fdes, update_self]
  rw [if_pos (show any (s.fdes a).state fdePending from hp)]
  simp [setFde, replace]

theorem noteEvents_of_pending (hne : slot pl s i ≠ 0) (hp : (s.fdes (slot pl s i)).isPending) :
    noteEvents pl s i ev = .ok (replace s (slot pl s i)
      { s.fdes (slot pl s i) with events := (s.fdes (slot pl s i)).events ||| ev } s.pending) := by
  simp only [noteEvents, setFde_fdes, update_self]
  rw [if_neg hne, if_pos (show any (s.fdes (slot pl s i)).state fdePending from hp)]
  rfl

theorem noteEvents_of_idle (hne : slot pl s i ≠ 0) (hp : ¬(s.fdes (slot pl s i)).isPending) :
    noteEvents pl s i ev = .ok (replace s (slot pl s i)
      { s.fdes (slot pl s i) with
        state  := (s.fdes (slot pl s i)).state ||| fdePending
        events := (s.fdes (slot pl s i)).events ||| ev } (s.pending ++ [slot pl s i])) := by
  simp only [noteEvents, setFde_fdes, update_self]
  rw [if_neg hne, if_neg (show ¬any (s.fdes (slot pl s i)).state fdePending from hp)]
  simp [setFde, replace, fdeventPlistEnqueue]

theorem Like.replace_fdes (hl : Like fde (s.fdes a)) (b : Nat) :
    Like ((replace s a fde l).fdes b) (s.fdes b) :=
  forall_update (p := fun b fde => Like fde (s.fdes b)) hl (fun _ _ => ⟨rfl, rfl, id⟩) b

theorem Like.listed (hl : Like fde (s.fdes a)) (h : Listed pl s fds bit) :
    Listed pl (replace s a fde l) fds bit := by
  intro i hi
  rw [(hl.replace_fdes _).mask]
  exact h i hi

theorem Sound.replace (hs : Sound pl s) (ha : Registered pl s a) (hlike : Like fde (s.fdes a))
    (hevents : fde.isPending ↔ fde.events ≠ 0#16) (hnodup : l.Nodup)
    (hself : a ∈ l ↔ fde.isPending) (hothers : ∀ b ≠ a, b ∈ l ↔ b ∈ s.pending) :
    Sound pl (replace s a fde l) where
  n := hs.n
  fd := fun i hi hne => (hlike.replace_fdes _).fd.trans (hs.fd i hi hne)
  active := fun b hb => (hlike.replace_fdes b).active (hs.active b hb)
  read := hlike.listed hs.read
  write := hlike.listed hs.write
  error := hlike.listed hs.error
  nodup := hnodup
  pending := forall_update (p := fun b fde => b ∈ l ↔ Registered pl s b ∧ fde.isPending)
    (hself.trans (and_iff_right ha).symm) fun b hb => (hothers b hb).trans (hs.pending b)
  events := forall_update (p := fun b fde => Registered pl s b →
    (fde.isPending ↔ fde.events ≠ 0#16)) (fun _ => hevents) fun b _ => hs.events b

-- A state together with the history that leads to it.
structure Signal (pl : Platform) (m₀ : Nat → Mask) (s : State) (h : List Obs) : Prop
    extends Sound pl s where
  proper : Proper m₀ h
  interest : ∀ a, Registered pl s a → Fdevent.interest m₀ a h = (s.fdes a).mask
  within : ∀ a, Registered pl s a → Within (s.fdes a).events (reported a h &&& (s.fdes a).mask)
  kept : ∀ a, Registered pl s a → Within (Fdevent.kept m₀ a h) (s.fdes a).events

namespace Signal

theorem of_quiet (hq : Quiet pl s) : Signal pl (fun a => (s.fdes a).mask) s [] where
  toSound := hq.toSound
  proper := trivial
  interest _ _ := rfl
  within a ha := by
    have hidle : ¬(s.fdes a).isPending := fun hp => by
      have := (hq.pending a).mpr ⟨ha, hp⟩
      simp [hq.idle] at this
    have hzero : (s.fdes a).events = 0#16 := by
      by_contra hne
      exact hidle ((hq.events a ha).mpr hne)
    rw [hzero]
    exact zero_within _
  kept _ _ := zero_within _

theorem replace (hs : Signal pl m₀ s h)
    (hsound : Sound pl (Fdevent.replace s a fde l)) (hlike : Like fde (s.fdes a)) {obs : Obs}
    (hproper : Proper m₀ (obs :: h))
    (hinterest : ∀ b, Fdevent.interest m₀ b (obs :: h) = Fdevent.interest m₀ b h)
    (hwithin : Within fde.events (reported a (obs :: h) &&& (s.fdes a).mask))
    (hkept : Within (Fdevent.kept m₀ a (obs :: h)) fde.events)
    (hothers : ∀ b ≠ a, reported b (obs :: h) = reported b h ∧
      Fdevent.kept m₀ b (obs :: h) = Fdevent.kept m₀ b h) :
    Signal pl m₀ (Fdevent.replace s a fde l) (obs :: h) := by
  refine { hsound with proper := hproper, interest := ?_, within := ?_, kept := ?_ }
  · intro b hb
    rw [hinterest, (hlike.replace_fdes b).mask, hs.interest b hb]
  · intro b hb
    rw [(hlike.replace_fdes b).mask]
    refine forall_update (p := fun b fde => Registered pl s b →
      Within fde.events (reported b (obs :: h) &&& (s.fdes b).mask)) (fun _ => hwithin) (fun b hne => ?_) b hb
    rw [(hothers b hne).left]
    exact hs.within b
  · refine forall_update (p := fun b fde => Registered pl s b →
      Within (Fdevent.kept m₀ b (obs :: h)) fde.events) (fun _ => hkept) fun b hne => ?_
    rw [(hothers b hne).right]
    exact hs.kept b

theorem call (hs : Signal pl m₀ s h) (hd : fdeventPlistDequeue s = some (a, s₁)) :
    ∃ s', fdeventCallFdfunc s₁ a = (s', some (s.fdes a).events) ∧
      Signal pl m₀ s' (.call a (s.fdes a).events :: h) := by
  rcases hl : s.pending with _ | ⟨b, l⟩
  · simp [fdeventPlistDequeue, hl] at hd
  simp only [fdeventPlistDequeue, hl, some.injEq, Prod.mk.injEq] at hd
  obtain ⟨rfl, rfl⟩ := hd
  obtain ⟨hreg, hpending⟩ := (hs.pending b).mp (hl ▸ mem_cons_self)
  have hnodup := hs.nodup
  rw [hl, nodup_cons] at hnodup
  let fde : Fde := { s.fdes b with state := (s.fdes b).state &&& ~~~fdePending, events := 0#16 }
  have hlike : Like fde (s.fdes b) :=
    .of_state (fun _ => and_pending_getLsbD) _
  have hidle : ¬fde.isPending := Fde.isPending_clearPending _ _
  have hsound : Sound pl (Fdevent.replace s b fde l) := by
    refine hs.toSound.replace hreg hlike ?_ hnodup.right ?_ fun c hc => ?_
    · exact iff_of_false hidle (by simp [fde])
    · exact iff_of_false hnodup.left hidle
    · rw [hl, mem_cons, or_iff_right hc]
  refine ⟨Fdevent.replace s b fde l, ?_, ?_⟩
  · exact fdeventCallFdfunc_of_pending hpending
  · refine hs.replace hsound hlike ?_ (fun _ => rfl) (zero_within _) ?_ fun c hc => ?_
    · refine ⟨?_, hs.kept b hreg, hs.proper⟩
      rw [hs.interest b hreg]
      exact hs.within b hreg
    · rw [Fdevent.kept, if_pos rfl]
      exact zero_within _
    · exact ⟨if_neg (Ne.symm hc), if_neg (Ne.symm hc)⟩

theorem report (hs : Signal pl m₀ s h) (ha : Registered pl s a) (hlike : Like fde (s.fdes a))
    (hsound : Sound pl (Fdevent.replace s a fde l)) (hev : Within ev (s.fdes a).mask)
    (hfde : fde.events = (s.fdes a).events ||| ev) :
    Signal pl m₀ (Fdevent.replace s a fde l) (.report a ev :: h) := by
  refine hs.replace hsound hlike hs.proper (fun _ => rfl) ?_ ?_ fun b hb => ?_
  · rw [reported, if_pos rfl, hfde]
    have hold := hs.within a ha
    refine within_and ?_ ?_
    · exact or_within ((hold.trans (and_within_left _ _)).trans (within_or_left _ _)) (within_or_right _ _)
    · exact or_within (hold.trans (and_within_right _ _)) hev
  · rw [Fdevent.kept, if_pos rfl, hfde]
    refine or_within ((hs.kept a ha).trans (within_or_left _ _)) ?_
    exact (and_within_left _ _).trans (within_or_right _ _)
  · exact ⟨if_neg (Ne.symm hb), if_neg (Ne.symm hb)⟩

theorem or_ne_zero (hne : ev ≠ 0#16) : m ||| ev ≠ 0#16 := by
  intro h0
  have := within_or_right m ev
  rw [h0] at this
  exact hne this.eq_zero

theorem noteEvents (hs : Signal pl m₀ s h) (ha : Registered pl s (slot pl s i))
    (hev : Within ev (s.fdes (slot pl s i)).mask) (hne : ev ≠ 0#16) :
    ∃ fde l, Fdevent.noteEvents pl s i ev = .ok (Fdevent.replace s (slot pl s i) fde l) ∧
      Like fde (s.fdes (slot pl s i)) ∧
      Signal pl m₀ (Fdevent.replace s (slot pl s i) fde l) (.report (slot pl s i) ev :: h) := by
  by_cases hp : (s.fdes (slot pl s i)).isPending = true
  case pos =>
    refine ⟨_, _, noteEvents_of_pending ha.left hp, ⟨rfl, rfl, id⟩, ?_⟩
    refine hs.report ha ⟨rfl, rfl, id⟩ ?_ hev rfl
    refine hs.toSound.replace ha ⟨rfl, rfl, id⟩ ?_ hs.nodup ?_ fun _ _ => Iff.rfl
    · exact iff_of_true hp (or_ne_zero hne)
    · exact (hs.pending _).trans (and_iff_right ha)
  have hlike (events : Mask) : Like { s.fdes (slot pl s i) with
      state := (s.fdes (slot pl s i)).state ||| fdePending, events := events } (s.fdes (slot pl s i)) :=
    .of_state (fun _ => or_pending_getLsbD) _
  have hmem : slot pl s i ∉ s.pending := fun h => hp ((hs.pending _).mp h).right
  refine ⟨_, _, noteEvents_of_idle ha.left hp, hlike _, ?_⟩
  refine hs.report ha (hlike _) ?_ hev rfl
  refine hs.toSound.replace ha (hlike _) ?_ ?_ ?_ fun b hb => ?_
  · exact iff_of_true (Fde.isPending_setPending _ _) (or_ne_zero hne)
  · exact hs.nodup.append (nodup_singleton _) (by simpa using hmem)
  · exact iff_of_true (by simp) (Fde.isPending_setPending _ _)
  · simp [hb]

end Signal

-- The interest of one object is changed.
def assign (s : State) (a : Nat) (ev : Mask) : State :=
  { s with
    fdes := Function.update s.fdes a ((s.fdes a).withEvents ev)
    readFds := Function.update s.readFds (s.fdes a).fd.toNat (any ev fdeRead)
    writeFds := Function.update s.writeFds (s.fdes a).fd.toNat (any ev fdeWrite)
    errorFds := Function.update s.errorFds (s.fdes a).fd.toNat (any ev fdeError) }

theorem assign_fdes_self : (assign s a ev).fdes a = (s.fdes a).withEvents ev :=
  update_self ..

theorem assign_fd : ∀ b, ((assign s a ev).fdes b).fd = (s.fdes b).fd :=
  forall_update (p := fun b fde => fde.fd = (s.fdes b).fd) rfl fun _ _ => rfl

theorem fdeventUpdate_eq_ok (hok : fdeventUpdate pl s a ev = .ok s') : s' = assign s a ev := by
  obtain ⟨_, hr, hok⟩ := bind_eq_ok_iff.mp hok
  obtain ⟨_, hw, hok⟩ := bind_eq_ok_iff.mp hok
  obtain ⟨_, he, hok⟩ := bind_eq_ok_iff.mp hok
  obtain rfl := fdAssign_eq_ok hr
  obtain rfl := fdAssign_eq_ok hw
  obtain rfl := fdAssign_eq_ok he
  exact (ok.inj hok).symm

theorem fdeventSet_eq_ok (hok : fdeventSet pl s a events = .ok s') (hactive : (s.fdes a).isActive)
    (hc : (s.fdes a).isPending → events &&& fdeEventmask = (s.fdes a).mask) :
    s' = s ∨ ¬(s.fdes a).isPending ∧ s' = assign s a (events &&& fdeEventmask) := by
  simp only [fdeventSet] at hok
  by_cases heq : (s.fdes a).state &&& fdeEventmask = events &&& fdeEventmask
  case pos =>
    rw [if_pos heq] at hok
    exact .inl (ok.inj hok).symm
  have hidle : ¬(s.fdes a).isPending := fun hp => heq (hc hp).symm
  have hwithin : Within (events &&& fdeEventmask) fdeEventmask := and_within_right _ _
  rw [if_neg heq, if_pos (show any (s.fdes a).state fdeActive from hactive)] at hok
  obtain ⟨s₁, h₁, hok⟩ := bind_eq_ok_iff.mp hok
  obtain rfl := fdeventUpdate_eq_ok h₁
  have hagain : setFde (assign s a (events &&& fdeEventmask)) a
      (((assign s a (events &&& fdeEventmask)).fdes a).withEvents (events &&& fdeEventmask))
        = assign s a (events &&& fdeEventmask) := by
    simp only [assign, setFde, update_self, update_idem, Fde.withEvents_withEvents]
  have hstill : ¬any ((assign s a (events &&& fdeEventmask)).fdes a).state fdePending := by
    rw [assign_fdes_self]
    exact fun hp => hidle ((Fde.isPending_withEvents hwithin).mp hp)
  rw [hagain, if_neg hstill] at hok
  exact .inr ⟨hidle, (ok.inj hok).symm⟩

section

variable (hs : Sound pl s) (ha : Registered pl s a)

include hs ha

theorem Sound.slot_fd : slot pl s (s.fdes a).fd.toNat = a ∧ (s.fdes a).fd.toNat < s.fdTableMax := by
  obtain ⟨hne, i, hi, rfl⟩ := ha
  rw [hs.fd i hi hne]
  exact ⟨rfl, hi⟩

theorem Sound.listed_assign (hev : Within ev fdeEventmask) (hl : Listed pl s fds bit) :
    Listed pl (assign s a ev) (update fds (s.fdes a).fd.toNat (any ev bit)) bit := by
  obtain ⟨hslot, hlt⟩ := hs.slot_fd ha
  intro i hi
  by_cases hne : i = (s.fdes a).fd.toNat
  case pos =>
    rw [hne, update_self] at hi
    refine ⟨hne ▸ hlt, ?_, ?_⟩
    · rw [hne]
      exact fun h0 => ha.left (hslot.symm.trans h0)
    · rw [hne]
      have hsame : slot pl (assign s a ev) (s.fdes a).fd.toNat = a := hslot
      rw [hsame, assign_fdes_self, Fde.mask_withEvents hev]
      exact hi
  rw [update_of_ne hne] at hi
  obtain ⟨hmax, hzero, hbit⟩ := hl i hi
  have hother : slot pl s i ≠ a := by
    rintro rfl
    rw [hs.fd i hmax hzero] at hne
    exact hne rfl
  refine ⟨hmax, hzero, ?_⟩
  have hsame : (assign s a ev).fdes (slot pl s i) = s.fdes (slot pl s i) := update_of_ne hother ..
  exact hsame.symm ▸ hbit

theorem Sound.assign (hev : Within ev fdeEventmask) : Sound pl (assign s a ev) where
  n := hs.n
  fd := fun i hi hne => (assign_fd _).trans (hs.fd i hi hne)
  active := forall_update (p := fun b fde => Registered pl s b → fde.isActive)
    (fun ha => (Fde.isActive_withEvents hev).mpr (hs.active a ha)) fun b _ => hs.active b
  read := hs.listed_assign ha hev hs.read
  write := hs.listed_assign ha hev hs.write
  error := hs.listed_assign ha hev hs.error
  nodup := hs.nodup
  pending := forall_update (p := fun b fde => b ∈ s.pending ↔ Registered pl s b ∧ fde.isPending)
    (by rw [Fde.isPending_withEvents hev]; exact hs.pending a) fun b _ => hs.pending b
  events := forall_update (p := fun b fde => Registered pl s b → (fde.isPending ↔ fde.events ≠ 0#16))
    (by rw [Fde.isPending_withEvents hev]; exact hs.events a) fun b _ => hs.events b

end

namespace Signal

theorem same (hs : Signal pl m₀ s h) (a : Nat) : Signal pl m₀ s (.interest a (s.fdes a).mask :: h) := by
  refine { hs.toSound with proper := hs.proper, interest := ?_, within := hs.within, kept := ?_ }
  · intro b hb
    by_cases hne : a = b
    case pos => rw [Fdevent.interest, if_pos hne, hne]
    case neg => rw [Fdevent.interest, if_neg hne, hs.interest b hb]
  · intro b hb
    by_cases hne : a = b
    case pos => rw [Fdevent.kept, if_pos hne]; exact (and_within_left _ _).trans (hs.kept b hb)
    case neg => rw [Fdevent.kept, if_neg hne]; exact hs.kept b hb

theorem assign (hs : Signal pl m₀ s h) (ha : Registered pl s a) (hidle : ¬(s.fdes a).isPending)
    (hev : Within ev fdeEventmask) : Signal pl m₀ (assign s a ev) (.interest a ev :: h) := by
  have hzero : (s.fdes a).events = 0#16 := by
    by_contra hne
    exact hidle ((hs.events a ha).mpr hne)
  refine { hs.toSound.assign ha hev with proper := hs.proper, interest := ?_, within := ?_, kept := ?_ }
  · refine forall_update (p := fun b fde => Registered pl s b →
      Fdevent.interest m₀ b (.interest a ev :: h) = fde.mask) (fun _ => ?_) fun b hne => ?_
    · rw [Fdevent.interest, if_pos rfl, Fde.mask_withEvents hev]
    · rw [Fdevent.interest, if_neg (Ne.symm hne)]
      exact hs.interest b
  · exact forall_update (p := fun b fde => Registered pl s b → Within fde.events (reported b h &&& fde.mask))
      (fun _ => hzero ▸ zero_within _) fun b _ => hs.within b
  · refine forall_update (p := fun b fde => Registered pl s b →
      Within (Fdevent.kept m₀ b (.interest a ev :: h)) fde.events) (fun ha => ?_) fun b hne => ?_
    · rw [Fdevent.kept, if_pos rfl]
      exact (and_within_left _ _).trans (hs.kept a ha)
    · rw [Fdevent.kept, if_neg (Ne.symm hne)]
      exact hs.kept b

theorem set (hs : Signal pl m₀ s h) (ha : Registered pl s a) (hok : fdeventSet pl s a events = .ok s')
    (hc : (s.fdes a).isPending → events &&& fdeEventmask = (s.fdes a).mask) :
    Signal pl m₀ s' (.interest a (s'.fdes a).mask :: h) := by
  obtain rfl | ⟨hidle, rfl⟩ := fdeventSet_eq_ok hok (hs.active a ha) hc
  case inl => exact hs.same a
  case inr =>
    have hev : Within (events &&& fdeEventmask) fdeEventmask := and_within_right _ _
    rw [assign_fdes_self, Fde.mask_withEvents hev]
    exact hs.assign ha hidle hev

end Signal

section Round

variable {ready : Ready} {i rounds : Nat} {n : Int} {sel : Select}

-- The counts of the sets that are left add up to `n`, and the events in them are wanted.
structure Wanted (pl : Platform) (s : State) (ready : Ready) (i rounds : Nat) (n : Int) : Prop where
  n : n = ((List.range' i rounds).map ready.count).sum
  wanted : ∀ j ∈ List.range' i rounds, ready.events j ≠ 0#16 → Registered pl s (slot pl s j) ∧
    Within (ready.events j) (s.fdes (slot pl s j)).mask

theorem Ready.count_eq_zero_iff (ready : Ready) (i : Nat) : ready.count i = 0 ↔ ready.events i = 0#16 := by
  rw [Ready.count, Ready.events]
  cases ready.rfd i <;> cases ready.wfd i <;> cases ready.efd i <;> decide

theorem fdIsset_eq_ok (h : fdIsset pl i fds = .ok b) : b = fds i := by
  rw [fdIsset] at h
  split at h
  case isTrue  => exact (ok.inj h).symm
  case isFalse => cases h

theorem Wanted.tail (hw : Wanted pl s ready i (rounds + 1) n) :
    Wanted pl s ready (i + 1) rounds
      (n - (ready.rfd i).toNat - (ready.wfd i).toNat - (ready.efd i).toNat) where
  n := by
    have hsum := hw.n
    rw [range'_succ, map_cons, sum_cons, Ready.count] at hsum
    omega
  wanted := fun j hj => hw.wanted j (mem_cons_of_mem _ hj)

theorem Wanted.replace (hw : Wanted pl s ready i rounds n) (hlike : Like fde (s.fdes a)) :
    Wanted pl (replace s a fde l) ready i rounds n where
  n := hw.n
  wanted := fun j hj hne => by
    rw [(hlike.replace_fdes _).mask]
    exact hw.wanted j hj hne

theorem Wanted.filterMap_eq_nil (hw : Wanted pl s ready i rounds n) (hn : ¬n > 0) :
    (range' i rounds).filterMap (report pl s ready) = [] := by
  have hsum : ((range' i rounds).map ready.count).sum = 0 := by
    have := hw.n
    omega
  rw [filterMap_eq_nil_iff]
  intro j hj
  have hzero := sum_eq_zero_iff.mp hsum (ready.count j) (mem_map_of_mem hj)
  exact if_pos ((ready.count_eq_zero_iff j).mp hzero)

theorem Signal.processLoop (hs : Signal pl m₀ s h) (hw : Wanted pl s ready i rounds n)
    (hok : processLoop pl ready rounds i n s = .ok s') :
    Signal pl m₀ s' (((range' i rounds).filterMap (Fdevent.report pl s ready)).reverse ++ h) := by
  induction rounds generalizing i n s h
  case zero =>
    obtain rfl := ok.inj hok
    exact hs
  case succ rounds hind =>
    rw [Fdevent.processLoop] at hok
    by_cases hn : n > 0
    case neg =>
      rw [if_neg hn] at hok
      obtain rfl := ok.inj hok
      rw [hw.filterMap_eq_nil hn]
      exact hs
    rw [if_pos hn] at hok
    obtain ⟨r, hr, hok⟩ := bind_eq_ok_iff.mp hok
    obtain ⟨w, hwr, hok⟩ := bind_eq_ok_iff.mp hok
    obtain ⟨e, he, hok⟩ := bind_eq_ok_iff.mp hok
    obtain rfl := fdIsset_eq_ok hr
    obtain rfl := fdIsset_eq_ok hwr
    obtain rfl := fdIsset_eq_ok he
    rw [range'_succ]
    have heq : eventsOf (ready.rfd i) (ready.wfd i) (ready.efd i) = ready.events i := rfl
    dsimp only at hok
    rw [heq] at hok
    by_cases hev : ready.events i = 0
    case pos =>
      have hnone : Fdevent.report pl s ready i = none := if_pos hev
      rw [if_neg (not_not.mpr hev)] at hok
      rw [filterMap_cons_none hnone]
      exact hind hs hw.tail hok
    obtain ⟨hreg, hwithin⟩ := hw.wanted i (by simp [range'_succ]) hev
    obtain ⟨fde, l, hnote, hlike, hs'⟩ := hs.noteEvents hreg hwithin hev
    have hsome : Fdevent.report pl s ready i = some (.report (slot pl s i) (ready.events i)) :=
      if_neg hev
    rw [if_pos hev] at hok
    obtain ⟨s₁, h₁, hok⟩ := bind_eq_ok_iff.mp hok
    obtain rfl := ok.inj (hnote.symm.trans h₁)
    rw [filterMap_cons_some hsome, reverse_cons, append_assoc]
    exact hind (s := Fdevent.replace s (slot pl s i) fde l) hs' (hw.tail.replace hlike) hok

theorem within_of_any (hbit : bit = BitVec.twoPow 16 k) (h : any m bit) : Within bit m := by
  rw [within_iff]
  intro j hj
  rw [any, bne_iff_ne, hbit, BitVec.and_twoPow] at h
  rw [hbit, BitVec.getLsbD_twoPow] at hj
  cases hm : m.getLsbD k
  case false => simp [hm] at h
  case true  =>
    simp only [Bool.and_eq_true, decide_eq_true_eq] at hj
    rw [← hj.right, hm]

theorem events_within (hr : ready.rfd i → any m fdeRead)
    (hw : ready.wfd i → any m fdeWrite) (he : ready.efd i → any m fdeError) :
    Within (ready.events i) m := by
  refine or_within (or_within ?_ ?_) ?_
  · split
    case isTrue h => exact within_of_any (k := 0) (by decide) (hr h)
    case isFalse => exact zero_within m
  · split
    case isTrue h => exact within_of_any (k := 1) (by decide) (hw h)
    case isFalse => exact zero_within m
  · split
    case isTrue h => exact within_of_any (k := 2) (by decide) (he h)
    case isFalse => exact zero_within m

theorem sum_toNat (p : Nat → Bool) (l : List Nat) : (l.map fun i => (p i).toNat).sum = l.countP p := by
  induction l
  case nil => rfl
  case cons a l hi =>
    rw [map_cons, sum_cons, hi, countP_cons]
    cases p a <;> simp [add_comm]

theorem wanted_of_fdCheck (hs : Sound pl s) (hc : ∀ i < s.selectN, slot pl s i ≠ 0 → closed i →
      any (s.fdes (slot pl s i)).mask fdeRead) :
    Wanted pl s ⟨(fdeventFdCheck pl s closed fun _ => false).2, fun _ => false, fun _ => false⟩ 0 s.selectN
      (fdeventFdCheck pl s closed fun _ => false).1 where
  n := by
    rw [show Ready.count ⟨_, fun _ => false, fun _ => false⟩ = fun i => Bool.toNat _ from rfl, sum_toNat,
      ← range_eq_range']
    simp only [fdeventFdCheck, Bool.false_or]
  wanted := fun i _ hev => by
    have hbad : i < s.selectN ∧ slot pl s i ≠ 0 ∧ closed i := by
      by_contra hno
      refine hev ?_
      have hfalse : (fdeventFdCheck pl s closed fun _ => false).2 i = false := by
        simp only [fdeventFdCheck, Bool.false_or]
        simpa using hno
      simp only [Ready.events, hfalse]
      rfl
    obtain ⟨hlt, hslot, hclosed⟩ := hbad
    refine ⟨⟨hslot, i, lt_of_lt_of_le hlt hs.n, rfl⟩, ?_⟩
    exact events_within (fun _ => hc i hlt hslot hclosed) nofun nofun

theorem Selects.eq_false (hsel : Selects s sel) (hn : sel.n = 0) (i : Nat) :
    sel.rfd i = false ∧ sel.wfd i = false ∧ sel.efd i = false := by
  have hsum : ((range' 0 s.selectN).map (Ready.count ⟨sel.rfd, sel.wfd, sel.efd⟩)).sum = 0 := by
    have := hsel.n (by omega)
    omega
  by_cases hi : i < s.selectN
  case pos =>
    have hzero := sum_eq_zero_iff.mp hsum _ (mem_map_of_mem (mem_range'_1.mpr ⟨Nat.zero_le i, by omega⟩))
    simp only [Ready.count] at hzero
    cases hr : sel.rfd i <;> cases hw : sel.wfd i <;> cases he : sel.efd i <;> simp_all
  refine ⟨?_, ?_, ?_⟩ <;> rw [← Bool.not_eq_true]
  · exact fun h => hi (hsel.read (by omega) i h).left
  · exact fun h => hi (hsel.write (by omega) i h).left
  · exact fun h => hi (hsel.error (by omega) i h).left

theorem wanted_of_select (hs : Sound pl s) (hsel : Selects s sel) (hn : 0 < sel.n) :
    Wanted pl s ⟨sel.rfd, sel.wfd, sel.efd⟩ 0 s.selectN sel.n where
  n := hsel.n (by omega)
  wanted := fun i _ hev => by
    have hr (h : sel.rfd i) := hs.read i (hsel.read (by omega) i h).right
    have hw (h : sel.wfd i) := hs.write i (hsel.write (by omega) i h).right
    have he (h : sel.efd i) := hs.error i (hsel.error (by omega) i h).right
    refine ⟨?_, events_within (fun h => (hr h).right.right) (fun h => (hw h).right.right)
      (fun h => (he h).right.right)⟩
    cases hri : sel.rfd i
    case true  => exact ⟨(hr hri).right.left, i, (hr hri).left, rfl⟩
    case false =>
      cases hwi : sel.wfd i
      case true  => exact ⟨(hw hwi).right.left, i, (hw hwi).left, rfl⟩
      case false =>
        cases hei : sel.efd i
        case true  => exact ⟨(he hei).right.left, i, (he hei).left, rfl⟩
        case false => simp [Ready.events, hri, hwi, hei, eventsOf] at hev

theorem wanted_of_received (hs : Sound pl s) (hsel : Selects s sel) (hc : Careful pl s (.process sel))
    (hrec : received pl s sel = some (n, ready)) : Wanted pl s ready 0 s.selectN n := by
  simp only [received] at hrec
  by_cases hneg : sel.n < 0
  case pos =>
    rw [if_pos hneg] at hrec
    cases herr : sel.errno <;> simp only [herr] at hrec
    case eintr => cases hrec
    case other => cases hrec
    case ebadf =>
      simp only [some.injEq, Prod.mk.injEq] at hrec
      obtain ⟨rfl, rfl⟩ := hrec
      exact wanted_of_fdCheck hs (hc (.inr ⟨hneg, herr⟩))
  rw [if_neg hneg] at hrec
  by_cases hzero : sel.n = 0
  case neg =>
    rw [if_neg hzero, some.injEq, Prod.mk.injEq] at hrec
    obtain ⟨rfl, rfl⟩ := hrec
    exact wanted_of_select hs hsel (by omega)
  have hr : sel.rfd = fun _ => false := funext fun i => (hsel.eq_false hzero i).left
  have hw : sel.wfd = fun _ => false := funext fun i => (hsel.eq_false hzero i).right.left
  have he : sel.efd = fun _ => false := funext fun i => (hsel.eq_false hzero i).right.right
  rw [if_pos hzero, hr, hw, he] at hrec
  simp only [some.injEq, Prod.mk.injEq] at hrec
  obtain ⟨rfl, rfl⟩ := hrec
  exact wanted_of_fdCheck hs (hc (.inl hzero))

theorem Signal.process (hs : Signal pl m₀ s h) (hsel : Selects s sel) (hc : Careful pl s (.process sel))
    (hok : fdeventProcess pl s sel = .ok s') : Signal pl m₀ s' (reports pl s sel ++ h) := by
  rw [fdeventProcess] at hok
  rw [reports]
  rcases hrec : received pl s sel with _ | r
  · simp only [hrec] at hok
    obtain rfl := ok.inj hok
    exact hs
  simp only [hrec] at hok
  exact hs.processLoop (wanted_of_received hs.toSound hsel hc hrec) hok

end Round

theorem Signal.step (hs : Signal pl m₀ s h) (hc : Careful pl s op) (hstep : Step pl s op obs s') :
    Signal pl m₀ s' (obs ++ h) := by
  cases hstep
  case set a events ha hok => exact hs.set ha hok hc
  case add a events ha hok =>
    refine hs.set ha hok fun hp => ?_
    have hwithin : Within ((s.fdes a).mask ||| (events &&& fdeEventmask)) fdeEventmask :=
      or_within (s.fdes a).mask_within (and_within_right _ _)
    exact Eq.trans hwithin (hc hp)
  case del a events ha hok =>
    refine hs.set ha hok fun hp => ?_
    have hwithin : Within ((s.fdes a).mask &&& ~~~(events &&& fdeEventmask)) fdeEventmask :=
      Within.trans (and_within_left _ _) (s.fdes a).mask_within
    exact Eq.trans hwithin (hc hp)
  case process sel hsel hok => exact hs.process hsel hc hok
  case call a s₁ events hd hcall =>
    obtain ⟨s₂, hcall', hs'⟩ := hs.call hd
    rw [hcall, Prod.mk.injEq, some.injEq] at hcall'
    obtain ⟨rfl, rfl⟩ := hcall'
    exact hs'
  case skip a s₁ hd hcall =>
    obtain ⟨s₂, hcall', _⟩ := hs.call hd
    rw [hcall, Prod.mk.injEq] at hcall'
    cases hcall'.right

theorem Signal.of_run (hq : Quiet pl s₀) (hrun : Run pl (Careful pl) s₀ h s) :
    Signal pl (fun a => (s₀.fdes a).mask) s h := by
  induction hrun
  case start => exact .of_quiet hq
  case step hrun hc hstep hs => exact hs.step hc hstep

theorem Signal.mem_pending (hs : Signal pl m₀ s h) (ha : Registered pl s a)
    (hkept : Fdevent.kept m₀ a h ≠ 0#16) : a ∈ s.pending := by
  refine (hs.pending a).mpr ⟨ha, (hs.events a ha).mpr fun hzero => hkept ?_⟩
  exact Within.eq_zero (hzero ▸ hs.kept a ha)

theorem proper_of_run (hq : Quiet pl s₀) (hrun : Run pl (Careful pl) s₀ h s) :
    Proper (fun a => (s₀.fdes a).mask) h ∧
    ∀ a, Registered pl s a → kept (fun a => (s₀.fdes a).mask) a h ≠ 0#16 → a ∈ s.pending :=
  have hs := Signal.of_run hq hrun
  ⟨hs.proper, fun _ ha => hs.mem_pending ha⟩

end Steps

section OneFde

-- One object is registered, for the descriptor 3. It wants nothing yet.
def oneFde : State where
  fdes := Function.update (fun _ => blank) 0x1000 ⟨3, false, fdeActive, 0⟩
  fdTable := Memory.setWord 8 (fun _ => 0) 3 0x1000
  fdTableMax := 256
  selectN := 4
  readFds := fun _ => false
  writeFds := fun _ => false
  errorFds := fun _ => false
  pending := []
  closed := []

def readyBoth : Select where
  n := 2
  errno := .other
  rfd := fun i => i == 3
  wfd := fun i => i == 3
  efd := fun _ => false
  closed := fun _ => false

theorem registered_oneFde : Registered lp64 oneFde 0x1000 :=
  ⟨by decide, 3, by decide, Memory.word_setWord (by decide)⟩

theorem quiet_oneFde : Quiet lp64 oneFde := by
  have hslot {i : Nat} (hne : slot lp64 oneFde i ≠ 0) : i = 3 := by
    by_contra hi
    have : slot lp64 oneFde i = Memory.word 8 (fun _ => 0) i := Memory.word_setWord_of_ne hi
    exact hne (this.trans (Memory.word_eq_zero_iff.mpr fun _ _ => rfl))
  have haddr : slot lp64 oneFde 3 = 0x1000 := Memory.word_setWord (by decide)
  have hreg {a : Nat} (ha : Registered lp64 oneFde a) : a = 0x1000 := by
    obtain ⟨hne, i, _, rfl⟩ := ha
    rw [hslot hne, haddr]
  refine ⟨⟨by decide, ?_, ?_, nofun, nofun, nofun, nodup_nil, ?_, ?_⟩, rfl⟩
  · intro i _ hne
    rw [hslot hne, haddr]
    rfl
  · intro a ha
    rw [hreg ha]
    decide
  · intro a
    refine iff_of_false not_mem_nil fun h => ?_
    rw [hreg h.left] at h
    exact absurd h.right (by decide)
  · intro a ha
    rw [hreg ha]
    decide

def after (x : Exec State) : State :=
  x.toOption.getD oneFde

def watching : State :=
  after (fdeventSet lp64 oneFde 0x1000 (fdeRead ||| fdeWrite))

def signaled : State :=
  after (fdeventProcess lp64 watching readyBoth)

theorem selects_readyBoth : Selects watching readyBoth := by
  refine ⟨fun _ i hi => ?_, fun _ i hi => ?_, fun _ i hi => ?_, fun _ => rfl⟩
  · obtain rfl : i = 3 := by simpa [readyBoth] using hi
    exact ⟨by decide, by decide⟩
  · obtain rfl : i = 3 := by simpa [readyBoth] using hi
    exact ⟨by decide, by decide⟩
  · cases hi

theorem run_signaled (P : State → Op → Prop) (hset : P oneFde (.set 0x1000 (fdeRead ||| fdeWrite)))
    (hprocess : P watching (.process readyBoth)) :
    Run lp64 P oneFde [.report 0x1000 (fdeRead ||| fdeWrite), .interest 0x1000 (fdeRead ||| fdeWrite)]
      signaled := by
  have h₁ : fdeventSet lp64 oneFde 0x1000 (fdeRead ||| fdeWrite) = .ok watching := rfl
  have h₂ : fdeventProcess lp64 watching readyBoth = .ok signaled := rfl
  have hrun := Run.step (.step .start hset (.set registered_oneFde h₁)) hprocess
    (.process selects_readyBoth h₂)
  have hobs : reports lp64 watching readyBoth = [.report 0x1000 (fdeRead ||| fdeWrite)] := by decide
  have hmask : (watching.fdes 0x1000).mask = fdeRead ||| fdeWrite := by decide
  rwa [hobs, hmask] at hrun

-- The function is called with the two events.
theorem proper_oneFde : ∃ h s, Run lp64 (Careful lp64) oneFde h s ∧
    h = [.call 0x1000 (fdeRead ||| fdeWrite), .report 0x1000 (fdeRead ||| fdeWrite),
      .interest 0x1000 (fdeRead ||| fdeWrite)] ∧
    Proper (fun a => (oneFde.fdes a).mask) h := by
  have hset : Careful lp64 oneFde (.set 0x1000 (fdeRead ||| fdeWrite)) := fun hp => absurd hp (by decide)
  have hprocess : Careful lp64 watching (.process readyBoth) := fun hn => absurd hn (by decide)
  have hcall : Careful lp64 signaled .call := trivial
  have hrun := Run.step (run_signaled (Careful lp64) hset hprocess) hcall (.call rfl rfl)
  exact ⟨_, _, hrun, by decide, (proper_of_run quiet_oneFde hrun).left⟩

-- Both events are reported, and writing is no longer wanted at the call.
theorem not_proper_oneFde : ∃ h s, Quiet lp64 oneFde ∧ Run lp64 (fun _ _ => True) oneFde h s ∧
    h = [.call 0x1000 fdeWrite, .interest 0x1000 fdeRead, .report 0x1000 (fdeRead ||| fdeWrite),
      .interest 0x1000 (fdeRead ||| fdeWrite)] ∧
    ¬Proper (fun a => (oneFde.fdes a).mask) h := by
  have hdel : fdeventDel lp64 signaled 0x1000 fdeWrite =
      .ok (after (fdeventDel lp64 signaled 0x1000 fdeWrite)) := rfl
  have hrun := Run.step (.step (run_signaled (fun _ _ => True) trivial trivial) trivial
    (.del registered_oneFde hdel)) trivial (.call rfl rfl)
  refine ⟨_, _, quiet_oneFde, hrun, by decide, ?_⟩
  rintro ⟨hwithin, -⟩
  exact absurd hwithin (by decide)

end OneFde

end Adb.Fdevent
