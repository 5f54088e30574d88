import PlatformKnife.Adb.Theorems.Listeners

namespace Adb.Listeners

open CString Ring List Function Nat State

variable {smart l : ListenerId} {name : List UInt8} {s s' : State} {t t' : TransportId} {env : Env}
variable {ts : List TransportId} {ids ids₁ ids₂ : List ListenerId} {localName connectTo : List UInt8}
variable {dis : TransportId → List ListenerId} {service : List UInt8} {e : Event}

theorem freeListener_transports (s : State) (l : ListenerId) :
    (s.freeListener l).transports = s.transports := by
  unfold freeListener
  split
  · rfl
  · rfl

theorem addListener_transports (s : State) (l : ListenerId) (new : Alistener) :
    (s.addListener l new).transports = s.transports := by
  unfold addListener
  split
  · rfl
  · rfl

namespace Table

theorem first (h : Table smart name ts s ids dis) : s.list.next none = ids.head? := by
  rw [h.list.next_head, head?_map]
  cases ids.head? <;> rfl

theorem next (h : Table smart name ts s (ids₁ ++ l :: ids₂) dis) : s.list.next (some l) = ids₂.head? := by
  have hr := h.list
  rw [map_append, map_cons] at hr
  rw [hr.next_of_mem, head?_map]
  cases ids₂.head? <;> rfl

theorem snoc (h : Table smart name ts s (ids₁ ++ l :: ids₂) dis) :
    Table smart name ts s ((ids₁ ++ [l]) ++ ids₂) dis := by
  rwa [append_assoc, singleton_append]

theorem find_eq (h : Table smart name ts s (ids₁ ++ ids₂) dis) (localName : List UInt8)
    (hf : ids₂.length < fuel) :
    s.find localName fuel ids₂.head? =
      some (ids₂.find? fun l => localName = (s.listener l).localName) := by
  obtain ⟨fuel, rfl⟩ := Nat.exists_eq_add_of_lt hf
  induction ids₂ generalizing ids₁
  case nil => rfl
  case cons l ids₂ hi =>
    rw [length_cons, add_right_comm ids₂.length, add_right_comm, head?_cons, find, find?_cons]
    by_cases hn : localName = (s.listener l).localName
    case pos => simp [hn]
    rw [if_neg hn, h.next, hi h.snoc (by omega)]
    simp [hn]

theorem find_first (h : Table smart name ts s ids dis) (localName : List UInt8) (hf : ids.length < fuel) :
    s.find localName fuel (s.list.next none) =
      some (ids.find? fun l => localName = (s.listener l).localName) := by
  have h₀ : Table smart name ts s ([] ++ ids) dis := h
  rw [h.first, h₀.find_eq localName hf]

theorem formatListeners (h : Table smart name ts s (ids₁ ++ ids₂) dis) (env : Env) :
    ∃ text, ∀ fuel, ids₂.length < fuel → s.formatListeners env fuel ids₂.head? = some text := by
  induction ids₂ generalizing ids₁
  case nil =>
    refine ⟨[], ?_⟩
    intro fuel hf
    obtain ⟨fuel, rfl⟩ := exists_eq_add_one.mpr hf
    rfl
  case cons l ids₂ hi =>
    have hl : l ∈ ids₁ ++ l :: ids₂ := mem_append_right _ mem_cons_self
    obtain ⟨text, ht⟩ := hi h.snoc
    by_cases hs : l = smart
    case pos =>
      refine ⟨text, ?_⟩
      intro fuel hf
      obtain ⟨fuel, rfl⟩ := exists_eq_add_one.mpr (zero_lt_of_lt hf)
      rw [head?_cons, formatListeners, if_pos ((h.special_iff hl).mpr hs), h.next]
      exact ht fuel (lt_of_succ_lt_succ hf)
    obtain ⟨hns, t, -, hlt⟩ := h.others l hl hs
    refine ⟨env.serial t ++ [32] ++ (s.listener l).localName ++ [32] ++ (s.listener l).connectTo ++
      [10] ++ text, ?_⟩
    intro fuel hf
    obtain ⟨fuel, rfl⟩ := exists_eq_add_one.mpr (zero_lt_of_lt hf)
    rw [head?_cons, formatListeners, if_neg (by simp [hns]), h.next, ht fuel (lt_of_succ_lt_succ hf), hlt]

theorem removeAllLoop (h : Table smart name ts s (ids₁ ++ ids₂) dis) :
    ∃ s' ids' dis', (∀ fuel, ids₂.length < fuel → removeAllLoop fuel s ids₂.head? = some s') ∧
      Table smart name ts s' ids' dis' ∧ s'.transports = s.transports := by
  induction ids₂ generalizing s ids₁ dis
  case nil =>
    refine ⟨s, _, _, ?_, h, rfl⟩
    intro fuel hf
    obtain ⟨fuel, rfl⟩ := Nat.exists_eq_add_of_lt hf
    rfl
  case cons l ids₂ hi =>
    have hl : l ∈ ids₁ ++ l :: ids₂ := mem_append_right _ mem_cons_self
    by_cases hs : l = smart
    case pos =>
      obtain ⟨s', ids', dis', he, hr⟩ := hi h.snoc
      refine ⟨s', ids', dis', ?_, hr⟩
      intro fuel hf
      obtain ⟨fuel, rfl⟩ := exists_eq_add_one.mpr (zero_lt_of_lt hf)
      rw [head?_cons, removeAllLoop, if_pos ((h.special_iff hl).mpr hs), h.next]
      exact he fuel (lt_of_succ_lt_succ hf)
    obtain ⟨s', ids', dis', he, hr, ht⟩ := hi (h.freeListener hs)
    refine ⟨s', ids', dis', ?_, hr, ?_⟩
    · intro fuel hf
      obtain ⟨fuel, rfl⟩ := exists_eq_add_one.mpr (zero_lt_of_lt hf)
      rw [head?_cons, removeAllLoop, if_neg fun hc => hs ((h.special_iff hl).mp hc), h.next]
      exact he fuel (lt_of_succ_lt_succ hf)
    · rw [ht, freeListener_transports]

def node (t : TransportId) (rest : List ListenerId) : Adisconnect :=
  (rest.map Adisconnect.disconnect).head?.getD (.disconnects t)

section

variable (h : Table smart name ts s ids dis) (ht : t ∈ ts)

include h ht

theorem firstDisconnect : s.disconnects.next (.disconnects t) = node t (dis t) :=
  (h.rings.ring t ht).next_head

theorem nextDisconnect (hd : dis t = l :: rest) : s.disconnects.next (.disconnect l) = node t rest := by
  have hr := h.rings.ring t ht
  rw [hd, map_cons, ← nil_append (_ :: _)] at hr
  exact hr.next_of_mem

theorem runDisconnects (hd : dis t = rest) :
    ∃ s' ids' dis', (∀ fuel, rest.length < fuel → runDisconnects t fuel s (node t rest) = some s') ∧
      Table smart name ts s' ids' dis' ∧ dis' t = [] ∧ s'.transports = s.transports := by
  induction rest generalizing s ids dis
  case nil =>
    refine ⟨s, ids, dis, ?_, h, hd, rfl⟩
    intro fuel hf
    obtain ⟨fuel, rfl⟩ := exists_eq_add_one.mpr hf
    exact if_pos rfl
  case cons l rest hi =>
    obtain ⟨hl, hlt⟩ := (h.mem_dis t ht l).mp (hd ▸ mem_cons_self)
    have hne : l ≠ smart := by
      rintro rfl
      rw [h.smart_eq] at hlt
      cases hlt
    obtain ⟨ids₁, ids₂, rfl⟩ := append_of_mem hl
    have he : (dis t).erase l = rest := by rw [hd, erase_cons_head]
    obtain ⟨s', ids', dis', hrun, hr, hnil, htr⟩ := hi (h.freeListener hne) he
    refine ⟨s', ids', dis', ?_, hr, hnil, ?_⟩
    · intro fuel hf
      obtain ⟨fuel, rfl⟩ := exists_eq_add_one.mpr (zero_lt_of_lt hf)
      have hnode : node t (l :: rest) = .disconnect l := rfl
      rw [hnode, runDisconnects, h.nextDisconnect ht hd]
      exact hrun fuel (lt_of_succ_lt_succ hf)
    · rw [htr, freeListener_transports]

theorem erase (hd : dis t = []) : Table smart name (ts.erase t) s ids dis :=
  have hsub := erase_subset (l := ts) (a := t)
  { h with
    rings   := h.rings.sublist hsub
    mem_dis := fun t' ht' => h.mem_dis t' (hsub ht')
    others  := by
      intro l hl hne
      obtain ⟨hs, t', ht', hlt⟩ := h.others l hl hne
      have hte : t' ≠ t := by
        rintro rfl
        have hm := (h.mem_dis t' ht' l).mpr ⟨hl, hlt⟩
        rw [hd] at hm
        cases hm
      exact ⟨hs, t', (mem_erase_of_ne hte).mpr ht', hlt⟩ }

end

theorem register (h : Table smart name ts s ids dis) (ht : t ∉ ts) :
    Table smart name (ts ++ [t])
      { s with
        transports  := s.transports ++ [t]
        disconnects := s.disconnects.empty (.disconnects t) }
      ids (update dis t []) :=
  { h with
    rings   := h.rings.empty ht
    mem_dis := by
      intro t' ht' l
      by_cases hte : t' = t
      case neg =>
        rw [update_of_ne hte]
        exact h.mem_dis t' (by simpa [hte] using ht') l
      subst hte
      rw [update_self]
      refine iff_of_false not_mem_nil ?_
      rintro ⟨hl, hlt⟩
      by_cases hne : l = smart
      case pos =>
        rw [hne, h.smart_eq] at hlt
        cases hlt
      obtain ⟨-, t₀, ht₀, hlt₀⟩ := h.others l hl hne
      exact ht (Option.some.inj (hlt.symm.trans hlt₀) ▸ ht₀)
    others := by
      intro l hl hne
      obtain ⟨hs, t', ht', hlt⟩ := h.others l hl hne
      exact ⟨hs, t', mem_append_left _ ht', hlt⟩ }

theorem installListener (h : Table smart name s.transports s ids dis) (hl : s.live env.calloc = false)
    (ht : t ∈ s.transports) (hc : connectTo.head? ≠ some 42) (localName : List UInt8)
    (noRebind : Bool) :
    ∃ r ids' dis', (∀ fuel, ids.length < fuel →
        s.installListener fuel env localName connectTo (some t) noRebind = some r) ∧
      Table smart name r.1.transports r.1 ids' dis' := by
  cases hx : ids.find? fun l => localName = (s.listener l).localName
  case none =>
    have hn : ∀ x ∈ ids, (s.listener x).localName ≠ localName := by
      intro x hm he
      exact absurd he.symm (by simpa using find?_eq_none.mp hx x hm)
    by_cases hb : env.localNameToFd
    case neg =>
      refine ⟨(s, .cannotBind), ids, dis, ?_, h⟩
      intro fuel hf
      simp [State.installListener, h.find_first localName hf, hx, hb]
    obtain ⟨new, hnew⟩ : ∃ new, new = (⟨localName, connectTo, some t⟩ : Alistener) := ⟨_, rfl⟩
    have hr : Table smart name s.transports (s.addListener env.calloc new) _ _ :=
      h.addListener hl ht (hnew ▸ hn) (hnew ▸ rfl) (hnew ▸ decide_eq_false hc)
    have htr := addListener_transports s env.calloc new
    refine ⟨(s.addListener env.calloc new, .ok), _, _, ?_, htr.symm ▸ hr⟩
    intro fuel hf
    simp [State.installListener, h.find_first localName hf, hx, hb, hnew]
  case some l =>
    have hm := mem_of_find?_eq_some hx
    by_cases hs : l = smart
    case pos =>
      refine ⟨(s, .internalError), ids, dis, ?_, h⟩
      intro fuel hf
      simp [State.installListener, h.find_first localName hf, hx, (h.special_iff hm).mpr hs]
    have hns := (h.others l hm hs).1
    obtain ⟨s', dis', he, hr, htr⟩ := h.rebind hm hs ht hc
    by_cases hnr : noRebind
    case pos =>
      refine ⟨(s, .cannotRebind), ids, dis, ?_, h⟩
      intro fuel hf
      simp [State.installListener, h.find_first localName hf, hx, hns, hnr]
    by_cases hdup : env.strdup
    case pos =>
      refine ⟨(s', .ok), ids, dis', ?_, htr ▸ hr⟩
      intro fuel hf
      simp [State.installListener, h.find_first localName hf, hx, hns, hnr, hdup, he]
    refine ⟨(s, .internalError), ids, dis, ?_, h⟩
    intro fuel hf
    simp [State.installListener, h.find_first localName hf, hx, hns, hnr, hdup]

theorem removeListener (h : Table smart name s.transports s ids dis) (hn : localName ≠ name) :
    ∃ r ids' dis', (∀ fuel, ids.length < fuel → s.removeListener fuel localName = some r) ∧
      Table smart name r.1.transports r.1 ids' dis' := by
  cases hx : ids.find? fun l => localName = (s.listener l).localName
  case none =>
    refine ⟨(s, false), ids, dis, ?_, h⟩
    intro fuel hf
    simp [State.removeListener, h.find_first localName hf, hx]
  case some l =>
    have hm   := mem_of_find?_eq_some hx
    have heq  : localName = (s.listener l).localName := by simpa using find?_some hx
    have hs   : l ≠ smart := by
      rintro rfl
      rw [h.smart_eq] at heq
      exact hn heq
    have hrun {fuel} (hf : ids.length < fuel) :
        s.removeListener fuel localName = some (s.freeListener l, true) := by
      simp [State.removeListener, h.find_first localName hf, hx]
    obtain ⟨ids₁, ids₂, rfl⟩ := append_of_mem hm
    exact ⟨_, _, _, fun _ hf => hrun hf, (freeListener_transports s l).symm ▸ h.freeListener hs⟩

end Table

-- The end of a step, whatever its loops may have to do.
def Ends (s : State) (e : Event) (s' : State) : Prop :=
  ∃ n, ∀ fuel, n < fuel → step fuel s e = some s'

-- Requests that do not remove the smart socket's listener while there is a transport.
def Spares (name : List UInt8) : Event → Prop
  | .request service env =>
    ∀ t, env.acquireOneTransport = .ok t → parse service ≠ .killforward name
  | _ => True

theorem parseForward_remote (h : parseForward b spec = .forward noRebind localName remote) :
    remote.head? ≠ some 42 := by
  unfold parseForward at h
  split at h
  · cases h
  · dsimp only at h
    split at h
    case isTrue  => cases h
    case isFalse hc =>
      cases h
      exact fun he => hc (.inr (.inr he))

theorem parse_remote (h : parse service = .forward noRebind localName remote) :
    remote.head? ≠ some 42 := by
  unfold parse at h
  dsimp only at h
  split at h
  case isTrue => cases h
  split at h
  case isTrue => cases h
  split at h
  case isTrue =>
    split at h
    · exact parseForward_remote h
    · exact parseForward_remote h
  split at h
  case isFalse => cases h
  split at h
  · cases h
  · cases h

theorem Table.handleForwardRequest
    (h : Table smart name s.transports s ids dis) (hp : Possible s (.request service env))
    (hs : Spares name (.request service env)) :
    ∃ r ids' dis', (∀ fuel, ids.length < fuel → handleForwardRequest fuel env s service = some r) ∧
      Table smart name r.1.transports r.1 ids' dis' := by
  have h₀ : Table smart name s.transports s ([] ++ ids) dis := h
  unfold Listeners.handleForwardRequest
  cases hq : parse service
  case listForward =>
    obtain ⟨text, ht⟩ := h₀.formatListeners env
    by_cases hm : env.malloc
    case pos =>
      refine ⟨(s, 1, [.sendMsgWithOkay text]), ids, dis, ?_, h⟩
      intro fuel hf
      simp [hm, h.first, ht fuel hf]
    refine ⟨(s, 1, [.sendfailmsg (ofString "not enough memory")]), ids, dis, ?_, h⟩
    intro fuel hf
    simp [hm]
  case killforwardAll =>
    obtain ⟨s', ids', dis', hrun, hr, htr⟩ := h₀.removeAllLoop
    refine ⟨(s', 1, [.okay, .okay]), ids', dis', ?_, htr ▸ hr⟩
    intro fuel hf
    dsimp only
    rw [removeAllListeners, h.first, hrun fuel hf]
    rfl
  case forward noRebind localName remote =>
    cases ha : env.acquireOneTransport
    case error reason => exact ⟨_, ids, dis, fun _ _ => rfl, h⟩
    case ok t =>
      obtain ⟨r, ids', dis', hrun, hr⟩ :=
        h.installListener hp.2 (hp.1 t ha) (parse_remote hq) localName noRebind
      refine ⟨(r.1, 1, installReply r.2), ids', dis', ?_, hr⟩
      intro fuel hf
      dsimp only
      rw [hrun fuel hf]
      rfl
  case killforward localName =>
    cases ha : env.acquireOneTransport
    case error reason => exact ⟨_, ids, dis, fun _ _ => rfl, h⟩
    case ok t =>
      have hn : localName ≠ name := fun he => hs t ha (he ▸ hq)
      obtain ⟨r, ids', dis', hrun, hr⟩ := h.removeListener hn
      refine ⟨(r.1, 1, if r.2 then [.okay, .okay]
        else [.sendfailmsg (ofString "cannot remove listener")]), ids', dis', ?_, hr⟩
      intro fuel hf
      dsimp only
      rw [hrun fuel hf]
      rfl
  case malformed => exact ⟨_, ids, dis, fun _ _ => rfl, h⟩
  case other => exact ⟨_, ids, dis, fun _ _ => rfl, h⟩

theorem Table.step (h : Table smart name s.transports s ids dis) (hp : Possible s e) (hs : Spares name e) :
    ∃ s' ids' dis', Ends s e s' ∧ Table smart name s'.transports s' ids' dis' := by
  cases e
  case request service env =>
    obtain ⟨r, ids', dis', hrun, hr⟩ := h.handleForwardRequest hp hs
    refine ⟨r.1, ids', dis', ⟨ids.length, ?_⟩, hr⟩
    intro fuel hf
    rw [Listeners.step, hrun fuel hf]
    rfl
  case register t => exact ⟨_, ids, _, ⟨0, fun _ _ => rfl⟩, h.register hp⟩
  case unregister t =>
    have h₀ : Table smart name s.transports { s with transports := s.transports.erase t } ids dis :=
      { h with }
    obtain ⟨s', ids', dis', hrun, hr, hd, htr⟩ := h₀.runDisconnects hp rfl
    refine ⟨s', ids', dis', ⟨(dis t).length, ?_⟩, htr ▸ hr.erase hp hd⟩
    intro fuel hf
    rw [Listeners.step, h₀.firstDisconnect hp]
    exact hrun fuel hf

theorem Ends.unique (h : Ends s e s') (h' : Ends s e s'') : s' = s'' := by
  obtain ⟨n, hn⟩ := h
  obtain ⟨m, hm⟩ := h'
  have h₁ := hn (n + m + 1) (by omega)
  have h₂ := hm (n + m + 1) (by omega)
  exact Option.some.inj (h₁.symm.trans h₂)

theorem table_started (name : List UInt8) (smart : ListenerId) :
    Table smart name [] (started name smart) [smart] fun _ => [] where
  list := by
    have hr : IsRing initial.list none ([] : List (Option ListenerId)) := ⟨⟨rfl, rfl⟩, by simp⟩
    exact hr.insert (by simp)
  rings := ⟨by simp, by simp⟩
  names := by simp
  live_iff := by
    intro l
    by_cases hl : l = smart
    case pos => simp [hl, started, addListener, setListener]
    case neg => simp [hl, started, addListener, setListener, initial]
  mem_dis := by simp
  smart_mem := by simp
  smart_eq := by simp [started, addListener, setListener]
  others := by simp

-- The states of a server whose smart socket nobody asks to remove.
inductive Reachable (name : List UInt8) (smart : ListenerId) : State → Prop
  | started : Reachable name smart (started name smart)
  | step {s s' : State} {e : Event} :
    Reachable name smart s → Possible s e → Spares name e → Ends s e s' → Reachable name smart s'

theorem Reachable.table (h : Reachable name smart s) :
    ∃ ids dis, Table smart name s.transports s ids dis := by
  induction h
  case started => exact ⟨_, _, table_started name smart⟩
  case step _ hp hs he hi =>
    obtain ⟨ids, dis, hi⟩ := hi
    obtain ⟨s', ids', dis', he', hr⟩ := hi.step hp hs
    exact ⟨ids', dis', he.unique he' ▸ hr⟩

-- The listeners have different names, the smart socket is one of them and as it was, and each other one
-- is on the list of its transport once, and on no other list.
structure Registered (smart : ListenerId) (name : List UInt8) (s : State) (ids : List ListenerId)
    (dis : TransportId → List ListenerId) : Prop where
  list : IsRing s.list none (ids.map some)
  disconnects : ∀ t ∈ s.transports, IsRing s.disconnects (.disconnects t) ((dis t).map .disconnect)
  names : (ids.map fun l => (s.listener l).localName).Nodup
  smart_mem : smart ∈ ids
  smart_eq : s.listener smart = ⟨name, smartsocket, none⟩
  others : ∀ l ∈ ids, l ≠ smart → ∃ t ∈ s.transports, (s.listener l).transport = some t ∧
    ∀ t' ∈ s.transports, (dis t').count l = if t' = t then 1 else 0

theorem Table.registered (h : Table smart name s.transports s ids dis) :
    Registered smart name s ids dis where
  list := h.list
  disconnects := h.rings.ring
  names := h.names
  smart_mem := h.smart_mem
  smart_eq := h.smart_eq
  others l hl hne := by
    obtain ⟨-, t, ht, hlt⟩ := h.others l hl hne
    refine ⟨t, ht, hlt, ?_⟩
    intro t' ht'
    rw [(h.rings.nodup ht').count]
    simp only [h.mem_dis_iff hl hlt ht']

theorem registered_of_reachable (h : Reachable name smart s) :
    (∃ ids dis, Registered smart name s ids dis) ∧
      ∀ e, Possible s e → Spares name e → ∃ s', Ends s e s' := by
  obtain ⟨ids, dis, ht⟩ := h.table
  refine ⟨⟨ids, dis, ht.registered⟩, ?_⟩
  intro e hp hs
  obtain ⟨s', -, -, he, -⟩ := ht.step hp hs
  exact ⟨s', he⟩

-- The server with one transport.
def withDevice : State :=
  { started (ofString "tcp:5037") 0 with
    transports  := [0]
    disconnects := initial.disconnects.empty (.disconnects 0) }

theorem reachable_withDevice : Reachable (ofString "tcp:5037") 0 withDevice :=
  .step .started (e := .register 0) not_mem_nil trivial ⟨0, fun _ _ => rfl⟩

def onDevice : Env where
  acquireOneTransport := .ok 0
  strdup := true
  localNameToFd := true
  calloc := 1
  malloc := true
  serial _            := ofString "emulator-5554"

theorem possible_onDevice (service : List UInt8) : Possible withDevice (.request service onDevice) := by
  refine ⟨?_, rfl⟩
  rintro t ht
  cases ht
  exact mem_singleton_self 0

theorem find_withDevice (localName : List UInt8) (fuel : Nat) :
    withDevice.find localName (fuel + 2) (withDevice.list.next none) =
      some (if localName = ofString "tcp:5037" then some 0 else none) := by
  have hfirst : withDevice.list.next none = some 0 := rfl
  have hnext : withDevice.list.next (some 0) = none := rfl
  have hname : (withDevice.listener 0).localName = ofString "tcp:5037" := rfl
  rw [hfirst, find, hname, hnext, find]
  split
  · rfl
  · rfl

theorem parse_forward : parse (ofString "forward:tcp:1;tcp:2") =
    .forward false (ofString "tcp:1") (ofString "tcp:2") := by
  decide +kernel

theorem parse_killforward :
    parse (ofString "killforward:tcp:5037") = .killforward (ofString "tcp:5037") := by
  decide +kernel

theorem reachable_forward :
    Reachable (ofString "tcp:5037") 0
      (withDevice.addListener 1 ⟨ofString "tcp:1", ofString "tcp:2", some 0⟩) := by
  refine .step reachable_withDevice (possible_onDevice (ofString "forward:tcp:1;tcp:2")) ?_ ⟨1, ?_⟩
  · intro t _ hc
    rw [parse_forward] at hc
    cases hc
  · intro fuel hf
    obtain ⟨fuel, rfl⟩ := Nat.exists_eq_add_of_le' hf
    have hne : ofString "tcp:1" ≠ ofString "tcp:5037" := by decide +kernel
    rw [step, handleForwardRequest, parse_forward]
    dsimp only [onDevice]
    rw [installListener, find_withDevice, if_neg hne]
    rfl

theorem registered_forward :
    Reachable (ofString "tcp:5037") 0
        (withDevice.addListener 1 ⟨ofString "tcp:1", ofString "tcp:2", some 0⟩) ∧
      ∃ ids dis, Registered 0 (ofString "tcp:5037")
        (withDevice.addListener 1 ⟨ofString "tcp:1", ofString "tcp:2", some 0⟩) ids dis :=
  ⟨reachable_forward, (registered_of_reachable reachable_forward).1⟩

-- The listener of the smart socket is removed like any other.
theorem not_registered_killforward :
    Reachable (ofString "tcp:5037") 0 withDevice ∧
      Possible withDevice (.request (ofString "killforward:tcp:5037") onDevice) ∧
      ∃ s, Ends withDevice (.request (ofString "killforward:tcp:5037") onDevice) s ∧
        ¬∃ ids dis, Registered 0 (ofString "tcp:5037") s ids dis := by
  refine ⟨reachable_withDevice, possible_onDevice _, withDevice.freeListener 0, ⟨1, ?_⟩, ?_⟩
  · intro fuel hf
    obtain ⟨fuel, rfl⟩ := Nat.exists_eq_add_of_le' hf
    rw [step, handleForwardRequest, parse_killforward]
    dsimp only [onDevice]
    rw [removeListener, find_withDevice, if_pos rfl]
    rfl
  · rintro ⟨ids, dis, h⟩
    have hn : (ids.map some).head?.getD none = none := h.list.next_head.symm.trans (by decide)
    have hm := h.smart_mem
    cases ids
    case nil  => cases hm
    case cons => cases hn

end Adb.Listeners
