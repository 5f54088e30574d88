import PlatformKnife.Adb.Listeners

namespace Adb.Listeners

open CString Ring List Function Adisconnect

variable {smart l : ListenerId} {name : List UInt8} {s s' : State} {t t' : TransportId}
variable {ts : List TransportId} {ids ids₁ ids₂ : List ListenerId}
variable {dis : TransportId → List ListenerId} {L : Links Adisconnect}

-- The lists of disconnects of these transports, with the listeners that are on them.
structure Rings (L : Links Adisconnect) (ts : List TransportId)
    (dis : TransportId → List ListenerId) : Prop where
  ring  : ∀ t ∈ ts, IsRing L (.disconnects t) ((dis t).map .disconnect)
  apart : ∀ t ∈ ts, ∀ t' ∈ ts, t' ≠ t → ∀ l ∈ dis t, l ∉ dis t'

namespace Rings

section

variable (h : Rings L ts dis) (ht : t ∈ ts)

include h ht

theorem nodup : (dis t).Nodup :=
  (nodup_cons.mp (h.ring t ht).nodup).2.of_map _

theorem notMem (ht' : t' ∈ ts) (hne : t' ≠ t) (hy : y ∈ disconnects t' :: (dis t').map .disconnect) :
    y ∉ disconnects t :: (dis t).map .disconnect := by
  rcases mem_cons.mp hy with rfl | hy
  case inl => simp [hne]
  obtain ⟨l, hl, rfl⟩ := mem_map.mp hy
  simp only [mem_cons, reduceCtorEq, mem_map, disconnect.injEq, exists_eq_right, false_or]
  exact fun hm => h.apart t ht t' ht' hne l hm hl

theorem unlink (hl : l ∈ dis t) : Rings (L.unlink (.disconnect l)) ts fun t => (dis t).erase l where
  ring t' ht' := by
    obtain ⟨front, back, he⟩ := append_of_mem hl
    have hr := h.ring t ht
    rw [he, map_append, map_cons] at hr
    by_cases hne : t' = t
    case pos =>
      subst hne
      have hd := h.nodup ht
      rw [he] at hd
      have hf : l ∉ front := fun hm => (nodup_append.mp hd).2.2 l hm l mem_cons_self rfl
      rw [he, erase_append_right _ hf, erase_cons_head, map_append]
      exact hr.unlink
    rw [erase_of_not_mem (h.apart t ht t' ht' hne l hl)]
    have hf {y} (hy : y ∈ disconnects t' :: (dis t').map .disconnect) :=
      hr.unlink_frame (by simpa [he] using h.notMem ht ht' hne hy)
    exact (h.ring t' ht').congr (fun y hy => (hf hy).1) fun y hy => (hf hy).2
  apart t ht t' ht' hne x hx hx' :=
    h.apart t ht t' ht' hne x (mem_of_mem_erase hx) (mem_of_mem_erase hx')

theorem insert (hl : ∀ t ∈ ts, l ∉ dis t) :
    Rings (L.insert (.disconnects t) (.disconnect l)) ts
      fun t' => if t' = t then dis t' ++ [l] else dis t' where
  ring t' ht' := by
    have hr := h.ring t ht
    split
    case isTrue he =>
      subst he
      rw [map_append]
      exact hr.insert (by simpa using hl t' ht)
    case isFalse hne =>
      have hx {y} (hy : y ∈ disconnects t' :: (dis t').map .disconnect) : y ≠ .disconnect l := by
        rintro rfl
        exact hl t' ht' (by simpa using hy)
      have hf {y} (hy : y ∈ disconnects t' :: (dis t').map .disconnect) :=
        hr.insert_frame (hx hy) (h.notMem ht ht' hne hy)
      exact (h.ring t' ht').congr (fun y hy => (hf hy).1) fun y hy => (hf hy).2
  apart t₁ ht₁ t₂ ht₂ hne x hx hx' := by
    have hd := h.apart t₁ ht₁ t₂ ht₂ hne x
    have hl₁ := hl t₁ ht₁
    have hl₂ := hl t₂ ht₂
    split at hx <;> split at hx'
    case isTrue.isTrue h₁ h₂ => exact hne (h₂.trans h₁.symm)
    case isTrue.isFalse =>
      rcases mem_append.mp hx with hx | hx
      · exact hd hx hx'
      · exact hl₂ (mem_singleton.mp hx ▸ hx')
    case isFalse.isTrue =>
      rcases mem_append.mp hx' with hx' | hx'
      · exact hd hx hx'
      · exact hl₁ (mem_singleton.mp hx' ▸ hx)
    case isFalse.isFalse => exact hd hx hx'

end

theorem empty (h : Rings L ts dis) (ht : t ∉ ts) :
    Rings (L.empty (.disconnects t)) (ts ++ [t]) (update dis t []) where
  ring t' ht' := by
    by_cases hne : t' = t
    case pos =>
      subst hne
      rw [update_self]
      exact isRing_empty L _
    rw [update_of_ne hne]
    have ht' : t' ∈ ts := by simpa [hne] using ht'
    have hx {y} (hy : y ∈ disconnects t' :: (dis t').map .disconnect) : y ≠ .disconnects t := by
      rintro rfl
      simp [Ne.symm hne] at hy
    exact (h.ring t' ht').congr (fun y hy => update_of_ne (hx hy) ..) fun y hy => update_of_ne (hx hy) ..
  apart t₁ ht₁ t₂ ht₂ hne x hx hx' := by
    have h₁ : t₁ ≠ t := by
      rintro rfl
      rw [update_self] at hx
      cases hx
    have h₂ : t₂ ≠ t := by
      rintro rfl
      rw [update_self] at hx'
      cases hx'
    rw [update_of_ne h₁] at hx
    rw [update_of_ne h₂] at hx'
    exact h.apart t₁ (by simpa [h₁] using ht₁) t₂ (by simpa [h₂] using ht₂) hne x hx hx'

theorem sublist (h : Rings L ts dis) (hs : ts' ⊆ ts) : Rings L ts' dis where
  ring t ht := h.ring t (hs ht)
  apart t₁ ht₁ t₂ ht₂ hne := h.apart t₁ (hs ht₁) t₂ (hs ht₂) hne

end Rings

-- The listeners in their order, and those on the lists of the transports: what requests and disconnects
-- keep.
structure Table (smart : ListenerId) (name : List UInt8) (ts : List TransportId) (s : State)
    (ids : List ListenerId) (dis : TransportId → List ListenerId) : Prop where
  list : IsRing s.list none (ids.map some)
  rings : Rings s.disconnects ts dis
  names : (ids.map fun l => (s.listener l).localName).Nodup
  live_iff : ∀ l, s.live l ↔ l ∈ ids
  mem_dis : ∀ t ∈ ts, ∀ l, l ∈ dis t ↔ l ∈ ids ∧ (s.listener l).transport = some t
  smart_mem : smart ∈ ids
  smart_eq : s.listener smart = ⟨name, smartsocket, none⟩
  others : ∀ l ∈ ids, l ≠ smart →
    (s.listener l).isSpecial = false ∧ ∃ t ∈ ts, (s.listener l).transport = some t

namespace Table

theorem nodup (h : Table smart name ts s ids dis) : ids.Nodup :=
  (nodup_cons.mp h.list.nodup).2.of_map _

theorem special_iff (h : Table smart name ts s ids dis) (hl : l ∈ ids) :
    (s.listener l).isSpecial ↔ l = smart := by
  constructor
  case mp =>
    intro hs
    by_contra hne
    rw [(h.others l hl hne).1] at hs
    cases hs
  case mpr =>
    rintro rfl
    rw [h.smart_eq]
    rfl

theorem freeListener_eq (h : (s.listener l).transport = some t) :
    s.freeListener l = { s with
      list := s.list.unlink (some l)
      live := update s.live l false
      disconnects := s.disconnects.unlink (.disconnect l) } := by
  rw [State.freeListener, h]
  rfl

theorem freeListener (h : Table smart name ts s (ids₁ ++ l :: ids₂) dis) (hl : l ≠ smart) :
    Table smart name ts (s.freeListener l) (ids₁ ++ ids₂) fun t => (dis t).erase l := by
  have hm : l ∈ ids₁ ++ l :: ids₂ := mem_append_right _ mem_cons_self
  obtain ⟨-, t, ht, hlt⟩ := h.others l hm hl
  have hlist := h.list
  have hnames := h.names
  have hd := nodup_cons.mp (nodup_middle.mp h.nodup)
  have hsub : (ids₁ ++ ids₂).Sublist (ids₁ ++ l :: ids₂) :=
    (List.Sublist.refl ids₁).append (sublist_cons_self l ids₂)
  rw [map_append, map_cons] at hlist
  rw [freeListener_eq hlt]
  refine ⟨?_, h.rings.unlink ht ((h.mem_dis t ht l).mpr ⟨hm, hlt⟩), ?_, ?_, ?_, ?_, h.smart_eq, ?_⟩
  · rw [map_append]
    exact hlist.unlink
  · exact hnames.sublist (hsub.map _)
  · intro x
    by_cases hx : x = l
    case pos =>
      subst hx
      simp only [update_self, Bool.false_eq_true, false_iff]
      exact hd.1
    dsimp only
    rw [update_of_ne hx, h.live_iff]
    simp [hx]
  · intro t' ht' x
    rw [(h.rings.nodup ht').mem_erase_iff, h.mem_dis t' ht']
    by_cases hx : x = l
    case neg => simp [hx]
    subst hx
    exact iff_of_false (fun hc => hc.1 rfl) fun hc => hd.1 hc.1
  · have := h.smart_mem
    simpa [Ne.symm hl] using this
  · exact fun x hx => h.others x (hsub.subset hx)

theorem addListener (h : Table smart name ts s ids dis) (hl : s.live l = false) (ht : t ∈ ts)
    (hn : ∀ x ∈ ids, (s.listener x).localName ≠ new.localName) (ht' : new.transport = some t)
    (hs : new.isSpecial = false) :
    Table smart name ts (s.addListener l new) (ids ++ [l])
      fun t' => if t' = t then dis t' ++ [l] else dis t' := by
  have hm : l ∉ ids := fun hm => by simp [(h.live_iff l).mpr hm] at hl
  have hne {x} (hx : x ∈ ids) : x ≠ l := fun he => hm (he ▸ hx)
  have hdis : ∀ t ∈ ts, l ∉ dis t := fun t ht hx => hm ((h.mem_dis t ht l).mp hx).1
  have he : s.addListener l new = { s with
      list := s.list.insert none (some l)
      listener := update s.listener l new
      live := update s.live l true
      disconnects := s.disconnects.insert (.disconnects t) (.disconnect l) } := by
    rw [State.addListener, ht']
    rfl
  have hkeep {x} (hx : x ∈ ids) : update s.listener l new x = s.listener x :=
    update_of_ne (hne hx) ..
  rw [he]
  refine ⟨?_, h.rings.insert ht hdis, ?_, ?_, ?_, ?_, ?_, ?_⟩
  · rw [map_append]
    exact h.list.insert (by simpa using hm)
  · have hmap : (ids.map fun x => (update s.listener l new x).localName) =
        ids.map fun x => (s.listener x).localName :=
      map_congr_left fun x hx => by rw [hkeep hx]
    dsimp only
    rw [map_append, hmap, map_singleton, update_self]
    refine nodup_append.mpr ⟨h.names, nodup_singleton _, ?_⟩
    intro a ha b hb
    obtain ⟨x, hx, rfl⟩ := mem_map.mp ha
    rw [mem_singleton.mp hb]
    exact hn x hx
  · intro x
    by_cases hx : x = l
    case pos =>
      subst hx
      simp
    dsimp only
    rw [update_of_ne hx, h.live_iff]
    simp [hx]
  · intro t' ht₁ x
    dsimp only
    by_cases hx : x = l
    case pos =>
      subst hx
      rw [update_self, ht']
      split
      case isTrue he  => simp [he]
      case isFalse he =>
        exact iff_of_false (hdis t' ht₁) fun hc => he (Option.some.inj hc.2).symm
    rw [update_of_ne hx]
    split
    case isTrue  => simp [hx, h.mem_dis t' ht₁]
    case isFalse => simp [hx, h.mem_dis t' ht₁]
  · exact mem_append_left _ h.smart_mem
  · exact (hkeep h.smart_mem).trans h.smart_eq
  · intro x hx hxs
    rcases mem_append.mp hx with hx | hx
    case inl =>
      dsimp only
      rw [hkeep hx]
      exact h.others x hx hxs
    rw [mem_singleton.mp hx]
    dsimp only
    rw [update_self]
    exact ⟨hs, t, ht, ht'⟩

section

variable {new : Alistener} {dis' : TransportId → List ListenerId} {L' : Links Adisconnect}

theorem setListener (h : Table smart name ts s ids dis) (hl : l ∈ ids) (hne : l ≠ smart)
    (hn : new.localName = (s.listener l).localName) (hs : new.isSpecial = false) (ht : t ∈ ts)
    (hnt : new.transport = some t) (hr : Rings L' ts dis')
    (hm : ∀ t' ∈ ts, ∀ x, x ∈ dis' t' ↔ x ≠ l ∧ x ∈ dis t' ∨ x = l ∧ t' = t) :
    Table smart name ts { s with
      listener := update s.listener l new, disconnects := L' } ids dis' := by
  have hname (x : ListenerId) : (update s.listener l new x).localName = (s.listener x).localName := by
    by_cases hx : x = l
    case pos => rw [hx, update_self, hn]
    case neg => rw [update_of_ne hx]
  refine ⟨h.list, hr, ?_, h.live_iff, ?_, h.smart_mem, ?_, ?_⟩
  · dsimp only
    simp only [hname]
    exact h.names
  · intro t' ht' x
    rw [hm t' ht' x, h.mem_dis t' ht']
    by_cases hx : x = l
    case neg => simp [hx]
    subst hx
    simp [hl, hnt, eq_comm]
  · exact (update_of_ne (Ne.symm hne) ..).trans h.smart_eq
  · intro x hx hxs
    dsimp only
    by_cases hxl : x = l
    case pos =>
      rw [hxl, update_self]
      exact ⟨hs, t, ht, hnt⟩
    rw [update_of_ne hxl]
    exact h.others x hx hxs

end

theorem mem_dis_iff (h : Table smart name ts s ids dis) (hl : l ∈ ids)
    (hlt : (s.listener l).transport = some t) (ht' : t' ∈ ts) : l ∈ dis t' ↔ t' = t := by
  rw [h.mem_dis t' ht', hlt, Option.some.injEq, eq_comm]
  exact and_iff_right hl

theorem rebind (h : Table smart name ts s ids dis) (hl : l ∈ ids) (hne : l ≠ smart) (ht : t ∈ ts)
    (hc : connectTo.head? ≠ some 42) :
    ∃ s' dis', s.rebind l connectTo (some t) = some s' ∧ Table smart name ts s' ids dis' ∧
      s'.transports = s.transports := by
  obtain ⟨-, t₀, ht₀, hlt⟩ := h.others l hl hne
  have hs (tr : Option TransportId) :
      (⟨(s.listener l).localName, connectTo, tr⟩ : Alistener).isSpecial = false :=
    decide_eq_false hc
  have hmem : l ∈ dis t₀ := (h.mem_dis t₀ ht₀ l).mpr ⟨hl, hlt⟩
  unfold State.rebind
  dsimp only
  by_cases he : t₀ = t
  case pos =>
    subst he
    rw [if_pos hlt]
    refine ⟨_, dis, rfl, h.setListener hl hne rfl (hs _) ht hlt h.rings ?_, rfl⟩
    intro t' ht' x
    have hx := h.mem_dis_iff hl hlt ht'
    by_cases hxl : x = l
    case pos => simp [hxl, hx]
    case neg => simp [hxl]
  rw [if_neg fun hc => he (Option.some.inj (hlt.symm.trans hc)), hlt]
  have hnot : ∀ t ∈ ts, l ∉ (dis t).erase l :=
    fun t ht => (h.rings.nodup ht).not_mem_erase
  refine ⟨_, _, rfl, h.setListener hl hne rfl (hs _) ht rfl
    ((h.rings.unlink ht₀ hmem).insert ht hnot) ?_, rfl⟩
  intro t' ht' x
  split
  case isTrue hte  =>
    subst hte
    simp only [mem_append, mem_singleton, (h.rings.nodup ht').mem_erase_iff, and_true]
  case isFalse hte =>
    simp only [(h.rings.nodup ht').mem_erase_iff, hte, and_false, or_false]

end Table

end Adb.Listeners
