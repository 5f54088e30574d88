import PlatformKnife.Fastboot.Theorems.Response
import PlatformKnife.Sparse.Theorems.Sinks

namespace Fastboot

open Bytes CInt CString Fallible List
open Sparse (Env SparseFile OutputFileOps OutCounter)

namespace Phase

theorem run_append (ph : Phase) (l₁ l₂ : List Event) : ph.run (l₁ ++ l₂) = (ph.run l₁).bind (·.run l₂) :=
  foldlM_append ..

theorem run_cons (ph : Phase) (e : Event) (l : List Event) :
    ph.run (e :: l) = (ph.step e).bind (·.run l) :=
  foldlM_cons ..

theorem run_command_heard (l : List Packet) : command.run (heard l) = some (after (reply l)) := by
  induction l
  case nil => rfl
  case cons p l hi =>
    by_cases h : p.tag = info
    · rw [heard_cons_info h, reply_cons_info h, run_cons, step, if_pos h]
      exact hi
    rw [heard_cons h, reply_cons h, run_cons, step, if_neg h]
    rfl

theorem run_finished_heard (l : List Packet) : finished.run (heard l) = some finished := by
  induction l
  case nil => rfl
  case cons p l hi =>
    by_cases h : p.tag = info
    · rw [heard_cons_info h]
      exact hi
    rw [heard_cons h]
    rfl

theorem run_data_heard (n m : Nat) (l : List Packet) :
    (data n m).run (heard l) = if m = n then some finished else none := by
  have h : ∃ r l', heard l = .status r :: l' ∧ finished.run l' = some finished := by
    obtain _ | ⟨p, l⟩ := l
    · exact ⟨_, _, rfl, rfl⟩
    by_cases h : p.tag = info
    · exact ⟨_, _, heard_cons_info h l, run_finished_heard l⟩
    · exact ⟨_, _, heard_cons h l, rfl⟩
  obtain ⟨r, l', hl, hr⟩ := h
  rw [hl, run_cons, step]
  split
  case isTrue  => exact hr
  case isFalse => rfl

theorem run_data_data (n m : Nat) (ds : List (List UInt8)) :
    (data n m).run (ds.map .data) = some (data n (m + ds.flatten.length)) := by
  induction ds generalizing m
  case nil => rfl
  case cons d ds hi =>
    rw [map_cons, run_cons, step, flatten_cons, length_append, ← add_assoc]
    exact hi (m + d.length)

theorem run_finished_data (h : d ≠ []) (ds : List (List UInt8)) :
    finished.run ((d :: ds).map .data) = none := by
  simp [run_cons, step, h]

end Phase

theorem announced_of_okay (h : p.tag = okay) : announced p = none := by
  rw [announced, if_neg (h ▸ by decide +kernel)]

theorem commandData_cases {size : Nat} (ho : u.closed = false) (hs : size < 2 ^ 31) (ptr : Nat → UInt8) :
    u.accepts u.log size = (size : Int) ∧
      commandData ptr size u = (some (size : Int), { u with log := u.log ++ [.data (ofPtr ptr size)] }) ∨
    u.accepts u.log size ≠ (size : Int) ∧ ∃ e, commandData ptr size u =
      (none, { u with log := u.log ++ [.data (ofPtr ptr size)], closed := true, error := some e }) := by
  have hw : usbWrite (.data (ofPtr ptr size)) size u =
      (some (u.accepts u.log size), { u with log := u.log ++ [.data (ofPtr ptr size)] }) := by
    simp [usbWrite, ho]
  rw [commandData, if_neg (by have := toI32_nonneg hs; omega), bind_of_some hw]
  by_cases ha : u.accepts u.log size = (size : Int)
  · rw [if_neg (by omega), if_neg (by simpa using ha), ha]
    exact .inl ⟨rfl, rfl⟩
  refine .inr ⟨ha, ?_⟩
  split <;> exact ⟨_, rfl⟩

def Usb.Accepting (u : Usb) : Prop :=
  ∀ log n, u.accepts log n = n

def Writes (u u' : Usb) (ds : List (List UInt8)) : Prop :=
  (∀ d ∈ ds, d ≠ []) ∧ u'.log = u.log ++ ds.map .data ∧ u'.accepts = u.accepts

theorem Writes.trans (h₁ : Writes u u₁ ds₁) (h₂ : Writes u₁ u' ds₂) : Writes u u' (ds₁ ++ ds₂) := by
  obtain ⟨hn₁, hl₁, ha₁⟩ := h₁
  obtain ⟨hn₂, hl₂, ha₂⟩ := h₂
  refine ⟨fun d hd => ?_, by simp [hl₁, hl₂], ha₂.trans ha₁⟩
  cases mem_append.mp hd
  case inl hd => exact hn₁ d hd
  case inr hd => exact hn₂ d hd

def Lost (u u' : Usb) : Prop :=
  u'.closed = true ∧ ¬ u.Accepting ∧ ∃ ds, Writes u u' ds

-- A part of the data phase that takes over `n` bytes, to be written or kept.
def Takes (n : Nat) (u u' : Usb) : Prop :=
  u'.closed = false ∧ u'.usbBuf.length ≤ usbBufSize ∧
    ∃ ds, Writes u u' ds ∧ ds.flatten.length + u'.usbBuf.length = u.usbBuf.length + n

theorem Writes.accepting (h : Writes u u' ds) : u'.Accepting ↔ u.Accepting := by
  rw [Usb.Accepting, Usb.Accepting, h.right.right]

theorem Takes.refl (ho : u.closed = false) (hb : u.usbBuf.length ≤ usbBufSize) : Takes 0 u u :=
  ⟨ho, hb, [], ⟨by simp, by simp, rfl⟩, by simp⟩

theorem Takes.trans (h₁ : Takes n₁ u u₁) (h₂ : Takes n₂ u₁ u') : Takes (n₁ + n₂) u u' := by
  obtain ⟨_, _, ds₁, hw₁, hn₁⟩ := h₁
  obtain ⟨ho, hb, ds₂, hw₂, hn₂⟩ := h₂
  refine ⟨ho, hb, ds₁ ++ ds₂, hw₁.trans hw₂, ?_⟩
  rw [flatten_append, length_append]
  omega

theorem Lost.trans (h₁ : Takes n u u₁) (h₂ : Lost u₁ u') : Lost u u' := by
  obtain ⟨_, _, ds₁, hw₁, _⟩ := h₁
  obtain ⟨hc, ha, ds₂, hw₂⟩ := h₂
  exact ⟨hc, hw₁.accepting.not.mp ha, ds₁ ++ ds₂, hw₁.trans hw₂⟩

-- A computation that takes over `n` bytes or loses the connection.
def Goes (n : Nat) (u : Usb) (x : Option α × Usb) : Prop :=
  x.fst.isSome ∧ Takes n u x.snd ∨ x.fst.isSome = false ∧ Lost u x.snd

theorem Goes.bind {x : Link α} {f : α → Link β} (hx : Goes n₁ u (x u))
    (hf : ∀ a u₁, x u = (some a, u₁) → Goes n₂ u₁ (f a u₁)) : Goes (n₁ + n₂) u ((x >>= f) u) := by
  rcases he : x u with ⟨_ | a, u₁⟩
  case none =>
    rw [bind_of_none he]
    rw [he] at hx
    exact .inr (hx.resolve_left (by simp))
  case some =>
    rw [bind_of_some he]
    rw [he] at hx
    have ht := (hx.resolve_right (by simp)).right
    exact (hf a u₁ he).imp (fun h => ⟨h.left, ht.trans h.right⟩) fun h => ⟨h.left, .trans ht h.right⟩

theorem Goes.of_eq {x : Option α × Usb} (h : m = n) (hg : Goes m u x) : Goes n u x :=
  h ▸ hg

theorem Goes.done (a : α) (ho : u.closed = false) (hb : u.usbBuf.length ≤ usbBufSize) :
    Goes 0 u ((some a, u) : Option α × Usb) :=
  .inl ⟨rfl, .refl ho hb⟩

section

variable {u : Usb} (ho : u.closed = false)

include ho

theorem commandData_goes (hb : u.usbBuf = []) {size : Nat}
    (h₀ : 0 < size) (hs : size < 2 ^ 31) (ptr : Nat → UInt8) : Goes size u (commandData ptr size u) := by
  have hw : Writes u { u with log := u.log ++ [.data (ofPtr ptr size)] } [ofPtr ptr size] := by
    refine ⟨fun d hd => ?_, by simp, rfl⟩
    rw [mem_singleton.mp hd, ← length_pos_iff_ne_nil, ofPtr_length]
    exact h₀
  obtain ⟨_, hc⟩ | ⟨ha, e, hc⟩ := commandData_cases ho hs ptr
  · rw [hc]
    exact .inl ⟨rfl, ho, by simp [hb], _, hw, by simp [hb]⟩
  rw [hc]
  exact .inr ⟨rfl, rfl, fun h => ha (h _ _), _, hw⟩

theorem writeBuf_goes (h₀ : 0 < u.usbBuf.length) (hb : u.usbBuf.length ≤ usbBufSize) :
    Goes 0 u ((commandData (toPtr u.usbBuf) u.usbBuf.length >>= fun _ =>
      modify fun u => { u with usbBuf := [] }) u) := by
  have hs : u.usbBuf.length < 2 ^ 31 := by
    rw [usbBufSize] at hb
    omega
  have hw : ∀ c e, Writes u { u with log := u.log ++ [.data u.usbBuf], closed := c, error := e }
      [u.usbBuf] := by
    refine fun c e => ⟨fun d hd => ?_, by simp, rfl⟩
    rw [mem_singleton.mp hd, ← length_pos_iff_ne_nil]
    exact h₀
  obtain ⟨_, hc⟩ | ⟨ha, e, hc⟩ := commandData_cases ho hs (toPtr u.usbBuf)
  · rw [bind_of_some hc, ofPtr_toPtr]
    exact .inl ⟨rfl, ho, by simp, _, hw u.closed u.error, by simp⟩
  rw [bind_of_none hc, ofPtr_toPtr]
  exact .inr ⟨rfl, rfl, fun h => ha (h _ _), _, hw true (some e)⟩

theorem writeFullBuf_goes (hb : u.usbBuf.length ≤ usbBufSize) : Goes 0 u (writeFullBuf u) := by
  rw [writeFullBuf, get_bind]
  split
  case isFalse => exact .done () ho hb
  case isTrue hl =>
    have h := writeBuf_goes ho (by simp [hl, usbBufSize]) hb
    rw [hl] at h
    exact h

theorem keepRest_goes (hb : u.usbBuf = [] ∨ len = 0)
    (hu : u.usbBuf.length ≤ usbBufSize) (hl : len ≤ usbBufSize) (ptr : Nat → UInt8) :
    Goes len u (keepRest ptr len u) := by
  rw [keepRest]
  split
  case isFalse h =>
    rw [Nat.eq_zero_of_not_pos h]
    exact .done () ho hu
  case isTrue h =>
    have hb := hb.resolve_right (by omega)
    rw [if_neg (by omega)]
    exact .inl ⟨rfl, ho, by simpa using hl, [], ⟨by simp, by simp, rfl⟩, by simp [hb]⟩

theorem writeWhole_goes (hb : u.usbBuf = []) (hn : len > usbBufSize)
    (hl : len < 2 ^ 31) (ptr : Nat → UInt8) :
    Goes (roundDown len usbBufSize) u (writeWhole ptr len u) ∧
      ∀ m u₁, writeWhole ptr len u = (some m, u₁) →
        m = roundDown len usbBufSize ∧ u₁.usbBuf = [] ∧ u₁.closed = false := by
  have hm : len % usbBufSize < usbBufSize := Nat.mod_lt _ (by decide)
  have h₀ : 0 < roundDown len usbBufSize := by
    rw [roundDown]
    omega
  have hs : roundDown len usbBufSize < 2 ^ 31 := by
    rw [roundDown]
    omega
  have hw : writeWhole ptr len u = (commandData ptr (roundDown len usbBufSize) >>= fun _ =>
      pure (roundDown len usbBufSize)) u := by
    rw [writeWhole, get_bind, if_pos hn, if_neg (by simp [hb])]
  have hg := commandData_goes ho hb h₀ hs ptr
  obtain ⟨_, hc⟩ | ⟨_, e, hc⟩ := commandData_cases ho hs ptr
  · rw [hw, bind_of_some hc]
    rw [hc] at hg
    refine ⟨hg, fun m u₁ h => ?_⟩
    obtain ⟨hm, hu⟩ := pure_eq_some_iff.mp h
    exact ⟨hm.symm, hu ▸ hb, hu ▸ ho⟩
  rw [hw, bind_of_none hc]
  rw [hc] at hg
  exact ⟨hg, by simp⟩

theorem writeRest_goes (hb : u.usbBuf = [] ∨ len = 0)
    (hu : u.usbBuf.length ≤ usbBufSize) (hl : len < 2 ^ 31) (ptr : Nat → UInt8)
    (ptr' : Nat → Nat → UInt8) :
    Goes len u ((writeWhole ptr len >>= fun m => keepRest (ptr' m) (len - m)) u) := by
  by_cases hn : len > usbBufSize
  · obtain ⟨hw, hr⟩ := writeWhole_goes ho (hb.resolve_right (by omega)) hn hl ptr
    have hm : len % usbBufSize < usbBufSize := Nat.mod_lt _ (by decide)
    have he : roundDown len usbBufSize + len % usbBufSize = len := by
      rw [roundDown]
      omega
    refine .of_eq he (hw.bind fun m u₁ hx => ?_)
    obtain ⟨hm, hb₁, ho₁⟩ := hr m u₁ hx
    rw [hm, show len - roundDown len usbBufSize = len % usbBufSize by omega]
    exact keepRest_goes ho₁ (.inl hb₁) (by simp [hb₁]) (by omega) _
  have hw : writeWhole ptr len u = (some 0, u) := by
    rw [writeWhole, get_bind, if_neg hn]
    rfl
  rw [bind_of_some hw]
  exact keepRest_goes ho hb hu (by omega) _

end

theorem writeFullBuf_empty (h : writeFullBuf u = (some r, u')) (hl : u.usbBuf.length = usbBufSize) :
    u'.usbBuf = [] := by
  rw [writeFullBuf, get_bind, if_pos hl] at h
  obtain ⟨_, u₁, _, h⟩ := bind_eq_some_iff.mp h
  rw [modify_apply] at h
  rw [← (Prod.mk.inj h).right]

theorem Goes.takes (h : Goes k u x) (hx : x = (some a, u')) : Takes k u u' := by
  rw [hx] at h
  exact (h.resolve_right (by simp)).right

theorem fillBuf_of_nil (h : u.usbBuf = []) : fillBuf ptr n u = (some 0, u) := by
  rw [fillBuf, get_bind, if_pos h]
  rfl

theorem writeFullBuf_of_nil (h : u.usbBuf = []) : writeFullBuf u = (some (), u) := by
  rw [writeFullBuf, get_bind, if_neg (by simp [h, usbBufSize])]
  rfl

theorem fbDownloadDataSparseWrite_goes (ho : u.closed = false) (hu : u.usbBuf.length ≤ usbBufSize)
    (h₀ : 0 ≤ n) (hn : n < 2 ^ 31) (ptr : Nat → UInt8) :
    Goes n.toNat u (fbDownloadDataSparseWrite ptr n u) := by
  rw [fbDownloadDataSparseWrite]
  by_cases hb : u.usbBuf = []
  · rw [bind_of_some (fillBuf_of_nil hb), bind_of_some (writeFullBuf_of_nil hb)]
    exact writeRest_goes ho (.inl hb) hu (by omega) _ _
  let k := min (usbBufSize - u.usbBuf.length) n.toNat
  have hk : k ≤ n.toNat := min_le_right _ _
  have hf : fillBuf ptr n u = (some k, { u with usbBuf := u.usbBuf ++ ofPtr ptr k }) := by
    rw [fillBuf, get_bind, if_neg hb, if_neg (by omega)]
    rfl
  have hl : (u.usbBuf ++ ofPtr ptr k).length = u.usbBuf.length + k := by simp
  have hg : Goes k u (fillBuf ptr n u) := by
    rw [hf]
    refine .inl ⟨rfl, ho, by simp only [hl]; omega, [], ⟨by simp, by simp, rfl⟩, by simp⟩
  have hsum : k + (0 + (n.toNat - k)) = n.toNat := by omega
  refine .of_eq hsum (hg.bind fun k' u₁ h₁ => ?_)
  obtain ⟨hk', hu₁⟩ := Prod.mk.inj (hf.symm.trans h₁)
  have ht₁ := hg.takes h₁
  rw [← Option.some.inj hk']
  refine (writeFullBuf_goes ht₁.left ht₁.right.left).bind fun _ u₂ h₂ => ?_
  have ht₂ := (writeFullBuf_goes ht₁.left ht₁.right.left).takes h₂
  refine writeRest_goes ht₂.left ?_ ht₂.right.left (by omega) _ _
  -- Either all of the data went into the buffer, or the buffer is full.
  by_cases hr : n.toNat - k = 0
  · exact .inr hr
  refine .inl (writeFullBuf_empty h₂ ?_)
  rw [← hu₁, hl]
  omega

-- Nothing is written any more when the connection is closed.
def Silent (u u' : Usb) : Prop :=
  u.closed = true → u'.closed = true ∧ u'.log = u.log ∧ u'.accepts = u.accepts

theorem Silent.refl (u : Usb) : Silent u u :=
  fun h => ⟨h, rfl, rfl⟩

theorem Silent.trans (h₁ : Silent u u₁) (h₂ : Silent u₁ u') : Silent u u' := by
  intro h
  obtain ⟨hc₁, hl₁, ha₁⟩ := h₁ h
  obtain ⟨hc₂, hl₂, ha₂⟩ := h₂ hc₁
  exact ⟨hc₂, hl₂.trans hl₁, ha₂.trans ha₁⟩

theorem Silent.bind {x : Link α} {f : α → Link β} (hx : Silent u (x u).snd)
    (hf : ∀ a u₁, Silent u₁ (f a u₁).snd) : Silent u ((x >>= f) u).snd :=
  bind_snd Silent.trans hx fun a u₁ _ => hf a u₁

theorem commandData_silent (ptr : Nat → UInt8) (size : Nat) (u : Usb) :
    Silent u (commandData ptr size u).snd := by
  intro hc
  have hw : usbWrite (.data (ofPtr ptr size)) size u = (some (-1), u) := by
    simp [usbWrite, hc]
  rw [commandData]
  split
  case isTrue => exact ⟨rfl, rfl, rfl⟩
  rw [bind_of_some hw]
  exact ⟨rfl, rfl, rfl⟩

theorem fbDownloadDataSparseWrite_silent (ptr : Nat → UInt8) (n : Int) (u : Usb) :
    Silent u (fbDownloadDataSparseWrite ptr n u).snd := by
  refine .bind ?_ fun _ u₁ => .bind ?_ fun _ u₂ => .bind ?_ fun _ u₃ => ?_
  · rw [fillBuf, get_bind]
    split
    case isTrue => exact .refl u
    case isFalse => split <;> exact fun h => ⟨h, rfl, rfl⟩
  · rw [writeFullBuf, get_bind]
    split
    case isTrue  => exact .bind (commandData_silent _ _ _) fun _ _ h => ⟨h, rfl, rfl⟩
    case isFalse => exact .refl u₁
  · rw [writeWhole, get_bind]
    split
    case isFalse => exact .refl u₂
    split
    case isTrue  => exact fun h => ⟨h, rfl, rfl⟩
    case isFalse => exact .bind (commandData_silent _ _ _) fun _ u => .refl u
  · rw [keepRest]
    split
    case isFalse => exact .refl u₃
    case isTrue => split <;> exact fun h => ⟨h, rfl, rfl⟩

theorem Lost.silent (h : Lost u₀ u) (hs : Silent u u') : Lost u₀ u' := by
  obtain ⟨hc, ha, ds, hn, hl, hw⟩ := h
  obtain ⟨hc', hl', ha'⟩ := hs hc
  exact ⟨hc', ha, ds, hn, hl'.trans hl, ha'.trans hw⟩

-- The bytes are counted from a state in which the buffer is empty.
def Counts (u₀ u : Usb) (c : OutCounter) : Prop :=
  ∃ n : Nat, Takes n u₀ u ∧ c.count = n

theorem parallel_counter (u₀ : Usb) : Sparse.Parallel (Lost u₀) (Counts u₀) where
  stays h := h.silent (fbDownloadDataSparseWrite_silent _ _ _)
  write {u c} ptr n h₀ hn := by
    rintro ⟨m, ht, hc⟩
    obtain ⟨hs, hg⟩ | ⟨_, hg⟩ :=
      fbDownloadDataSparseWrite_goes ht.left ht.right.left h₀ hn ptr
    · refine .inr ⟨⟨m + n.toNat, ht.trans hg, ?_⟩, hs.symm⟩
      show c.count + n = _
      rw [hc]
      omega
    · exact .inl (.trans ht hg)

end Fastboot
