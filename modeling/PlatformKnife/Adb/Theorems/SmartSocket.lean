import PlatformKnife.Adb.SmartSocket

namespace Adb

open CString Slice List

namespace Apacket

@[simp]
theorem bytes_length (p : Apacket) : p.bytes.length = p.len := by
  rw [bytes, length_take, p.data_length, min_eq_left p.len_le]

theorem append_bytes (p q : Apacket) (h : p.len + q.len ≤ maxPayload) :
    (p.append q h).bytes = p.bytes ++ q.bytes := by
  have hl : p.len + q.bytes.length ≤ p.data.length := by
    rw [bytes_length, p.data_length]
    exact h
  have ha := slice_overwrite_append (Nat.zero_le p.len) hl
  rw [bytes_length] at ha
  exact ha

theorem len_eq {p q : Apacket} (h : p.bytes = q.bytes) : p.len = q.len := by
  rw [← p.bytes_length, h, q.bytes_length]

theorem take_data {p : Apacket} (h : n ≤ p.len) : p.data.take n = p.bytes.take n := by
  rw [bytes, take_take, min_eq_left h]

-- The string up to the terminator is one of the packet, whatever the buffer has behind it.
theorem text_store {p : Apacket} (h : n + 4 ≤ p.len) (hl : n + 4 < maxPayload) :
    ofBuffer ((p.store (n + 4) 0).data.drop 4) = ofBuffer ((p.bytes.take (n + 4)).drop 4) := by
  have hd : n + 4 < p.data.length := by
    rw [p.data_length]
    exact hl
  have hs : (p.store (n + 4) 0).data = p.data.take (n + 4) ++ 0 :: p.data.drop (n + 5) :=
    overwrite_singleton hd 0
  rw [hs, drop_append_of_le_length (by simp; omega), ofBuffer_terminated, take_data h]

end Apacket

namespace SmartSocket

def Socket.held (s : Socket) : List UInt8 :=
  (s.pktFirst.map Apacket.bytes).getD []

-- A socket, apart from what its buffer has behind the bytes.
def Socket.view (s : Socket) : List UInt8 × Option Transport :=
  (s.held, s.transport)

def Reaction.view (r : Reaction) : Int × List Action × Option (List UInt8 × Option Transport) :=
  (r.ret, r.actions, r.socket.map Socket.view)

def concat (packets : List Apacket) : List UInt8 :=
  (packets.map Apacket.bytes).flatten

-- The lengths that are taken.
def Sized (bytes : List UInt8) : Prop :=
  1 ≤ unhex (bytes.take 4) ∧ unhex (bytes.take 4) ≤ 1024

-- There are no four digits yet, or too few bytes behind them.
def Incomplete (bytes : List UInt8) : Prop :=
  bytes.length < 4 ∨ Sized bytes ∧ bytes.length < unhex (bytes.take 4) + 4

-- Four hexadecimal digits and as many bytes as they say.
structure IsRequest (bytes : List UInt8) : Prop where
  digits : ∀ c ∈ bytes.take 4, (hexDigit c).isSome
  length : bytes.length = 4 + unhex (bytes.take 4)

theorem Incomplete.of_append (h : Incomplete (a ++ b)) : Incomplete a := by
  by_cases ha : a.length < 4
  case pos => exact .inl ha
  have ht : (a ++ b).take 4 = a.take 4 := take_append_of_le_length (not_lt.mp ha)
  rw [Incomplete, Sized, ht, length_append] at h
  rw [Incomplete, Sized]
  omega

theorem Incomplete.length_le (h : Incomplete bytes) : bytes.length ≤ 1027 := by
  rw [Incomplete, Sized] at h
  omega

theorem IsRequest.incomplete
    (h : IsRequest (a ++ b)) (hn : unhex ((a ++ b).take 4) ≤ 1024) (hb : b ≠ []) : Incomplete a := by
  have hl := h.length
  have hp := length_pos_iff.mpr hb
  rw [length_append] at hl
  by_cases ha : a.length < 4
  case pos => exact .inl ha
  have ht : (a ++ b).take 4 = a.take 4 := take_append_of_le_length (not_lt.mp ha)
  rw [ht] at hl hn
  rw [Incomplete, Sized]
  omega

section

variable (env : Env) {s s₁ s₂ : Socket} {p p₁ p₂ : Apacket}

theorem examine_of_incomplete (h : Incomplete p.bytes) : examine env s p = wait s := by
  rw [Incomplete, Sized, Apacket.bytes_length] at h
  rw [examine]
  split
  case isTrue => rfl
  case isFalse h₄ =>
    rw [Apacket.take_data (not_lt.mp h₄)]
    dsimp only
    rw [if_neg (by omega), if_pos (by omega)]

theorem examine_of_not_sized (h : ¬Sized p.bytes) (hl : 4 ≤ p.len) : examine env s p = failed [] := by
  rw [Sized] at h
  rw [examine, if_neg (by omega), Apacket.take_data hl]
  dsimp only
  rw [if_pos (by omega)]

section

variable (ht : s₁.transport = s₂.transport)
variable {packets : List Apacket}

include ht

theorem requestHost_view (p₁ p₂ : Apacket) (req : HostService) :
    (requestHost env s₁ p₁ req).view = (requestHost env s₂ p₂ req).view := by
  rw [requestHost, requestHost, ht]
  obtain _ | reply := env.handleHostRequest req s₂.transport
  · rfl
  dsimp only
  split_ifs <;> rfl

theorem dispatch_view (h : ofBuffer (p₁.data.drop 4) = ofBuffer (p₂.data.drop 4)) :
    (dispatch env s₁ p₁).view = (dispatch env s₂ p₂).view := by
  rw [dispatch, dispatch, h]
  rcases hostService (ofBuffer (p₂.data.drop 4)) with _ | ⟨req, _ | serialEnd⟩
  · dsimp only
    rw [requestRemote, requestRemote, ht]
  · exact requestHost_view env ht _ _ req
  · exact requestHost_view env ht _ _ req

theorem examine_view (hs : s₁.held = s₂.held) (h : p₁.bytes = p₂.bytes) :
    (examine env s₁ p₁).view = (examine env s₂ p₂).view := by
  have hw : (wait s₁).view = (wait s₂).view := by
    simp only [Reaction.view, wait, Option.map_some, Socket.view, hs, ht]
  rw [examine, examine, Apacket.len_eq h]
  split
  case isTrue => exact hw
  case isFalse h₄ =>
    have hl := not_lt.mp h₄
    rw [Apacket.take_data hl, Apacket.take_data (Apacket.len_eq h ▸ hl), h]
    dsimp only
    split_ifs with hn hi
    · rfl
    · exact hw
    · apply dispatch_view env ht
      have hm : unhex (p₂.bytes.take 4) + 4 < maxPayload := by
        rw [maxPayload]
        omega
      have hi := not_lt.mp hi
      rw [Apacket.text_store hi hm, Apacket.text_store (Apacket.len_eq h ▸ hi) hm, h]

end

theorem smartSocketEnqueue_eq_examine (h : (s.held ++ p.bytes).length ≤ maxPayload) :
    ∃ q : Apacket, q.bytes = s.held ++ p.bytes ∧
      smartSocketEnqueue env s p = examine env { s with pktFirst := some q } q := by
  rw [smartSocketEnqueue]
  rw [Socket.held] at h ⊢
  rcases hf : s.pktFirst with _ | first
  · exact ⟨p, rfl, rfl⟩
  have hl : first.len + p.len ≤ maxPayload := by simpa [hf] using h
  exact ⟨first.append p hl, first.append_bytes p hl, dif_pos hl⟩

theorem smartSocketEnqueue_of_overflow (h : ¬(s.held ++ p.bytes).length ≤ maxPayload) :
    smartSocketEnqueue env s p = failed [] := by
  rw [smartSocketEnqueue]
  rw [Socket.held] at h
  cases hf : s.pktFirst
  case none =>
    rw [hf] at h
    exact absurd p.len_le (by simpa using h)
  case some first => exact dif_neg (by simpa [hf] using h)

theorem smartSocketEnqueue_view
    (ht : s₁.transport = s₂.transport) (h : s₁.held ++ p₁.bytes = s₂.held ++ p₂.bytes) :
    (smartSocketEnqueue env s₁ p₁).view = (smartSocketEnqueue env s₂ p₂).view := by
  by_cases hl : (s₂.held ++ p₂.bytes).length ≤ maxPayload
  case neg =>
    rw [smartSocketEnqueue_of_overflow env hl, smartSocketEnqueue_of_overflow env (h ▸ hl)]
  obtain ⟨q₁, hq₁, he₁⟩ := smartSocketEnqueue_eq_examine env (h ▸ hl)
  obtain ⟨q₂, hq₂, he₂⟩ := smartSocketEnqueue_eq_examine env hl
  have hq : q₁.bytes = q₂.bytes := by rw [hq₁, hq₂, h]
  rw [he₁, he₂]
  exact examine_view env ht hq hq

theorem smartSocketEnqueue_of_incomplete (h : Incomplete (s.held ++ p.bytes)) :
    ∃ s', smartSocketEnqueue env s p = wait s' ∧ s'.held = s.held ++ p.bytes ∧
      s'.transport = s.transport := by
  have hl : (s.held ++ p.bytes).length ≤ maxPayload := h.length_le.trans (by decide)
  obtain ⟨q, hq, he⟩ := smartSocketEnqueue_eq_examine env hl
  exact ⟨_, he.trans (examine_of_incomplete env (hq ▸ h)), hq, rfl⟩

theorem smartSocketEnqueue_of_not_sized
    (h : ¬Sized (s.held ++ p.bytes)) (h₄ : 4 ≤ (s.held ++ p.bytes).length) :
    smartSocketEnqueue env s p = failed [] := by
  by_cases hl : (s.held ++ p.bytes).length ≤ maxPayload
  case neg => exact smartSocketEnqueue_of_overflow env hl
  obtain ⟨q, hq, he⟩ := smartSocketEnqueue_eq_examine env hl
  rw [← hq] at h h₄
  rw [he, examine_of_not_sized env h (q.bytes_length ▸ h₄)]

-- Nothing happens as long as the request is incomplete, by induction on the packets: what is incomplete
-- with all of them is so with the first one.
theorem deliver_of_incomplete (packets rest : List Apacket) (h : Incomplete (s.held ++ concat packets)) :
    ∃ s', s'.held = s.held ++ concat packets ∧ s'.transport = s.transport ∧
      deliver env (some s) (packets ++ rest) =
        (replicate packets.length (0, []) ++ (deliver env (some s') rest).1,
          (deliver env (some s') rest).2) := by
  induction packets generalizing s
  case nil => exact ⟨s, (append_nil _).symm, rfl, rfl⟩
  case cons p packets hi =>
    have hc : s.held ++ concat (p :: packets) = s.held ++ p.bytes ++ concat packets := by
      simp [concat]
    rw [hc] at h ⊢
    obtain ⟨s₁, he, hh, ht⟩ := smartSocketEnqueue_of_incomplete env h.of_append
    obtain ⟨s₂, hh₂, ht₂, hd⟩ := hi (hh ▸ h)
    refine ⟨s₂, hh ▸ hh₂, ht₂.trans ht, ?_⟩
    rw [cons_append, deliver, he]
    simp only [wait, hd, length_cons, replicate_succ, cons_append]

theorem deliver_none (packets : List Apacket) : deliver env none packets = ([], none) := by
  cases packets <;> rfl

theorem deliver_singleton (s : Socket) (p : Apacket) :
    deliver env (some s) [p] =
      ([((smartSocketEnqueue env s p).ret, (smartSocketEnqueue env s p).actions)],
        (smartSocketEnqueue env s p).socket) := by
  rw [deliver]
  cases (smartSocketEnqueue env s p).socket <;> rfl

end

theorem exists_fourth (h : 4 ≤ (concat packets).length) :
    ∃ front p back, packets = front ++ p :: back ∧ (concat front).length < 4 ∧
      4 ≤ (concat (front ++ [p])).length := by
  induction packets using reverseRecOn
  case nil => simp [concat] at h
  case append_singleton packets p hi =>
    by_cases hp : 4 ≤ (concat packets).length
    case neg => exact ⟨packets, p, [], rfl, not_le.mp hp, h⟩
    obtain ⟨front, q, back, he, hf⟩ := hi hp
    exact ⟨front, q, back ++ [p], by simp [he], hf⟩

theorem deliver_of_not_sized (env : Env) (hs : s.held = [])
    (h₄ : 4 ≤ (concat packets).length) (h : ¬Sized (concat packets)) :
    ∃ front p back, packets = front ++ p :: back ∧ (concat front).length < 4 ∧
      4 ≤ (concat (front ++ [p])).length ∧
      deliver env (some s) packets = (replicate front.length (0, []) ++ [(-1, [.close])], none) := by
  obtain ⟨front, p, back, rfl, hf, hp⟩ := exists_fourth h₄
  have hc : concat (front ++ p :: back) = concat (front ++ [p]) ++ concat back := by simp [concat]
  have hcp : concat (front ++ [p]) = concat front ++ p.bytes := by simp [concat]
  have hi : Incomplete (s.held ++ concat front) := by
    rw [hs]
    exact .inl hf
  obtain ⟨s', hh, -, hd⟩ := deliver_of_incomplete env front (p :: back) hi
  rw [hs, nil_append] at hh
  rw [Sized, hc, take_append_of_le_length hp, ← Sized, hcp, ← hh] at h
  refine ⟨front, p, back, rfl, hf, hp, ?_⟩
  rw [hcp, ← hh] at hp
  rw [hd, deliver, smartSocketEnqueue_of_not_sized env h hp]
  simp only [failed, deliver_none, nil_append]

-- A request with a length that is taken leads to what it leads to in one packet, with the last packet and
-- not before. Another length is refused with the packet of its last digit.
theorem deliver_cut
    (env : Env) {s : Socket} (hs : s.held = []) {packets : List Apacket}
    (hp : ∀ p ∈ packets, p.bytes ≠ []) :
    (∀ whole : Apacket, whole.bytes = concat packets → IsRequest whole.bytes →
      unhex (whole.bytes.take 4) ≤ 1024 →
        (deliver env (some s) packets).1 =
          List.replicate (packets.length - 1) (0, []) ++ (deliver env (some s) [whole]).1 ∧
        (deliver env (some s) packets).2.map Socket.view =
          (deliver env (some s) [whole]).2.map Socket.view) ∧
    (4 ≤ (concat packets).length → ¬Sized (concat packets) →
      ∃ front p back, packets = front ++ p :: back ∧ (concat front).length < 4 ∧
        4 ≤ (concat (front ++ [p])).length ∧
        deliver env (some s) packets =
          (List.replicate front.length (0, []) ++ [(-1, [.close])], none)) := by
  refine ⟨?_, deliver_of_not_sized env hs⟩
  intro whole hw hr hn
  rw [hw] at hr hn
  rcases eq_nil_or_concat' packets with rfl | ⟨front, last, rfl⟩
  case inl =>
    have hl : 0 = 4 + unhex [] := hr.length
    omega
  have hc : concat (front ++ [last]) = concat front ++ last.bytes := by simp [concat]
  have hl : last.bytes ≠ [] := hp last (by simp)
  rw [hc] at hw hr hn
  have hi : Incomplete (s.held ++ concat front) := by
    rw [hs]
    exact hr.incomplete hn hl
  obtain ⟨s', hh, ht, hd⟩ := deliver_of_incomplete env front [last] hi
  have hv : (smartSocketEnqueue env s' last).view = (smartSocketEnqueue env s whole).view := by
    apply smartSocketEnqueue_view env ht
    rw [hh, hs, hw]
    rfl
  simp only [Reaction.view, Prod.mk.injEq] at hv
  rw [hd, deliver_singleton, deliver_singleton, hv.1, hv.2.1]
  exact ⟨by simp, hv.2.2⟩

-- A packet that has just been read, with what fits into it.
def packet (l : List UInt8) : Apacket where
  len := min l.length maxPayload
  data := (l ++ List.replicate maxPayload 0).take maxPayload
  len_le := Nat.min_le_right ..
  data_length := by simp

theorem packet_bytes (h : l.length ≤ maxPayload) : (packet l).bytes = l := by
  rw [packet, Apacket.bytes]
  dsimp only
  rw [min_eq_left h, take_take, min_eq_left h, take_left]

def fresh : Socket := ⟨none, none⟩

def handlesAll : Env where
  handleHostRequest _ t := some ⟨0, [], t⟩
  createHostServiceSocket _ _ := false

-- The request `000chost:version`, cut inside the length and the service.
def versionRequest : List UInt8 :=
  [48, 48, 48, 99, 104, 111, 115, 116, 58, 118, 101, 114, 115, 105, 111, 110]

def versionCut : List Apacket :=
  [packet (versionRequest.take 2), packet (slice versionRequest 2 7), packet (versionRequest.drop 7)]

theorem deliver_versionCut :
    fresh.held = [] ∧ (∀ p ∈ versionCut, p.bytes ≠ []) ∧
    (deliver handlesAll (some fresh) versionCut).1 =
      List.replicate 2 (0, []) ++ (deliver handlesAll (some fresh) [packet versionRequest]).1 := by
  have h₁ : (packet (versionRequest.take 2)).bytes = versionRequest.take 2 := packet_bytes (by decide)
  have h₂ : (packet (slice versionRequest 2 7)).bytes = slice versionRequest 2 7 :=
    packet_bytes (by decide)
  have h₃ : (packet (versionRequest.drop 7)).bytes = versionRequest.drop 7 := packet_bytes (by decide)
  have h : (packet versionRequest).bytes = versionRequest := packet_bytes (by decide)
  have hp : ∀ p ∈ versionCut, p.bytes ≠ [] := by
    simp only [versionCut, forall_mem_cons, h₁, h₂, h₃]
    decide
  have hw : (packet versionRequest).bytes = concat versionCut := by
    simp only [concat, versionCut, map_cons, map_nil, h, h₁, h₂, h₃]
    decide
  refine ⟨rfl, hp, ((deliver_cut handlesAll rfl hp).1 _ hw ?_ ?_).1⟩
  · rw [h]
    exact ⟨by decide +kernel, by decide⟩
  · rw [h]
    decide

-- The length `0401`, and 1025 bytes in a packet of their own.
def oversizedCut : List Apacket :=
  [packet [48, 52, 48, 49], packet (List.replicate 1025 97)]

-- The first packet already closes the socket.
theorem deliver_oversizedCut :
    IsRequest (concat oversizedCut) ∧ (∀ p ∈ oversizedCut, p.bytes ≠ []) ∧ fresh.held = [] ∧
    ∀ env, (deliver env (some fresh) oversizedCut).1 = [(-1, [.close])] := by
  have h₁ : (packet [48, 52, 48, 49]).bytes = [48, 52, 48, 49] := packet_bytes (by decide)
  have h₂ : (packet (replicate 1025 97)).bytes = replicate 1025 97 := by
    apply packet_bytes
    rw [length_replicate]
    decide
  have hc : concat oversizedCut = [48, 52, 48, 49] ++ replicate 1025 97 := by
    simp only [concat, oversizedCut, map_cons, map_nil, h₁, h₂, flatten_cons,
      flatten_nil, append_nil]
  have ht : (concat oversizedCut).take 4 = [48, 52, 48, 49] := by
    rw [hc]
    exact take_left' rfl
  refine ⟨⟨?_, ?_⟩, ?_, rfl, ?_⟩
  · rw [ht]
    decide +kernel
  · rw [ht, hc, length_append, length_replicate]
    decide
  · simp only [oversizedCut, forall_mem_cons, h₁, h₂]
    exact ⟨cons_ne_nil _ _, cons_ne_nil _ _, forall_mem_nil _⟩
  · intro env
    have he : smartSocketEnqueue env fresh (packet [48, 52, 48, 49]) = failed [] := by
      apply smartSocketEnqueue_of_not_sized
      · rw [h₁, Sized]
        decide
      · rw [h₁]
        decide
    rw [oversizedCut, deliver, he]
    rfl

end SmartSocket

end Adb
