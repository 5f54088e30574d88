import PlatformKnife.Fastboot.Protocol

namespace Fastboot

open Bytes CInt CString Fallible

-- The number of bytes that a DATA packet announces, with all of its hexadecimal digits.
def announced (p : Packet) : Option Nat :=
  if p.tag = data then some (valueOf 16 (p.bytes.drop 4)) else none

-- The phases of a command. The data phase has the numbers of bytes announced and sent.
inductive Phase
  | idle
  | command
  | data (announced sent : Nat)
  | finished
  deriving DecidableEq

-- The phase that the first response other than INFO leads to.
def Phase.after : Option Packet → Phase
  | none => finished
  | some p =>
    match announced p with
    | none => finished
    | some n => data n 0

-- Data is sent in the data phase only, which ends with the announced number of bytes.
def Phase.step : Phase → Event → Option Phase
  | _, .command _ => some command
  | command, .status none => some finished
  | command, .status (some p) => some (if p.tag = info then command else after (some p))
  | data n m, .status _ => if m = n then some finished else none
  | ph, .status _ => some ph
  | data n m, .data bytes => some (data n (m + bytes.length))
  | ph, .data bytes => if bytes = [] then some ph else none

def Phase.run (ph : Phase) (log : List Event) : Option Phase :=
  log.foldlM step ph

-- What went over the connection is allowed by the protocol.
def Follows (log : List Event) : Prop :=
  (Phase.idle.run log).isSome

def reply (l : List Packet) : Option Packet :=
  (l.dropWhile (·.tag = info)).head?

def heard (l : List Packet) : List Event :=
  (l.takeWhile (·.tag = info)).map (fun p => .status (some p)) ++ [.status (reply l)]

def verdict (size : Nat) : Option Packet → Option Int
  | none => none
  | some p =>
    if p.tag = okay then some 0
    else if p.tag = failed then none
    else if p.tag = data ∧ size > 0 then (if p.dsize > size then none else some (toI32 p.dsize))
    else none

theorem reply_cons_info (h : p.tag = info) (l : List Packet) : reply (p :: l) = reply l := by
  simp [reply, h]

theorem reply_cons (h : p.tag ≠ info) (l : List Packet) : reply (p :: l) = some p := by
  simp [reply, h]

theorem heard_cons_info (h : p.tag = info) (l : List Packet) :
    heard (p :: l) = .status (some p) :: heard l := by
  simp [heard, h, reply_cons_info h]

theorem heard_cons (h : p.tag ≠ info) (l : List Packet) : heard (p :: l) = [.status (some p)] := by
  simp [heard, h, reply_cons h]

-- What is left of a response that was looked at: more in the log, and nothing else that matters for a
-- download. The connection is open when there is a result.
structure Answers (u : Usb) (new : List Event) (r : Option Int) (x : Option Int × Usb) : Prop where
  result : x.fst = r
  log : x.snd.log = u.log ++ new
  accepts : x.snd.accepts = u.accepts
  usbBuf : x.snd.usbBuf = u.usbBuf
  opened : r.isSome → x.snd.closed = false

theorem abandon_answers (e : Error) (u : Usb) : Answers u [] none (abandon e u) :=
  ⟨rfl, (List.append_nil _).symm, rfl, rfl, fun h => nomatch h⟩

theorem Answers.extend (h : Answers u₁ new₂ r x) (hl : u₁.log = u.log ++ new₁)
    (ha : u₁.accepts = u.accepts) (hb : u₁.usbBuf = u.usbBuf) : Answers u (new₁ ++ new₂) r x where
  result := h.result
  log := by rw [h.log, hl, List.append_assoc]
  accepts := h.accepts.trans ha
  usbBuf := h.usbBuf.trans hb
  opened := h.opened

theorem Answers.of_nil (h : Answers u₁ [] r x) (hl : u₁.log = u.log ++ new)
    (ha : u₁.accepts = u.accepts) (hb : u₁.usbBuf = u.usbBuf) : Answers u new r x :=
  List.append_nil new ▸ h.extend hl ha hb

theorem checkStatus_answers (ho : u.closed = false) (size : Nat) (p : Packet) :
    Answers u [] (verdict size (some p)) (checkStatus size p u) := by
  have hl := (List.append_nil u.log).symm
  rw [checkStatus, verdict]
  split
  case isTrue => exact ⟨rfl, hl, rfl, rfl, fun _ => ho⟩
  split
  case isTrue =>
    split <;> exact ⟨rfl, hl, rfl, rfl, fun h => nomatch h⟩
  split
  case isFalse => exact abandon_answers _ u
  split
  case isTrue  => exact abandon_answers _ u
  case isFalse => exact ⟨rfl, hl, rfl, rfl, fun _ => ho⟩

theorem Packet.not_short {p : Packet} (h : p.tag.length = 4) : ¬ p.bytes.length < 4 := by
  rw [Packet.tag, List.length_take] at h
  omega

theorem verdict_of_short (h : p.bytes.length < 4) : verdict size (some p) = none := by
  have hk : p.tag ≠ okay := fun he => Packet.not_short (he ▸ by decide +kernel) h
  have hd : p.tag ≠ data := fun he => Packet.not_short (he ▸ by decide +kernel) h
  simp [verdict, hk, hd]

theorem checkResponseLoop_answers (ho : u.closed = false) (hf : u.responses.length < fuel) (size : Nat) :
    Answers u (heard u.responses) (verdict size (reply u.responses)) (checkResponseLoop size fuel u) := by
  induction fuel generalizing u
  case zero => omega
  case succ fuel hi =>
    rw [checkResponseLoop]
    rcases hr : u.responses with _ | ⟨p, l⟩
    · have hu : usbRead u = (some none, { u with log := u.log ++ [.status none] }) := by
        simp [usbRead, ho, hr]
      rw [bind_of_some hu]
      exact .of_nil (abandon_answers _ _) (by rfl) rfl rfl
    have hu : usbRead u =
        (some (some p), { u with responses := l, log := u.log ++ [.status (some p)] }) := by
      simp [usbRead, ho, hr]
    rw [bind_of_some hu]
    rw [hr, List.length_cons] at hf
    dsimp only
    split
    case isTrue hn =>
      have ht : p.tag ≠ info := fun he => Packet.not_short (he ▸ by decide +kernel) hn
      rw [reply_cons ht, heard_cons ht, verdict_of_short hn]
      exact .of_nil (abandon_answers _ _) (by rfl) rfl rfl
    case isFalse hn =>
      split
      case isTrue ht =>
        rw [reply_cons_info ht, heard_cons_info ht]
        exact .extend (hi (u := { u with responses := l, log := u.log ++ [.status (some p)] }) ho
          (by simpa using hf)) rfl rfl rfl
      case isFalse ht =>
        rw [reply_cons ht, heard_cons ht]
        exact .of_nil (checkStatus_answers (by exact ho) size p) (by rfl) rfl rfl

theorem checkResponse_answers (ho : u.closed = false) (size : Nat) :
    Answers u (heard u.responses) (verdict size (reply u.responses)) (checkResponse size u) :=
  checkResponseLoop_answers ho (Nat.lt_succ_self _) size

end Fastboot
