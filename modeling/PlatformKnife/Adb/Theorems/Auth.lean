import PlatformKnife.Adb.Auth
import PlatformKnife.Lib.Latch

namespace Adb.Daemon

open Bytes CString Latch List Mincrypt

-- The connection is at its end.
@[simp]
def Ends (t : Daemon) : Event → Prop
  | .packet (.sync arg0) => arg0 = 0
  | .packet (.connect _) => t.connectionState ≠ .offline
  | _ => False

-- The key is a string that the message to the user has room for.
@[simp]
def Shows (t : Daemon) : Event → Prop
  | .packet (.publicKey key) => t.framework ∧ key.getLast? = some 0 ∧
      (ofString "PK").length + (key.takeWhile (· != 0)).length < MAX_PAYLOAD
  | _ => False

@[simp]
def Accepts (_ : Daemon) : Event → Prop
  | .accept => True
  | _ => False

variable (t : Daemon) (e : Event)

-- The token is the one that was drawn last.
def Drawn (keys : List RSAPublicKey) (random : Nat → Token) (t : Daemon) : Prop :=
  t.keys = keys ∧ t.random = random ∧
    (t.drawn = 0 ∧ t.token = replicate TOKEN_SIZE 0 ∨ ∃ n, t.drawn = n + 1 ∧ t.token = random n)

variable {t} in
theorem Drawn.step (h : t.Drawn known numbers) : (t.step e).Drawn known numbers := by
  have hr (s : Daemon) (hk : s.keys = t.keys) (hs : s.random = t.random) :
      s.sendAuthRequest.1.Drawn known numbers :=
    ⟨hk.trans h.1, hs.trans h.2.1, .inr ⟨s.drawn, rfl, by simp [sendAuthRequest, hs, h.2.1]⟩⟩
  obtain (arg0 | banner | data | sig | key) | _ | response := e
  case packet.sync =>
    simp only [step, handle, handlePacket]
    split_ifs <;> exact h
  case packet.connect =>
    simp only [step, handle, handlePacket]
    split_ifs <;> exact hr _ rfl rfl
  case packet.token => exact h
  case packet.signature =>
    simp only [step, handle, handlePacket]
    split_ifs
    · exact h
    · exact hr _ rfl rfl
  case packet.publicKey =>
    simp only [step, handle, handlePacket, adbAuthConfirmKey]
    split_ifs <;> exact h
  case accept =>
    simp only [step, handle, adbAuthListener]
    split_ifs
    · exact hr _ rfl rfl
    · exact h
  case answer =>
    simp only [step, handle, adbAuthEvent]
    split_ifs <;> exact h

-- The user agrees to a key.
example : ([.accept, .packet (.publicKey [75, 0]), .answer (ofString "OK")].foldl step
    (start [] (fun _ => ⟨replicate 20 0, rfl⟩) ⟨replicate 64 0, rfl⟩ [])).online := by
  decide +kernel

end Adb.Daemon
