import PlatformKnife.Lib.CString
import PlatformKnife.Mincrypt.Rsa

namespace Adb

open Bytes CString Mincrypt

def TOKEN_SIZE : Nat := 20
def MAX_PAYLOAD : Nat := 4096

abbrev Token := { token : List UInt8 // token.length = TOKEN_SIZE }

-- The loop over the keys that `load_keys` has read.
def adbAuthVerify (keys : List RSAPublicKey) (ctxBuf token sig : List UInt8) : Bool :=
  sig.length = RSANUMBYTES && keys.any fun key =>
    (rsaVerify key (toPtr sig) sig.length (toPtr token) SHA_DIGEST_SIZE ctxBuf).any (· ≠ 0)

inductive ConnectionState
  | offline
  | bootloader
  | device
  | host
  | recovery
  | noperm
  | sideload
  | unauthorized
  deriving DecidableEq

-- Only what is in front of the first colon is looked at. The properties behind it are left out.
def parseBanner (banner : List UInt8) : ConnectionState :=
  let type := banner.takeWhile fun c => c ≠ 58 ∧ c ≠ 0
  if type = ofString "bootloader" then .bootloader
  else if type = ofString "device" then .device
  else if type = ofString "recovery" then .recovery
  else if type = ofString "sideload" then .sideload
  else .host

-- The packets `A_SYNC`, `A_CNXN` and, by their first argument, `A_AUTH`.
inductive Packet
  | sync (arg0 : Nat)
  | connect (banner : List UInt8)
  | token (data : List UInt8)
  | signature (data : List UInt8)
  | publicKey (data : List UInt8)

-- A daemon with `auth_enabled` and one transport: its keys, what `/dev/urandom` gives and how often it was
-- read, the buffer of a hash context, the banner it sends, and the fields of the transport. Of the user's
-- side, whether `framework_fd` is open, `usb_transport` is set, and `auth_fde` waits for an answer.
structure Daemon where
  keys   : List RSAPublicKey
  random : Nat → Token
  drawn  : Nat
  ctxBuf : { buf : List UInt8 // buf.length = 64 }
  banner : List UInt8
  token  : List UInt8
  connectionState : ConnectionState
  online : Bool
  framework    : Bool
  needsRetry   : Bool
  usbTransport : Bool
  authFde      : Bool

-- What the daemon waits for. An answer without bytes is the end of the framework's side.
inductive Event
  | packet (p : Packet)
  | accept
  | answer (response : List UInt8)

namespace Daemon

def start (keys : List RSAPublicKey) (random : Nat → Token)
    (ctxBuf : { buf : List UInt8 // buf.length = 64 }) (banner : List UInt8) : Daemon :=
  ⟨keys, random, 0, ctxBuf, banner, List.replicate TOKEN_SIZE 0, .offline, false, false, false, false,
    false⟩

variable (t : Daemon)

-- The transport's disconnect is `usb_disconnected`, if `usb_transport` is set.
def handleOffline : Daemon :=
  { t with
    online := false
    usbTransport := false
    needsRetry := if t.usbTransport then false else t.needsRetry }

def sendAuthRequest : Daemon × Option Packet :=
  let token := t.random t.drawn
  ({ t with token, drawn := t.drawn + 1 }, some (.token token))

def adbAuthVerified : Daemon × Option Packet :=
  ({ t with online := true }, some (.connect t.banner))

-- The message can be written if the framework is connected.
def adbAuthConfirmKey (key : List UInt8) : Daemon :=
  let t := { t with usbTransport := true }
  if ¬t.framework then { t with needsRetry := true }
  else if key.getLast? ≠ some 0 then t
  else if (ofString "PK").length + (key.takeWhile (· != 0)).length ≥ MAX_PAYLOAD then t
  else { t with authFde := true }

def adbAuthEvent (response : List UInt8) : Daemon × Option Packet :=
  if response = [] then
    ({ t with framework := false, authFde := if t.usbTransport then false else t.authFde }, none)
  else if response = ofString "OK" then
    if t.usbTransport then t.adbAuthVerified else (t, none)
  else
    (t, none)

def adbAuthListener : Daemon × Option Packet :=
  let t := { t with framework := true }
  if t.needsRetry then sendAuthRequest { t with needsRetry := false } else (t, none)

-- A daemon has no key to answer a token with. The pause after many failures is left out.
def handlePacket : Packet → Daemon × Option Packet
  | .sync arg0 =>
    let t := if arg0 ≠ 0 then t else handleOffline { t with connectionState := .offline }
    (t, some (.sync arg0))
  | .connect banner =>
    let t := if t.connectionState = .offline then t
      else handleOffline { t with connectionState := .offline }
    sendAuthRequest { t with connectionState := parseBanner banner }
  | .token _ => ({ t with connectionState := .unauthorized }, none)
  | .signature sig =>
    if adbAuthVerify t.keys t.ctxBuf t.token sig then t.adbAuthVerified else t.sendAuthRequest
  | .publicKey key => (t.adbAuthConfirmKey key, none)

def handle : Event → Daemon × Option Packet
  | .packet p => t.handlePacket p
  | .accept => t.adbAuthListener
  | .answer response => if t.authFde then t.adbAuthEvent response else (t, none)

def step (e : Event) : Daemon :=
  (t.handle e).1

end Daemon

end Adb
