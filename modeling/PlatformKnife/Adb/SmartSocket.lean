import PlatformKnife.Lib.CString
import PlatformKnife.Lib.Slice

namespace Adb

open CString Slice

def maxPayload : Nat := 4096

-- `struct apacket`, as far as sockets use it.
structure Apacket where
  len : Nat
  data : List UInt8
  len_le : len ≤ maxPayload
  data_length : data.length = maxPayload

namespace Apacket

def bytes (p : Apacket) : List UInt8 :=
  p.data.take p.len

-- `memcpy(p->data + p->len, q->data, q->len)` and the new length.
def append (p q : Apacket) (h : p.len + q.len ≤ maxPayload) : Apacket where
  len := p.len + q.len
  data := overwrite p.data p.len q.bytes
  len_le := h
  data_length := (overwrite_length ..).trans p.data_length

-- `p->data[i] = c`
def store (p : Apacket) (i : Nat) (c : UInt8) : Apacket :=
  { p with data := overwrite p.data i [c], data_length := (overwrite_length ..).trans p.data_length }

-- `p->len = 0`
def clear (p : Apacket) : Apacket :=
  { p with len := 0, len_le := Nat.zero_le _ }

end Apacket

namespace SmartSocket

-- The cases of the `switch` in `unhex`.
def hexDigit (c : UInt8) : Option Nat :=
  if 48 ≤ c && c ≤ 57 then some (c.toNat - 48)
  else if 97 ≤ c && c ≤ 102 then some (c.toNat - 97 + 10)
  else if 65 ≤ c && c ≤ 70 then some (c.toNat - 65 + 10)
  else none

def unhexLoop : Nat → List UInt8 → Nat
  | n, [] => n
  | n, c :: l =>
    match hexDigit c with
    | some d => unhexLoop ((n <<< 4 ||| d) % 2 ^ 32) l
    | none => 0xffffffff

def unhex (s : List UInt8) : Nat :=
  unhexLoop 0 s

def colon : UInt8 := 58

def isdigit (c : UInt8) : Bool :=
  48 ≤ c && c ≤ 57

def serialStarts : List String :=
  ["usb:", "product:", "model:", "device:"]

-- The offset of the character that ends the serial, in a string without a NUL.
def skipHostSerial (service : List UInt8) : Option Nat :=
  match serialStarts.find? (startsWith · service) with
  | some start =>
    let n := (ofString start).length
    (strchr (service.drop n) colon).map (n + ·)
  | none =>
    match strchr service colon with
    | none => none
    | some firstColon =>
      let digits := (service.drop (firstColon + 1)).takeWhile isdigit
      if digits ≠ [] ∧ service[firstColon + 1 + digits.length]? = some colon then
        some (firstColon + 1 + digits.length)
      else
        some firstColon

inductive TransportType
  | kTransportUsb
  | kTransportLocal
  | kTransportAny
  deriving DecidableEq

-- What is asked of the host: the service, the kind of transport and the serial.
structure HostService where
  service : List UInt8
  ttype   : TransportType
  serial  : Option (List UInt8)
  deriving DecidableEq

-- The branches on the start of the string, with the offset where a serial ended.
def hostService (text : List UInt8) : Option (HostService × Option Nat) :=
  if startsWith "host-serial:" text then
    let service := text.drop 12
    match skipHostSerial service with
    | some serialEnd =>
      some (⟨service.drop (serialEnd + 1), .kTransportAny, some (service.take serialEnd)⟩,
        some (12 + serialEnd))
    | none => some (⟨service, .kTransportAny, none⟩, none)
  else if startsWith "host-usb:" text then
    some (⟨text.drop 9, .kTransportUsb, none⟩, none)
  else if startsWith "host-local:" text then
    some (⟨text.drop 11, .kTransportLocal, none⟩, none)
  else if startsWith "host:" text then
    some (⟨text.drop 5, .kTransportAny, none⟩, none)
  else
    none

-- A transport, of which only the state is looked at.
structure Transport where
  offline : Bool
  deriving DecidableEq

-- What `handle_host_request` returns and leaves: it can change the service and set the transport of the
-- socket.
structure HostReply where
  ret : Int
  service : List UInt8
  transport : Option Transport

-- The functions that requests are handed to: the first may exit the server, the second may know no such
-- service.
structure Env where
  handleHostRequest : HostService → Option Transport → Option HostReply
  createHostServiceSocket : List UInt8 → Option (List UInt8) → Bool

inductive Action
  | handleHostRequest (service : HostService)
  | createHostServiceSocket (service : List UInt8) (serial : Option (List UInt8))
  | sendfailmsg (reason : String)
  | okay
  | ready
  | connectToRemote (destination : List UInt8)
  | close
  deriving DecidableEq

-- The socket, as long as it is not closed.
structure Socket where
  pktFirst  : Option Apacket
  transport : Option Transport

-- The result of a packet, what is done, and the socket if still there.
structure Reaction where
  ret : Int
  actions : List Action
  socket : Option Socket

def wait (s : Socket) : Reaction :=
  ⟨0, [], some s⟩

-- The code behind the label `fail`.
def failed (actions : List Action) : Reaction :=
  ⟨-1, actions ++ [.close], none⟩

-- The block for a service of the host.
def requestHost (env : Env) (s : Socket) (p : Apacket) (req : HostService) : Reaction :=
  match env.handleHostRequest req s.transport with
  | none => ⟨0, [.handleHostRequest req], none⟩
  | some reply =>
    if reply.ret = 0 then
      failed [.handleHostRequest req]
    else if startsWith "transport" reply.service then
      ⟨0, [.handleHostRequest req], some ⟨some p.clear, reply.transport⟩⟩
    else if env.createHostServiceSocket reply.service req.serial then
      ⟨0, [.handleHostRequest req, .createHostServiceSocket reply.service req.serial, .okay, .close,
        .ready], none⟩
    else
      failed [.handleHostRequest req, .createHostServiceSocket reply.service req.serial,
        .sendfailmsg "unknown host service"]

-- The end of the function, for a service of the device.
def requestRemote (s : Socket) (text : List UInt8) : Reaction :=
  match s.transport with
  | none   => failed [.sendfailmsg "device offline (x)"]
  | some t =>
    if t.offline then
      failed [.sendfailmsg "device offline (x)"]
    else
      ⟨1, [.connectToRemote text, .close], none⟩

section

variable (env : Env) (s : Socket) (p : Apacket)

-- The string behind the length is complete.
def dispatch : Reaction :=
  let text := ofBuffer (p.data.drop 4)
  match hostService text with
  | some (req, some serialEnd) => requestHost env s (p.store (4 + serialEnd) 0) req
  | some (req, none) => requestHost env s p req
  | none => requestRemote s text

-- The function once the packet was added to the first one.
def examine : Reaction :=
  if p.len < 4 then
    wait s
  else
    let len := unhex (p.data.take 4)
    if len < 1 ∨ len > 1024 then
      failed []
    else if len + 4 > p.len then
      wait s
    else
      dispatch env s (p.store (len + 4) 0)

def smartSocketEnqueue : Reaction :=
  match s.pktFirst with
  | none => examine env { s with pktFirst := some p } p
  | some first =>
    if h : first.len + p.len ≤ maxPayload then
      examine env { s with pktFirst := some (first.append p h) } (first.append p h)
    else
      failed []

end

-- The results and actions for packets in turn, until the socket is closed.
def deliver (env : Env) : Option Socket → List Apacket → List (Int × List Action) × Option Socket
  | none, _ => ([], none)
  | some s, [] => ([], some s)
  | some s, p :: ps =>
    let r := smartSocketEnqueue env s p
    let t := deliver env r.socket ps
    ((r.ret, r.actions) :: t.1, t.2)

end SmartSocket

end Adb
