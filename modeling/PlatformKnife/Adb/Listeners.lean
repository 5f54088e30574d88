import PlatformKnife.Lib.CString
import PlatformKnife.Lib.Ring

namespace Adb.Listeners

open CString Ring

-- Addresses of listeners and of transports.
abbrev ListenerId := Nat
abbrev TransportId := Nat

-- `struct alistener` without its links and its file descriptor.
structure Alistener where
  localName : List UInt8
  connectTo : List UInt8
  transport : Option TransportId
  deriving DecidableEq

-- The nodes of the lists of disconnects: `&t->disconnects` and `&l->disconnect`.
inductive Adisconnect
  | disconnects (t : TransportId)
  | disconnect (l : ListenerId)
  deriving DecidableEq

-- The links of the listeners (`none` is `&listener_list`), the listeners, those that are allocated, the
-- transports in `transport_list`, and the links of the disconnects.
structure State where
  list : Links (Option ListenerId)
  listener : ListenerId → Alistener
  live : ListenerId → Bool
  transports : List TransportId
  disconnects : Links Adisconnect

-- `l->connect_to[0] == '*'`
def Alistener.isSpecial (l : Alistener) : Bool :=
  l.connectTo.head? = some 42

namespace State

def setListener (s : State) (l : ListenerId) (new : Alistener) : State :=
  { s with listener := Function.update s.listener l new }

def addTransportDisconnect (s : State) (t : TransportId) (l : ListenerId) : State :=
  { s with disconnects := s.disconnects.insert (.disconnects t) (.disconnect l) }

def removeTransportDisconnect (s : State) (l : ListenerId) : State :=
  { s with disconnects := s.disconnects.unlink (.disconnect l) }

-- What is said of the memory of a listener holds until it is freed.
def freeListener (s : State) (l : ListenerId) : State :=
  let s' := { s with list := s.list.unlink (some l), live := Function.update s.live l false }
  match (s.listener l).transport with
  | none => s'
  | some _ => s'.removeTransportDisconnect l

-- The loops over `listener_list` for the first listener with a name. `none` is a loop that has not ended.
def find (s : State) (localName : List UInt8) : Nat → Option ListenerId → Option (Option ListenerId)
  | 0, _ => none
  | _ + 1, none => some none
  | fuel + 1, some l =>
    if localName = (s.listener l).localName then some (some l)
    else s.find localName fuel (s.list.next (some l))

-- Whether there was such a listener.
def removeListener (s : State) (fuel : Nat) (localName : List UInt8) : Option (State × Bool) :=
  match s.find localName fuel (s.list.next none) with
  | none => none
  | some none => some (s, false)
  | some (some l) => some (s.freeListener l, true)

-- The loop of `remove_all_listeners`, which reads `next` before it removes one.
def removeAllLoop : Nat → State → Option ListenerId → Option State
  | 0, _, _ => none
  | _ + 1, s, none => some s
  | fuel + 1, s, some l =>
    let next := s.list.next (some l)
    if (s.listener l).isSpecial then removeAllLoop fuel s next
    else removeAllLoop fuel (s.freeListener l) next

def removeAllListeners (s : State) (fuel : Nat) : Option State :=
  removeAllLoop fuel s (s.list.next none)

-- `run_transport_disconnects`, where the function of each node is `listener_disconnect`.
def runDisconnects (t : TransportId) : Nat → State → Adisconnect → Option State
  | 0, _, _ => none
  | _ + 1, s, .disconnects t' => if t' = t then some s else none
  | fuel + 1, s, .disconnect l =>
    runDisconnects t fuel (s.freeListener l) (s.disconnects.next (.disconnect l))

end State

inductive InstallStatus
  | ok
  | internalError
  | cannotBind
  | cannotRebind
  deriving DecidableEq

-- The results of the calls for a request: `acquire_one_transport` gives a transport or a text, `strdup`,
-- `local_name_to_fd` and `malloc` succeed or not, `calloc` gives an address, or else the server exits.
structure Env where
  acquireOneTransport : Except (List UInt8) TransportId
  strdup : Bool
  localNameToFd : Bool
  calloc : ListenerId
  malloc : Bool
  serial : TransportId → List UInt8

namespace State

-- A new listener at the end of the list.
def addListener (s : State) (l : ListenerId) (new : Alistener) : State :=
  let s := { s with list := s.list.insert none (some l), live := Function.update s.live l true }
  let s := s.setListener l new
  match new.transport with
  | none => s
  | some t => s.addTransportDisconnect t l

-- A listener that is there gets another destination. A missing transport would be followed.
def rebind (s : State) (l : ListenerId) (connectTo : List UInt8) (transport : Option TransportId) :
    Option State :=
  let old := s.listener l
  if old.transport = transport then
    some (s.setListener l { old with connectTo := connectTo })
  else
    match old.transport, transport with
    | some _, some t =>
      let s := s.removeTransportDisconnect l
      let s := s.setListener l { old with connectTo := connectTo, transport := some t }
      some (s.addTransportDisconnect t l)
    | _, _ => none

def installListener (s : State) (fuel : Nat) (env : Env) (localName connectTo : List UInt8)
    (transport : Option TransportId) (noRebind : Bool) : Option (State × InstallStatus) :=
  match s.find localName fuel (s.list.next none) with
  | none => none
  | some (some l) =>
    if (s.listener l).isSpecial then
      some (s, .internalError)
    else if noRebind then
      some (s, .cannotRebind)
    else if !env.strdup then
      some (s, .internalError)
    else
      (s.rebind l connectTo transport).map (·, .ok)
  | some none =>
    if !env.localNameToFd then
      some (s, .cannotBind)
    else
      some (s.addListener env.calloc ⟨localName, connectTo, transport⟩, .ok)

-- `format_listeners` into a buffer of the length that it says. It follows the transport of an ordinary
-- listener.
def formatListeners (s : State) (env : Env) : Nat → Option ListenerId → Option (List UInt8)
  | 0, _ => none
  | _ + 1, none => some []
  | fuel + 1, some l =>
    if (s.listener l).isSpecial then
      s.formatListeners env fuel (s.list.next (some l))
    else
      match (s.listener l).transport, s.formatListeners env fuel (s.list.next (some l)) with
      | some t, some rest =>
        some (env.serial t ++ [32] ++ (s.listener l).localName ++ [32] ++ (s.listener l).connectTo ++
          [10] ++ rest)
      | _, _ => none

end State

inductive Reply
  | okay
  | sendfailmsg (reason : List UInt8)
  | sendMsgWithOkay (text : List UInt8)
  deriving DecidableEq

-- What a request asks for.
inductive Request
  | listForward
  | killforwardAll
  | forward (noRebind : Bool) (localName remote : List UInt8)
  | killforward (localName : List UInt8)
  | malformed
  | other
  deriving DecidableEq

-- `forward:<local>;<remote>`, with the part behind the first colon.
def parseForward (noRebind : Bool) (spec : List UInt8) : Request :=
  match strchr spec 59 with
  | none => .malformed
  | some i =>
    let localName := spec.take i
    let remote    := spec.drop (i + 1)
    if localName = [] ∨ remote = [] ∨ remote.head? = some 42 then .malformed
    else .forward noRebind localName remote

def parse (service : List UInt8) : Request :=
  if service = ofString "list-forward" then .listForward
  else if service = ofString "killforward-all" then .killforwardAll
  else if startsWith "forward:" service then
    let spec := service.drop 8
    if startsWith "norebind:" spec then parseForward true (spec.drop 9) else parseForward false spec
  else if startsWith "killforward:" service then
    if service.drop 12 = [] then .malformed else .killforward (service.drop 12)
  else .other

def installReply : InstallStatus → List Reply
  | .ok => [.okay, .okay]
  | .cannotBind   => [.sendfailmsg (ofString "cannot bind to socket")]
  | .cannotRebind => [.sendfailmsg (ofString "cannot rebind existing socket")]
  | .internalError => [.sendfailmsg (ofString "internal error")]

-- The state afterwards, the result and the replies.
def handleForwardRequest (fuel : Nat) (env : Env) (s : State) (service : List UInt8) :
    Option (State × Nat × List Reply) :=
  match parse service with
  | .listForward =>
    if !env.malloc then
      some (s, 1, [.sendfailmsg (ofString "not enough memory")])
    else
      (s.formatListeners env fuel (s.list.next none)).map fun text => (s, 1, [.sendMsgWithOkay text])
  | .killforwardAll => (s.removeAllListeners fuel).map (·, 1, [.okay, .okay])
  | .malformed      => some (s, 1, [.sendfailmsg (ofString "malformed forward spec")])
  | .forward noRebind localName remote =>
    match env.acquireOneTransport with
    | .error reason => some (s, 1, [.sendfailmsg reason])
    | .ok t =>
      (s.installListener fuel env localName remote (some t) noRebind).map fun r =>
        (r.1, 1, installReply r.2)
  | .killforward localName =>
    match env.acquireOneTransport with
    | .error reason => some (s, 1, [.sendfailmsg reason])
    | .ok _ =>
      (s.removeListener fuel localName).map fun r =>
        (r.1, 1, if r.2 then [.okay, .okay] else [.sendfailmsg (ofString "cannot remove listener")])
  | .other => some (s, 0, [])

-- Requests, and the messages of `transport_registration_func`.
inductive Event
  | request (service : List UInt8) (env : Env)
  | register (t : TransportId)
  | unregister (t : TransportId)

def step (fuel : Nat) (s : State) : Event → Option State
  | .request service env => (handleForwardRequest fuel env s service).map (·.1)
  | .register t =>
    some { s with
      transports  := s.transports ++ [t]
      disconnects := s.disconnects.empty (.disconnects t) }
  | .unregister t =>
    let s := { s with transports := s.transports.erase t }
    State.runDisconnects t fuel s (s.disconnects.next (.disconnects t))

-- What can happen in a state: the transport that is acquired is in the list, `calloc` returns an unused
-- address, and transports are registered once.
def Possible (s : State) : Event → Prop
  | .request _ env =>
    (∀ t, env.acquireOneTransport = .ok t → t ∈ s.transports) ∧ s.live env.calloc = false
  | .register t => t ∉ s.transports
  | .unregister t => t ∈ s.transports

-- `*smartsocket*`
def smartsocket : List UInt8 :=
  [42, 115, 109, 97, 114, 116, 115, 111, 99, 107, 101, 116, 42]

-- The server before `adb_main`.
def initial : State where
  list := ⟨fun l => l, fun l => l⟩
  listener _ := ⟨[], [], none⟩
  live _ := false
  transports := []
  disconnects := ⟨fun d => d, fun d => d⟩

-- The state that `adb_main` leaves.
def started (localName : List UInt8) (l : ListenerId) : State :=
  initial.addListener l ⟨localName, smartsocket, none⟩

end Adb.Listeners
