import PlatformKnife.Lib.Memory

namespace Adb.Fdevent

-- The bits of the fields `state` and `events`, of type `unsigned short`.
abbrev Mask := BitVec 16

def fdeRead : Mask := 0x0001
def fdeWrite : Mask := 0x0002
def fdeError : Mask := 0x0004
def fdeDontClose : Mask := 0x0080
def fdeEventmask : Mask := 0x00ff
def fdeStatemask : Mask := 0xff00
def fdeActive : Mask := 0x0100
def fdePending : Mask := 0x0200

def any (mask bits : Mask) : Bool :=
  mask &&& bits != 0

-- What the table depends on besides the calls. An `fd_set` is defined only for descriptors below
-- `FD_SETSIZE`.
structure Platform where
  sizeofInt : Nat
  sizeofPtr : Nat
  fdSetsize : Nat

-- The address of an object.
structure Ptr (pl : Platform) where
  addr : Nat
  pos  : 0 < addr
  lt   : addr < 256 ^ pl.sizeofPtr

-- `struct fdevent`, without its links, its function and the argument.
structure Fde where
  fd : Int
  forceEof : Bool
  state : Mask
  events : Mask
  deriving DecidableEq

abbrev FdSet := Nat → Bool

-- The objects by their addresses, with the variables of the file. `list_pending` is the list of its
-- addresses.
structure State where
  fdes : Nat → Fde
  fdTable : Memory.Block
  fdTableMax : Nat
  selectN : Nat
  readFds : FdSet
  writeFds : FdSet
  errorFds : FdSet
  pending : List Nat
  closed : List Int

-- The ways in which a call can end without a result.
inductive Stop
  | abort (msg : String)
  | undefined
  deriving DecidableEq

abbrev Exec := Except Stop

def fatal (fn msg : String) : Exec α :=
  .error (.abort (fn ++ ":" ++ msg))

-- Nothing is known yet of the objects but that they are not installed.
def initial (fdes : Nat → Fde) : State where
  fdes := fun a => { fdes a with state := 0, events := 0 }
  fdTable := fun _ => 0
  fdTableMax := 0
  selectN := 0
  readFds := fun _ => false
  writeFds := fun _ => false
  errorFds := fun _ => false
  pending := []
  closed := []

def setFde (s : State) (a : Nat) (fde : Fde) : State :=
  { s with fdes := Function.update s.fdes a fde }

section Table

variable (pl : Platform)

-- `fd_table[i]`
def slot (s : State) (i : Nat) : Nat :=
  Memory.word pl.sizeofPtr s.fdTable i

-- `FD_SET` and `FD_CLR`
def fdAssign (fd : Int) (fds : FdSet) (b : Bool) : Exec FdSet :=
  if 0 ≤ fd ∧ fd < pl.fdSetsize then .ok (Function.update fds fd.toNat b) else .error .undefined

def fdIsset (i : Nat) (fds : FdSet) : Exec Bool :=
  if i < pl.fdSetsize then .ok (fds i) else .error .undefined

def fdeventInit (s : State) : State :=
  { s with readFds := fun _ => false, writeFds := fun _ => false, errorFds := fun _ => false }

def fdeventConnect (s : State) (a : Nat) : State :=
  if (s.fdes a).fd ≥ s.selectN then
    { s with selectN := ((s.fdes a).fd + 1).toNat }
  else
    s

-- The loop over the table in `fdevent_disconnect`.
def lastUsed (s : State) (n : Nat) : Nat :=
  (List.range n).foldl (fun n i => if slot pl s i ≠ 0 then i else n) 0

def fdeventDisconnect (s : State) (a : Nat) : Exec State := do
  let fd := (s.fdes a).fd
  let readFds ← fdAssign pl fd s.readFds false
  let writeFds ← fdAssign pl fd s.writeFds false
  let errorFds ← fdAssign pl fd s.errorFds false
  return { s with
    readFds  := readFds
    writeFds := writeFds
    errorFds := errorFds
    selectN  := lastUsed pl s s.selectN + 1
  }

-- The loop which doubles `fd_table_max`. Its bound is not reached.
def doubled (fd : Nat) : Nat → Nat → Nat
  | 0, max => max
  | rounds + 1, max => if max ≤ fd then doubled fd rounds (max * 2) else max

-- The value of `fd_table_max` after the loop.
def newMax (fd max : Nat) : Nat :=
  doubled fd (fd + 1) (if max = 0 then 256 else max)

-- The block of `fdevent_register` that makes room. New memory has the bytes `fresh` where `realloc` keeps
-- none.
def expand (s : State) (fd : Int) (fresh : Option Memory.Block) : Exec State :=
  if fd > 32000 then
    fatal "fdevent_register" s!"bogus huuuuge fd ({fd})\n"
  else
    let oldmax := s.fdTableMax
    let s := if s.fdTableMax = 0 then fdeventInit s else s
    let max := newMax fd.toNat oldmax
    match fresh with
    | none       => fatal "fdevent_register" s!"could not expand fd_table to {max} entries\n"
    | some fresh => .ok { s with
        fdTableMax := max
        fdTable    := Memory.zero (Memory.realloc s.fdTable fresh (pl.sizeofPtr * oldmax))
          (pl.sizeofPtr * oldmax) (pl.sizeofInt * (max - oldmax))
      }

section

variable (s : State)

def fdeventRegister (a : Nat) (fresh : Option Memory.Block) : Exec State := do
  let fd := (s.fdes a).fd
  if fd < 0 then
    fatal "fdevent_register" s!"bogus negative fd ({fd})\n"
  else
    let s ← if fd ≥ s.fdTableMax then expand pl s fd fresh else .ok s
    return { s with fdTable := Memory.setWord pl.sizeofPtr s.fdTable fd.toNat a }

def fdeventUnregister (a : Nat) : Exec State :=
  let fd := (s.fdes a).fd
  if fd < 0 ∨ fd ≥ s.fdTableMax then
    fatal "fdevent_unregister" s!"fd out of range ({fd})\n"
  else if slot pl s fd.toNat ≠ a then
    fatal "fdevent_unregister" s!"fd_table out of sync [{fd}]\n"
  else .ok { s with
    fdTable := Memory.setWord pl.sizeofPtr s.fdTable fd.toNat 0
    closed  := if any (s.fdes a).state fdeDontClose then s.closed else s.closed ++ [fd]
  }

def fdeventPlistEnqueue (a : Nat) : State :=
  { s with pending := s.pending ++ [a] }

def fdeventPlistRemove (a : Nat) : State :=
  { s with pending := s.pending.erase a }

def fdeventPlistDequeue : Option (Nat × State) :=
  match s.pending with
  | [] => none
  | a :: l => some (a, { s with pending := l })

-- `fresh` is what `realloc` returns if the table has to grow.
def fdeventInstall (a : Nat) (fd : Int) (fresh : Option Memory.Block) : Exec State := do
  let s ← fdeventRegister pl (setFde s a ⟨fd, false, fdeActive, 0⟩) a fresh
  let s := fdeventConnect s a
  return setFde s a { s.fdes a with state := (s.fdes a).state ||| fdeActive }

def fdeventRemove (a : Nat) : Exec State := do
  let s := if any (s.fdes a).state fdePending then fdeventPlistRemove s a else s
  let s ←
    if any (s.fdes a).state fdeActive then do
      let s ← fdeventDisconnect pl s a
      fdeventUnregister pl s a
    else
      .ok s
  return setFde s a { s.fdes a with state := 0, events := 0 }

end

-- The bits of `state` that are replaced.
def Fde.withEvents (fde : Fde) (events : Mask) : Fde :=
  { fde with state := (fde.state &&& fdeStatemask) ||| events }

section

variable (s : State) (a : Nat) (events : Mask)

def fdeventUpdate : Exec State := do
  let fd := (s.fdes a).fd
  let readFds ← fdAssign pl fd s.readFds (any events fdeRead)
  let writeFds ← fdAssign pl fd s.writeFds (any events fdeWrite)
  let errorFds ← fdAssign pl fd s.errorFds (any events fdeError)
  let s := { s with readFds := readFds, writeFds := writeFds, errorFds := errorFds }
  return setFde s a ((s.fdes a).withEvents events)

-- The block of `fdevent_set` for an `fdevent` that is on the list.
def dropEvents : State :=
  let fde := { s.fdes a with events := (s.fdes a).events &&& ~~~events }
  if fde.events = 0 then
    setFde (fdeventPlistRemove s a) a { fde with state := fde.state &&& ~~~fdePending }
  else
    setFde s a fde

-- Only the low bits of the argument `events`, of type `unsigned`, are used.
def fdeventSet : Exec State := do
  let events := events &&& fdeEventmask
  if (s.fdes a).state &&& fdeEventmask = events then
    return s
  else
    let s ← if any (s.fdes a).state fdeActive then fdeventUpdate pl s a events else .ok s
    let s := setFde s a ((s.fdes a).withEvents events)
    if any (s.fdes a).state fdePending then
      return dropEvents s a events
    else
      return s

def fdeventAdd : Exec State :=
  fdeventSet pl s a (((s.fdes a).state &&& fdeEventmask) ||| (events &&& fdeEventmask))

def fdeventDel : Exec State :=
  fdeventSet pl s a (((s.fdes a).state &&& fdeEventmask) &&& ~~~(events &&& fdeEventmask))

end

inductive Errno
  | eintr
  | ebadf
  | other
  deriving DecidableEq

-- What `select` leaves, and the descriptors for which `fcntl` fails.
structure Select where
  n : Int
  errno : Errno
  rfd : FdSet
  wfd : FdSet
  efd : FdSet
  closed : FdSet

-- What `fdevent_fd_check` finds: the number of descriptors and the set.
def fdeventFdCheck (s : State) (closed : FdSet) (fds : FdSet) : Nat × FdSet :=
  let bad (i : Nat) : Bool := i < s.selectN && slot pl s i ≠ 0 && closed i
  ((List.range s.selectN).countP bad, fun i => fds i || bad i)

structure Ready where
  rfd : FdSet
  wfd : FdSet
  efd : FdSet

-- The part of `fdevent_process` before its loop, which returns or leaves `n` and the sets.
def received (s : State) (sel : Select) : Option (Int × Ready) :=
  let fake (ready : Ready) : Option (Int × Ready) :=
    let (n, rfd) := fdeventFdCheck pl s sel.closed ready.rfd
    some (n, { ready with rfd := rfd })
  if sel.n < 0 then
    match sel.errno with
    | .eintr => none
    | .ebadf => fake ⟨fun _ => false, fun _ => false, fun _ => false⟩
    | .other => none
  else if sel.n = 0 then
    fake ⟨sel.rfd, sel.wfd, sel.efd⟩
  else
    some (sel.n, ⟨sel.rfd, sel.wfd, sel.efd⟩)

-- The events of a descriptor which is in some of the sets.
def eventsOf (r w e : Bool) : Mask :=
  (if r then fdeRead else 0) ||| (if w then fdeWrite else 0) ||| (if e then fdeError else 0)

def Ready.events (ready : Ready) (i : Nat) : Mask :=
  eventsOf (ready.rfd i) (ready.wfd i) (ready.efd i)

def Ready.count (ready : Ready) (i : Nat) : Nat :=
  (ready.rfd i).toNat + (ready.wfd i).toNat + (ready.efd i).toNat

-- The body of the loop in `fdevent_process` once there are events.
def noteEvents (s : State) (i : Nat) (events : Mask) : Exec State :=
  let a := slot pl s i
  if a = 0 then
    fatal "fdevent_process" s!"missing fde for fd {i}\n"
  else
    let s := setFde s a { s.fdes a with events := (s.fdes a).events ||| events }
    if any (s.fdes a).state fdePending then
      .ok s
    else
      .ok (fdeventPlistEnqueue (setFde s a { s.fdes a with state := (s.fdes a).state ||| fdePending }) a)

-- The loop from the descriptor `i` on, of which at most `rounds` are left.
def processLoop (ready : Ready) : Nat → Nat → Int → State → Exec State
  | 0, _, _, s => .ok s
  | rounds + 1, i, n, s => do
    if n > 0 then
      let r ← fdIsset pl i ready.rfd
      let w ← fdIsset pl i ready.wfd
      let e ← fdIsset pl i ready.efd
      let s ← if eventsOf r w e ≠ 0 then noteEvents pl s i (eventsOf r w e) else .ok s
      processLoop ready rounds (i + 1) (n - r.toNat - w.toNat - e.toNat) s
    else
      .ok s

def fdeventProcess (s : State) (sel : Select) : Exec State :=
  match received pl s sel with
  | none => .ok s
  | some (n, ready) => processLoop pl ready s.selectN 0 n s

end Table

-- The events with which the function of the `fdevent` is called, if it is.
def fdeventCallFdfunc (s : State) (a : Nat) : State × Option Mask :=
  let events := (s.fdes a).events
  let s := setFde s a { s.fdes a with events := 0 }
  if any (s.fdes a).state fdePending then
    (setFde s a { s.fdes a with state := (s.fdes a).state &&& ~~~fdePending }, some events)
  else
    (s, none)

end Adb.Fdevent
