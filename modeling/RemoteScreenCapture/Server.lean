import RemoteScreenCapture.Session
/-!
# The server

`server.h` and `server.cc`. The handlers of one event act on the session the
event is for. Around them are the table of sessions, the kernel's view of the
descriptors, and `shared_ptr`s as pointers into a heap of counted objects. A
step that asks the kernel for something no kernel does (`accept` returning an
open descriptor) is `impossible`.
-/
open Lib

namespace RemoteScreenCapture

/-! ## The handlers of one event -/

/-- What `HandleOutEvent` meets. `mod` is the text of `strerror` if
`epoll_ctl(EPOLL_CTL_MOD)` fails. -/
structure OutInput where
  send : SendScript
  mod : Option String

/-- What `HandleInEvent` meets. -/
structure InInput where
  recv : RecvScript
  send : SendScript
  save : SaveEnv
  mod : Option String

/-- An event of `epoll_wait`: its flags, and what its handlers meet. `err` is
any of `EPOLLERR`, `EPOLLRDHUP` and `EPOLLHUP`. -/
structure Event where
  err : Bool
  epollout : Bool
  epollin : Bool
  out : OutInput
  inp : InInput

def updateEpollEvents (mask : Mask) (mod : Option String) : ConnProc Unit :=
  match mod with
  | none => emit (.epollMod mask)
  | some err => throw (.runtimeError ("epoll_ctl(): " ++ err))

def handleOutEvent (i : OutInput) : ConnProc Bool := do
  let sent ← trySend i.send
  if !sent then return false
  else
    let c ← get
    if c.session.sendBufferEmpty then
      updateEpollEvents { epollin := true, epollout := false, epollet := true } i.mod
      return true
    else return true

/-- The branch of `HandleInEvent` for a message of type `'A'`. -/
def dispatchAuth (i : InInput) : ConnProc Bool := do
  let ok ← handleAuthRequest
  let sent ← sendAuthResponse ok i.send
  if !sent then return false
  else
    let c ← get
    if !c.session.sendBufferEmpty then
      updateEpollEvents { epollin := true, epollout := true, epollet := true } i.mod
      return true
    else return true

/-- The part of `HandleInEvent` behind `ParseMessage`. -/
def dispatchMessage (i : InInput) : ConnProc Bool := do
  let c ← get
  if c.session.isMessageComplete then
    let msgType ← getMessageType
    if msgType = 'A'.toNat then dispatchAuth i
    else if msgType = 'I'.toNat then
      handleImgMessage i.save
      return true
    else return true
  else return true

def handleInEvent (i : InInput) : ConnProc Bool := do
  let received ← tryRecv i.recv
  if !received then return false
  else
    parseMessage
    dispatchMessage i

/-- The `EPOLLOUT` part of `HandleEvent`. -/
def serveOut (e : Event) : ConnProc Bool := if e.epollout then handleOutEvent e.out else pure true

/-- The part of `HandleEvent` that works on a session: whether it is kept. -/
def serveEvent (e : Event) : ConnProc Bool := do
  if e.err then return false
  else
    let sent ← serveOut e
    if !sent then return false
    else if e.epollin then handleInEvent e.inp
    else return true

/-! ## Descriptors, pointers and the table -/

/-- What the kernel keeps: the open descriptors, and the interest masks
registered with the epoll instance. -/
structure Kernel where
  isOpen : Int → Bool
  interest : Int → Option Mask

namespace Kernel

def open_ (k : Kernel) (fd : Int) : Kernel := { k with isOpen := Function.update k.isOpen fd true }

def setInterest (k : Kernel) (fd : Int) (mask : Option Mask) : Kernel :=
  { k with interest := Function.update k.interest fd mask }

/-- `close(fd)`, which also takes `fd` out of the interest set. -/
def close (k : Kernel) (fd : Int) : Kernel :=
  { isOpen := Function.update k.isOpen fd false, interest := Function.update k.interest fd none }

end Kernel

/-- The mask a descriptor is registered with. -/
def Mask.initial : Mask := { epollin := true, epollout := false, epollet := true }

/-- A `Session` on the heap, with the number of its `shared_ptr`s. -/
structure Object where
  session : Session
  owners : Nat

/-- What happens to descriptors and sessions, in order. -/
inductive FdEvent where
  /-- `accept()` returned the descriptor. -/
  | accept (fd : Int)
  /-- `_fd_session_ht[fd] = session`, and whether there was an entry. -/
  | insert (fd : Int) (overwrites : Bool)
  /-- `_fd_session_ht.erase(fd)` -/
  | erase (fd : Int)
  /-- `close(fd)` -/
  | close (fd : Int)
  /-- The session under the key `fd` showed this. -/
  | shown (fd : Int) (e : Effect)
  deriving DecidableEq, Repr

structure Server where
  /-- `_server_fd.Get()` -/
  serverFd : Int
  kernel : Kernel
  heap : Nat → Option Object
  next : Nat
  fdSessionHt : Int → Option Nat
  trace : List FdEvent

/-- Why a step of the server does not return. -/
inductive Halt where
  | thrown (e : Exn)
  | impossible
  deriving DecidableEq, Repr

abbrev ServerProc := Proc Server Halt

namespace Server

def log (e : FdEvent) : ServerProc Unit := modify fun s => { s with trace := s.trace ++ [e] }

def setObject (p : Nat) (o : Option Object) (s : Server) : Server :=
  { s with heap := Function.update s.heap p o }

def closeFd (fd : Int) : ServerProc Unit := do
  modify fun s => { s with kernel := s.kernel.close fd }
  log (.close fd)

/-- The destructor of a `UniqueFD`. -/
def destroyFd (u : UniqueFD) : ServerProc Unit :=
  u.destroy.forM fun call =>
    match call with
    | (.close, fd) => closeFd fd
    -- An empty `std::function` throws inside a `noexcept` function.
    | (.empty, _) => throw (.thrown .undefined)

/-- `std::make_shared<Session>` -/
def makeShared (session : Session) : ServerProc Nat := do
  let p := (← get).next
  modify fun s => { s with heap := Function.update s.heap p (some ⟨session, 1⟩), next := p + 1 }
  return p

/-- Another `shared_ptr` to the object at `p`. -/
def copyPtr (p : Nat) : ServerProc Unit := do
  match (← get).heap p with
  | none => throw (.thrown .undefined)
  | some o => modify (setObject p (some { o with owners := o.owners + 1 }))

/-- One `shared_ptr` less to the object at `p`; the last one destroys it. -/
def releasePtr (p : Nat) : ServerProc Unit := do
  match (← get).heap p with
  | none => throw (.thrown .undefined)
  | some o =>
    if o.owners ≤ 1 then
      modify (setObject p none)
      destroyFd o.session.clientFd
    else modify (setObject p (some { o with owners := o.owners - 1 }))

/-- `_fd_session_ht[fd] = p`, for a copy of `p` that is already counted. -/
def assign (fd : Int) (p : Nat) : ServerProc Unit := do
  let old := (← get).fdSessionHt fd
  modify fun s => { s with fdSessionHt := Function.update s.fdSessionHt fd (some p) }
  log (.insert fd old.isSome)
  match old with
  | none => return ()
  | some q => releasePtr q

/-- `_fd_session_ht.erase(fd)` -/
def erase (fd : Int) : ServerProc Unit := do
  match (← get).fdSessionHt fd with
  | none => return ()
  | some p =>
    modify fun s => { s with fdSessionHt := Function.update s.fdSessionHt fd none }
    log (.erase fd)
    releasePtr p

/-! ## Accepting -/

/-- An IPv4 peer address. -/
structure Endpoint where
  a : UInt8
  b : UInt8
  c : UInt8
  d : UInt8
  port : UInt16
  deriving DecidableEq, Repr

/-- `inet_ntop(AF_INET, ..)` -/
def inetNtop (p : Endpoint) : Bytes :=
  toDecimal p.a.toNat ++ lit "." ++ toDecimal p.b.toNat ++ lit "." ++ toDecimal p.c.toNat ++ lit "." ++
    toDecimal p.d.toNat

/-- An `accept` after which `AcceptNewConnections` calls it again. -/
inductive Accept where
  | eintr
  /-- A connection on `fd`; whether `epoll_ctl(EPOLL_CTL_ADD)` and `inet_ntop`
  succeed for it. -/
  | conn (fd : Int) (peer : Endpoint) (addOk ntopOk : Bool)

/-- What `accept` returns during one `AcceptNewConnections`, before the error
that ends its loop (`EAGAIN` or any other but `EINTR`). -/
structure AcceptScript where
  accepts : List Accept

/-- The body of the accept loop for a new connection. -/
def acceptOne (fd : Int) (peer : Endpoint) (addOk ntopOk : Bool) : ServerProc Unit := do
  let k := (← get).kernel
  if fd < 0 ∨ k.isOpen fd = true then throw .impossible
  modify fun s => { s with kernel := s.kernel.open_ fd }
  log (.accept fd)
  let clientFd := makeUniqueFD fd
  if !addOk then
    destroyFd clientFd
    return ()
  modify fun s => { s with kernel := s.kernel.setInterest clientFd.get (some .initial) }
  if !ntopOk then
    destroyFd clientFd
    return ()
  let (session, movedFrom) := Session.new clientFd (inetNtop peer) (toDecimal peer.port.toNat)
  let p ← makeShared session
  copyPtr p
  assign session.getClientFD p
  -- The end of the pass destroys `session`, then `client_fd`.
  releasePtr p
  destroyFd movedFrom

def acceptNewConnections (script : AcceptScript) : ServerProc Unit :=
  script.accepts.forM fun a =>
    match a with
    | .eintr => pure ()
    | .conn fd peer addOk ntopOk => acceptOne fd peer addOk ntopOk

/-! ## Serving -/

/-- `CloseSession`, whose parameter is a copy of the pointer in the table. -/
def closeSession (p : Nat) : ServerProc Unit := do
  copyPtr p
  match (← get).heap p with
  | none => throw (.thrown .undefined)
  | some o =>
    let clientFd := o.session.getClientFD
    modify fun s => { s with kernel := s.kernel.setInterest clientFd none }
    erase clientFd
    releasePtr p

/-- What the handlers showed, on the descriptor `fd` of the event: a changed
interest mask reaches the kernel, which changes only registered ones. -/
def show_ (fd : Int) (e : Effect) : ServerProc Unit := do
  match e with
  | .epollMod mask =>
    if ((← get).kernel.interest fd).isNone then throw .impossible
    modify fun s => { s with kernel := s.kernel.setInterest fd (some mask) }
  | _ => pure ()
  log (.shown fd e)

/-- Runs the handlers of an event on the session at `p`. Their own copies of
the pointer are gone again when they return or throw. -/
def onSession (fd : Int) (p : Nat) (proc : ConnProc Bool) : ServerProc Bool := do
  match (← get).heap p with
  | none => throw (.thrown .undefined)
  | some o =>
    match proc { session := o.session } with
    | .returns keep c =>
      modify (setObject p (some { o with session := c.session }))
      c.effects.forM (show_ fd)
      return keep
    | .throws e c =>
      modify (setObject p (some { o with session := c.session }))
      c.effects.forM (show_ fd)
      throw (.thrown e)
    | .diverges => fun _ => .diverges

def handleEvent (fd : Int) (e : Event) : ServerProc Unit := do
  match (← get).fdSessionHt fd with
  | none => return ()
  | some p =>
    let keep ← onSession fd p (serveEvent e)
    if !keep then closeSession p

/-- One event of a batch, with what accepting meets if it is the listener's. -/
structure Ready where
  fd : Int
  event : Event
  accepts : AcceptScript

/-- The body of the loop over a batch. -/
def step (r : Ready) : ServerProc Unit := do
  if r.fd = (← get).serverFd then acceptNewConnections r.accepts
  else handleEvent r.fd r.event

/-- `EventLoop` over the batches that `epoll_wait` returns before the loop ends. -/
def eventLoop (batches : List (List Ready)) : ServerProc Unit :=
  batches.forM fun batch => batch.forM step

/-- The server behind `SetupServerSocket` and `SetupEpoll`, for the descriptors
of the listening socket and of the epoll instance. -/
def start (serverFd epollFd : Int) : Server where
  serverFd := serverFd
  kernel :=
    { isOpen := fun fd => fd = serverFd || fd = epollFd
      interest := Function.update (fun _ => none) serverFd (some .initial) }
  heap := fun _ => none
  next := 0
  fdSessionHt := fun _ => none
  trace := []

end Server

end RemoteScreenCapture
