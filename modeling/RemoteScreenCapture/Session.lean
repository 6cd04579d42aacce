import RemoteScreenCapture.Common
import RemoteScreenCapture.Lib.Path
/-!
# A client's session

`session.h` and `session.cc`. Each function is a procedure on the session; the
system calls it makes are scripts it is given. What a session shows to the
outside (messages taken from its queue, bytes the kernel accepted, calls of
`SaveScreen`) is collected beside it in `Conn`.
-/
open Lib Lib.BigEndian

namespace RemoteScreenCapture

namespace Limit
/-- 10 Mb -/
def maxMessageSize : Nat := 1024 * 1024 * 10
end Limit

structure Message where
  typeVec : Bytes := []
  sizeVec : Bytes := []
  bytesVec : Bytes := []
  deriving DecidableEq, Repr

namespace Message

def clear : Message := {}

/-- The vectors of a message, as `FromReqToVec` refers to them. -/
inductive Vec where
  | type
  | size
  | bytes

def vec (m : Message) : Vec → Bytes
  | .type => m.typeVec
  | .size => m.sizeVec
  | .bytes => m.bytesVec

def setVec (m : Message) (bs : Bytes) : Vec → Message
  | .type => { m with typeVec := bs }
  | .size => { m with sizeVec := bs }
  | .bytes => { m with bytesVec := bs }

end Message

structure Session where
  clientFd : UniqueFD
  clientHost : Bytes
  clientPort : Bytes
  clientHostname : Bytes := []
  clientUsername : Bytes := []
  message : Message := {}
  messages : List Message := []
  request : Bytes := []
  response : Bytes := []
  deriving DecidableEq, Repr

/-- One call of `SaveScreen`. -/
structure SaveCall where
  msg : Message
  hostname : Bytes
  username : Bytes
  outPath : Bytes
  written : Bool
  deriving DecidableEq, Repr

/-- An interest mask of `epoll_ctl`. -/
structure Mask where
  epollin : Bool
  epollout : Bool
  epollet : Bool
  deriving DecidableEq, Repr

/-- What a session shows to the outside. -/
inductive Effect where
  /-- `HandleAuthRequest` took the message `msg` and returned `ok`. -/
  | auth (msg : Message) (ok : Bool)
  /-- `HandleImgMessage` called `SaveScreen`. -/
  | save (call : SaveCall)
  /-- `send()` accepted these bytes. -/
  | sent (bytes : Bytes)
  /-- `epoll_ctl(EPOLL_CTL_MOD)` set the interest mask. -/
  | epollMod (mask : Mask)
  deriving DecidableEq, Repr

/-- A session and what it has shown. -/
structure Conn where
  session : Session
  effects : List Effect := []
  deriving DecidableEq, Repr

abbrev SessionProc := Proc Session Exn
abbrev ConnProc := Proc Conn Exn

instance : MonadLift SessionProc ConnProc where
  monadLift p := p.zoom Conn.session fun s c => { c with session := s }

theorem lift_returns {α : Type} {p : SessionProc α} {c : Conn} {a : α} {s : Session}
    (h : p c.session = .returns a s) : (liftM p : ConnProc α) c = .returns a { c with session := s } :=
  Proc.zoom_returns h

theorem lift_throws {α : Type} {p : SessionProc α} {c : Conn} {e : Exn} {s : Session}
    (h : p c.session = .throws e s) : (liftM p : ConnProc α) c = .throws e { c with session := s } :=
  Proc.zoom_throws h

theorem lift_diverges {α : Type} {p : SessionProc α} {c : Conn} (h : p c.session = .diverges) :
    (liftM p : ConnProc α) c = .diverges :=
  Proc.zoom_diverges h

def emit (e : Effect) : ConnProc Unit := modify fun c => { c with effects := c.effects ++ [e] }

/-! ## System calls -/

/-- Bytes returned by one `recv` into the buffer of `TryRecv`. -/
structure Chunk where
  bytes : Bytes
  nonempty : 0 < bytes.length
  fits : bytes.length ≤ 4096

/-- A `recv` after which `TryRecv` calls it again. -/
inductive Read where
  | data (chunk : Chunk)
  | eintr

/-- The `recv` that ends the loop of `TryRecv`. -/
inductive RecvEnd where
  | eagain
  | closed
  | failed
  deriving DecidableEq, Repr

/-- What `recv` returns during one `TryRecv`. -/
structure RecvScript where
  reads : List Read
  stop : RecvEnd

/-- A `send` after which `TrySend` looks at its buffer again. `sent k` accepts
`k + 1` bytes, or all of the buffer if it is shorter. -/
inductive Send where
  | sent (k : Nat)
  | eintr

/-- The `send` that ends the loop of `TrySend` before its buffer is empty. -/
inductive SendEnd where
  | eagain
  | closed
  | failed
  deriving DecidableEq, Repr

/-- What `send` returns during one `TrySend`. -/
structure SendScript where
  sends : List Send
  stop : SendEnd

/-- What one `SaveScreen` meets: the local time, and whether
`create_directories` and opening the file succeed. -/
structure SaveEnv where
  now : Tm
  dirsOk : Bool
  openOk : Bool

/-! ## Construction -/

/-- `Session::Session`: the session, and the `UniqueFD` it was moved from. -/
def Session.new (clientFd : UniqueFD) (host port : Bytes) : Session × UniqueFD :=
  let (fd, movedFrom) := clientFd.moveConstruct
  ({ clientFd := fd, clientHost := host, clientPort := port }, movedFrom)

def Session.getClientFD (s : Session) : Int := s.clientFd.get

/-! ## Reading numbers and strings from a buffer -/

/-- The `Peek` functions: a big-endian number of `width` bytes, not removed. -/
def peekUint (width : Nat) (type : String) (buffer : Bytes) : Except Exn Nat :=
  if buffer.length < width then .error (.runtimeError ("Buffer too small to read " ++ type))
  else .ok (value (buffer.take width))

def peekUint8 : Bytes → Except Exn Nat := peekUint 1 "uint8_t"
def peekUint16 : Bytes → Except Exn Nat := peekUint 2 "uint16_t"
def peekUint32 : Bytes → Except Exn Nat := peekUint 4 "uint32_t"

/-- `PopUint16`: the number, and the buffer without it. -/
def popUint16 (buffer : Bytes) : Except Exn (Nat × Bytes) :=
  (peekUint16 buffer).map fun n => (n, buffer.drop 2)

def popString (strLen : Nat) (buffer : Bytes) : Except Exn (Bytes × Bytes) :=
  if buffer.length < strLen then
    .error (.runtimeError ("Buffer too small to read string of length " ++ toString strLen))
  else .ok (buffer.take strLen, buffer.drop strLen)

/-! ## Receiving -/

def fromReqToVec (vec : Message.Vec) (len : Nat) : SessionProc Bool := do
  let s ← get
  if s.request.length < len then return false
  set { s with
    message := s.message.setVec (s.message.vec vec ++ s.request.take len) vec
    request := s.request.drop len }
  return true

/-- `if (vec.size() != len)`, fill it; whether `ParseMessage` goes on. -/
def fill (vec : Message.Vec) (len : Nat) : SessionProc Bool := do
  let s ← get
  if (s.message.vec vec).length ≠ len then fromReqToVec vec len
  else return true

/-- The body of the loop of `ParseMessage` once the header is there: `false`
is `return`. -/
def parseBody : SessionProc Bool := do
  let msgLen ← peekUint32 (← get).message.sizeVec
  if (← get).message.bytesVec.length = msgLen then return true
  if Limit.maxMessageSize < msgLen then
    modify fun s => { s with message := .clear }
    return false
  if !(← fromReqToVec .bytes msgLen) then return false
  if (← get).message.bytesVec.length ≠ msgLen then return false
  modify fun s => { s with messages := s.messages ++ [s.message], message := .clear }
  return true

/-- The body of the loop of `ParseMessage`. -/
def parsePass : SessionProc Bool := do
  if !(← fill .type 1) then return false
  if !(← fill .size 4) then return false
  parseBody

/-- `ParseMessage`. A pass that goes round again has taken bytes from the
request or changed nothing, so a loop longer than the request is endless
(`parseMessage_diverges`). -/
def parseMessage : SessionProc Unit := fun s => Proc.loop parsePass (s.request.length + 1) s

def tryRecv (script : RecvScript) : SessionProc Bool :=
  go script.reads
where
  go : List Read → SessionProc Bool
  | .data chunk :: reads => do
    modify fun s => { s with request := s.request ++ chunk.bytes }
    go reads
  | .eintr :: reads => go reads
  | [] => return script.stop = .eagain

/-! ## Sending -/

def trySend (script : SendScript) : ConnProc Bool :=
  go script.sends
where
  go (sends : List Send) : ConnProc Bool := do
    let c ← get
    if c.session.response = [] then return true
    match sends with
    | .sent k :: sends =>
      let n := min (k + 1) c.session.response.length
      emit (.sent (c.session.response.take n))
      modify fun c => { c with session.response := c.session.response.drop n }
      go sends
    | .eintr :: sends => go sends
    | [] => return script.stop = .eagain

def sendAuthResponse (ok : Bool) (script : SendScript) : ConnProc Bool := do
  let resp := if ok then 'Y'.toUInt8 else 'N'.toUInt8
  modify fun c =>
    if c.session.response ≠ [] then { c with session.response := c.session.response.set 0 resp }
    else { c with session.response := c.session.response ++ [resp] }
  trySend script

def Session.sendBufferEmpty (s : Session) : Bool := s.response = []

/-! ## Images -/

def Session.isMessageComplete (s : Session) : Bool := s.messages ≠ []

/-- `_messages.front()` -/
def front : SessionProc Message := do
  match (← get).messages with
  | [] => throw .undefined
  | m :: _ => return m

/-- `_messages.pop()` -/
def popMessage : SessionProc Unit := do
  match (← get).messages with
  | [] => throw .undefined
  | _ :: ms => modify fun s => { s with messages := ms }

def getMessageType : SessionProc Nat := do
  peekUint8 (← front).typeVec

def Session.getStringFromHostPort (s : Session) : Bytes :=
  s.clientHost.filter (· ≠ Path.dot) ++ lit "_" ++ s.clientPort

/-- The path of the file `SaveScreen` writes. -/
def Session.outPath (s : Session) (now : Tm) : Bytes :=
  let timestamp := getCurrentTimestamp now "%Y%m%d_%H%M%S"
  let base := Path.join (Path.join (lit "screenshots") s.clientHostname) s.clientUsername
  let filename := timestamp ++ lit "_" ++ s.getStringFromHostPort ++ lit ".png"
  Path.join base filename

def saveScreen (msg : Message) (env : SaveEnv) : ConnProc Unit := do
  let s := (← get).session
  emit (.save {
    msg := msg
    hostname := s.clientHostname
    username := s.clientUsername
    outPath := s.outPath env.now
    written := env.dirsOk && env.openOk })

def handleImgMessage (env : SaveEnv) : ConnProc Unit := do
  saveScreen (← front) env
  popMessage

/-! ## Authentication -/

/-- `std::isalnum` in the C locale. -/
def isAlnum (c : UInt8) : Bool :=
  ('0'.toUInt8 ≤ c && c ≤ '9'.toUInt8) || ('A'.toUInt8 ≤ c && c ≤ 'Z'.toUInt8) ||
    ('a'.toUInt8 ≤ c && c ≤ 'z'.toUInt8)

def isValidName (name : Bytes) : Bool :=
  if name = [] || name.length > 255 then false
  else name.all fun c => isAlnum c || c = '-'.toUInt8 || c = '_'.toUInt8

/-- Removes something from the payload of the front message. -/
def popFront {α : Type} (pop : Bytes → Except Exn (α × Bytes)) : SessionProc α := do
  match (← get).messages with
  | [] => throw .undefined
  | m :: ms =>
    let (a, rest) ← pop m.bytesVec
    modify fun s => { s with messages := { m with bytesVec := rest } :: ms }
    return a

/-- The statements of `ParseAuthMessage` that take one name from the payload. -/
def popName (tooLong : String) : SessionProc Bytes := do
  let len ← popFront popUint16
  if len > Limit.maxMessageSize then throw (.runtimeError tooLong)
  popFront (popString len)

/-- `ParseAuthMessage(_messages.front())` -/
def parseAuthMessage : SessionProc Unit := do
  let hostname ← popName "hostname too long"
  modify fun s => { s with clientHostname := hostname }
  if !isValidName hostname then throw (.runtimeError "Invalid hostname")
  let username ← popName "username too long"
  modify fun s => { s with clientUsername := username }
  if !isValidName username then throw (.runtimeError "Invalid username")

def handleAuthRequest : ConnProc Bool := do
  let msg ← front
  let ok : Bool ← tryCatch (do
      parseAuthMessage
      popMessage
      pure true) fun
    | .runtimeError _ => do
      popMessage
      pure false
    | e => throw e
  emit (.auth msg ok)
  return ok

end RemoteScreenCapture
