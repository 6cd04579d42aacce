import RemoteScreenCapture.EndToEnd
import RemoteScreenCapture.Isolation
/-!
# Many clients

The server with any number of connections, each from a client or from some
other program that writes what it likes. All parties take turns in any order:
between two `recv`s for one session, everyone else may act.

Here are the steps, and what a step leaves of the server and of one connection.
-/
open Lib

namespace RemoteScreenCapture

/-! ## The parties -/

/-- Where a connection is on the server's side. -/
inductive Place where
  /-- In the backlog of the listening socket. -/
  | backlog
  /-- Accepted as this descriptor. -/
  | served (fd : Int)
  /-- It was accepted as this descriptor, which has been closed. -/
  | closed (fd : Int)
  deriving DecidableEq, Repr

/-- Where a connection is that was accepted as `fd`, by whether `fd` is in the table. -/
def Place.after (fd : Int) (tabled : Bool) : Place := if tabled then .served fd else .closed fd

/-- A connection. At its other end is a client, or some other program. -/
structure Link where
  peer : Server.Endpoint
  client : Option Client
  net : Net := {}
  place : Place := .backlog

structure Deployment where
  server : Server
  /-- No exception has ended `EventLoop`. -/
  running : Bool
  links : List Link
  /-- The server is in the loop of `TryRecv` for this connection, behind these `recv`s. -/
  reading : Option (Nat × List Read)
  /-- What was shown for which connection (ghost). -/
  shown : List (Nat × Effect)

def FdEvent.effect? : FdEvent → Option Effect
  | .shown _ e => some e
  | _ => none

/-- What the sessions have shown, on any descriptor. -/
def Server.effects (trace : List FdEvent) : List Effect := trace.filterMap FdEvent.effect?

namespace Deployment

/-- A step of any party. -/
inductive Input where
  /-- A client connects. -/
  | connect (peer : Server.Endpoint) (hostname username : Bytes) (timeoutSec : Nat)
  /-- Some other program does. -/
  | stranger (peer : Server.Endpoint)
  | client (k : Nat) (i : Client.Input)
  /-- Such a program writes. -/
  | write (k : Nat) (bs : Bytes)
  /-- `accept()` returns the connection as `fd`. -/
  | accept (k : Nat) (fd : Int) (addOk ntopOk : Bool)
  /-- An event for the session of the connection, up to its `EPOLLIN` part. -/
  | event (k : Nat) (e : Event)
  | recv (r : Read)
  /-- The last `recv` of `TryRecv`, and what the rest of `HandleInEvent` meets. -/
  | recvEnd (stop : RecvEnd) (send : SendScript) (save : SaveEnv) (mod : Option String)

variable (d : Deployment)

/-- In `epoll_wait`, or between two events of a batch. -/
def Idle : Prop := d.running = true ∧ d.reading = none

instance : Decidable d.Idle := inferInstanceAs (Decidable (_ ∧ _))

def setLink (k : Nat) (link : Link) : Deployment := { d with links := d.links.set k link }

/-- The server has come to `s` by serving the connection `k` on `fd`. -/
def served (k : Nat) (fd : Int) (link : Link) (s : Server) (running : Bool) (reading : Option (Nat × List Read)) :
    Deployment :=
  let new := Server.effects (s.trace.drop d.server.trace.length)
  let tabled := (s.fdSessionHt fd).isSome
  { server := s
    running := running
    links := d.links.set k { link with
      net := { link.net with toClient := link.net.toClient.write (sentBytes new) }
      place := .after fd tabled }
    reading := if tabled then reading else none
    shown := d.shown ++ new.map (k, ·) }

/-- `HandleEvent` for the connection `k`. If it keeps the session, `reading` is what comes next. -/
def handle (k : Nat) (e : Event) (reading : Option (Nat × List Read)) : Option Deployment :=
  match d.links[k]? with
  | some link =>
    match link.place with
    | .served fd =>
      match Server.handleEvent fd e d.server with
      | .returns _ s => some (d.served k fd link s true reading)
      | .throws (.thrown _) s => some (d.served k fd link s false none)
      | _ => none
    | _ => none
  | none => none

/-- The connection `k` is accepted. -/
def accept (k : Nat) (fd : Int) (addOk ntopOk : Bool) : Option Deployment :=
  match d.links[k]? with
  | some link =>
    match link.place, Server.acceptNewConnections ⟨[.conn fd link.peer addOk ntopOk]⟩ d.server with
    | .backlog, .returns _ s =>
      some { d.setLink k { link with place := .after fd (s.fdSessionHt fd).isSome } with server := s }
    | _, _ => none
  | none => none

/-- `recv()` returns with this for the connection `k`. -/
def receive (k : Nat) (reads : List Read) : Read → Option Deployment
  | .data chunk =>
    match d.links[k]? with
    | some link =>
      if chunk.bytes <+: link.net.toServer.inFlight then
        some { d.setLink k { link with
            net := { link.net with toServer := link.net.toServer.take chunk.bytes.length } } with
          reading := some (k, reads ++ [.data chunk]) }
      else none
    | none => none
  | .eintr => some { d with reading := some (k, reads ++ [.eintr]) }

def step (i : Input) (d : Deployment) : Option Deployment :=
  match i with
  | .connect peer hostname username timeoutSec =>
    some { d with links := d.links ++ [⟨peer, some (Client.start hostname username timeoutSec), {}, .backlog⟩] }
  | .stranger peer => some { d with links := d.links ++ [⟨peer, none, {}, .backlog⟩] }
  | .client k i =>
    match d.links[k]? with
    | some ⟨peer, some client, net, place⟩ =>
      (client.step i net).map fun r => d.setLink k ⟨peer, some r.1, r.2, place⟩
    | _ => none
  | .write k bs =>
    match d.links[k]? with
    | some ⟨peer, none, net, place⟩ =>
      some (d.setLink k ⟨peer, none, { net with toServer := net.toServer.write bs }, place⟩)
    | _ => none
  | .accept k fd addOk ntopOk => if d.Idle then d.accept k fd addOk ntopOk else none
  | .event k e =>
    if d.Idle then d.handle k { e with epollin := false } (if e.epollin then some (k, []) else none) else none
  | .recv r =>
    match d.reading with
    | some (k, reads) => d.receive k reads r
    | none => none
  | .recvEnd stop send save mod =>
    match d.reading with
    | some (k, reads) =>
      d.handle k (.onlyIn { recv := ⟨reads, stop⟩, send := send, save := save, mod := mod }) none
    | none => none

/-- The server behind `SetupEpoll`, and no connection. -/
def start (serverFd epollFd : Int) : Deployment where
  server := .start serverFd epollFd
  running := true
  links := []
  reading := none
  shown := []

end Deployment

def deployments : System Deployment Deployment.Input := .ofStep Deployment.step

/-! ## An event in two parts -/

namespace Server

section Parts
variable {s : Server} {fd : Int} {p : Nat}

/-- What two parts of an event leave, one after the other. -/
theorem kept_kept (c₁ c₂ : Conn) : (s.kept fd p c₁).kept fd p c₂ = s.kept fd p (c₂.behind c₁.effects) := by
  unfold kept handled showed setObject interestAfter
  simp [Conn.behind, maskAfter_append]

/-- `HandleEvent` looks a session up once, and works on it in two parts. -/
theorem handleEvent_parts (h : Consistent true s) (e : Event) :
    handleEvent fd e s = (do
      handleEvent fd { e with epollin := false }
      if e.epollin then handleEvent fd (.onlyIn e.inp) else pure () : ServerProc Unit) s := by
  cases htab : s.fdSessionHt fd with
  | none =>
    rw [handleEvent_untabled e htab, Proc.bind_returns (handleEvent_untabled _ htab)]
    cases e.epollin with
    | true => exact (handleEvent_untabled _ htab).symm
    | false => rfl
  | some p =>
    obtain ⟨-, -, c₀, -, hheap, -⟩ := h.held fd p htab
    have hfirst := handleEvent_spec h { e with epollin := false } htab hheap
    have hkeeps := handleEvent_keeps h fd { e with epollin := false }
    rw [handleEvent_spec h e htab hheap, serveEvent_parts, Proc.bind_apply, Proc.bind_apply]
    cases hserve : serveEvent { e with epollin := false } ⟨c₀.session, []⟩ with
    | returns keep c =>
      rw [hserve] at hfirst
      rw [hfirst] at hkeeps
      rw [hfirst]
      cases keep with
      | true =>
        cases e.epollin with
        | true =>
          have htab' : (s.kept fd p c).fdSessionHt fd = some p := htab
          have hheap' : (s.kept fd p c).heap p = some ⟨c.session, 1⟩ := by simp [kept, handled, showed, setObject]
          have hsecond : handleInEvent e.inp c = _ := (serveEvent_onlyIn e.inp c).symm.trans (serveEvent_behind _ c)
          simp only [Bool.and_self, if_true, hsecond]
          rw [handleEvent_spec hkeeps _ htab' hheap']
          cases serveEvent (.onlyIn e.inp) ⟨c.session, []⟩ with
          | returns keep c₂ => cases keep <;> simp [Outcome.mapState, kept_kept]
          | throws x c₂ => simp [Outcome.mapState, kept_kept]
          | diverges => rfl
        | false => rfl
      | false =>
        -- The session is gone, and so the second part finds no entry.
        have hgone : ((s.kept fd p c).removed fd p).fdSessionHt fd = none := by simp [removed]
        cases e.epollin with
        | true => exact (handleEvent_untabled _ hgone).symm
        | false => rfl
    | throws x c =>
      rw [hserve] at hfirst
      rw [hfirst]
    | diverges =>
      rw [hserve] at hfirst
      rw [hfirst]

/-- What an event without `EPOLLIN` brings to `HandleInEvent` plays no part. -/
theorem handleEvent_noIn (e : Event) (i : InInput) :
    handleEvent fd { e with epollin := false, inp := i } = handleEvent fd { e with epollin := false } := by
  have hserve : serveEvent { e with epollin := false, inp := i } = serveEvent { e with epollin := false } := by
    have hout : serveOut { e with epollin := false, inp := i } = serveOut { e with epollin := false } := rfl
    unfold serveEvent
    rw [hout]
    simp only [Bool.false_eq_true, if_false]
  unfold handleEvent
  rw [hserve]

/-- The parts of an event whose first part has returned. -/
theorem handleEvent_second {s₁ : Server} {e : Event} (h : Consistent true s) (hin : e.epollin = true) (i : InInput)
    (hs : handleEvent fd { e with epollin := false } s = .returns () s₁) :
    handleEvent fd { e with inp := i } s = handleEvent fd (.onlyIn i) s₁ := by
  have hfirst : handleEvent fd { e with epollin := false, inp := i } s = .returns () s₁ := by
    rw [handleEvent_noIn]
    exact hs
  rw [handleEvent_parts h, Proc.bind_returns hfirst]
  simp only [hin, if_true]

/-! ## What a step leaves of a descriptor -/

theorem effects_append (trace trace' : List FdEvent) : effects (trace ++ trace') = effects trace ++ effects trace' :=
  List.filterMap_append

theorem effects_happened (fd : Int) (es : List Effect) (keep : Bool) : effects (happened fd es keep) = es := by
  have hshown : effects (es.map (.shown fd)) = es := by
    rw [effects, List.filterMap_map]
    exact List.filterMap_some
  rw [happened, effects_append, hshown]
  cases keep with
  | true => exact List.append_nil es
  | false => exact List.append_nil es

theorem solo_session {session : Session} (h : Consistent true s) (hs : (s.solo fd).session = some session) :
    ∃ p, s.fdSessionHt fd = some p ∧ s.heap p = some ⟨session, 1⟩ := by
  cases htab : s.fdSessionHt fd with
  | none =>
    rw [solo_untabled htab] at hs
    cases hs
  | some p =>
    obtain ⟨-, -, c, -, hheap, -⟩ := h.held fd p htab
    rw [solo_tabled htab hheap] at hs
    cases hs
    exact ⟨p, rfl, hheap⟩

/-- A connection that is accepted: its descriptor was free, and has a session unless the setup failed. -/
structure Accepts (fd : Int) (peer : Endpoint) (s s' : Server) : Prop where
  free : (s.solo fd).session = none
  session : (s'.fdSessionHt fd).isSome = true →
    (s'.solo fd).session = some (Conn.fresh (makeUniqueFD fd) (inetNtop peer) (toDecimal peer.port.toNat)).session
  others : ∀ fd', fd' ≠ fd → s'.solo fd' = s.solo fd'
  effects : Server.effects s'.trace = Server.effects s.trace

theorem accepts_of_returns {s' : Server} {peer : Endpoint} {addOk ntopOk : Bool} (h : Consistent true s)
    (hs : acceptNewConnections ⟨[.conn fd peer addOk ntopOk]⟩ s = .returns () s') : Accepts fd peer s s' := by
  have hothers := (acceptNewConnections_solo h hs).2
  obtain ⟨_, t, hone, hrest⟩ := Proc.bind_returns_inv hs
  cases hrest
  obtain ⟨hopen, rfl⟩ := acceptOne_returns h hone
  have hfree := h.untabled hopen
  constructor
  · rw [solo_untabled hfree]
  · intro htab
    split at htab
    · rename_i hok
      rw [if_pos hok]
      simp [Server.solo, admitted]
    · simp [refused, hfree] at htab
  · intro fd' hne
    have hother := hothers fd'
    have hnone : [Accept.conn fd peer addOk ntopOk].filterMap (Accept.input? fd') = [] := by
      simp [Accept.input?, Ne.symm hne]
    rw [hnone] at hother
    exact (Option.some.inj hother).symm
  · split
    · rw [admitted, effects_append]
      exact List.append_nil _
    · rw [refused, effects_append]
      exact List.append_nil _

/-- An event of a session: it is kept or not, and has shown something, as it would by itself. -/
structure Handles (fd : Int) (keep : Bool) (c : Conn) (s s' : Server) : Prop where
  tabled : (s'.fdSessionHt fd).isSome = keep
  session : keep = true → (s'.solo fd).session = some c.session
  others : ∀ fd', fd' ≠ fd → s'.solo fd' = s.solo fd'
  trace : ∃ new, s'.trace = s.trace ++ new ∧ Server.effects new = c.effects

theorem handles_served (h : Consistent true s) (htab : s.fdSessionHt fd = some p) (keep : Bool) (c : Conn) :
    Handles fd keep c s (s.served fd p keep c) := by
  constructor
  · rw [served_table]
    cases keep <;> simp [htab]
  · rintro rfl
    rw [served_solo htab]
    rfl
  · exact fun fd' hne => h.served_other htab keep c hne
  · exact ⟨_, served_trace, effects_happened fd c.effects keep⟩

/-- How an event of a session ends. -/
theorem handleEvent_ends {session : Session} (h : Consistent true s) (hs : (s.solo fd).session = some session) (e : Event) :
    (∀ s', handleEvent fd e s = .returns () s' →
      ∃ keep c, serveEvent e ⟨session, []⟩ = .returns keep c ∧ Handles fd keep c s s') ∧
    ∀ x s', handleEvent fd e s = .throws x s' →
      ∃ y c, x = .thrown y ∧ serveEvent e ⟨session, []⟩ = .throws y c ∧ Handles fd true c s s' := by
  obtain ⟨p, htab, hheap⟩ := solo_session h hs
  rw [handleEvent_spec h e htab hheap]
  cases hserve : serveEvent e ⟨session, []⟩ with
  | returns keep c =>
    refine ⟨fun s' hret => ⟨keep, c, rfl, ?_⟩, fun x s' hthr => ?_⟩
    · have hserved := handles_served h htab keep c
      cases keep <;> cases hret <;> exact hserved
    · cases keep <;> cases hthr
  | throws y c =>
    refine ⟨fun s' hret => ?_, fun x s' hthr => ?_⟩
    · cases hret
    · cases hthr
      exact ⟨y, c, rfl, rfl, handles_served h htab true c⟩
  | diverges =>
    constructor
    · rintro s' ⟨⟩
    · rintro x s' ⟨⟩

end Parts

end Server

/-! ## One client by itself -/

section Alone
variable {w : World}

theorem World.step_client (i : Client.Input) :
    World.step (.client i) w = (w.client.step i w.net).map fun r => { w with client := r.1, net := r.2 } := by
  obtain ⟨client, net, server, phase⟩ := w
  cases phase <;> rfl

theorem World.step_data {reads : List Read} (hp : w.phase = .reading reads) {chunk : Chunk}
    (hchunk : chunk.bytes <+: w.net.toServer.inFlight) : World.step (.recv (.data chunk)) w = some { w with
      phase := .reading (reads ++ [.data chunk])
      net := { w.net with toServer := w.net.toServer.take chunk.bytes.length } } := by
  unfold World.step
  simp only [hp, if_pos hchunk]

theorem World.step_eintr {reads : List Read} (hp : w.phase = .reading reads) :
    World.step (.recv .eintr) w = some { w with phase := .reading (reads ++ [.eintr]) } := by
  unfold World.step
  simp only [hp]

theorem World.serve_returns {e : Event} {keep : Bool} {c : Conn}
    (h : serveEvent e ⟨w.server.session, []⟩ = .returns keep c) (kept : Phase) :
    w.serve (serveEvent e) kept = some (w.left (c.behind w.server.effects) (if keep then kept else .closed)) := by
  rw [World.serve, serveEvent_behind, h]
  cases keep <;> rfl

theorem World.serve_throws {e : Event} {x : Exn} {c : Conn}
    (h : serveEvent e ⟨w.server.session, []⟩ = .throws x c) (kept : Phase) :
    w.serve (serveEvent e) kept = some (w.left (c.behind w.server.effects) .closed) := by
  rw [World.serve, serveEvent_behind, h]
  rfl

end Alone

end RemoteScreenCapture
