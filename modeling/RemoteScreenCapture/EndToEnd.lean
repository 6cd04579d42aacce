import RemoteScreenCapture.Credentials
import RemoteScreenCapture.SessionRun
/-!
# The client and its session

The client's thread and the server's handling of one session, connected by two
channels. The two take turns in any order: the server acts between two calls of
the client, and the client between two `recv`s of `TryRecv`.
-/
open Lib Lib.BigEndian

namespace RemoteScreenCapture

/-- Where the server is in the events of the session. -/
inductive Phase where
  /-- In `epoll_wait`. -/
  | waiting
  /-- In the loop of `TryRecv`, behind these `recv`s. -/
  | reading (reads : List Read)
  /-- The session is gone. -/
  | closed

/-- What `recv` has returned in the event that is being handled. -/
def Phase.reads : Phase → List Read
  | .reading reads => reads
  | _ => []

structure World where
  client : Client
  net : Net
  server : Conn
  phase : Phase

/-- `HandleEvent` works in two parts, and the client may act between them. -/
theorem serveEvent_parts (e : Event) : serveEvent e = (do
    let kept ← serveEvent { e with epollin := false }
    if kept && e.epollin then handleInEvent e.inp else return kept : ConnProc Bool) := by
  have hout : serveOut { e with epollin := false } = serveOut e := rfl
  funext c
  unfold serveEvent
  rw [hout]
  cases e.err with
  | true => simp [Proc.bind_apply]
  | false =>
    cases hsent : serveOut e c with
    | returns sent c₁ => cases sent <;> cases e.epollin <;> simp [Proc.bind_apply, hsent]
    | throws x c₁ => simp [Proc.bind_apply, hsent]
    | diverges => simp [Proc.bind_apply, hsent]

namespace World

/-- A step of either party. -/
inductive Input where
  | client (i : Client.Input)
  /-- An event for the session, up to its `EPOLLIN` part. -/
  | event (e : Event)
  | recv (r : Read)
  /-- The last `recv` of `TryRecv`, and what the rest of `HandleInEvent` meets. -/
  | recvEnd (stop : RecvEnd) (send : SendScript) (save : SaveEnv) (mod : Option String)

/-- The handlers have left `c`, and what they sent is under way. -/
def left (w : World) (c : Conn) (phase : Phase) : World :=
  { w with
    server := c
    phase := phase
    net := { w.net with toClient := w.net.toClient.write (sentBytes (c.effects.drop w.server.effects.length)) } }

/-- Runs handlers. The session goes on in the phase `kept` if they keep it. -/
def serve (w : World) (proc : ConnProc Bool) (kept : Phase) : Option World :=
  match proc w.server with
  | .returns true c => some (w.left c kept)
  | .returns false c => some (w.left c .closed)
  | .throws _ c => some (w.left c .closed)
  | .diverges => none

def step (i : Input) (w : World) : Option World :=
  match w.phase, i with
  | _, .client i => (w.client.step i w.net).map fun r => { w with client := r.1, net := r.2 }
  | .waiting, .event e =>
    w.serve (serveEvent { e with epollin := false }) (if e.epollin then .reading [] else .waiting)
  | .reading reads, .recv (.data chunk) =>
    if chunk.bytes <+: w.net.toServer.inFlight then
      some { w with
        phase := .reading (reads ++ [.data chunk])
        net := { w.net with toServer := w.net.toServer.take chunk.bytes.length } }
    else none
  | .reading reads, .recv .eintr => some { w with phase := .reading (reads ++ [.eintr]) }
  | .reading reads, .recvEnd stop send save mod =>
    w.serve (handleInEvent { recv := ⟨reads, stop⟩, send := send, save := save, mod := mod }) .waiting
  | _, _ => none

/-- A client that has just connected, and its session. -/
def start (hostname username : Bytes) (timeoutSec : Nat) (fd : UniqueFD) (host port : Bytes) : World where
  client := Client.start hostname username timeoutSec
  net := {}
  server := Conn.fresh fd host port
  phase := .waiting

end World

def worlds : System World World.Input := .ofStep World.step

/-! ## The server's side -/

/-- The server's part of a run is a run of a session that has received what
was read from one channel and has sent what was written to the other. -/
structure World.Served (fd : UniqueFD) (host port : Bytes) (w : World) : Prop where
  run : ∃ es, sessions.Visits (Conn.fresh fd host port) es w.server ∧
    (w.phase ≠ .closed → sessions.Goes (Conn.fresh fd host port) es w.server) ∧
    received es ++ readData w.phase.reads = w.net.toServer.read
  sent : sentBytes w.server.effects = w.net.toClient.written

theorem Replies.grows {c c' : Conn} (h : Replies c c') : c.effects <+: c'.effects := by
  obtain ⟨es, he, -⟩ := h.effects
  exact ⟨es, he.symm⟩

theorem Dispatched.grows {c c' : Conn} (h : Dispatched c c') : c.effects <+: c'.effects := by
  cases h with
  | idle => exact List.prefix_refl _
  | image => exact List.prefix_append _ _
  | auth _ _ hrep => exact (List.prefix_append _ _).trans hrep.grows

/-- What a session has shown it goes on showing. -/
theorem Tracks.grows {bs : Bytes} {r : Decoder.Reading UInt8 Item} {c c' : Conn} {e : Event} (ht : Tracks bs r c)
    (hl : (serveEvent e c).Leaves c') : c.effects <+: c'.effects := by
  obtain ⟨c₁, c₂, hrep, ⟨_, _, _, rfl⟩, rfl | hd⟩ := ht.moves hl
  · exact hrep.grows
  · exact hrep.grows.trans hd.grows

section Served
variable {fd : UniqueFD} {host port : Bytes} {w w' : World}

theorem served_start (hostname username : Bytes) (timeoutSec : Nat) :
    (World.start hostname username timeoutSec fd host port).Served fd host port :=
  ⟨⟨[], .goes .nil, fun _ => .nil, rfl⟩, rfl⟩

/-- What `serve` makes of the outcomes of the handlers. -/
theorem serve_cases {proc : ConnProc Bool} {kept : Phase} (h : w.serve proc kept = some w') :
    ∃ c, (proc w.server = .returns true c ∧ w' = w.left c kept) ∨
      ((proc w.server = .returns false c ∨ ∃ x, proc w.server = .throws x c) ∧ w' = w.left c .closed) := by
  unfold World.serve at h
  split at h
  · rename_i c hp
    cases h
    exact ⟨c, .inl ⟨hp, rfl⟩⟩
  · rename_i c hp
    cases h
    exact ⟨c, .inr ⟨.inl hp, rfl⟩⟩
  · rename_i x c hp
    cases h
    exact ⟨c, .inr ⟨.inr ⟨x, hp⟩, rfl⟩⟩
  · cases h

/-- One more event of the session. -/
theorem World.Served.serve {e : Event} {kept : Phase} (hw : w.Served fd host port) (ho : w.phase ≠ .closed)
    (hd : e.data = readData w.phase.reads) (hk : kept.reads = []) (h : w.serve (serveEvent e) kept = some w') :
    w'.Served fd host port := by
  obtain ⟨⟨es, -, hgoes, hread⟩, hsent⟩ := hw
  have hg := hgoes ho
  obtain ⟨r, ht⟩ := run_tracks hg
  -- Whatever the handlers leave, what they sent is on its way.
  have hleft : ∀ {c : Conn}, (serveEvent e w.server).Leaves c →
      sentBytes c.effects = (w.net.toClient.write (sentBytes (c.effects.drop w.server.effects.length))).written := by
    intro c hl
    obtain ⟨new, hnew⟩ := ht.grows hl
    rw [← hnew, sentBytes_append, hsent, List.drop_left, Channel.written_write]
  have hdata : received (es ++ [e]) = w.net.toServer.read := by
    rw [received_append, received_singleton, hd, hread]
  obtain ⟨c, ⟨hp, rfl⟩ | ⟨hp, rfl⟩⟩ := serve_cases h
  · have hg' := hg.snoc (show sessions.next e w.server c from hp)
    refine ⟨⟨es ++ [e], .goes hg', fun _ => hg', ?_⟩, hleft (sessions_next hp)⟩
    simpa [World.left, hk, readData] using hdata
  · refine ⟨⟨es ++ [e], .ends hg hp, fun hne => absurd rfl hne, ?_⟩, hleft (sessions_leaves hp)⟩
    simpa [World.left, Phase.reads, readData] using hdata

theorem Client.Stepped.server {c c' : Client} {net net' : Net} (h : c.Stepped net c' net') :
    net'.toServer.read = net.toServer.read ∧ net'.toClient.written = net.toClient.written := by
  cases h with
  | received n hp => exact ⟨rfl, Channel.written_take _ n⟩
  | _ => exact ⟨rfl, rfl⟩

/-- Each step of either party keeps what is known of the server's side. -/
theorem World.Served.step {i : World.Input} (hw : w.Served fd host port) (h : w.step i = some w') :
    w'.Served fd host port := by
  unfold World.step at h
  split at h
  · -- The client acts.
    obtain ⟨⟨c, net⟩, hc, rfl⟩ := Option.map_eq_some_iff.1 h
    obtain ⟨hread, hwritten⟩ := (Client.step_stepped hc).server
    obtain ⟨⟨es, hv, hg, hr⟩, hsent⟩ := hw
    exact ⟨⟨es, hv, hg, hr.trans hread.symm⟩, hsent.trans hwritten.symm⟩
  · rename_i e hp
    refine hw.serve ?_ ?_ ?_ h
    · simp [hp]
    · simp [hp, Event.data, Phase.reads, readData]
    · split <;> rfl
  · rename_i reads chunk hp
    split at h
    · rename_i hchunk
      cases h
      obtain ⟨⟨es, hv, hg, hr⟩, hsent⟩ := hw
      refine ⟨⟨es, hv, fun _ => hg (by simp [hp]), ?_⟩, hsent⟩
      rw [Channel.read_take, ← List.prefix_iff_eq_take.1 hchunk, ← hr, hp]
      simp [Phase.reads, readData, Read.bytes]
    · cases h
  · rename_i reads hp
    cases h
    obtain ⟨⟨es, hv, hg, hr⟩, hsent⟩ := hw
    refine ⟨⟨es, hv, fun _ => hg (by simp [hp]), ?_⟩, hsent⟩
    rw [← hr, hp]
    simp [Phase.reads, readData, Read.bytes]
  · rename_i reads stop send save mod hp
    let i : InInput := { recv := ⟨reads, stop⟩, send := send, save := save, mod := mod }
    have h : w.serve (serveEvent (.onlyIn i)) .waiting = some w' := by
      rw [funext (serveEvent_onlyIn i)]
      exact h
    refine hw.serve ?_ ?_ rfl h
    · simp [hp]
    · rw [hp]
      rfl
  · cases h

end Served

/-! ## Images are frames -/

theorem createImgMessage_eq (f : Frame Limit.maxMessageSize) (h : f.type = 'I'.toUInt8) :
    Client.createImgMessage f.payload = f.encode := by
  rw [Client.createImgMessage, Frame.encode, h]
  simp only [Client.insertToVector, List.append_assoc]
  rfl

/-- Images of an accepted size, as frames. -/
theorem exists_imgFrames {imgs : List Bytes}
    (h : ∀ img ∈ imgs, 0 < img.length ∧ img.length ≤ Limit.maxMessageSize) :
    ∃ fs : List (Frame Limit.maxMessageSize), fs.map Frame.payload = imgs ∧ (∀ f ∈ fs, f.type = 'I'.toUInt8) ∧
      imgs.flatMap Client.createImgMessage = Frame.encodeAll fs := by
  induction imgs with
  | nil => exact ⟨[], rfl, by simp, rfl⟩
  | cons img imgs ih =>
    obtain ⟨fs, hp, ht, he⟩ := ih fun img hi => h img (by simp [hi])
    obtain ⟨hpos, hle⟩ := h img (by simp)
    let f : Frame Limit.maxMessageSize := ⟨'I'.toUInt8, img, hpos, hle⟩
    refine ⟨f :: fs, ?_, ?_, ?_⟩
    · rw [List.map_cons, hp]
    · intro g hg
      rcases List.mem_cons.1 hg with rfl | hg
      · rfl
      · exact ht g hg
    · rw [List.flatMap_cons, he, Frame.encodeAll_cons, ← createImgMessage_eq f rfl]

/-! ## What the effects of typed messages say -/

/-- The images saved are the image messages taken. -/
theorem saves_msgs {es : List Effect} (h : ∀ e ∈ es, e.Typed) :
    (saves es).map SaveCall.msg = (taken es).filter fun m => m.typeVec = ['I'.toUInt8] := by
  induction es with
  | nil => rfl
  | cons e es ih =>
    have he := h e (by simp)
    have ih := ih fun e he => h e (by simp [he])
    cases e with
    | sent | epollMod => exact ih
    | auth m ok =>
      have hm : m.typeVec = ['A'.toUInt8] := he
      have hI : ¬m.typeVec = ['I'.toUInt8] := by
        rw [hm]
        decide
      have hcons : taken (.auth m ok :: es) = m :: taken es := rfl
      rw [hcons, List.filter_cons_of_neg (by simpa using hI), ← ih]
      rfl
    | save call =>
      have hI : call.msg.typeVec = ['I'.toUInt8] := he
      have hcons : taken (.save call :: es) = call.msg :: taken es := rfl
      rw [hcons, List.filter_cons_of_pos (by simpa using hI), ← ih]
      rfl

/-- The names held after a message: a request's, if it is one. -/
def Identity.meet (i : Identity) (m : Message) : Identity :=
  if m.typeVec = ['A'.toUInt8] then i.announce m.bytesVec else i

/-- The names stored are those of the requests taken. -/
theorem stored_eq {es : List Effect} (h : ∀ e ∈ es, e.Typed) :
    stored es = (taken es).foldl Identity.meet ⟨[], []⟩ := by
  unfold stored
  generalize (⟨[], []⟩ : Identity) = i
  induction es generalizing i with
  | nil => rfl
  | cons e es ih =>
    have he := h e (by simp)
    have ih := ih fun e he => h e (by simp [he])
    rw [List.foldl_cons]
    cases e with
    | sent | epollMod => exact ih i
    | auth m ok =>
      have hm : m.typeVec = ['A'.toUInt8] := he
      have hcons : taken (.auth m ok :: es) = m :: taken es := rfl
      rw [hcons, List.foldl_cons, Identity.meet, if_pos hm]
      exact ih _
    | save call =>
      have hA : ¬call.msg.typeVec = ['A'.toUInt8] := by
        rw [show call.msg.typeVec = ['I'.toUInt8] from he]
        decide
      have hcons : taken (.save call :: es) = call.msg :: taken es := rfl
      rw [hcons, List.foldl_cons, Identity.meet, if_neg hA]
      exact ih _

theorem foldl_meet_images {ms : List Message} (h : ∀ m ∈ ms, m.typeVec = ['I'.toUInt8]) (i : Identity) :
    ms.foldl Identity.meet i = i := by
  induction ms with
  | nil => rfl
  | cons m ms ih =>
    have hA : ¬m.typeVec = ['A'.toUInt8] := by
      rw [h m (by simp)]
      decide
    rw [List.foldl_cons, Identity.meet, if_neg hA]
    exact ih fun m hm => h m (by simp [hm])

/-! ## End to end -/

/-- A step is the client's, or leaves alone what the client did. -/
theorem step_client {i : World.Input} {w w' : World} (h : w.step i = some w') :
    w.client.Stepped w.net w'.client w'.net ∨
      w'.client = w.client ∧ w'.net.toServer.written = w.net.toServer.written ∧
        w'.net.toClient.read = w.net.toClient.read := by
  have hserve : ∀ {proc kept}, w.serve proc kept = some w' → w'.client = w.client ∧
      w'.net.toServer.written = w.net.toServer.written ∧ w'.net.toClient.read = w.net.toClient.read := by
    intro proc kept h
    obtain ⟨c, ⟨-, rfl⟩ | ⟨-, rfl⟩⟩ := serve_cases h <;> exact ⟨rfl, rfl, rfl⟩
  unfold World.step at h
  split at h
  · obtain ⟨r, hc, rfl⟩ := Option.map_eq_some_iff.1 h
    exact .inl (Client.step_stepped hc)
  · exact .inr (hserve h)
  · split at h
    · cases h
      exact .inr ⟨rfl, Channel.written_take _ _, rfl⟩
    · cases h
  · cases h
    exact .inr ⟨rfl, rfl, rfl⟩
  · exact .inr (hserve h)
  · cases h

/-- What both parties keep, in every run. -/
structure World.Inv (hostname username : Bytes) (fd : UniqueFD) (host port : Bytes) (w : World) : Prop where
  served : w.Served fd host port
  hostname : w.client.hostname = hostname
  username : w.client.username = username
  wrote : w.client.Wrote w.net.toServer.written
  heard : w.client.Heard w.net.toClient.read

section EndToEnd
variable {hostname username host port : Bytes} {timeoutSec : Nat} {fd : UniqueFD} {is : List World.Input} {w : World}

theorem world_inv (h : worlds.Goes (World.start hostname username timeoutSec fd host port) is w) :
    w.Inv hostname username fd host port := by
  apply h.inv fun _ w => w.Inv hostname username fd host port
  · exact ⟨served_start hostname username timeoutSec, rfl, rfl, Client.wrote_start _ _ _, Client.heard_start _ _ _⟩
  · intro is i w w' _ hw hs
    have hserved := hw.served.step hs
    rcases step_client hs with hc | ⟨hc, hwritten, hread⟩
    · obtain ⟨hh, hu⟩ := hc.names
      exact ⟨hserved, hh.trans hw.hostname, hu.trans hw.username, hc.wrote hw.wrote, hc.heard hw.heard⟩
    · constructor
      · exact hserved
      · rw [hc, hw.hostname]
      · rw [hc, hw.username]
      · rw [hc, hwritten]
        exact hw.wrote
      · rw [hc, hread]
        exact hw.heard

/-- The bytes of the client's stream are its request and its images, as frames. -/
theorem World.Inv.stream (hw : w.Inv hostname username fd host port) (hh : hostname.length ≤ 65535)
    (hu : username.length ≤ 65535)
    (hi : ∀ img ∈ w.client.framed, 0 < img.length ∧ img.length ≤ Limit.maxMessageSize) :
    ∃ fs : List (Frame Limit.maxMessageSize), fs.map Frame.payload = w.client.framed ∧
      (∀ f ∈ fs, f.type = 'I'.toUInt8) ∧
      taken w.server.effects <+: (requestFrame hh hu).toMessage :: fs.map Frame.toMessage := by
  obtain ⟨fs, hp, ht, he⟩ := exists_imgFrames hi
  refine ⟨fs, hp, ht, ?_⟩
  have hstream : w.client.stream = Frame.encodeAll (requestFrame hh hu :: fs) := by
    rw [Client.stream, hw.hostname, hw.username, createAuthenticationRequest_eq hh hu, he, Frame.encodeAll_cons]
  obtain ⟨es, hv, -, hread⟩ := hw.served.run
  -- What the session received is the start of what the client has to say.
  have hreceived : received es <+: Frame.encodeAll (requestFrame hh hu :: fs) := by
    rw [← hstream]
    have hpre : received es <+: w.net.toServer.read := ⟨_, hread⟩
    exact (hpre.trans (Channel.read_written _)).trans hw.wrote.weaken.2
  obtain ⟨rest, hrest⟩ := hreceived
  have hitems := wire.items_prefix (received es) rest
  rw [hrest, ← List.append_nil (Frame.encodeAll _), wire_items (fun f _ => f.accepted) rfl] at hitems
  have hpushed : pushed (wire.items (received es)).1 <+: pushed ((requestFrame hh hu :: fs).map Frame.item) :=
    hitems.filterMap _
  rw [pushed_items] at hpushed
  exact (run_taken hv).trans hpushed

/-- The only request that a session accepts is the client's, and its names are valid. -/
theorem World.Inv.accepted (hw : w.Inv hostname username fd host port) (hh : hostname.length ≤ 65535)
    (hu : username.length ≤ 65535)
    (hi : ∀ img ∈ w.client.framed, 0 < img.length ∧ img.length ≤ Limit.maxMessageSize) {m : Message}
    (hm : .auth m true ∈ w.server.effects) : isValidName hostname = true ∧ isValidName username = true := by
  obtain ⟨es, hv, -⟩ := hw.served.run
  obtain ⟨fs, -, hI, ht⟩ := hw.stream hh hu hi
  have htype : m.typeVec = ['A'.toUInt8] := run_effects_typed hv _ hm
  have htaken : m ∈ taken w.server.effects := List.mem_filterMap.2 ⟨_, hm, rfl⟩
  have hreq : m = (requestFrame hh hu).toMessage := by
    rcases List.mem_cons.1 (ht.subset htaken) with hm | hm
    · exact hm
    · obtain ⟨f, hf, rfl⟩ := List.mem_map.1 hm
      have : [f.type] = ['A'.toUInt8] := htype
      rw [hI f hf] at this
      exact absurd this (by decide)
  have hok := (run_named hv).auths m true hm
  rw [hreq, show (requestFrame hh hu).toMessage.bytesVec = credentials hostname username from rfl,
    announced_credentials hh hu] at hok
  split at hok
  · rename_i hvalid
    exact ⟨hvalid, hok.symm⟩
  · cases hok

/-- The client is in `SendLoop` only behind an accepted request. -/
theorem World.Inv.entered (hw : w.Inv hostname username fd host port) (he : w.client.entered = true) :
    ∃ m, .auth m true ∈ w.server.effects := by
  obtain ⟨es, hv, -⟩ := hw.served.run
  apply run_answered hv
  rw [hw.served.sent]
  exact List.mem_append_left _ ((Channel.read_written _).subset (hw.heard.1 he))

theorem meet_request (hh : hostname.length ≤ 65535) (hu : username.length ≤ 65535)
    (hvh : isValidName hostname = true) (i : Identity) :
    i.meet (requestFrame hh hu).toMessage = ⟨hostname, username⟩ := by
  have htype : (requestFrame hh hu).toMessage.typeVec = ['A'.toUInt8] := rfl
  have hbytes : (requestFrame hh hu).toMessage.bytesVec = credentials hostname username := rfl
  rw [Identity.meet, if_pos htype, Identity.announce, hbytes, announced_credentials hh hu, if_pos hvh]
  rfl

/-- When an image is saved, the request has been taken, and other images only. -/
theorem World.Inv.before_save (hw : w.Inv hostname username fd host port) (hh : hostname.length ≤ 65535)
    (hu : username.length ≤ 65535)
    (hi : ∀ img ∈ w.client.framed, 0 < img.length ∧ img.length ≤ Limit.maxMessageSize) {call : SaveCall}
    {pre post : List Effect} (he : w.server.effects = pre ++ .save call :: post) :
    w.client.framed ≠ [] ∧
      ∃ ms, taken pre = (requestFrame hh hu).toMessage :: ms ∧ ∀ m ∈ ms, m.typeVec = ['I'.toUInt8] := by
  obtain ⟨es, hv, -⟩ := hw.served.run
  obtain ⟨fs, hp, hI, ht⟩ := hw.stream hh hu hi
  have htaken : taken w.server.effects = taken pre ++ call.msg :: taken post := by
    rw [he, taken_append]
    rfl
  have hcall : call.msg.typeVec = ['I'.toUInt8] := run_effects_typed hv (.save call) (by rw [he]; simp)
  rw [htaken] at ht
  cases htp : taken pre with
  | nil =>
    -- The image cannot be the request.
    rw [htp] at ht
    rw [(List.cons_prefix_cons.1 ht).1] at hcall
    have hreq : ['A'.toUInt8] = ['I'.toUInt8] := hcall
    exact absurd hreq (by decide)
  | cons m ms =>
    rw [htp] at ht
    obtain ⟨rfl, ht'⟩ := List.cons_prefix_cons.1 ht
    have hsub := ht'.subset
    constructor
    · intro hnil
      rw [hnil, List.map_eq_nil_iff] at hp
      subst hp
      exact absurd (hsub (List.mem_append_right _ List.mem_cons_self)) (by simp)
    · refine ⟨ms, rfl, fun m hm => ?_⟩
      obtain ⟨f, hf, rfl⟩ := List.mem_map.1 (hsub (List.mem_append_left _ hm))
      exact congrArg (fun t => [t]) (hI f hf)

/-- An image is saved under the client's names. -/
theorem World.Inv.saved (hw : w.Inv hostname username fd host port) (hh : hostname.length ≤ 65535)
    (hu : username.length ≤ 65535)
    (hi : ∀ img ∈ w.client.framed, 0 < img.length ∧ img.length ≤ Limit.maxMessageSize) {call : SaveCall}
    (hc : call ∈ saves w.server.effects) : call.hostname = hostname ∧ call.username = username := by
  obtain ⟨es, hv, -⟩ := hw.served.run
  have hmem : .save call ∈ w.server.effects := by
    obtain ⟨e, he, hs⟩ := List.mem_filterMap.1 hc
    cases e <;> cases hs
    exact he
  obtain ⟨pre, post, hsplit⟩ := List.append_of_mem hmem
  obtain ⟨hframed, ms, hms, hmsI⟩ := hw.before_save hh hu hi hsplit
  have hentered : w.client.entered = true := by
    cases he : w.client.entered with
    | true => rfl
    | false => exact absurd (hw.wrote.weaken.1 he) hframed
  obtain ⟨m, hm⟩ := hw.entered hentered
  obtain ⟨hvh, -⟩ := hw.accepted hh hu hi hm
  have htyped : ∀ e ∈ pre, e.Typed := fun e he =>
    run_effects_typed hv e (by rw [hsplit]; exact List.mem_append_left _ he)
  have hstored : stored pre = ⟨hostname, username⟩ := by
    rw [stored_eq htyped, hms, List.foldl_cons, foldl_meet_images hmsI, meet_request hh hu hvh]
  obtain ⟨s, m, env, hcall, -, -, hid⟩ := (run_named hv).saves pre call post hsplit
  rw [hstored] at hid
  rw [hcall]
  exact ⟨congrArg Identity.hostname hid, congrArg Identity.username hid⟩

/-- The images saved are the first of those framed. -/
theorem World.Inv.images (hw : w.Inv hostname username fd host port) (hh : hostname.length ≤ 65535)
    (hu : username.length ≤ 65535)
    (hi : ∀ img ∈ w.client.framed, 0 < img.length ∧ img.length ≤ Limit.maxMessageSize) :
    ((saves w.server.effects).map fun call => call.msg.bytesVec) <+: w.client.framed := by
  obtain ⟨es, hv, -⟩ := hw.served.run
  obtain ⟨fs, hp, hI, ht⟩ := hw.stream hh hu hi
  have hsaved : ((saves w.server.effects).map SaveCall.msg) <+: fs.map Frame.toMessage := by
    have himgs : (((requestFrame hh hu).toMessage :: fs.map Frame.toMessage).filter
        fun m => m.typeVec = ['I'.toUInt8]) = fs.map Frame.toMessage := by
      have hreq : ¬(requestFrame hh hu).toMessage.typeVec = ['I'.toUInt8] :=
        show ¬['A'.toUInt8] = ['I'.toUInt8] by decide
      rw [List.filter_cons_of_neg (by simpa using hreq), List.filter_eq_self]
      intro m hm
      obtain ⟨f, hf, rfl⟩ := List.mem_map.1 hm
      simp [Frame.toMessage, hI f hf]
    rw [saves_msgs (run_effects_typed hv), ← himgs]
    exact ht.filter _
  have hbytes := hsaved.map Message.bytesVec
  rw [List.map_map, List.map_map] at hbytes
  rw [← hp]
  exact hbytes

/-- The client enters `SendLoop` only if its request was accepted, which takes
two valid names. The images saved are the first of those it framed, each as it
was framed, and they are saved under its names. -/
theorem end_to_end (hostname username : Bytes) (hh : hostname.length ≤ 65535) (hu : username.length ≤ 65535)
    (timeoutSec : Nat) (fd : UniqueFD) (host port : Bytes) (is : List World.Input) (w : World)
    (h : worlds.Goes (World.start hostname username timeoutSec fd host port) is w)
    (hi : ∀ img ∈ w.client.framed, 0 < img.length ∧ img.length ≤ Limit.maxMessageSize) :
    (w.client.entered = true → ∃ m, .auth m true ∈ w.server.effects) ∧
    ((∃ m, .auth m true ∈ w.server.effects) → isValidName hostname = true ∧ isValidName username = true) ∧
    ((saves w.server.effects).map fun call => call.msg.bytesVec) <+: w.client.framed ∧
    ∀ call ∈ saves w.server.effects, call.hostname = hostname ∧ call.username = username := by
  have hw := world_inv h
  exact ⟨hw.entered, fun ⟨m, hm⟩ => hw.accepted hh hu hi hm, hw.images hh hu hi, fun call hc => hw.saved hh hu hi hc⟩

end EndToEnd

/-- An IN event that brings the bytes of `chunk`. -/
def World.Input.brings (chunk : Chunk) : List World.Input :=
  let i := InInput.brings []
  [.event (.onlyIn i), .recv (.data chunk), .recvEnd .eagain i.send i.save i.mod]

/-- A request, its answer, and one image, sent in two parts. -/
def World.sampleRun : List World.Input :=
  [.client (.sent 4), .client (.sent 99), .client .none] ++
  World.Input.brings (.of [65, 0, 0, 0, 8, 0, 2, 112, 99, 0, 2, 97, 108]) ++
  [.client (.received 0), .client .none, .client (.stopFlag false), .client (.grabbed [7, 8]), .client (.sent 2),
    .client (.sent 99)] ++
  World.Input.brings (.of [73, 0, 0, 0, 2, 7, 8])

theorem end_to_end_image :
    ∃ w, System.exec World.step (.start (lit "pc") (lit "al") 10 (makeUniqueFD 5) (lit "10.0.0.1") (lit "4000"))
        World.sampleRun = some w ∧
      (saves w.server.effects).map (fun call => call.msg.bytesVec) = [[7, 8]] ∧
      isValidName (lit "pc") = true ∧ isValidName (lit "al") = true ∧
      ∀ call ∈ saves w.server.effects, call.hostname = lit "pc" ∧ call.username = lit "al" := by
  have hrun : (System.exec World.step
      (.start (lit "pc") (lit "al") 10 (makeUniqueFD 5) (lit "10.0.0.1") (lit "4000")) World.sampleRun).map
      (fun w => ((saves w.server.effects).map fun call => call.msg.bytesVec, w.client.framed, w.client.entered)) =
      some ([[7, 8]], [[7, 8]], true) := by decide +kernel
  obtain ⟨w, hw, h⟩ := Option.map_eq_some_iff.1 hrun
  simp only [Prod.mk.injEq] at h
  obtain ⟨hsaves, hframed, hentered⟩ := h
  have himgs : ∀ img ∈ w.client.framed, 0 < img.length ∧ img.length ≤ Limit.maxMessageSize := by
    rw [hframed]
    decide
  obtain ⟨h₁, h₂, -, h₄⟩ := end_to_end (lit "pc") (lit "al") (by decide) (by decide) 10 _ _ _ World.sampleRun w
    (System.exec_goes hw) himgs
  obtain ⟨hvh, hvu⟩ := h₂ (h₁ hentered)
  exact ⟨w, hw, hsaves, hvh, hvu, h₄⟩

end RemoteScreenCapture
