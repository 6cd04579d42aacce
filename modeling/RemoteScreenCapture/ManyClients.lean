import RemoteScreenCapture.Deployment
/-!
# Each of many clients

Between events the server of a deployment is in a state that `serving` visits.
And a client with its session is in a state of `worlds`, whatever the others do
(`deployment_inv`). So what is proved of one client and its session holds for
each of many.
-/
open Lib

namespace RemoteScreenCapture

/-! ## What is known of a connection -/

/-- The phase of the connection `k`, if the server is `reading`. -/
def phaseOf (k : Nat) (reading : Option (Nat × List Read)) : Phase :=
  match reading with
  | some (k', reads) => if k' = k then .reading reads else .waiting
  | none => .waiting

/-- The connection is served as `fd`, was, or may be. -/
def Place.On (fd : Int) : Place → Prop
  | .backlog => True
  | .served fd' => fd' = fd
  | .closed fd' => fd' = fd

section After
variable {fd fd' : Int} {tabled : Bool}

theorem Place.after_served : after fd tabled = .served fd' ↔ tabled = true ∧ fd = fd' := by
  cases tabled <;> simp [after]

theorem Place.after_on (h : (after fd tabled).On fd') : fd = fd' := by
  cases tabled <;> exact h

theorem Place.after_ne : after fd tabled ≠ .backlog := by
  cases tabled <;> simp [after]

end After

namespace Deployment

/-- What was shown for the connection `k`. -/
def shownBy (d : Deployment) (k : Nat) : List Effect := (d.shown.filter (·.1 = k)).map Prod.snd

/-- `w` is a state that the client and the session of the connection `k` come to
by themselves, and they are in it here, as far as there is a session. -/
structure Alone (d : Deployment) (k : Nat) (link : Link) (client : Client) (fd : Int) (w : World) : Prop where
  run : ∃ timeoutSec is, worlds.Goes (World.start client.hostname client.username timeoutSec (makeUniqueFD fd)
    (Server.inetNtop link.peer) (toDecimal link.peer.port.toNat)) is w
  client : w.client = client
  net : w.net = link.net
  effects : w.server.effects = d.shownBy k
  backlog : link.place = .backlog → w.server = Conn.fresh (makeUniqueFD fd) (Server.inetNtop link.peer)
    (toDecimal link.peer.port.toNat) ∧ w.phase = .waiting
  served : link.place = .served fd → d.running = true →
    (d.server.solo fd).session = some w.server.session ∧ w.phase = phaseOf k d.reading

/-- A connection that is served has a session, on a descriptor of its own. -/
structure Holds (d : Deployment) (k : Nat) (link : Link) : Prop where
  session : d.running = true → ∀ fd, link.place = .served fd → (d.server.solo fd).session.isSome = true
  distinct : d.running = true → ∀ fd, link.place = .served fd →
    ∀ k' link', d.links[k']? = some link' → link'.place = .served fd → k' = k
  alone : ∀ client, link.client = some client → ∀ fd, link.place.On fd → ∃ w, d.Alone k link client fd w

/-- Between events, the server is in a state of `serving`. In the loop of
`TryRecv`, it is behind the first part of an event. -/
structure Serving (serverFd epollFd : Int) (d : Deployment) : Prop where
  between : d.reading = none → ∃ rs, Server.serving.Visits (.start serverFd epollFd) rs d.server ∧
    (d.running = true → Server.serving.Goes (.start serverFd epollFd) rs d.server)
  within : ∀ k reads, d.reading = some (k, reads) → d.running = true ∧
    ∃ link fd, d.links[k]? = some link ∧ link.place = .served fd ∧
      ∃ rs s, ∃ e : Event, Server.serving.Goes (.start serverFd epollFd) rs s ∧ e.epollin = true ∧
        Server.handleEvent fd { e with epollin := false } s = .returns () d.server

structure Inv (serverFd epollFd : Int) (d : Deployment) : Prop where
  serving : d.Serving serverFd epollFd
  shown : Server.effects d.server.trace = d.shown.map Prod.snd
  owned : ∀ p ∈ d.shown, p.1 < d.links.length
  links : ∀ k link, d.links[k]? = some link → d.Holds k link

section Inv
variable {serverFd epollFd : Int} {d d' : Deployment} {k : Nat} {link : Link}

theorem Serving.consistent (h : d.Serving serverFd epollFd) (hrun : d.running = true) : Server.Consistent true d.server := by
  cases hr : d.reading with
  | none =>
    obtain ⟨rs, -, hg⟩ := h.between hr
    exact Server.serving_consistent (hg hrun)
  | some p =>
    obtain ⟨-, link, fd, -, -, rs, s, e, hg, -, he⟩ := h.within p.1 p.2 hr
    have hkeeps := Server.handleEvent_keeps (Server.serving_consistent hg) fd { e with epollin := false }
    rwa [he] at hkeeps

/-- From `d` to `d'` only what is about the connection `k` changes. -/
structure Touches (k : Nat) (d d' : Deployment) : Prop where
  links : ∀ k', k' ≠ k → d'.links[k']? = d.links[k']?
  shown : ∀ k', k' ≠ k → d'.shownBy k' = d.shownBy k'
  phase : ∀ k', k' ≠ k → phaseOf k' d'.reading = phaseOf k' d.reading
  running : d'.running = true → d.running = true
  session : d'.running = true → ∀ k' link fd, k' ≠ k → d.links[k']? = some link → link.place = .served fd →
    (d'.server.solo fd).session = (d.server.solo fd).session

/-- What is left to show where only the connection `k` is touched. -/
theorem Inv.touch (h : d.Inv serverFd epollFd) (ht : Touches k d d') (hs : d'.Serving serverFd epollFd)
    (hshown : Server.effects d'.server.trace = d'.shown.map Prod.snd) (howned : ∀ p ∈ d'.shown, p.1 < d'.links.length)
    (hk : ∀ link, d'.links[k]? = some link → d'.Holds k link) : d'.Inv serverFd epollFd := by
  refine ⟨hs, hshown, howned, fun k' link' hk' => ?_⟩
  by_cases hne : k' = k
  · subst hne
    exact hk link' hk'
  · have hold : d.links[k']? = some link' := (ht.links k' hne).symm.trans hk'
    obtain ⟨hsession, hdistinct, halone⟩ := h.links k' link' hold
    constructor
    · intro hrun fd hp
      rw [ht.session hrun k' link' fd hne hold hp]
      exact hsession (ht.running hrun) fd hp
    · intro hrun fd hp k₂ link₂ hk₂ hp₂
      by_cases h₂ : k₂ = k
      · subst h₂
        exact ((hk link₂ hk₂).distinct hrun fd hp₂ k' link' hk' hp).symm
      · exact hdistinct (ht.running hrun) fd hp k₂ link₂ ((ht.links k₂ h₂).symm.trans hk₂) hp₂
    · intro client hc fd hon
      obtain ⟨w, hw⟩ := halone client hc fd hon
      refine ⟨w, hw.run, hw.client, hw.net, ?_, hw.backlog, ?_⟩
      · rw [ht.shown k' hne]
        exact hw.effects
      · intro hp hrun
        rw [ht.session hrun k' link' fd hne hold hp, ht.phase k' hne]
        exact hw.served hp (ht.running hrun)

theorem links_set {link' : Link} (hk : d.links[k]? = some link) (hlinks : d'.links = d.links.set k link') :
    d'.links[k]? = some link' ∧ ∀ k', k' ≠ k → d'.links[k']? = d.links[k']? := by
  rw [hlinks]
  exact ⟨List.getElem?_set_self (List.getElem?_eq_some_iff.1 hk).1, fun k' hne => List.getElem?_set_ne hne.symm⟩

/-- What is left to show where the connection `k` becomes another. A descriptor
that it is served on now was its own before, or free. -/
theorem Inv.relink {link' : Link} (h : d.Inv serverFd epollFd) (hk : d.links[k]? = some link)
    (hlinks : d'.links = d.links.set k link') (ht : Touches k d d') (hs : d'.Serving serverFd epollFd)
    (hshown : Server.effects d'.server.trace = d'.shown.map Prod.snd)
    (howned : ∀ p ∈ d'.shown, p ∈ d.shown ∨ p.1 = k)
    (hplace : d'.running = true → ∀ fd, link'.place = .served fd → (d'.server.solo fd).session.isSome = true ∧
      (link.place = .served fd ∨ (d.server.solo fd).session = none))
    (halone : ∀ client, link'.client = some client → ∀ fd, link'.place.On fd → ∃ w, d'.Alone k link' client fd w) :
    d'.Inv serverFd epollFd := by
  refine h.touch ht hs hshown (fun p hp => ?_) (fun link₂ hk₂ => ?_)
  · rw [hlinks, List.length_set]
    rcases howned p hp with hp | rfl
    · exact h.owned p hp
    · exact (List.getElem?_eq_some_iff.1 hk).1
  · obtain rfl := Option.some.inj ((links_set hk hlinks).1.symm.trans hk₂)
    refine ⟨fun hrun fd hp => (hplace hrun fd hp).1, fun hrun fd hp k' link₃ hk' hp' => ?_, halone⟩
    by_contra hne
    have hold := (ht.links k' hne).symm.trans hk'
    rcases (hplace hrun fd hp).2 with hown | hfree
    · exact hne ((h.links k link hk).distinct (ht.running hrun) fd hown k' link₃ hold hp')
    · have hsome := (h.links k' link₃ hold).session (ht.running hrun) fd hp'
      simp [hfree] at hsome

/-- The client and its session by themselves take a step, too. -/
theorem Alone.step {link' : Link} {client client' : Client} {fd : Int} {w w' : World} {i : World.Input}
    (hw : d.Alone k link client fd w) (hi : World.step i w = some w') (hpeer : link'.peer = link.peer)
    (hnames : client'.hostname = client.hostname ∧ client'.username = client.username) (hclient : w'.client = client')
    (hnet : w'.net = link'.net) (heffects : w'.server.effects = d'.shownBy k)
    (hbacklog : link'.place = .backlog → link.place = .backlog ∧ w'.server = w.server ∧ w'.phase = w.phase)
    (hserved : link'.place = .served fd → d'.running = true →
      (d'.server.solo fd).session = some w'.server.session ∧ w'.phase = phaseOf k d'.reading) :
    d'.Alone k link' client' fd w' := by
  obtain ⟨timeoutSec, is, hrun⟩ := hw.run
  refine ⟨⟨timeoutSec, is ++ [i], ?_⟩, hclient, hnet, heffects, fun hp => ?_, hserved⟩
  · rw [hnames.1, hnames.2, hpeer]
    exact hrun.snoc hi
  · obtain ⟨hp, hsame, hphase⟩ := hbacklog hp
    rw [hsame, hphase, hpeer]
    exact hw.backlog hp

/-! ## Joining -/

/-- Connections that stay where they are, and a loop that stays with its connection, change nothing. -/
theorem Serving.keep {d' : Deployment} (h : d.Serving serverFd epollFd) (hserver : d'.server = d.server)
    (hrunning : d'.running = d.running) (hreading : d'.reading.map Prod.fst = d.reading.map Prod.fst)
    (hlinks : ∀ (k : Nat) (link : Link), d.links[k]? = some link →
      ∃ link' : Link, d'.links[k]? = some link' ∧ link'.place = link.place) : d'.Serving serverFd epollFd := by
  constructor
  · intro hr
    rw [hserver, hrunning]
    rw [hr] at hreading
    exact h.between (Option.map_eq_none_iff.1 hreading.symm)
  · intro k reads' hr
    rw [hr] at hreading
    obtain ⟨⟨k₂, reads⟩, hr₂, rfl⟩ := Option.map_eq_some_iff.1 hreading.symm
    obtain ⟨hrun, link, fd, hk, hp, hevent⟩ := h.within k₂ reads hr₂
    obtain ⟨link', hk', hp'⟩ := hlinks k₂ link hk
    rw [hserver, hrunning]
    exact ⟨hrun, link', fd, hk', hp'.trans hp, hevent⟩

theorem shownBy_nil (h : ∀ p ∈ d.shown, p.1 < k) : d.shownBy k = [] := by
  rw [shownBy, List.map_eq_nil_iff, List.filter_eq_nil_iff]
  intro p hp
  have hlt := h p hp
  simp [Nat.ne_of_lt hlt]

theorem phaseOf_self (k : Nat) (reads : List Read) : phaseOf k (some (k, reads)) = .reading reads := if_pos rfl

/-- A connection that has joined the backlog. -/
theorem Inv.join (h : d.Inv serverFd epollFd) (peer : Server.Endpoint) {client : Option Client}
    (hclient : ∀ c, client = some c → ∃ hostname username timeoutSec, c = Client.start hostname username timeoutSec) :
    Inv serverFd epollFd { d with links := d.links ++ [⟨peer, client, {}, .backlog⟩] } := by
  have hlinks : ∀ k', k' ≠ d.links.length → (d.links ++ [(⟨peer, client, {}, .backlog⟩ : Link)])[k']? = d.links[k']? := by
    intro k' hne
    rcases Nat.lt_or_gt_of_ne hne with hlt | hlt
    · exact List.getElem?_append_left hlt
    · rw [List.getElem?_eq_none (by simp; omega), List.getElem?_eq_none (by omega)]
  have hkept : ∀ (k' : Nat) (link : Link), d.links[k']? = some link →
      ∃ link' : Link, (d.links ++ [(⟨peer, client, {}, .backlog⟩ : Link)])[k']? = some link' ∧ link'.place = link.place := by
    intro k' link hk'
    obtain ⟨hlt, -⟩ := List.getElem?_eq_some_iff.1 hk'
    exact ⟨link, (hlinks k' (Nat.ne_of_lt hlt)).trans hk', rfl⟩
  refine h.touch (k := d.links.length) ⟨hlinks, fun _ _ => rfl, fun _ _ => rfl, id, fun _ _ _ _ _ _ _ => rfl⟩
    (h.serving.keep rfl rfl rfl hkept) h.shown ?_ ?_
  · intro p hp
    have hlt := h.owned p hp
    simp only [List.length_append, List.length_singleton]
    omega
  · intro link hk
    obtain rfl : link = ⟨peer, client, {}, .backlog⟩ := by simpa using hk.symm
    refine ⟨fun _ _ hp => Place.noConfusion hp, fun _ _ hp => Place.noConfusion hp, fun c hc fd _ => ?_⟩
    obtain ⟨hostname, username, timeoutSec, rfl⟩ := hclient c hc
    exact ⟨World.start hostname username timeoutSec (makeUniqueFD fd) (Server.inetNtop peer) (toDecimal peer.port.toNat),
      ⟨timeoutSec, [], .nil⟩, rfl, rfl, (shownBy_nil h.owned).symm, fun _ => ⟨rfl, rfl⟩, fun hp => Place.noConfusion hp⟩

/-! ## The other end acts -/

theorem Serving.setLink (h : d.Serving serverFd epollFd) {link link' : Link} (hk : d.links[k]? = some link)
    (hplace : link'.place = link.place) {reading : Option (Nat × List Read)}
    (hreading : reading.map Prod.fst = d.reading.map Prod.fst) :
    Serving serverFd epollFd { d.setLink k link' with reading := reading } := by
  refine h.keep rfl rfl hreading fun k' link₂ hk' => ?_
  by_cases hne : k' = k
  · subst hne
    cases hk.symm.trans hk'
    exact ⟨link', List.getElem?_set_self (List.getElem?_eq_some_iff.1 hk).1, hplace⟩
  · exact ⟨link₂, (List.getElem?_set_ne (Ne.symm hne)).trans hk', rfl⟩

/-- The program at the other end, or `recv`, has changed the connection `k`. -/
theorem Inv.move (h : d.Inv serverFd epollFd) {link link' : Link} (reading : Option (Nat × List Read))
    (hk : d.links[k]? = some link) (hplace : link'.place = link.place)
    (hreading : reading.map Prod.fst = d.reading.map Prod.fst)
    (hphase : ∀ k', k' ≠ k → phaseOf k' reading = phaseOf k' d.reading)
    (halone : ∀ client, link'.client = some client → ∀ fd, link.place.On fd →
      ∃ w, Alone { d.setLink k link' with reading := reading } k link' client fd w) :
    Inv serverFd epollFd { d.setLink k link' with reading := reading } := by
  refine h.relink hk rfl ⟨(links_set hk rfl).2, fun _ _ => rfl, hphase, id, fun _ _ _ _ _ _ _ => rfl⟩
    (h.serving.setLink hk hplace hreading) h.shown (fun _ hp => .inl hp) ?_ (hplace ▸ halone)
  intro hrun fd hp
  rw [hplace] at hp
  exact ⟨(h.links k link hk).session hrun fd hp, .inl hp⟩

theorem Inv.client (h : d.Inv serverFd epollFd) {link : Link} {client : Client} {i : Client.Input} {r : Client × Net}
    (hk : d.links[k]? = some link) (hc : link.client = some client) (hs : client.step i link.net = some r) :
    (d.setLink k { link with client := some r.1, net := r.2 }).Inv serverFd epollFd := by
  refine h.move d.reading hk rfl rfl (fun _ _ => rfl) fun client' hc' fd hon => ?_
  obtain rfl : r.1 = client' := Option.some.inj hc'
  obtain ⟨w, hw⟩ := (h.links k link hk).alone client hc fd hon
  have hstep : World.step (.client i) w = some { w with client := r.1, net := r.2 } := by
    rw [World.step_client, hw.client, hw.net, hs]
    rfl
  exact ⟨_, hw.step hstep rfl (Client.step_stepped (show client.step i link.net = some (r.1, r.2) from hs)).names rfl rfl
    hw.effects (fun hp => ⟨hp, rfl, rfl⟩) hw.served⟩

theorem Inv.write (h : d.Inv serverFd epollFd) {link : Link} (hk : d.links[k]? = some link) (hc : link.client = none)
    (bs : Bytes) :
    (d.setLink k { link with net := { link.net with toServer := link.net.toServer.write bs } }).Inv serverFd epollFd := by
  refine h.move d.reading hk rfl rfl (fun _ _ => rfl) fun client' hc' => ?_
  cases hc.symm.trans hc'

/-! ## The server reads -/

theorem phaseOf_other {k' : Nat} (hne : k' ≠ k) (reads : List Read) : phaseOf k' (some (k, reads)) = .waiting :=
  if_neg hne.symm

theorem setLink_self (hk : d.links[k]? = some link) : d.setLink k link = d := by
  obtain ⟨hlt, rfl⟩ := List.getElem?_eq_some_iff.1 hk
  rw [setLink, List.set_getElem_self]

/-- One `recv` in the loop of `TryRecv`. -/
theorem Inv.receive (h : d.Inv serverFd epollFd) {reads : List Read} {r : Read} (hr : d.reading = some (k, reads))
    (hs : d.receive k reads r = some d') : d'.Inv serverFd epollFd := by
  obtain ⟨hrun, link, fd', hk, hp, -⟩ := h.serving.within k reads hr
  have hother : ∀ k', k' ≠ k → phaseOf k' (some (k, reads ++ [r])) = phaseOf k' d.reading := by
    intro k' hne
    rw [hr, phaseOf_other hne, phaseOf_other hne]
  -- The client and its session by themselves are in the loop, too.
  have hlive : ∀ {client fd w}, link.place.On fd → d.Alone k link client fd w → link.place = .served fd ∧
      (d.server.solo fd).session = some w.server.session ∧ w.phase = .reading reads := by
    intro client fd w hon hw
    rw [hp] at hon
    have hp' : link.place = .served fd := hp.trans (congrArg Place.served hon)
    obtain ⟨hsession, hphase⟩ := hw.served hp' hrun
    rw [hr, phaseOf_self] at hphase
    exact ⟨hp', hsession, hphase⟩
  have hbacklog : link.place ≠ .backlog := by simp [hp]
  cases r with
  | data chunk =>
    simp only [Deployment.receive, hk] at hs
    split at hs
    · rename_i hchunk
      cases hs
      refine h.move _ hk rfl (by rw [hr]; rfl) hother fun client hc fd hon => ?_
      obtain ⟨w, hw⟩ := (h.links k link hk).alone client hc fd hon
      obtain ⟨-, hsession, hphase⟩ := hlive hon hw
      refine ⟨_, hw.step (World.step_data hphase (by rwa [hw.net])) rfl ⟨rfl, rfl⟩ hw.client ?_ hw.effects
        (fun hb => absurd hb hbacklog) fun _ _ => ⟨hsession, (phaseOf_self k _).symm⟩⟩
      rw [← hw.net]
    · cases hs
  | eintr =>
    cases hs
    rw [← setLink_self hk]
    refine h.move _ hk rfl (by rw [hr]; rfl) hother fun client hc fd hon => ?_
    obtain ⟨w, hw⟩ := (h.links k link hk).alone client hc fd hon
    obtain ⟨-, hsession, hphase⟩ := hlive hon hw
    exact ⟨_, hw.step (World.step_eintr hphase) rfl ⟨rfl, rfl⟩ hw.client hw.net hw.effects
      (fun hb => absurd hb hbacklog) fun _ _ => ⟨hsession, (phaseOf_self k _).symm⟩⟩

/-! ## The server accepts -/

theorem Serving.accept (h : d.Serving serverFd epollFd) (hidle : d.Idle) {fd : Int} {peer : Server.Endpoint}
    {addOk ntopOk : Bool} {s : Server}
    (hs : Server.acceptNewConnections ⟨[.conn fd peer addOk ntopOk]⟩ d.server = .returns () s) (links : List Link) :
    Serving serverFd epollFd { d with server := s, links := links } := by
  obtain ⟨hrun, hr⟩ := hidle
  obtain ⟨rs, -, hg⟩ := h.between hr
  have hstep : Server.step ⟨d.server.serverFd, .brings [], ⟨[.conn fd peer addOk ntopOk]⟩⟩ d.server = .returns () s := by
    simp only [Server.step, Proc.bind_apply, Proc.get_apply, if_true]
    exact hs
  have hg' := (hg hrun).snoc (show Server.serving.next _ _ _ from hstep)
  exact ⟨fun _ => ⟨_, .goes hg', fun _ => hg'⟩, fun k reads hr' => absurd (hr.symm.trans hr') (by simp)⟩

/-- A connection is accepted, or closed again at once. -/
theorem Inv.accept (h : d.Inv serverFd epollFd) (hidle : d.Idle) {fd : Int} {addOk ntopOk : Bool}
    (hs : d.accept k fd addOk ntopOk = some d') : d'.Inv serverFd epollFd := by
  obtain ⟨hrun, hr⟩ := hidle
  unfold Deployment.accept at hs
  split at hs
  · rename_i link hk
    split at hs
    · rename_i s hp hacc
      cases hs
      obtain ⟨hfree, hsession, hothers, heffects⟩ := Server.accepts_of_returns (h.serving.consistent hrun) hacc
      -- The descriptor was free, so no other connection has it.
      have hne : ∀ (k' : Nat) (link' : Link) (fd' : Int), d.links[k']? = some link' → link'.place = .served fd' →
          fd' ≠ fd := by
        rintro k' link' fd' hk' hp' rfl
        have hsome := (h.links k' link' hk').session hrun _ hp'
        simp [hfree] at hsome
      refine h.relink hk rfl ⟨(links_set hk rfl).2, fun _ _ => rfl, fun _ _ => rfl, id, ?_⟩
        (h.serving.accept ⟨hrun, hr⟩ hacc _) (heffects.trans h.shown) (fun _ hp => .inl hp) ?_ ?_
      · exact fun _ k' link' fd' _ hk' hp' => congrArg Server.Solo.session (hothers fd' (hne k' link' fd' hk' hp'))
      · intro _ fd' hp'
        obtain ⟨htab, rfl⟩ := Place.after_served.1 hp'
        exact ⟨Option.isSome_of_eq_some (hsession htab), .inr hfree⟩
      · intro client hc fd' hon
        obtain rfl := Place.after_on hon
        obtain ⟨w, hw⟩ := (h.links k link hk).alone client hc fd (by rw [hp]; trivial)
        obtain ⟨hfresh, hwaits⟩ := hw.backlog hp
        refine ⟨w, hw.run, hw.client, hw.net, hw.effects, fun hp' => absurd hp' Place.after_ne, fun hp' _ => ⟨?_, ?_⟩⟩
        · rw [hfresh]
          exact hsession (Place.after_served.1 hp').1
        · rw [hwaits]
          exact (congrArg (phaseOf k) hr).symm
    · cases hs
  · cases hs

/-! ## The server serves -/

theorem shownBy_snoc {k' : Nat} {es : List Effect} (h : d'.shown = d.shown ++ es.map (k, ·)) :
    d'.shownBy k' = d.shownBy k' ++ if k' = k then es else [] := by
  rw [shownBy, h, List.filter_append, List.map_append, ← shownBy]
  congr 1
  split
  · rename_i hk
    simp [hk, List.filter_map, Function.comp_def]
  · rename_i hk
    simp [Ne.symm hk, List.filter_map, Function.comp_def]

/-- The session of the connection `k` has served an event. -/
theorem Inv.served (h : d.Inv serverFd epollFd) {link : Link} {fd : Int} {s : Server} {keep running : Bool} {c : Conn}
    {reading : Option (Nat × List Read)} (hk : d.links[k]? = some link) (hp : link.place = .served fd)
    (hrun : d.running = true) (hh : Server.Handles fd keep c d.server s)
    (hwait : ∀ k', k' ≠ k → phaseOf k' d.reading = .waiting ∧ phaseOf k' reading = .waiting)
    (hserving : (d.served k fd link s running reading).Serving serverFd epollFd)
    (hworld : ∀ client w, d.Alone k link client fd w → ∃ i phase,
      World.step i w = some (w.left (c.behind w.server.effects) phase) ∧
        (keep = true → running = true → phase = phaseOf k reading)) :
    (d.served k fd link s running reading).Inv serverFd epollFd := by
  obtain ⟨htabled, hsession, hothers, new, htrace, hnew⟩ := hh
  have heffects : Server.effects (s.trace.drop d.server.trace.length) = c.effects := by
    rw [htrace, List.drop_left, hnew]
  have hshown : (d.served k fd link s running reading).shown = d.shown ++ c.effects.map (k, ·) := by
    rw [← heffects]
    rfl
  have hne : ∀ (k' : Nat) (link' : Link) (fd' : Int), k' ≠ k → d.links[k']? = some link' → link'.place = .served fd' →
      fd' ≠ fd := by
    rintro k' link' fd' hne hk' hp' rfl
    exact hne ((h.links k link hk).distinct hrun _ hp k' link' hk' hp')
  refine h.relink hk rfl ⟨(links_set hk rfl).2, fun k' hne => ?_, fun k' hne => ?_, fun _ => hrun, ?_⟩ hserving ?_ ?_ ?_ ?_
  · rw [shownBy_snoc hshown, if_neg hne, List.append_nil]
  · obtain ⟨h₁, h₂⟩ := hwait k' hne
    rw [h₁]
    simp only [Deployment.served]
    split
    · exact h₂
    · rfl
  · exact fun _ k' link' fd' hk' hl' hp' => congrArg Server.Solo.session (hothers fd' (hne k' link' fd' hk' hl' hp'))
  · rw [hshown, List.map_append, ← h.shown]
    show Server.effects s.trace = _
    rw [htrace, Server.effects_append, hnew]
    simp [Function.comp_def]
  · intro p hp
    rw [hshown] at hp
    rcases List.mem_append.1 hp with hp | hp
    · exact .inl hp
    · obtain ⟨e, -, rfl⟩ := List.mem_map.1 hp
      exact .inr rfl
  · intro _ fd' hp'
    obtain ⟨htab, rfl⟩ := Place.after_served.1 hp'
    exact ⟨Option.isSome_of_eq_some (hsession (htabled.symm.trans htab)), .inl hp⟩
  · intro client hc fd' hon
    obtain rfl := Place.after_on hon
    obtain ⟨w, hw⟩ := (h.links k link hk).alone client hc fd (by rw [hp]; rfl)
    obtain ⟨i, phase, hstep, hphase⟩ := hworld client w hw
    refine ⟨_, hw.step hstep rfl ⟨rfl, rfl⟩ hw.client ?_ ?_ (fun hb => absurd hb Place.after_ne) fun hp' hrun' => ⟨?_, ?_⟩⟩
    · dsimp only [World.left, Conn.behind]
      rw [List.drop_left, hw.net, heffects]
    · rw [shownBy_snoc hshown, if_pos rfl, ← hw.effects]
      rfl
    · exact hsession (htabled.symm.trans (Place.after_served.1 hp').1)
    · have htab := (Place.after_served.1 hp').1
      rw [show (w.left (c.behind w.server.effects) phase).phase = phase from rfl,
        hphase (htabled.symm.trans htab) hrun']
      simp only [Deployment.served, htab, if_true]

theorem Serving.of_returns {rs : List Server.Ready} {s : Server} {fd : Int} {e : Event}
    (hg : Server.serving.Goes (.start serverFd epollFd) rs s) (hfd : fd ≠ s.serverFd) (hr : d'.reading = none)
    (hs : Server.handleEvent fd e s = .returns () d'.server) : d'.Serving serverFd epollFd := by
  have hstep : Server.step ⟨fd, e, ⟨[]⟩⟩ s = .returns () d'.server := by
    simp only [Server.step, Proc.bind_apply, Proc.get_apply, if_neg hfd]
    exact hs
  have hg' := hg.snoc (show Server.serving.next _ _ _ from hstep)
  exact ⟨fun _ => ⟨_, .goes hg', fun _ => hg'⟩, fun k reads hr' => absurd (hr.symm.trans hr') (by simp)⟩

theorem Serving.of_throws {rs : List Server.Ready} {s : Server} {fd : Int} {e : Event} {x : Exn}
    (hg : Server.serving.Goes (.start serverFd epollFd) rs s) (hfd : fd ≠ s.serverFd) (hr : d'.reading = none)
    (hrun : d'.running = false) (hs : Server.handleEvent fd e s = .throws (.thrown x) d'.server) :
    d'.Serving serverFd epollFd := by
  have hstep : Server.step ⟨fd, e, ⟨[]⟩⟩ s = .throws (.thrown x) d'.server := by
    simp only [Server.step, Proc.bind_apply, Proc.get_apply, if_neg hfd]
    exact hs
  have hv := System.Visits.ends hg (show Server.serving.last _ _ _ from ⟨x, hstep⟩)
  exact ⟨fun _ => ⟨_, hv, fun hrun' => absurd (hrun.symm.trans hrun') (by simp)⟩,
    fun k reads hr' => absurd (hr.symm.trans hr') (by simp)⟩

/-- How `HandleEvent` for the connection `k` ends. -/
theorem Inv.handle_cases (h : d.Inv serverFd epollFd) (hrun : d.running = true) {e : Event}
    {reading : Option (Nat × List Read)} (hs : d.handle k e reading = some d') :
    ∃ link fd s session keep c, d.links[k]? = some link ∧ link.place = .served fd ∧ fd ≠ d.server.serverFd ∧
      (d.server.solo fd).session = some session ∧ Server.Handles fd keep c d.server s ∧
      ((Server.handleEvent fd e d.server = .returns () s ∧ serveEvent e ⟨session, []⟩ = .returns keep c ∧
          d' = d.served k fd link s true reading) ∨
        ∃ x, Server.handleEvent fd e d.server = .throws (.thrown x) s ∧ serveEvent e ⟨session, []⟩ = .throws x c ∧
          d' = d.served k fd link s false none) := by
  have hcons := h.serving.consistent hrun
  unfold handle at hs
  split at hs
  · rename_i link hk
    split at hs
    · rename_i fd hp
      obtain ⟨session, hsession⟩ := Option.isSome_iff_exists.1 ((h.links k link hk).session hrun fd hp)
      obtain ⟨p, htab, -⟩ := Server.solo_session hcons hsession
      have hfd := ((hcons.keys fd).1 (by simp [htab])).1
      obtain ⟨hreturns, hthrows⟩ := Server.handleEvent_ends hcons hsession e
      split at hs
      · rename_i s hret
        cases hs
        obtain ⟨keep, c, hserve, hh⟩ := hreturns s hret
        exact ⟨link, fd, s, session, keep, c, hk, hp, hfd, hsession, hh, .inl ⟨hret, hserve, rfl⟩⟩
      · rename_i y s hthr
        cases hs
        obtain ⟨x, c, hx, hserve, hh⟩ := hthrows (.thrown y) s hthr
        cases hx
        exact ⟨link, fd, s, session, true, c, hk, hp, hfd, hsession, hh, .inr ⟨y, hthr, hserve, rfl⟩⟩
      · cases hs
    · cases hs
  · cases hs

/-- An event, or a part of one, takes the deployment on if it takes the server on. -/
theorem Inv.handle (h : d.Inv serverFd epollFd) (hrun : d.running = true) {e : Event}
    {reading : Option (Nat × List Read)} (hs : d.handle k e reading = some d')
    (hwait : ∀ k', k' ≠ k → phaseOf k' d.reading = .waiting ∧ phaseOf k' reading = .waiting)
    (hserving : d'.Serving serverFd epollFd)
    (hworld : ∀ w : World, w.phase = phaseOf k d.reading →
      ∃ i, World.step i w = w.serve (serveEvent e) (phaseOf k reading)) : d'.Inv serverFd epollFd := by
  obtain ⟨link, fd, s, session, keep, c, hk, hp, -, hsession, hh, ⟨-, hserve, rfl⟩ | ⟨x, -, hserve, rfl⟩⟩ :=
    h.handle_cases hrun hs
  · refine h.served hk hp hrun hh hwait hserving fun client w hw => ?_
    obtain ⟨hsame, hphase⟩ := hw.served hp hrun
    cases hsession.symm.trans hsame
    obtain ⟨i, hi⟩ := hworld w hphase
    refine ⟨i, _, hi.trans (World.serve_returns hserve _), ?_⟩
    rintro rfl -
    rfl
  · refine h.served hk hp hrun hh (fun k' hne => ⟨(hwait k' hne).1, rfl⟩) hserving fun client w hw => ?_
    obtain ⟨hsame, hphase⟩ := hw.served hp hrun
    cases hsession.symm.trans hsame
    obtain ⟨i, hi⟩ := hworld w hphase
    exact ⟨i, _, hi.trans (World.serve_throws hserve _), fun _ hf => nomatch hf⟩

/-- The first part of an event. -/
theorem Inv.event (h : d.Inv serverFd epollFd) (hidle : d.Idle) {e : Event}
    (hs : d.handle k { e with epollin := false } (if e.epollin then some (k, []) else none) = some d') :
    d'.Inv serverFd epollFd := by
  obtain ⟨hrun, hr⟩ := hidle
  obtain ⟨rs, -, hg⟩ := h.serving.between hr
  have hg := hg hrun
  have hcons := h.serving.consistent hrun
  refine h.handle hrun hs ?_ ?_ ?_
  · intro k' hne
    rw [hr]
    split
    · exact ⟨rfl, phaseOf_other hne []⟩
    · exact ⟨rfl, rfl⟩
  · obtain ⟨link, fd, s, session, keep, c, hk, hp, hfd, hsession, hh, ⟨hret, hserve, rfl⟩ | ⟨x, hthr, hserve, rfl⟩⟩ :=
      h.handle_cases hrun hs
    · by_cases hin : e.epollin = true
      · rw [if_pos hin]
        cases htab : (s.fdSessionHt fd).isSome with
        | true =>
          have hreading : (d.served k fd link s true (some (k, []))).reading = some (k, []) := by
            simp [Deployment.served, htab]
          refine ⟨fun hn => absurd (hreading.symm.trans hn) (by simp), fun k' reads hr' => ⟨rfl, ?_⟩⟩
          cases hreading.symm.trans hr'
          exact ⟨_, fd, (links_set hk rfl).1, Place.after_served.2 ⟨htab, rfl⟩, rs, d.server, e, hg, hin, hret⟩
        | false =>
          -- The session is gone, so the rest of the event does nothing.
          have hgone : s.fdSessionHt fd = none := by simpa using htab
          refine .of_returns hg hfd (by simp [Deployment.served, htab]) (e := e) ?_
          exact (Server.handleEvent_second hcons hin e.inp hret).trans (Server.handleEvent_untabled _ hgone)
      · exact .of_returns hg hfd (by simp [Deployment.served, hin]) hret
    · refine .of_throws hg hfd (by simp [Deployment.served]) rfl (e := e) (x := x) ?_
      rw [Server.handleEvent_parts hcons, Proc.bind_throws hthr]
      rfl
  · intro w hw
    rw [hr] at hw
    refine ⟨.event e, ?_⟩
    unfold World.step
    simp only [hw, phaseOf]
    cases e.epollin <;> simp

/-- The rest of an event. -/
theorem Inv.recvEnd (h : d.Inv serverFd epollFd) {reads : List Read} (hr : d.reading = some (k, reads)) {stop : RecvEnd}
    {send : SendScript} {save : SaveEnv} {mod : Option String}
    (hs : d.handle k (.onlyIn { recv := ⟨reads, stop⟩, send := send, save := save, mod := mod }) none = some d') :
    d'.Inv serverFd epollFd := by
  obtain ⟨hrun, link₀, fd₀, hk₀, hp₀, rs, s₀, e, hg, hin, hfirst⟩ := h.serving.within k reads hr
  have hcons := Server.serving_consistent hg
  refine h.handle hrun hs ?_ ?_ ?_
  · intro k' hne
    rw [hr]
    exact ⟨phaseOf_other hne reads, rfl⟩
  · obtain ⟨link, fd, s, session, keep, c, hk, hp, hfd, hsession, hh, hends⟩ := h.handle_cases hrun hs
    cases hk₀.symm.trans hk
    cases hp₀.symm.trans hp
    have hlistener : s₀.serverFd = d.server.serverFd := by
      rcases Server.handleEvent_returns hcons hfirst with ⟨-, hsame⟩ | ⟨_, _, keep', _, -, -, -, hserved⟩
      · rw [hsame]
      · rw [hserved]
        cases keep' <;> rfl
    rw [← hlistener] at hfd
    have hsecond := Server.handleEvent_second hcons hin { recv := ⟨reads, stop⟩, send := send, save := save, mod := mod }
      hfirst
    obtain ⟨hret, -, rfl⟩ | ⟨x, hthr, -, rfl⟩ := hends
    · exact .of_returns hg hfd (by simp [Deployment.served]) (hsecond.trans hret)
    · exact .of_throws hg hfd (by simp [Deployment.served]) rfl (hsecond.trans hthr)
  · intro w hw
    rw [hr, phaseOf_self] at hw
    refine ⟨.recvEnd stop send save mod, ?_⟩
    unfold World.step
    simp only [hw, phaseOf]
    rw [funext (serveEvent_onlyIn _)]

/-! ## Runs -/

/-- Every step keeps what is known of all connections. -/
theorem Inv.step (h : d.Inv serverFd epollFd) {i : Input} (hs : Deployment.step i d = some d') : d'.Inv serverFd epollFd := by
  cases i with
  | connect peer hostname username timeoutSec =>
    cases hs
    apply h.join
    intro c hc
    exact ⟨hostname, username, timeoutSec, (Option.some.inj hc).symm⟩
  | stranger peer =>
    cases hs
    apply h.join
    intro c hc
    cases hc
  | client k i =>
    simp only [Deployment.step] at hs
    split at hs
    · rename_i peer client net place hk
      obtain ⟨r, hr, rfl⟩ := Option.map_eq_some_iff.1 hs
      exact h.client hk rfl hr
    · cases hs
  | write k bs =>
    simp only [Deployment.step] at hs
    split at hs
    · rename_i peer net place hk
      cases hs
      exact h.write hk rfl bs
    · cases hs
  | accept k fd addOk ntopOk =>
    simp only [Deployment.step] at hs
    split at hs
    · rename_i hidle
      exact h.accept hidle hs
    · cases hs
  | event k e =>
    simp only [Deployment.step] at hs
    split at hs
    · rename_i hidle
      exact h.event hidle hs
    · cases hs
  | recv r =>
    simp only [Deployment.step] at hs
    split at hs
    · rename_i k reads hr
      exact h.receive hr hs
    · cases hs
  | recvEnd stop send save mod =>
    simp only [Deployment.step] at hs
    split at hs
    · rename_i k reads hr
      exact h.recvEnd hr hs
    · cases hs

theorem start_inv (serverFd epollFd : Int) : (start serverFd epollFd).Inv serverFd epollFd := by
  refine ⟨⟨fun _ => ⟨[], .goes .nil, fun _ => .nil⟩, fun k reads hr => ?_⟩, rfl, fun p hp => ?_, fun k link hk => ?_⟩
  · cases hr
  · cases hp
  · cases hk

/-- In every run, what the server keeps fits together with all connections, and
each client with its session is in a state of `worlds`. -/
theorem deployment_inv {is : List Input} (h : deployments.Goes (start serverFd epollFd) is d) : d.Inv serverFd epollFd := by
  apply h.inv fun _ d => d.Inv serverFd epollFd
  · exact start_inv serverFd epollFd
  · exact fun _ _ _ _ _ hd hs => hd.step hs

theorem exists_on (place : Place) : ∃ fd, place.On fd := by
  cases place with
  | backlog => exact ⟨0, trivial⟩
  | served fd => exact ⟨fd, rfl⟩
  | closed fd => exact ⟨fd, rfl⟩

end Inv

end Deployment

/-- In every run with any number of connections, whatever their other ends do and
whenever they act: between events the server is in a state that `serving`
visits, and what its sessions have shown, each has shown for one connection. A
client enters `SendLoop` only if its own request was accepted, and the images
saved for it are the first of those it framed, each as it was framed and under
its names. -/
theorem deployment_saves (serverFd epollFd : Int) (is : List Deployment.Input) (d : Deployment)
    (h : deployments.Goes (.start serverFd epollFd) is d) :
    (d.reading = none → ∃ rs, Server.serving.Visits (.start serverFd epollFd) rs d.server) ∧
    Server.effects d.server.trace = d.shown.map Prod.snd ∧ (∀ p ∈ d.shown, p.1 < d.links.length) ∧
    ∀ k link client, d.links[k]? = some link → link.client = some client → client.hostname.length ≤ 65535 →
      client.username.length ≤ 65535 →
      (∀ img ∈ client.framed, 0 < img.length ∧ img.length ≤ Limit.maxMessageSize) →
        (client.entered = true → ∃ m, .auth m true ∈ d.shownBy k) ∧
        ((saves (d.shownBy k)).map fun call => call.msg.bytesVec) <+: client.framed ∧
        ∀ call ∈ saves (d.shownBy k), call.hostname = client.hostname ∧ call.username = client.username := by
  have hd := Deployment.deployment_inv h
  refine ⟨fun hr => ?_, hd.shown, hd.owned, fun k link client hk hc hh hu hi => ?_⟩
  · obtain ⟨rs, hv, -⟩ := hd.serving.between hr
    exact ⟨rs, hv⟩
  · obtain ⟨fd, hon⟩ := Deployment.exists_on link.place
    obtain ⟨w, hw⟩ := (hd.links k link hk).alone client hc fd hon
    obtain ⟨timeoutSec, is, hrun⟩ := hw.run
    have hinv := world_inv hrun
    obtain rfl := hw.client
    rw [← hw.effects]
    exact ⟨hinv.entered, hinv.images hh hu hi, fun call hcall => hinv.saved hh hu hi hcall⟩

/-- An IN event of the connection `k` that brings the bytes of `chunk`. -/
def Deployment.Input.brings (k : Nat) (chunk : Chunk) : List Deployment.Input :=
  let i := InInput.brings []
  [.event k (.onlyIn i), .recv (.data chunk), .recvEnd .eagain i.send i.save i.mod]

/-- Two clients, and some other program between them on the descriptor that the
second client gets. The first client's request comes in two parts, between which
the second one writes. -/
def Deployment.sampleRun : List Deployment.Input :=
  let i := InInput.brings []
  [[.connect samplePeer (lit "pc") (lit "al") 10, .stranger ⟨10, 0, 0, 2, 99⟩, .accept 0 5 true true,
      .accept 1 6 true true, .write 1 [73, 0, 0, 0, 1, 3]],
    Deployment.Input.brings 1 (.of [73, 0, 0, 0, 1, 3]),
    [.event 1 { Event.onlyIn i with err := true }, .connect ⟨10, 0, 0, 3, 99⟩ (lit "lab") (lit "bo") 10,
      .accept 2 6 true true, .client 0 (.sent 99), .client 0 .none, .event 0 (.onlyIn i),
      .recv (.data (.of [65, 0, 0])), .client 2 (.sent 99), .client 2 .none,
      .recv (.data (.of [0, 8, 0, 2, 112, 99, 0, 2, 97, 108])), .recvEnd .eagain i.send i.save i.mod],
    Deployment.Input.brings 2 (.of [65, 0, 0, 0, 9, 0, 3, 108, 97, 98, 0, 2, 98, 111]),
    [.client 0 (.received 0), .client 0 .none, .client 2 (.received 0), .client 2 .none, .client 0 (.stopFlag false),
      .client 0 (.grabbed [5, 6]), .client 2 (.stopFlag false), .client 2 (.grabbed [4]), .client 2 (.sent 99),
      .client 0 (.sent 99)],
    Deployment.Input.brings 2 (.of [73, 0, 0, 0, 1, 4]),
    Deployment.Input.brings 0 (.of [73, 0, 0, 0, 2, 5, 6])].flatten

/-- Of the client `k`: its names, the images it framed, and those saved for it. -/
def Deployment.seen (d : Deployment) (k : Nat) : Option (List (List Bytes)) :=
  (d.links[k]?.bind Link.client).map fun c =>
    [[c.hostname, c.username], c.framed, (saves (d.shownBy k)).map fun call => call.msg.bytesVec]

theorem deployment_saves_two :
    ∃ d, System.exec Deployment.step (.start 3 4) Deployment.sampleRun = some d ∧
      ((saves (d.shownBy 0)).map fun call => call.msg.bytesVec) = [[5, 6]] ∧
      ((saves (d.shownBy 2)).map fun call => call.msg.bytesVec) = [[4]] ∧
      (∀ call ∈ saves (d.shownBy 0), call.hostname = lit "pc" ∧ call.username = lit "al") ∧
      ∀ call ∈ saves (d.shownBy 2), call.hostname = lit "lab" ∧ call.username = lit "bo" := by
  have hrun : (System.exec Deployment.step (.start 3 4) Deployment.sampleRun).map (fun d => [d.seen 0, d.seen 2]) =
      some [some [[lit "pc", lit "al"], [[5, 6]], [[5, 6]]], some [[lit "lab", lit "bo"], [[4]], [[4]]]] := by
    decide +kernel
  obtain ⟨d, hd, hseen⟩ := Option.map_eq_some_iff.1 hrun
  obtain ⟨h0, hseen⟩ := List.cons.inj hseen
  obtain ⟨h2, -⟩ := List.cons.inj hseen
  obtain ⟨-, -, -, hall⟩ := deployment_saves 3 4 _ d (System.exec_goes hd)
  have saved : ∀ {k : Nat} {hostname username : Bytes} {framed imgs : List Bytes},
      d.seen k = some [[hostname, username], framed, imgs] → hostname.length ≤ 65535 → username.length ≤ 65535 →
      (∀ img ∈ framed, 0 < img.length ∧ img.length ≤ Limit.maxMessageSize) →
      ((saves (d.shownBy k)).map fun call => call.msg.bytesVec) = imgs ∧
        ∀ call ∈ saves (d.shownBy k), call.hostname = hostname ∧ call.username = username := by
    intro k hostname username framed imgs hk hh hu hi
    obtain ⟨client, hlink, hc⟩ := Option.map_eq_some_iff.1 hk
    obtain ⟨link, hl, hclient⟩ := Option.bind_eq_some_iff.1 hlink
    simp only [List.cons.injEq, and_true] at hc
    obtain ⟨⟨rfl, rfl⟩, rfl, rfl⟩ := hc
    exact ⟨rfl, (hall k link client hl hclient hh hu hi).2.2⟩
  obtain ⟨hs0, hn0⟩ := saved h0 (by decide) (by decide) (by decide)
  obtain ⟨hs2, hn2⟩ := saved h2 (by decide) (by decide) (by decide)
  exact ⟨d, hd, hs0, hs2, hn0, hn2⟩

end RemoteScreenCapture
