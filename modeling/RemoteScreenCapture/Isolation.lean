import RemoteScreenCapture.Table
import RemoteScreenCapture.Calls
/-!
# Clients by themselves

What the server keeps of a descriptor is what this descriptor would have come
to by itself, given its own connections and events alone (`run_solo`). Events
of two descriptors can be served in either order.
-/
open Lib

namespace RemoteScreenCapture

namespace Server

/-! ## One descriptor -/

/-- What there is of one descriptor: its session, its interest mask, and what
has happened to it. -/
structure Solo where
  session : Option Session
  mask : Option Mask
  trace : List FdEvent
  deriving DecidableEq

/-- What comes to one descriptor. -/
inductive Solo.Input where
  | accept (peer : Endpoint) (addOk ntopOk : Bool)
  | event (e : Event)

/-- One descriptor by itself: a connection makes a session, which serves events
until it is closed. Events that come later are ignored. -/
def Solo.step (fd : Int) : Solo.Input → Solo → Option Solo
  | .accept peer addOk ntopOk, ⟨none, _, trace⟩ =>
    if addOk && ntopOk then
      let session := (Conn.fresh (makeUniqueFD fd) (inetNtop peer) (toDecimal peer.port.toNat)).session
      some ⟨some session, some .initial, trace ++ [.accept fd, .insert fd false]⟩
    else some ⟨none, none, trace ++ [.accept fd, .close fd]⟩
  -- The kernel gives out no descriptor that is open.
  | .accept _ _ _, ⟨some _, _, _⟩ => none
  -- `HandleEvent` returns at once if there is no entry.
  | .event _, ⟨none, mask, trace⟩ => some ⟨none, mask, trace⟩
  | .event e, ⟨some session, mask, trace⟩ =>
    match serveEvent e ⟨session, []⟩ with
    | .returns true c =>
      some ⟨some c.session, Server.maskAfter mask c.effects, trace ++ c.effects.map (.shown fd)⟩
    | .returns false c =>
      some ⟨none, none, trace ++ (c.effects.map (.shown fd) ++ [.erase fd, .close fd])⟩
    | _ => none

/-- What the server keeps of a descriptor. -/
def solo (s : Server) (fd : Int) : Solo where
  session := (s.fdSessionHt fd).bind fun p => (s.heap p).map Object.session
  mask := s.kernel.interest fd
  trace := s.trace.filter (·.fd = fd)

/-- The connection, if it is one on `fd`. -/
def Accept.input? (fd : Int) : Accept → Option Solo.Input
  | .eintr => none
  | .conn fd' peer addOk ntopOk => if fd' = fd then some (.accept peer addOk ntopOk) else none

/-- What an event of a batch brings to `fd`. -/
def Ready.inputs (serverFd fd : Int) (r : Ready) : List Solo.Input :=
  if r.fd = serverFd then r.accepts.accepts.filterMap (Accept.input? fd)
  else if r.fd = fd then [.event r.event]
  else []

def inputs (serverFd fd : Int) (rs : List Ready) : List Solo.Input := rs.flatMap (Ready.inputs serverFd fd)

theorem inputs_snoc (serverFd fd : Int) (rs : List Ready) (r : Ready) :
    inputs serverFd fd (rs ++ [r]) = inputs serverFd fd rs ++ r.inputs serverFd fd := by
  rw [inputs, List.flatMap_append, List.flatMap_singleton, inputs]

/-! ## Changes of one descriptor -/

section Views
variable {s s' : Server} {fd fd' : Int} {p : Nat}

theorem solo_untabled (htab : s.fdSessionHt fd = none) :
    s.solo fd = ⟨none, s.kernel.interest fd, s.trace.filter (·.fd = fd)⟩ := by
  rw [solo, htab]
  rfl

theorem solo_tabled {session : Session} {n : Nat} (htab : s.fdSessionHt fd = some p)
    (hheap : s.heap p = some ⟨session, n⟩) :
    s.solo fd = ⟨some session, s.kernel.interest fd, s.trace.filter (·.fd = fd)⟩ := by
  rw [solo, htab, Option.bind_some, hheap]
  rfl

theorem filter_own {new : List FdEvent} (h : ∀ e ∈ new, e.fd = fd) : new.filter (·.fd = fd) = new := by
  rw [List.filter_eq_self]
  intro e he
  simpa using h e he

theorem filter_other {new : List FdEvent} (h : ∀ e ∈ new, e.fd = fd) (hne : fd' ≠ fd) :
    new.filter (·.fd = fd') = [] := by
  rw [List.filter_eq_nil_iff]
  intro e he
  rw [h e he]
  simpa using Ne.symm hne

/-- What is kept of the other descriptors stays as it is. -/
theorem Touches.solo {new : List FdEvent} (h : Touches fd new s s')
    (hi : s'.kernel.interest fd' = s.kernel.interest fd') (hne : fd' ≠ fd) : s'.solo fd' = s.solo fd' := by
  have hview : s'.trace.filter (·.fd = fd') = s.trace.filter (·.fd = fd') := by
    rw [h.trace, List.filter_append, filter_other h.own hne, List.append_nil]
  have hsession : (s'.fdSessionHt fd').bind (fun p => (s'.heap p).map Object.session) =
      (s.fdSessionHt fd').bind fun p => (s.heap p).map Object.session := by
    rw [h.table fd' hne]
    cases htab : s.fdSessionHt fd' with
    | none => rfl
    | some p => rw [Option.bind_some, Option.bind_some, h.heap fd' p hne htab]
  rw [Server.solo, Server.solo, hview, hsession, hi]

/-! ## One step -/

/-- The server after an event that the session at `p` has served. -/
def served (s : Server) (fd : Int) (p : Nat) (keep : Bool) (c : Conn) : Server :=
  if keep then s.kept fd p c else (s.kept fd p c).removed fd p

section Served
variable {keep : Bool} {c : Conn}

theorem served_table : (s.served fd p keep c).fdSessionHt =
    if keep then s.fdSessionHt else Function.update s.fdSessionHt fd none := by
  cases keep <;> rfl

theorem served_heap : (s.served fd p keep c).heap =
    Function.update s.heap p (if keep then some ⟨c.session, 1⟩ else none) := by
  cases keep with
  | true => rfl
  | false => simp [served, removed, kept, handled, showed, setObject]

theorem served_isOpen : (s.served fd p keep c).kernel.isOpen =
    if keep then s.kernel.isOpen else Function.update s.kernel.isOpen fd false := by
  cases keep <;> rfl

theorem served_interest : (s.served fd p keep c).kernel.interest =
    Function.update s.kernel.interest fd (if keep then maskAfter (s.kernel.interest fd) c.effects else none) := by
  cases keep with
  | true => rfl
  | false => simp [served, removed, kept, handled, showed, interestAfter, Kernel.close]

/-- What an event adds to the trace. -/
def happened (fd : Int) (es : List Effect) (keep : Bool) : List FdEvent :=
  es.map (.shown fd) ++ if keep then [] else [.erase fd, .close fd]

theorem served_trace : (s.served fd p keep c).trace = s.trace ++ happened fd c.effects keep := by
  cases keep <;> simp [served, removed, kept, handled, showed, setObject, happened]

theorem happened_own (fd : Int) (es : List Effect) (keep : Bool) : ∀ e ∈ happened fd es keep, e.fd = fd := by
  intro e he
  rcases List.mem_append.1 he with he | he
  · exact shown_own fd es e he
  · cases keep with
    | true => cases he
    | false => rcases List.mem_pair.1 he with rfl | rfl <;> rfl

theorem served_solo (htab : s.fdSessionHt fd = some p) : (s.served fd p keep c).solo fd =
    ⟨if keep then some c.session else none, if keep then maskAfter (s.kernel.interest fd) c.effects else none,
      s.trace.filter (·.fd = fd) ++ happened fd c.effects keep⟩ := by
  rw [Server.solo, served_table, served_heap, served_interest, served_trace, List.filter_append,
    filter_own (happened_own fd c.effects keep), Function.update_self]
  cases keep with
  | true => simp [htab]
  | false => simp

end Served

theorem acceptOne_returns (h : Consistent true s) {peer : Endpoint} {addOk ntopOk : Bool}
    (hs : acceptOne fd peer addOk ntopOk s = .returns () s') :
    s.kernel.isOpen fd = false ∧ s' = if addOk && ntopOk then
      s.admitted fd (Conn.fresh (makeUniqueFD fd) (inetNtop peer) (toDecimal peer.port.toNat)).session
    else s.refused fd := by
  by_cases hbad : fd < 0 ∨ s.kernel.isOpen fd = true
  · rw [acceptOne_impossible peer addOk ntopOk hbad] at hs
    cases hs
  · obtain ⟨hpos, hopen⟩ := not_or.1 hbad
    have hopen : s.kernel.isOpen fd = false := by simpa using hopen
    rw [acceptOne_spec peer addOk ntopOk (Int.not_lt.1 hpos) hopen (h.untabled hopen)] at hs
    cases hs
    exact ⟨hopen, rfl⟩

theorem handleEvent_returns (h : Consistent true s) {e : Event} (hs : handleEvent fd e s = .returns () s') :
    s.fdSessionHt fd = none ∧ s' = s ∨
    ∃ p session keep c, s.fdSessionHt fd = some p ∧ s.heap p = some ⟨session, 1⟩ ∧
      serveEvent e ⟨session, []⟩ = .returns keep c ∧ s' = s.served fd p keep c := by
  cases htab : s.fdSessionHt fd with
  | none =>
    rw [handleEvent_untabled e htab] at hs
    cases hs
    exact .inl ⟨rfl, rfl⟩
  | some p =>
    obtain ⟨-, -, c₀, -, hheap, -⟩ := h.held fd p htab
    rw [handleEvent_spec h e htab hheap] at hs
    cases hserve : serveEvent e ⟨c₀.session, []⟩ with
    | returns keep c =>
      rw [hserve] at hs
      refine .inr ⟨p, _, keep, c, rfl, hheap, hserve, ?_⟩
      cases keep <;> cases hs <;> rfl
    | throws x c =>
      rw [hserve] at hs
      cases hs
    | diverges =>
      rw [hserve] at hs
      cases hs

/-- A connection is set up as it would be if there were no other descriptor. -/
theorem acceptOne_solo (h : Consistent true s) {peer : Endpoint} {addOk ntopOk : Bool}
    (hs : acceptOne fd peer addOk ntopOk s = .returns () s') (fd' : Int) :
    System.exec (Solo.step fd') (s.solo fd') ([Accept.conn fd peer addOk ntopOk].filterMap (Accept.input? fd')) =
      some (s'.solo fd') := by
  obtain ⟨hopen, rfl⟩ := acceptOne_returns h hs
  have hnone := h.untabled hopen
  by_cases hfd : fd' = fd
  · subst hfd
    have hinput : [Accept.conn fd' peer addOk ntopOk].filterMap (Accept.input? fd') = [.accept peer addOk ntopOk] := by
      simp [Accept.input?]
    rw [hinput, System.exec_single, solo_untabled hnone]
    cases hok : addOk && ntopOk with
    | true =>
      simp only [Solo.step, hok, if_true]
      simp [Server.solo, Server.admitted, Kernel.setInterest, FdEvent.fd]
    | false =>
      simp only [Solo.step, hok, Bool.false_eq_true, if_false]
      simp [Server.solo, Server.refused, hnone, Kernel.close, FdEvent.fd]
  · have hinput : [Accept.conn fd peer addOk ntopOk].filterMap (Accept.input? fd') = [] := by
      simp [Accept.input?, Ne.symm hfd]
    rw [hinput]
    refine congrArg some (Eq.symm ?_)
    split
    · apply (h.touches_admitted hopen _).solo _ hfd
      simp [Server.admitted, Kernel.open_, Kernel.setInterest, hfd]
    · apply (h.touches_refused hopen).solo _ hfd
      simp [Server.refused, Kernel.close, hfd]

theorem acceptNewConnections_solo (h : Consistent true s) {script : AcceptScript}
    (hs : acceptNewConnections script s = .returns () s') :
    s'.serverFd = s.serverFd ∧ ∀ fd,
      System.exec (Solo.step fd) (s.solo fd) (script.accepts.filterMap (Accept.input? fd)) = some (s'.solo fd) := by
  unfold acceptNewConnections at hs
  generalize script.accepts = accepts at hs
  induction accepts generalizing s with
  | nil =>
    cases hs
    exact ⟨rfl, fun _ => rfl⟩
  | cons a accepts ih =>
    cases a with
    | eintr => exact ih h hs
    | conn fd' peer addOk ntopOk =>
      simp only [List.forM_eq_forM, List.forM_cons] at ih hs
      obtain ⟨_, t, hone, hrest⟩ := Proc.bind_returns_inv hs
      have hkeeps := acceptOne_keeps h fd' peer addOk ntopOk
      rw [hone] at hkeeps
      obtain ⟨hfd, hsolo⟩ := ih hkeeps hrest
      -- The first connection moves its own descriptor on, and the others start from there.
      constructor
      · rw [hfd, (acceptOne_returns h hone).2]
        split <;> rfl
      · intro fd
        rw [← List.singleton_append, List.filterMap_append, System.exec_append (acceptOne_solo h hone fd)]
        exact hsolo fd

theorem Consistent.served_other (h : Consistent true s) (htab : s.fdSessionHt fd = some p) (keep : Bool) (c : Conn)
    (hne : fd' ≠ fd) : (s.served fd p keep c).solo fd' = s.solo fd' := by
  have hreg := ((h.keys fd).1 (by simp [htab])).2
  cases keep with
  | true =>
    apply (h.touches_handled htab c (interestAfter_isSome hreg c.effects)).solo _ hne
    simp [Server.handled, showed, interestAfter, hne]
  | false =>
    apply (h.touches_closed htab c (interestAfter_isSome hreg c.effects)).solo _ hne
    simp [Server.removed, Kernel.close, Server.handled, showed, interestAfter, hne]

/-- An event of a session does what it would do by itself. -/
theorem handleEvent_solo (h : Consistent true s) {e : Event} (hs : handleEvent fd e s = .returns () s') :
    Solo.step fd (.event e) (s.solo fd) = some (s'.solo fd) ∧ ∀ fd', fd' ≠ fd → s'.solo fd' = s.solo fd' := by
  rcases handleEvent_returns h hs with ⟨htab, rfl⟩ | ⟨p, session, keep, c, htab, hheap, hserve, rfl⟩
  · rw [solo_untabled htab]
    exact ⟨rfl, fun _ _ => rfl⟩
  · refine ⟨?_, fun fd' hfd => h.served_other htab keep c hfd⟩
    rw [served_solo htab, solo_tabled htab hheap, Solo.step, hserve]
    cases keep with
    | true => simp [happened]
    | false => simp [happened]

theorem step_solo (h : Consistent true s) {r : Ready} (hs : step r s = .returns () s') :
    s'.serverFd = s.serverFd ∧ ∀ fd,
      System.exec (Solo.step fd) (s.solo fd) (r.inputs s.serverFd fd) = some (s'.solo fd) := by
  unfold step at hs
  simp only [Proc.bind_apply, Proc.get_apply, Proc.ite_apply] at hs
  unfold Ready.inputs
  split at hs
  · rename_i hfd
    simp only [if_pos hfd]
    exact acceptNewConnections_solo h hs
  · rename_i hfd
    simp only [if_neg hfd]
    obtain ⟨hown, hother⟩ := handleEvent_solo h hs
    constructor
    · rcases handleEvent_returns h hs with ⟨-, rfl⟩ | ⟨_, _, keep, _, -, -, -, rfl⟩
      · rfl
      · cases keep <;> rfl
    · intro fd
      by_cases he : r.fd = fd
      · rw [if_pos he, System.exec_single, ← he]
        exact hown
      · rw [if_neg he, hother fd (Ne.symm he)]
        rfl

end Views

/-! ## Runs -/

/-- Over any part of a run, a descriptor comes to what it would by itself. -/
theorem run_solo {serverFd epollFd : Int} {pre rs : List Ready} {s t : Server}
    (hpre : serving.Goes (start serverFd epollFd) pre s) (h : serving.Goes s rs t) (fd : Int) :
    System.exec (Solo.step fd) (s.solo fd) (inputs serverFd fd rs) = some (t.solo fd) := by
  have hstep : ∀ {rs r u v}, serving.Goes (start serverFd epollFd) rs u → u.serverFd = serverFd →
      serving.next r u v → v.serverFd = serverFd ∧
        System.exec (Solo.step fd) (u.solo fd) (r.inputs serverFd fd) = some (v.solo fd) := by
    intro rs r u v hg hfd hn
    obtain ⟨hfd', hsolo⟩ := step_solo (serving_consistent hg) hn
    rw [hfd] at hfd' hsolo
    exact ⟨hfd', hsolo fd⟩
  -- The listener stays the same, so that each event is sorted as `inputs` does.
  have hlistener : s.serverFd = serverFd := by
    apply hpre.inv fun _ s => s.serverFd = serverFd
    · rfl
    · exact fun _ _ _ _ hg hfd hn => (hstep hg hfd hn).1
  have hrun : t.serverFd = serverFd ∧
      System.exec (Solo.step fd) (s.solo fd) (inputs serverFd fd rs) = some (t.solo fd) := by
    apply h.inv fun rs t => t.serverFd = serverFd ∧
      System.exec (Solo.step fd) (s.solo fd) (inputs serverFd fd rs) = some (t.solo fd)
    · exact ⟨hlistener, rfl⟩
    · rintro rs r u v hg ⟨hfd, hsolo⟩ hn
      obtain ⟨hfd', hnext⟩ := hstep (hpre.append hg) hfd hn
      refine ⟨hfd', ?_⟩
      rw [inputs_snoc, System.exec_append hsolo]
      exact hnext
  exact hrun.2

/-! ## Two descriptors -/

/-- The same table, sessions, descriptors and epoll set, and each descriptor has
been through the same. -/
structure Same (s t : Server) : Prop where
  serverFd : s.serverFd = t.serverFd
  table : s.fdSessionHt = t.fdSessionHt
  heap : s.heap = t.heap
  next : s.next = t.next
  kernel : s.kernel = t.kernel
  trace : ∀ fd, s.trace.filter (·.fd = fd) = t.trace.filter (·.fd = fd)

section Commute
variable {s : Server} {fd fd' : Int} {p p' : Nat} {keep keep' : Bool} {c c' : Conn}

theorem filter_comm {trace new new' : List FdEvent} (hnew : ∀ e ∈ new, e.fd = fd) (hnew' : ∀ e ∈ new', e.fd = fd')
    (hne : fd ≠ fd') (fd'' : Int) :
    (trace ++ new ++ new').filter (·.fd = fd'') = (trace ++ new' ++ new).filter (·.fd = fd'') := by
  simp only [List.filter_append, List.append_assoc]
  by_cases hfd : fd'' = fd
  · rw [filter_other hnew' (hfd ▸ hne), List.append_nil, List.nil_append]
  · rw [filter_other hnew hfd, List.append_nil, List.nil_append]

/-- What two events do to two sessions, they do in either order. -/
theorem served_comm (hfd : fd ≠ fd') (hp : p ≠ p') : Same ((s.served fd p keep c).served fd' p' keep' c')
    ((s.served fd' p' keep' c').served fd p keep c) := by
  constructor
  · cases keep <;> cases keep' <;> rfl
  · simp only [served_table]
    cases keep <;> cases keep' <;> simp [Function.update_comm hfd]
  · simp only [served_heap, Function.update_comm hp]
  · cases keep <;> cases keep' <;> rfl
  · apply congrArg₂ Kernel.mk
    · simp only [served_isOpen]
      cases keep <;> cases keep' <;> simp [Function.update_comm hfd]
    · simp only [served_interest, Function.update_of_ne hfd, Function.update_of_ne hfd.symm, Function.update_comm hfd]
  · intro fd''
    simp only [served_trace]
    exact filter_comm (happened_own fd c.effects keep) (happened_own fd' c'.effects keep') hfd fd''

theorem handleEvent_serves (h : Consistent true s) {e : Event} {session : Session} (htab : s.fdSessionHt fd = some p)
    (hheap : s.heap p = some ⟨session, 1⟩) (hserve : serveEvent e ⟨session, []⟩ = .returns keep c) :
    handleEvent fd e s = .returns () (s.served fd p keep c) := by
  rw [handleEvent_spec h e htab hheap, hserve]
  cases keep <;> rfl

/-- Events of two sessions in the table can change places. -/
theorem events_commute (h : Consistent true s) {e e' : Event} {u v : Server} (hne : fd ≠ fd')
    (hlive : (s.fdSessionHt fd).isSome = true) (hlive' : (s.fdSessionHt fd').isSome = true)
    (hs : handleEvent fd e s = .returns () u) (hu : handleEvent fd' e' u = .returns () v) :
    ∃ u' v', handleEvent fd' e' s = .returns () u' ∧ handleEvent fd e u' = .returns () v' ∧ v.Same v' := by
  have hkeeps := handleEvent_keeps h fd e
  rw [hs] at hkeeps
  rcases handleEvent_returns h hs with ⟨hnone, -⟩ | ⟨p, session, keep, c, htab, hheap, hserve, rfl⟩
  · simp [hnone] at hlive
  obtain ⟨p', htab'⟩ := Option.isSome_iff_exists.1 hlive'
  have hp : p ≠ p' := (h.distinct htab' htab hne)
  -- Each event finds the entry of its descriptor as the other leaves it.
  have hentry' : (s.served fd p keep c).fdSessionHt fd' = some p' := by
    rw [served_table]
    split
    · exact htab'
    · rw [Function.update_of_ne hne.symm, htab']
  rcases handleEvent_returns hkeeps hu with ⟨hnone, -⟩ | ⟨q, session', keep', c', htab₁, hheap₁, hserve', rfl⟩
  · rw [hentry'] at hnone
    cases hnone
  rw [hentry'] at htab₁
  cases htab₁
  rw [served_heap, Function.update_of_ne hp.symm] at hheap₁
  have hs' := handleEvent_serves h htab' hheap₁ hserve'
  have hkeeps' := handleEvent_keeps h fd' e'
  rw [hs'] at hkeeps'
  have hentry : (s.served fd' p' keep' c').fdSessionHt fd = some p := by
    rw [served_table]
    split
    · exact htab
    · rw [Function.update_of_ne hne, htab]
  have hobject : (s.served fd' p' keep' c').heap p = some ⟨session, 1⟩ := by
    rw [served_heap, Function.update_of_ne hp, hheap]
  exact ⟨_, _, hs', handleEvent_serves hkeeps' hentry hobject hserve, served_comm hne hp⟩

end Commute

/-! ## Going on -/

section Progress
variable {s : Server}

theorem Consistent.sound {live : Bool} (h : Consistent live s) {fd : Int} {p : Nat} {session : Session} {n : Nat}
    (htab : s.fdSessionHt fd = some p) (hheap : s.heap p = some ⟨session, n⟩) : session.Sound := by
  obtain ⟨-, -, c, ⟨host, port, es, hv, -⟩, hheap', -⟩ := h.held fd p htab
  rw [hheap, Option.some.injEq, Object.mk.injEq] at hheap'
  obtain ⟨cs, hcs⟩ := sessions_calls hv
  rw [hheap'.1]
  exact calls_sound hcs

/-- Accepting goes on, unless the kernel does what no kernel does. -/
theorem acceptNewConnections_goes_on (h : Consistent true s) (script : AcceptScript) :
    (∃ t, acceptNewConnections script s = .returns () t) ∨
      ∃ t, acceptNewConnections script s = .throws .impossible t := by
  unfold acceptNewConnections
  generalize script.accepts = accepts
  induction accepts generalizing s with
  | nil => exact .inl ⟨s, rfl⟩
  | cons a accepts ih =>
    cases a with
    | eintr => exact ih h
    | conn fd peer addOk ntopOk =>
      simp only [List.forM_eq_forM, List.forM_cons] at ih ⊢
      by_cases hbad : fd < 0 ∨ s.kernel.isOpen fd = true
      · exact .inr ⟨s, Proc.bind_throws (acceptOne_impossible peer addOk ntopOk hbad)⟩
      · obtain ⟨hpos, hopen⟩ := not_or.1 hbad
        have hopen : s.kernel.isOpen fd = false := by simpa using hopen
        have hone := acceptOne_spec peer addOk ntopOk (Int.not_lt.1 hpos) hopen (h.untabled hopen)
        have hkeeps := acceptOne_keeps h fd peer addOk ntopOk
        rw [hone] at hkeeps
        rw [Proc.bind_returns hone]
        exact ih hkeeps

/-- Where `epoll_ctl` succeeds and `ParseMessage` returns, the server goes on. -/
theorem step_goes_on (h : Consistent true s) {r : Ready} (hout : r.event.out.mod = none)
    (hinp : r.event.inp.mod = none) :
    (∃ t, step r s = .returns () t) ∨ (∃ t, step r s = .throws .impossible t) ∨
      step r s = .diverges ∧ ∃ session c, (s.solo r.fd).session = some session ∧ Replies ⟨session, []⟩ c ∧
        parseMessage (c.session.receive r.event.inp.data) = .diverges := by
  have hstep : step r s = if r.fd = s.serverFd then acceptNewConnections r.accepts s else handleEvent r.fd r.event s := by
    simp only [step, Proc.bind_apply, Proc.get_apply, Proc.ite_apply]
  rw [hstep]
  split
  · exact (acceptNewConnections_goes_on h r.accepts).imp_right .inl
  · cases htab : s.fdSessionHt r.fd with
    | none => exact .inl ⟨s, handleEvent_untabled r.event htab⟩
    | some p =>
      obtain ⟨-, -, c₀, -, hheap, -⟩ := h.held r.fd p htab
      have hsound : c₀.session.Sound := h.sound htab hheap
      cases hserve : serveEvent r.event ⟨c₀.session, []⟩ with
      | returns keep c => exact .inl ⟨_, handleEvent_serves h htab hheap hserve⟩
      | throws x c =>
        -- The only exception is that of an `epoll_ctl` that failed.
        rcases serveEvent_throws (c := ⟨c₀.session, []⟩) hsound hserve with ⟨err, hmod⟩ | ⟨err, hmod⟩
        · rw [hout] at hmod
          cases hmod
        · rw [hinp] at hmod
          cases hmod
      | diverges =>
        obtain ⟨c, hrep, hparse⟩ := serveEvent_diverges (c := ⟨c₀.session, []⟩) hsound hserve
        refine .inr (.inr ⟨?_, c₀.session, c, ?_, hrep, hparse⟩)
        · rw [handleEvent_spec h r.event htab hheap, hserve]
        · rw [solo_tabled htab hheap]

end Progress

/-- Over any part of a run, whatever else happens in between, a descriptor comes
to what it would by itself, given its own connections and events: its session,
its mask, and all that it has shown. Events of two sessions in the table can
change places. And the server goes on, unless `epoll_ctl` fails, `ParseMessage`
does not return, or the kernel does what no kernel does. -/
theorem clients_isolated (serverFd epollFd : Int) (pre rs : List Ready) (s t : Server)
    (hpre : serving.Goes (start serverFd epollFd) pre s) (h : serving.Goes s rs t) :
    (∀ fd, System.exec (Solo.step fd) (s.solo fd) (inputs serverFd fd rs) = some (t.solo fd)) ∧
    (∀ fd fd' e e' u v, fd ≠ fd' → (t.fdSessionHt fd).isSome = true → (t.fdSessionHt fd').isSome = true →
      handleEvent fd e t = .returns () u → handleEvent fd' e' u = .returns () v →
      ∃ u' v', handleEvent fd' e' t = .returns () u' ∧ handleEvent fd e u' = .returns () v' ∧ v.Same v') ∧
    ∀ r, r.event.out.mod = none → r.event.inp.mod = none →
      (∃ u, step r t = .returns () u) ∨ (∃ u, step r t = .throws .impossible u) ∨
        ∃ session c, (t.solo r.fd).session = some session ∧ Replies ⟨session, []⟩ c ∧
          parseMessage (c.session.receive r.event.inp.data) = .diverges := by
  have ht := serving_consistent (hpre.append h)
  refine ⟨run_solo hpre h, ?_, ?_⟩
  · intro fd fd' e e' u v hne hlive hlive' hs hu
    exact events_commute ht hne hlive hlive' hs hu
  · intro r hout hinp
    exact (step_goes_on ht hout hinp).imp_right fun h => h.imp_right And.right

/-- Takes steps as long as they return. -/
def stepAll : List Ready → Server → Option Server
  | [], s => some s
  | r :: rs, s =>
    match step r s with
    | .returns () t => stepAll rs t
    | _ => none

theorem stepAll_goes {rs : List Ready} {s t : Server} (h : stepAll rs s = some t) : serving.Goes s rs t := by
  induction rs generalizing s with
  | nil =>
    cases h
    exact .nil
  | cons r rs ih =>
    unfold stepAll at h
    split at h
    · rename_i u hu
      exact .cons hu (ih h)
    · cases h

/-- Two connections: an image from one comes in parts, and the other hangs up in between. -/
def hangupRun : List Ready :=
  let accepts : AcceptScript := ⟨[.conn 5 samplePeer true true, .conn 6 samplePeer true true]⟩
  [⟨3, .brings [], accepts⟩, ⟨5, .brings [.data (.of [73, 0, 0])], ⟨[]⟩⟩,
    ⟨6, { Event.brings [] with err := true }, ⟨[]⟩⟩, ⟨5, .brings [.data (.of [0, 1, 9])], ⟨[]⟩⟩]

theorem clients_isolated_hangup :
    ∃ t, serving.Goes (start 3 4) hangupRun t ∧
      System.exec (Solo.step 5) ⟨none, none, []⟩ [.accept samplePeer true true,
        .event (.brings [.data (.of [73, 0, 0])]), .event (.brings [.data (.of [0, 1, 9])])] = some (t.solo 5) := by
  have hrun : (stepAll hangupRun (start 3 4)).isSome = true := by decide +kernel
  obtain ⟨t, hsome⟩ := Option.isSome_iff_exists.1 hrun
  have ht := stepAll_goes hsome
  exact ⟨t, ht, (clients_isolated 3 4 [] hangupRun _ t .nil ht).1 5⟩

end Server

end RemoteScreenCapture
