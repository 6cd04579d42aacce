import RemoteScreenCapture.Shown
/-!
# The table of sessions

The server over whole runs: which descriptors are in the table, in the epoll
set and open, and what becomes of an accepted one. A session in the table is a
session of `sessions`, so what is proved of these holds inside the server.
-/
open Lib

namespace RemoteScreenCapture

namespace Server

/-- The server serving the events of its batches, one after the other. What no
kernel does is not a step. -/
def serving : System Server Ready where
  next r s t := step r s = .returns () t
  last r s t := ∃ e, step r s = .throws (.thrown e) t

/-! ## The life of a descriptor -/

/-- The stages that an accepted descriptor goes through. -/
inductive Life where
  | closed
  | accepted
  | tabled
  | erased
  deriving DecidableEq, Repr

/-- The order of events in a life. A session shows something only while it is
in the table, which is entered where there is no entry. -/
def Life.next : Life → FdEvent → Option Life
  | .closed, .accept _ => some .accepted
  | .accepted, .close _ => some .closed
  | .accepted, .insert _ false => some .tabled
  | .tabled, .shown _ _ => some .tabled
  | .tabled, .erase _ => some .erased
  | .erased, .close _ => some .closed
  | _, _ => none

end Server

/-- The descriptor that an event is about. -/
def FdEvent.fd : FdEvent → Int
  | .accept fd => fd
  | .insert fd _ => fd
  | .erase fd => fd
  | .close fd => fd
  | .shown fd _ => fd

namespace Server

/-- The stage of `fd` after some events, if they came in order. -/
def life (fd : Int) (trace : List FdEvent) : Option Life := (trace.filter (·.fd = fd)).foldlM Life.next .closed

theorem life_append (fd : Int) (trace trace' : List FdEvent) :
    life fd (trace ++ trace') = (life fd trace).bind fun l => (trace'.filter (·.fd = fd)).foldlM Life.next l := by
  simp [life, List.filter_append, List.foldlM_append]

theorem life_other {fd : Int} {trace trace' : List FdEvent} (h : ∀ e ∈ trace', e.fd ≠ fd) :
    life fd (trace ++ trace') = life fd trace := by
  have hnil : trace'.filter (·.fd = fd) = [] := by
    rw [List.filter_eq_nil_iff]
    intro e he
    simpa using h e he
  rw [life_append, hnil]
  cases life fd trace <;> rfl

/-- Events of one descriptor move its life on, and no other. -/
theorem life_moves {fd : Int} {trace new : List FdEvent} {l l' : Life} (hnew : ∀ e ∈ new, e.fd = fd)
    (hl : life fd trace = some l) (hn : new.foldlM Life.next l = some l') (fd' : Int) :
    life fd' (trace ++ new) = if fd' = fd then some l' else life fd' trace := by
  by_cases hfd : fd' = fd
  · subst hfd
    have hall : new.filter (·.fd = fd') = new := by
      rw [List.filter_eq_self]
      intro e he
      simpa using hnew e he
    rw [life_append, hl, hall, if_pos rfl]
    exact hn
  · rw [if_neg hfd]
    apply life_other
    intro e he
    rw [hnew e he]
    exact Ne.symm hfd

/-- A life is open between an `accept` and the next `close`. -/
theorem Life.next_counts {l l' : Life} {e : FdEvent} (h : l.next e = some l') :
    (if l = .closed then 0 else 1) + [e].count (.accept e.fd) =
      [e].count (.close e.fd) + if l' = .closed then 0 else 1 := by
  unfold Life.next at h
  split at h <;> cases h <;> simp [FdEvent.fd]

/-- A descriptor is closed as often as it was accepted, unless it is still in use. -/
theorem life_counts {fd : Int} {trace : List FdEvent} {l : Life} (h : life fd trace = some l) :
    trace.count (.accept fd) = trace.count (.close fd) + if l = .closed then 0 else 1 := by
  induction trace using List.reverseRecOn generalizing l with
  | nil =>
    cases h
    rfl
  | append_singleton trace e ih =>
    rw [List.count_append, List.count_append]
    by_cases hfd : e.fd = fd
    · have hfilter : [e].filter (·.fd = fd) = [e] := by simp [hfd]
      rw [life_append, hfilter] at h
      obtain ⟨l₀, hl₀, hnext⟩ := Option.bind_eq_some_iff.1 h
      have hprev := ih hl₀
      have hcount := Life.next_counts (show l₀.next e = some l by simpa using hnext)
      rw [hfd] at hcount
      omega
    · rw [life_other (by simpa using hfd)] at h
      have hnone : ∀ e', e'.fd = fd → [e].count e' = 0 := by
        intro e' he'
        rw [List.count_eq_zero]
        rintro hmem
        rw [← List.mem_singleton.1 hmem] at hfd
        exact hfd he'
      rw [hnone _ rfl, hnone _ rfl]
      exact ih h

/-- What a session has shown after one more event of its descriptor. -/
def FdEvent.collect (es : List Effect) : FdEvent → List Effect
  | .insert _ _ => []
  | .shown _ e => es ++ [e]
  | _ => es

/-- What `fd` has shown since its session was put into the table. -/
def shownBy (fd : Int) (trace : List FdEvent) : List Effect := (trace.filter (·.fd = fd)).foldl FdEvent.collect []

theorem shownBy_other {fd : Int} {trace new : List FdEvent} (h : ∀ e ∈ new, e.fd ≠ fd) :
    shownBy fd (trace ++ new) = shownBy fd trace := by
  have hnil : new.filter (·.fd = fd) = [] := by
    rw [List.filter_eq_nil_iff]
    intro e he
    simpa using h e he
  rw [shownBy, List.filter_append, hnil, List.append_nil, shownBy]

theorem shownBy_shown (fd : Int) (trace : List FdEvent) (es : List Effect) :
    shownBy fd (trace ++ es.map (.shown fd)) = shownBy fd trace ++ es := by
  induction es using List.reverseRecOn with
  | nil => simp
  | append_singleton es e ih =>
    have hlast : [FdEvent.shown fd e].filter (·.fd = fd) = [.shown fd e] := by simp [FdEvent.fd]
    rw [List.map_append, List.map_singleton, ← List.append_assoc, shownBy, List.filter_append, hlast,
      List.foldl_append, ← shownBy, ih, ← List.append_assoc]
    rfl

theorem shownBy_insert (fd : Int) (trace : List FdEvent) (overwrites : Bool) :
    shownBy fd (trace ++ [.insert fd overwrites]) = [] := by
  have hlast : [FdEvent.insert fd overwrites].filter (·.fd = fd) = [.insert fd overwrites] := by simp [FdEvent.fd]
  rw [shownBy, List.filter_append, hlast, List.foldl_append]
  rfl

/-! ## What one step does -/

theorem destroyFd_valid {fd : Int} (h : fd ≠ -1) (s : Server) : destroyFd (makeUniqueFD fd) s =
    .returns () { s with kernel := s.kernel.close fd, trace := s.trace ++ [.close fd] } := by
  have hcalls : (makeUniqueFD fd).destroy = [(.close, fd)] := by
    simp [makeUniqueFD, UniqueResource.destroy, UniqueResource.reset, UniqueResource.valid, h]
  simp [destroyFd, hcalls, Proc.bind_apply, closeFd, log]

/-- A `UniqueFD` that was moved from closes nothing. -/
theorem destroyFd_moved (d : FdDeleter) (s : Server) : destroyFd ⟨-1, d⟩ s = .returns () s := rfl

section Pointers
variable {s : Server} {p : Nat} {session : Session} {n : Nat} {fd : Int}

theorem copyPtr_spec (h : s.heap p = some ⟨session, n⟩) :
    copyPtr p s = .returns () (s.setObject p (some ⟨session, n + 1⟩)) := by
  simp [copyPtr, Proc.bind_apply, h]

/-- One pointer less to an object that has others. -/
theorem releasePtr_shared (h : s.heap p = some ⟨session, n + 2⟩) :
    releasePtr p s = .returns () (s.setObject p (some ⟨session, n + 1⟩)) := by
  simp [releasePtr, Proc.bind_apply, h]

/-- The last pointer closes the descriptor. -/
theorem releasePtr_last (h : s.heap p = some ⟨session, 1⟩) :
    releasePtr p s = destroyFd session.clientFd (s.setObject p none) := by
  simp [releasePtr, Proc.bind_apply, h]

theorem assign_new (h : s.fdSessionHt fd = none) : assign fd p s = .returns ()
    { s with fdSessionHt := Function.update s.fdSessionHt fd (some p), trace := s.trace ++ [.insert fd false] } := by
  simp [assign, Proc.bind_apply, log, h]

theorem erase_spec (h : s.fdSessionHt fd = some p) : erase fd s = releasePtr p
    { s with fdSessionHt := Function.update s.fdSessionHt fd none, trace := s.trace ++ [.erase fd] } := by
  simp [erase, Proc.bind_apply, log, h]

end Pointers

/-- The server after a connection whose setup failed. -/
def refused (s : Server) (fd : Int) : Server :=
  { s with kernel := s.kernel.close fd, trace := s.trace ++ [.accept fd, .close fd] }

/-- The server after a connection that was set up. -/
def admitted (s : Server) (fd : Int) (session : Session) : Server where
  serverFd := s.serverFd
  kernel := (s.kernel.open_ fd).setInterest fd (some .initial)
  heap := Function.update s.heap s.next (some ⟨session, 1⟩)
  next := s.next + 1
  fdSessionHt := Function.update s.fdSessionHt fd (some s.next)
  trace := s.trace ++ [.accept fd, .insert fd false]

/-- The session that is made of a descriptor. -/
theorem admit_spec {s : Server} {fd : Int} {clientFd : UniqueFD} {host port : Bytes} (hfd : clientFd.get = fd)
    (hnew : s.fdSessionHt fd = none) :
    (do
      let p ← makeShared (Session.new clientFd host port).1
      copyPtr p
      assign (Session.new clientFd host port).1.getClientFD p
      releasePtr p
      destroyFd (Session.new clientFd host port).2 : ServerProc Unit) s = .returns ()
      { s with
        heap := Function.update s.heap s.next (some ⟨(Session.new clientFd host port).1, 1⟩)
        next := s.next + 1
        fdSessionHt := Function.update s.fdSessionHt fd (some s.next)
        trace := s.trace ++ [.insert fd false] } := by
  have hget : (Session.new clientFd host port).1.getClientFD = fd := hfd
  generalize (Session.new clientFd host port).1 = session at hget
  let s₁ : Server := { s with heap := Function.update s.heap s.next (some ⟨session, 1⟩), next := s.next + 1 }
  let s₂ := s₁.setObject s.next (some ⟨session, 2⟩)
  let s₃ : Server :=
    { s₂ with fdSessionHt := Function.update s.fdSessionHt fd (some s.next), trace := s.trace ++ [.insert fd false] }
  have hmake : makeShared session s = .returns s.next s₁ := rfl
  have hcopy : copyPtr s.next s₁ = .returns () s₂ := copyPtr_spec (by simp [s₁])
  have hassign : assign fd s.next s₂ = .returns () s₃ := assign_new hnew
  -- The local pointer goes, and the table's is left.
  have hrelease : releasePtr s.next s₃ = .returns () (s₃.setObject s.next (some ⟨session, 1⟩)) :=
    releasePtr_shared (by simp [s₃, s₂, setObject])
  rw [Proc.bind_returns hmake, Proc.bind_returns hcopy, hget, Proc.bind_returns hassign, Proc.bind_returns hrelease]
  refine (destroyFd_moved _ _).trans ?_
  simp [s₃, s₂, s₁, setObject]

/-- One connection is refused or admitted, if the kernel may give out its descriptor. -/
theorem acceptOne_spec {s : Server} {fd : Int} (peer : Endpoint) (addOk ntopOk : Bool) (hpos : 0 ≤ fd)
    (hopen : s.kernel.isOpen fd = false) (hnew : s.fdSessionHt fd = none) :
    acceptOne fd peer addOk ntopOk s = .returns () (if addOk && ntopOk then
      s.admitted fd (Conn.fresh (makeUniqueFD fd) (inetNtop peer) (toDecimal peer.port.toNat)).session
    else s.refused fd) := by
  have hne : fd ≠ -1 := by omega
  have hok : ¬(fd < 0 ∨ s.kernel.isOpen fd = true) := by simp [hopen, hpos]
  unfold acceptOne
  simp only [Proc.bind_apply, Proc.get_apply, Proc.ite_apply, if_neg hok, Proc.pure_apply, Proc.modify_apply, log]
  cases addOk with
  | false => simp [destroyFd_valid hne, refused, Kernel.open_, Kernel.close]
  | true =>
    cases ntopOk with
    | false =>
      simp only [Bool.not_false, Bool.not_true, Bool.false_eq_true, if_false, if_true, destroyFd_valid hne]
      simp [refused, Kernel.open_, Kernel.setInterest, Kernel.close, makeUniqueFD, UniqueResource.get]
    | true =>
      simp only [Bool.not_true, Bool.false_eq_true, if_false]
      have hadmit := @admit_spec { s with
        kernel := (s.kernel.open_ fd).setInterest fd (some .initial), trace := s.trace ++ [.accept fd] } fd
        (makeUniqueFD fd) (inetNtop peer) (toDecimal peer.port.toNat) rfl hnew
      refine hadmit.trans ?_
      simp [admitted, Conn.fresh]

/-- The server after a session has been closed. -/
def removed (s : Server) (fd : Int) (p : Nat) : Server :=
  { s with
    kernel := s.kernel.close fd
    heap := Function.update s.heap p none
    fdSessionHt := Function.update s.fdSessionHt fd none
    trace := s.trace ++ [.erase fd, .close fd] }

/-- `CloseSession` of a session that the table owns alone. -/
theorem closeSession_spec {s : Server} {fd : Int} {p : Nat} {session : Session} (htab : s.fdSessionHt fd = some p)
    (hheap : s.heap p = some ⟨session, 1⟩) (hfd : session.clientFd = makeUniqueFD fd) (hne : fd ≠ -1) :
    closeSession p s = .returns () (s.removed fd p) := by
  have hget : session.getClientFD = fd := by
    rw [Session.getClientFD, hfd]
    rfl
  let s₁ := s.setObject p (some ⟨session, 2⟩)
  let s₂ : Server := { s₁ with kernel := s.kernel.setInterest fd none }
  let s₃ : Server :=
    { s₂ with fdSessionHt := Function.update s.fdSessionHt fd none, trace := s.trace ++ [.erase fd] }
  have hcopy : copyPtr p s = .returns () s₁ := copyPtr_spec hheap
  have hobj : ∀ o, (s₃.setObject p o).heap p = o := fun o => by simp [setObject]
  have h₁ : s₁.heap p = some ⟨session, 2⟩ := by simp [s₁, setObject]
  -- The table's pointer goes first, the parameter's closes the descriptor.
  have herase : erase fd s₂ = .returns () (s₃.setObject p (some ⟨session, 1⟩)) :=
    (erase_spec (show s₂.fdSessionHt fd = some p from htab)).trans (releasePtr_shared h₁)
  have hrelease : releasePtr p (s₃.setObject p (some ⟨session, 1⟩)) = .returns () (s.removed fd p) := by
    rw [releasePtr_last (hobj _), hfd, destroyFd_valid hne]
    simp [s₃, s₂, s₁, setObject, removed, Kernel.setInterest, Kernel.close]
  unfold closeSession
  rw [Proc.bind_returns hcopy]
  simp only [Proc.bind_apply, Proc.get_apply, h₁, hget, Proc.modify_apply]
  rw [show ({ s₁ with kernel := s₁.kernel.setInterest fd none } : Server) = s₂ from rfl, herase]
  exact hrelease

/-- The server after `es` was shown on `fd`, with the interest masks changed as that says. -/
def showed (s : Server) (fd : Int) (es : List Effect) (interest : Int → Option Mask) : Server :=
  { s with kernel := ⟨s.kernel.isOpen, interest⟩, trace := s.trace ++ es.map (.shown fd) }

/-- The interest mask of a descriptor after `es` was shown on it. -/
def maskAfter (mask : Option Mask) (es : List Effect) : Option Mask :=
  es.foldl (fun mask e => match e with | .epollMod mask' => some mask' | _ => mask) mask

def interestAfter (s : Server) (fd : Int) (es : List Effect) : Int → Option Mask :=
  Function.update s.kernel.interest fd (maskAfter (s.kernel.interest fd) es)

theorem maskAfter_append (mask : Option Mask) (es es' : List Effect) :
    maskAfter mask (es ++ es') = maskAfter (maskAfter mask es) es' := List.foldl_append

theorem maskAfter_isSome {mask : Option Mask} (h : mask.isSome = true) (es : List Effect) :
    (maskAfter mask es).isSome = true := by
  induction es generalizing mask with
  | nil => exact h
  | cons e es ih =>
    cases e with
    | epollMod mask' => exact ih rfl
    | _ => exact ih h

theorem interestAfter_isSome {s : Server} {fd : Int} (h : (s.kernel.interest fd).isSome = true) (es : List Effect)
    (fd' : Int) : (s.interestAfter fd es fd').isSome = (s.kernel.interest fd').isSome := by
  unfold interestAfter
  by_cases hfd : fd' = fd
  · rw [hfd, Function.update_self, h]
    exact maskAfter_isSome h es
  · rw [Function.update_of_ne hfd]

theorem show_spec (fd : Int) (e : Effect) (s : Server) (h : (s.kernel.interest fd).isSome = true) :
    show_ fd e s = .returns () (s.showed fd [e] (s.interestAfter fd [e])) := by
  have hsome : ¬s.kernel.interest fd = none := Option.isSome_iff_ne_none.1 h
  cases e with
  | epollMod mask => simp [show_, Proc.bind_apply, log, hsome, showed, Kernel.setInterest, interestAfter, maskAfter]
  | _ => simp [show_, log, showed, interestAfter, maskAfter]

theorem forM_show (fd : Int) (es : List Effect) (s : Server) (h : (s.kernel.interest fd).isSome = true) :
    forM es (show_ fd) s = .returns () (s.showed fd es (s.interestAfter fd es)) := by
  induction es generalizing s with
  | nil => simp [showed, interestAfter, maskAfter]
  | cons e es ih =>
    have hnext := ih (s.showed fd [e] (s.interestAfter fd [e])) ((interestAfter_isSome h [e] fd).trans h)
    rw [List.forM_cons, Proc.bind_returns (show_spec fd e s h), hnext]
    simp [showed, interestAfter, maskAfter]

/-- The server after the handlers of an event have left `c` of the session at `p`. -/
def handled (s : Server) (fd : Int) (p : Nat) (c : Conn) (interest : Int → Option Mask) : Server :=
  (s.setObject p (some ⟨c.session, 1⟩)).showed fd c.effects interest

/-- The server after an event of a descriptor whose session is kept. -/
def kept (s : Server) (fd : Int) (p : Nat) (c : Conn) : Server := s.handled fd p c (s.interestAfter fd c.effects)

/-- `onSession` ends as the handlers do. -/
theorem onSession_spec {s : Server} {fd : Int} {p : Nat} {session : Session} (proc : ConnProc Bool)
    (hheap : s.heap p = some ⟨session, 1⟩) (hreg : (s.kernel.interest fd).isSome = true) :
    onSession fd p proc s = match proc ⟨session, []⟩ with
      | .returns keep c => .returns keep (s.kept fd p c)
      | .throws e c => .throws (.thrown e) (s.kept fd p c)
      | .diverges => .diverges := by
  have hshow : ∀ c : Conn, forM c.effects (show_ fd) (s.setObject p (some ⟨c.session, 1⟩)) =
      .returns () (s.kept fd p c) :=
    fun c => forM_show fd c.effects (s.setObject p (some ⟨c.session, 1⟩)) hreg
  unfold onSession
  simp only [Proc.bind_apply, Proc.get_apply, hheap]
  cases proc ⟨session, []⟩ with
  | returns keep c => simp [Proc.bind_apply, hshow c]
  | throws e c => simp [Proc.bind_apply, hshow c]
  | diverges => rfl

/-! ## Consistency -/

/-- `c` is a connection on `fd` as `sessions` brings them forth; with `live`,
one that goes on. -/
def Serves (live : Bool) (fd : Int) (c : Conn) : Prop :=
  ∃ host port es, sessions.Visits (Conn.fresh (makeUniqueFD fd) host port) es c ∧
    (live = true → sessions.Goes (Conn.fresh (makeUniqueFD fd) host port) es c)

theorem Serves.clientFd {live : Bool} {fd : Int} {c : Conn} (h : Serves live fd c) :
    c.session.clientFd = makeUniqueFD fd := by
  obtain ⟨host, port, es, hv, -⟩ := h
  apply run_inv (P := fun c => c.session.clientFd = makeUniqueFD fd) _ _ _ _ hv
  · rfl
  · intro c c' hc hrep
    rw [hrep.session]
    exact hc
  · rintro c _ hc ⟨_, _, _, rfl⟩
    exact hc
  · intro c c' hc hd
    cases hd with
    | idle => exact hc
    | image => exact hc
    | auth _ _ hrep =>
      rw [hrep.session]
      exact hc

theorem Serves.goes {fd : Int} {c : Conn} (h : Serves true fd c) :
    ∃ host port es, sessions.Goes (Conn.fresh (makeUniqueFD fd) host port) es c := by
  obtain ⟨host, port, es, -, hg⟩ := h
  exact ⟨host, port, es, hg rfl⟩

theorem Serves.weaken {live : Bool} {fd : Int} {c : Conn} (h : Serves live fd c) : Serves false fd c := by
  obtain ⟨host, port, es, hv, -⟩ := h
  exact ⟨host, port, es, hv, by simp⟩

/-- The table, the epoll set, the open descriptors and the heap fit together. -/
structure Consistent (live : Bool) (s : Server) : Prop where
  keys : ∀ fd, (s.fdSessionHt fd).isSome = true ↔ fd ≠ s.serverFd ∧ (s.kernel.interest fd).isSome = true
  opened : ∀ fd, (s.kernel.interest fd).isSome = true → s.kernel.isOpen fd = true
  listener : s.kernel.isOpen s.serverFd = true
  lives : ∀ fd, life fd s.trace = some (if (s.fdSessionHt fd).isSome then .tabled else .closed)
  /-- An entry owns its session alone, and has shown what that showed. -/
  held : ∀ fd p, s.fdSessionHt fd = some p → fd ≠ -1 ∧ p < s.next ∧
    ∃ c, Serves live fd c ∧ s.heap p = some ⟨c.session, 1⟩ ∧ c.effects = shownBy fd s.trace

theorem consistent_start (serverFd epollFd : Int) : Consistent true (start serverFd epollFd) := by
  constructor
  · intro fd
    by_cases hfd : fd = serverFd <;> simp [start, hfd]
  · intro fd hfd
    by_cases hs : fd = serverFd
    · simp [start, hs]
    · simp [start, hs] at hfd
  · simp [start]
  · intro fd
    rfl
  · intro fd p h
    cases h

section Consistent
variable {live : Bool} {s : Server} {fd : Int} {p : Nat}

theorem Consistent.untabled (h : Consistent live s) (hopen : s.kernel.isOpen fd = false) : s.fdSessionHt fd = none := by
  cases htab : s.fdSessionHt fd with
  | none => rfl
  | some p =>
    have hreg := ((h.keys fd).1 (by simp [htab])).2
    rw [h.opened fd hreg] at hopen
    cases hopen

/-- From `s` to `s'` only what is about `fd` changes, by the events `new`. -/
structure Touches (fd : Int) (new : List FdEvent) (s s' : Server) : Prop where
  serverFd : s'.serverFd = s.serverFd
  client : fd ≠ s.serverFd
  table : ∀ fd', fd' ≠ fd → s'.fdSessionHt fd' = s.fdSessionHt fd'
  interest : ∀ fd', fd' ≠ fd → (s'.kernel.interest fd').isSome = (s.kernel.interest fd').isSome
  isOpen : ∀ fd', fd' ≠ fd → s'.kernel.isOpen fd' = s.kernel.isOpen fd'
  heap : ∀ fd' q, fd' ≠ fd → s.fdSessionHt fd' = some q → s'.heap q = s.heap q
  next : s.next ≤ s'.next
  trace : s'.trace = s.trace ++ new
  own : ∀ e ∈ new, e.fd = fd

/-- What is left to show where only `fd` is touched. -/
theorem Consistent.touch {s' : Server} {new : List FdEvent} (h : Consistent live s) (ht : Touches fd new s s')
    (hkey : (s'.fdSessionHt fd).isSome = (s'.kernel.interest fd).isSome)
    (hopen : (s'.kernel.interest fd).isSome = true → s'.kernel.isOpen fd = true)
    (hlife : new.foldlM Life.next (if (s.fdSessionHt fd).isSome then .tabled else .closed) =
      some (if (s'.fdSessionHt fd).isSome then .tabled else .closed))
    (hheld : ∀ p, s'.fdSessionHt fd = some p → fd ≠ -1 ∧ p < s'.next ∧
      ∃ c, Serves live fd c ∧ s'.heap p = some ⟨c.session, 1⟩ ∧ c.effects = shownBy fd s'.trace) : Consistent live s' := by
  constructor
  · intro fd'
    by_cases hfd : fd' = fd
    · subst hfd
      rw [hkey, ht.serverFd]
      exact ⟨fun hi => ⟨ht.client, hi⟩, fun hi => hi.2⟩
    · rw [ht.table fd' hfd, ht.interest fd' hfd, ht.serverFd]
      exact h.keys fd'
  · intro fd' hi
    by_cases hfd : fd' = fd
    · subst hfd
      exact hopen hi
    · rw [ht.interest fd' hfd] at hi
      rw [ht.isOpen fd' hfd]
      exact h.opened fd' hi
  · rw [ht.serverFd, ht.isOpen _ ht.client.symm]
    exact h.listener
  · intro fd'
    rw [ht.trace, life_moves ht.own (h.lives fd) hlife]
    by_cases hfd : fd' = fd
    · rw [if_pos hfd, hfd]
    · rw [if_neg hfd, ht.table fd' hfd]
      exact h.lives fd'
  · intro fd' q hq
    by_cases hfd : fd' = fd
    · subst hfd
      exact hheld q hq
    · rw [ht.table fd' hfd] at hq
      obtain ⟨hne, hlt, c, hc, hheap, heff⟩ := h.held fd' q hq
      refine ⟨hne, hlt.trans_le ht.next, c, hc, (ht.heap fd' q hfd hq).trans hheap, ?_⟩
      rw [heff, ht.trace, shownBy_other]
      intro e he
      rw [ht.own e he]
      exact Ne.symm hfd

/-- Descriptors that are not open are not the listener's. -/
theorem Consistent.not_listener (h : Consistent live s) (hopen : s.kernel.isOpen fd = false) : fd ≠ s.serverFd := by
  rintro rfl
  rw [h.listener] at hopen
  cases hopen

theorem Consistent.touches_refused (h : Consistent live s) (hopen : s.kernel.isOpen fd = false) :
    Touches fd [.accept fd, .close fd] s (s.refused fd) := by
  constructor
  · rfl
  · exact h.not_listener hopen
  · exact fun _ _ => rfl
  · intro fd' hfd
    simp [Server.refused, Kernel.close, hfd]
  · intro fd' hfd
    simp [Server.refused, Kernel.close, hfd]
  · exact fun _ _ _ _ => rfl
  · exact Nat.le_refl _
  · rfl
  · simp [FdEvent.fd]

theorem Consistent.refused (h : Consistent live s) (hopen : s.kernel.isOpen fd = false) : Consistent live (s.refused fd) := by
  have hnone := h.untabled hopen
  apply h.touch (h.touches_refused hopen)
  · simp [Server.refused, Kernel.close, hnone]
  · simp [Server.refused, Kernel.close]
  · simp [Server.refused, hnone, Life.next]
  · intro p hp
    simp [Server.refused, hnone] at hp

theorem Consistent.touches_admitted (h : Consistent live s) (hopen : s.kernel.isOpen fd = false) (session : Session) :
    Touches fd [.accept fd, .insert fd false] s (s.admitted fd session) := by
  constructor
  · rfl
  · exact h.not_listener hopen
  · intro fd' hfd
    simp [Server.admitted, hfd]
  · intro fd' hfd
    simp [Server.admitted, Kernel.open_, Kernel.setInterest, hfd]
  · intro fd' hfd
    simp [Server.admitted, Kernel.open_, Kernel.setInterest, hfd]
  · intro fd' q _ hq
    have hlt := (h.held fd' q hq).2.1
    simp [Server.admitted, Nat.ne_of_lt hlt]
  · exact Nat.le_succ _
  · rfl
  · simp [FdEvent.fd]

theorem Consistent.admitted (h : Consistent live s) (hpos : 0 ≤ fd) (hopen : s.kernel.isOpen fd = false)
    (host port : Bytes) : Consistent live (s.admitted fd (Conn.fresh (makeUniqueFD fd) host port).session) := by
  have hnone := h.untabled hopen
  apply h.touch (h.touches_admitted hopen _)
  · simp [Server.admitted, Kernel.open_, Kernel.setInterest]
  · simp [Server.admitted, Kernel.open_, Kernel.setInterest]
  · simp [Server.admitted, hnone, Life.next]
  · intro p hp
    have hp : p = s.next := by simpa [Server.admitted] using hp.symm
    subst hp
    refine ⟨by omega, Nat.lt_succ_self _, Conn.fresh (makeUniqueFD fd) host port, ⟨host, port, [], .goes .nil, fun _ => .nil⟩, ?_, ?_⟩
    · simp [Server.admitted]
    · have htrace : (s.admitted fd (Conn.fresh (makeUniqueFD fd) host port).session).trace =
          s.trace ++ [.accept fd] ++ [.insert fd false] := by simp [Server.admitted]
      rw [htrace, shownBy_insert]
      rfl

/-- No two entries share a session. -/
theorem Consistent.distinct (h : Consistent live s) {fd' : Int} (htab : s.fdSessionHt fd = some p) {q : Nat}
    (htab' : s.fdSessionHt fd' = some q) (hne : fd' ≠ fd) : q ≠ p := by
  rintro rfl
  obtain ⟨-, -, c, hc, hheap, -⟩ := h.held fd q htab
  obtain ⟨-, -, c', hc', hheap', -⟩ := h.held fd' q htab'
  rw [hheap, Option.some.injEq, Object.mk.injEq] at hheap'
  have hfd := hc'.clientFd
  rw [← hheap'.1, hc.clientFd] at hfd
  exact hne (congrArg UniqueResource.resource hfd).symm

theorem life_shown (fd : Int) (es : List Effect) :
    (es.map (FdEvent.shown fd)).foldlM Life.next .tabled = some .tabled := by
  induction es with
  | nil => rfl
  | cons e es ih => exact ih

theorem shown_own (fd : Int) (es : List Effect) : ∀ e ∈ es.map (FdEvent.shown fd), e.fd = fd := by
  intro e he
  obtain ⟨e', -, rfl⟩ := List.mem_map.1 he
  rfl

theorem Consistent.touches_handled (h : Consistent live s) (htab : s.fdSessionHt fd = some p) (c : Conn)
    {interest : Int → Option Mask} (hsome : ∀ fd', (interest fd').isSome = (s.kernel.interest fd').isSome) :
    Touches fd (c.effects.map (.shown fd)) s (s.handled fd p c interest) := by
  constructor
  · rfl
  · exact ((h.keys fd).1 (by simp [htab])).1
  · exact fun _ _ => rfl
  · exact fun fd' _ => hsome fd'
  · exact fun _ _ => rfl
  · intro fd' q hfd hq
    simp [Server.handled, showed, setObject, h.distinct htab hq hfd]
  · exact Nat.le_refl _
  · rfl
  · exact shown_own fd c.effects

theorem Consistent.handled (h : Consistent live s) (htab : s.fdSessionHt fd = some p) {c : Conn}
    (hc : Serves live fd (c.behind (shownBy fd s.trace))) {interest : Int → Option Mask}
    (hsome : ∀ fd', (interest fd').isSome = (s.kernel.interest fd').isSome) :
    Consistent live (s.handled fd p c interest) := by
  have hkey := (h.keys fd).1 (by simp [htab])
  have ht := h.touches_handled htab c hsome
  apply h.touch ht
  · have hreg := (hsome fd).trans hkey.2
    simp [Server.handled, showed, setObject, htab, hreg]
  · intro _
    exact h.opened fd hkey.2
  · have htab' : (s.handled fd p c interest).fdSessionHt fd = some p := htab
    rw [htab, htab']
    exact life_shown fd c.effects
  · intro q hq
    have hq : some p = some q := htab.symm.trans hq
    cases hq
    obtain ⟨hne, hlt, -⟩ := h.held fd p htab
    refine ⟨hne, hlt, _, hc, ?_, ?_⟩
    · simp [Server.handled, showed, setObject, Conn.behind]
    · rw [ht.trace, shownBy_shown]
      rfl

theorem Consistent.touches_closed (h : Consistent live s) (htab : s.fdSessionHt fd = some p) (c : Conn)
    {interest : Int → Option Mask} (hsome : ∀ fd', (interest fd').isSome = (s.kernel.interest fd').isSome) :
    Touches fd (c.effects.map (.shown fd) ++ [.erase fd, .close fd]) s
      ((s.handled fd p c interest).removed fd p) := by
  constructor
  · rfl
  · exact ((h.keys fd).1 (by simp [htab])).1
  · intro fd' hfd
    simp [Server.handled, showed, setObject, Server.removed, hfd]
  · intro fd' hfd
    simp [Server.handled, showed, setObject, Server.removed, Kernel.close, hfd, hsome fd']
  · intro fd' hfd
    simp [Server.handled, showed, setObject, Server.removed, Kernel.close, hfd]
  · intro fd' q hfd hq
    simp [Server.handled, showed, setObject, Server.removed, h.distinct htab hq hfd]
  · exact Nat.le_refl _
  · simp [Server.handled, showed, setObject, Server.removed]
  · intro e he
    rcases List.mem_append.1 he with he | he
    · exact shown_own fd c.effects e he
    · rcases List.mem_pair.1 he with rfl | rfl <;> rfl

theorem Consistent.closed (h : Consistent live s) (htab : s.fdSessionHt fd = some p) (c : Conn)
    {interest : Int → Option Mask} (hsome : ∀ fd', (interest fd').isSome = (s.kernel.interest fd').isSome) :
    Consistent live ((s.handled fd p c interest).removed fd p) := by
  apply h.touch (h.touches_closed htab c hsome)
  · simp [Server.removed, Kernel.close]
  · simp [Server.removed, Kernel.close]
  · rw [htab, List.foldlM_append]
    simp [life_shown, Server.removed, Life.next]
  · intro q hq
    simp [Server.removed] at hq

end Consistent

/-- A consistent server is left: one that goes on, or one that an exception ends. -/
def Keeps : Outcome Server Halt Unit → Prop
  | .returns _ t => Consistent true t
  | .throws (.thrown _) t => Consistent false t
  | _ => True

section Steps
variable {s : Server}

theorem Consistent.weaken {live : Bool} (h : Consistent live s) : Consistent false s := by
  constructor
  · exact h.keys
  · exact h.opened
  · exact h.listener
  · exact h.lives
  · intro fd p htab
    obtain ⟨hne, hlt, c, hc, hheap, heff⟩ := h.held fd p htab
    exact ⟨hne, hlt, c, hc.weaken, hheap, heff⟩

theorem acceptOne_impossible {fd : Int} (peer : Endpoint) (addOk ntopOk : Bool)
    (hbad : fd < 0 ∨ s.kernel.isOpen fd = true) : acceptOne fd peer addOk ntopOk s = .throws .impossible s := by
  simp only [acceptOne, Proc.bind_apply, Proc.get_apply, Proc.ite_apply, if_pos hbad, Proc.throw_apply]

theorem acceptOne_keeps (h : Consistent true s) (fd : Int) (peer : Endpoint) (addOk ntopOk : Bool) :
    Keeps (acceptOne fd peer addOk ntopOk s) := by
  by_cases hbad : fd < 0 ∨ s.kernel.isOpen fd = true
  · rw [acceptOne_impossible peer addOk ntopOk hbad]
    trivial
  · obtain ⟨hpos, hopen⟩ := not_or.1 hbad
    have hopen : s.kernel.isOpen fd = false := by simpa using hopen
    rw [acceptOne_spec peer addOk ntopOk (Int.not_lt.1 hpos) hopen (h.untabled hopen)]
    split
    · exact h.admitted (Int.not_lt.1 hpos) hopen _ _
    · exact h.refused hopen

theorem acceptNewConnections_keeps (h : Consistent true s) (script : AcceptScript) :
    Keeps (acceptNewConnections script s) := by
  unfold acceptNewConnections
  generalize script.accepts = accepts
  induction accepts generalizing s with
  | nil => exact h
  | cons a accepts ih =>
    cases a with
    | eintr => exact ih h
    | conn fd peer addOk ntopOk =>
      have hone := acceptOne_keeps h fd peer addOk ntopOk
      simp only [List.forM_eq_forM, List.forM_cons, Proc.bind_apply] at ih ⊢
      cases hr : acceptOne fd peer addOk ntopOk s with
      | returns _ t =>
        rw [hr] at hone
        exact ih hone
      | throws e t =>
        rw [hr] at hone
        exact hone
      | diverges => trivial

theorem Serves.next {fd : Int} {c₀ c : Conn} {e : Event} (h : Serves true fd c₀)
    (hs : serveEvent e ⟨c₀.session, []⟩ = .returns true c) : Serves true fd (c.behind c₀.effects) := by
  obtain ⟨host, port, es, hg⟩ := h.goes
  have hnext : sessions.next e c₀ (c.behind c₀.effects) := by
    change serveEvent e c₀ = _
    rw [serveEvent_behind, hs]
    rfl
  exact ⟨host, port, es ++ [e], .goes (hg.snoc hnext), fun _ => hg.snoc hnext⟩

theorem Serves.last {fd : Int} {c₀ c : Conn} {e : Event} (h : Serves true fd c₀)
    (hs : serveEvent e ⟨c₀.session, []⟩ = .returns false c ∨ ∃ x, serveEvent e ⟨c₀.session, []⟩ = .throws x c) :
    Serves false fd (c.behind c₀.effects) := by
  obtain ⟨host, port, es, hg⟩ := h.goes
  have hlast : sessions.last e c₀ (c.behind c₀.effects) := by
    change serveEvent e c₀ = _ ∨ ∃ x, serveEvent e c₀ = _
    rw [serveEvent_behind]
    rcases hs with hs | ⟨x, hs⟩
    · exact .inl (by rw [hs]; rfl)
    · exact .inr ⟨x, by rw [hs]; rfl⟩
  exact ⟨host, port, es ++ [e], .ends hg hlast, by simp⟩

/-- What an event of a session in the table does. -/
theorem handleEvent_spec (h : Consistent true s) {fd : Int} {p : Nat} {session : Session} (e : Event)
    (htab : s.fdSessionHt fd = some p) (hheap : s.heap p = some ⟨session, 1⟩) :
    handleEvent fd e s = match serveEvent e ⟨session, []⟩ with
      | .returns true c => .returns () (s.kept fd p c)
      | .returns false c => .returns () ((s.kept fd p c).removed fd p)
      | .throws x c => .throws (.thrown x) (s.kept fd p c)
      | .diverges => .diverges := by
  obtain ⟨hne, -, c₀, hc₀, hheap₀, -⟩ := h.held fd p htab
  rw [hheap, Option.some.injEq, Object.mk.injEq] at hheap₀
  have hreg := ((h.keys fd).1 (by simp [htab])).2
  have hrun : handleEvent fd e s = (onSession fd p (serveEvent e) >>= fun keep =>
      if !keep then closeSession p else pure ()) s := by
    simp [handleEvent, Proc.bind_apply, htab]
  rw [hrun, Proc.bind_apply, onSession_spec (serveEvent e) hheap hreg]
  cases hs : serveEvent e ⟨session, []⟩ with
  | returns keep c =>
    cases keep with
    | true => rfl
    | false =>
      rw [hheap₀.1] at hs
      have hfd : c.session.clientFd = makeUniqueFD fd := (hc₀.last (.inl hs)).clientFd
      have hheap' : (s.kept fd p c).heap p = some ⟨c.session, 1⟩ := by simp [kept, Server.handled, showed, setObject]
      exact closeSession_spec (s := s.kept fd p c) htab hheap' hfd hne
  | throws x c => rfl
  | diverges => rfl

theorem handleEvent_untabled {fd : Int} (e : Event) (htab : s.fdSessionHt fd = none) :
    handleEvent fd e s = .returns () s := by
  simp [handleEvent, Proc.bind_apply, htab]

theorem handleEvent_keeps (h : Consistent true s) (fd : Int) (e : Event) : Keeps (handleEvent fd e s) := by
  cases htab : s.fdSessionHt fd with
  | none =>
    rw [handleEvent_untabled e htab]
    exact h
  | some p =>
    obtain ⟨-, -, c₀, hc₀, hheap, heff⟩ := h.held fd p htab
    have hreg := ((h.keys fd).1 (by simp [htab])).2
    rw [handleEvent_spec h e htab hheap]
    cases hs : serveEvent e ⟨c₀.session, []⟩ with
    | returns keep c =>
      cases keep with
      | true => exact h.handled htab (heff ▸ hc₀.next hs) (interestAfter_isSome hreg _)
      | false => exact h.closed htab c (interestAfter_isSome hreg _)
    | throws x c => exact h.weaken.handled htab (heff ▸ hc₀.last (.inr ⟨x, hs⟩)) (interestAfter_isSome hreg _)
    | diverges => trivial

/-- Every step of the server keeps it consistent. -/
theorem step_keeps (h : Consistent true s) (r : Ready) : Keeps (step r s) := by
  unfold step
  simp only [Proc.bind_apply, Proc.get_apply, Proc.ite_apply]
  split
  · exact acceptNewConnections_keeps h r.accepts
  · exact handleEvent_keeps h r.fd r.event

end Steps

/-! ## Runs -/

theorem serving_consistent {serverFd epollFd : Int} {rs : List Ready} {s : Server}
    (h : serving.Goes (start serverFd epollFd) rs s) : Consistent true s := by
  apply h.inv fun _ s => Consistent true s
  · exact consistent_start serverFd epollFd
  · intro rs r s t _ hs hn
    have hkeeps := step_keeps hs r
    rw [show step r s = .returns () t from hn] at hkeeps
    exact hkeeps

theorem visits_consistent {serverFd epollFd : Int} {rs : List Ready} {s : Server}
    (h : serving.Visits (start serverFd epollFd) rs s) : Consistent false s := by
  cases h with
  | goes hg => exact (serving_consistent hg).weaken
  | @ends rs r s t hg hl =>
    obtain ⟨e, he⟩ := hl
    have hkeeps := step_keeps (serving_consistent hg) r
    rw [he] at hkeeps
    exact hkeeps

/-- The procedure makes the steps for `rs`, up to the first one that throws. -/
def Makes (proc : ServerProc Unit) (rs : List Ready) : Prop :=
  ∀ s, (∀ t, proc s = .returns () t → serving.Goes s rs t) ∧
    ∀ e t, proc s = .throws (.thrown e) t → ∃ rs', rs' <+: rs ∧ serving.Visits s rs' t

theorem makes_step (r : Ready) : Makes (step r) [r] := by
  intro s
  constructor
  · exact fun t h => .snoc .nil h
  · exact fun e t h => ⟨[r], List.prefix_refl _, .ends .nil ⟨e, h⟩⟩

theorem makes_forM {α : Type} {f : α → ServerProc Unit} {rs : α → List Ready} (hf : ∀ a, Makes (f a) (rs a))
    (as : List α) : Makes (forM as f) (as.flatMap rs) := by
  induction as with
  | nil =>
    intro s
    constructor
    · rintro t h
      cases h
      exact .nil
    · rintro e t h
      cases h
  | cons a as ih =>
    intro s
    rw [List.forM_cons, List.flatMap_cons, Proc.bind_apply]
    obtain ⟨hret, hthr⟩ := hf a s
    cases ha : f a s with
    | returns _ t =>
      have hg := hret t ha
      obtain ⟨hret', hthr'⟩ := ih t
      refine ⟨fun u hu => hg.append (hret' u hu), fun e u hu => ?_⟩
      obtain ⟨rs', hp, hv⟩ := hthr' e u hu
      exact ⟨rs a ++ rs', (List.prefix_append_right_inj _).2 hp, hg.visits hv⟩
    | throws x t =>
      refine ⟨by simp, fun e u hu => ?_⟩
      cases hu
      obtain ⟨rs', hp, hv⟩ := hthr e t ha
      exact ⟨rs', hp.trans (List.prefix_append _ _), hv⟩
    | diverges => exact ⟨by simp, by simp⟩

/-- `EventLoop` makes the steps for the events of its batches. -/
theorem eventLoop_makes (batches : List (List Ready)) : Makes (eventLoop batches) batches.flatten := by
  have hbatch : ∀ batch : List Ready, Makes (forM batch step) batch := by
    intro batch
    have h := makes_forM makes_step batch
    rwa [List.flatMap_singleton'] at h
  have h := makes_forM hbatch batches
  rwa [List.flatMap_id'] at h

theorem life_no_overwrite {fd : Int} {trace : List FdEvent} {l : Life} (h : life fd trace = some l) :
    .insert fd true ∉ trace := by
  intro hm
  obtain ⟨pre, post, rfl⟩ := List.append_of_mem hm
  rw [life_append] at h
  obtain ⟨l₀, -, h⟩ := Option.bind_eq_some_iff.1 h
  have hfilter : (FdEvent.insert fd true :: post).filter (·.fd = fd) =
      .insert fd true :: post.filter (·.fd = fd) := by simp [FdEvent.fd]
  rw [hfilter, List.foldlM_cons] at h
  obtain ⟨l₁, hnext, -⟩ := Option.bind_eq_some_iff.1 h
  cases l₀ <;> cases hnext

/-- After every step of the server: the keys of the table are the registered
descriptors of clients, and these are open; the session under a key has that
descriptor; no entry was ever overwritten; and every descriptor that was ever
accepted is in the table, or closed, once for each time it was accepted and
never while in the table. -/
theorem table_consistent (serverFd epollFd : Int) (rs : List Ready) (s : Server)
    (h : serving.Visits (start serverFd epollFd) rs s) :
    (∀ fd, (s.fdSessionHt fd).isSome = true ↔ fd ≠ s.serverFd ∧ (s.kernel.interest fd).isSome = true) ∧
    (∀ fd, (s.fdSessionHt fd).isSome = true → s.kernel.isOpen fd = true) ∧
    (∀ fd p, s.fdSessionHt fd = some p → ∃ o, s.heap p = some o ∧ o.session.getClientFD = fd) ∧
    (∀ fd, .insert fd true ∉ s.trace) ∧
    (∀ fd, life fd s.trace = some (if (s.fdSessionHt fd).isSome then .tabled else .closed)) ∧
    (∀ fd, s.trace.count (.accept fd) =
      s.trace.count (.close fd) + if (s.fdSessionHt fd).isSome then 1 else 0) := by
  have hs := visits_consistent h
  refine ⟨hs.keys, ?_, ?_, fun fd => life_no_overwrite (hs.lives fd), hs.lives, ?_⟩
  · exact fun fd hfd => hs.opened fd ((hs.keys fd).1 hfd).2
  · intro fd p htab
    obtain ⟨-, -, c, hc, hheap, -⟩ := hs.held fd p htab
    refine ⟨_, hheap, ?_⟩
    rw [Session.getClientFD, hc.clientFd]
    rfl
  · intro fd
    rw [life_counts (hs.lives fd)]
    cases (s.fdSessionHt fd).isSome <;> rfl

/-- Two connections, one of which hangs up. -/
theorem table_consistent_hangup :
    ∃ s, serving.Visits (start 3 4)
        [⟨3, .onlyIn (.brings []), ⟨[.eintr, .conn 5 samplePeer true true, .conn 6 samplePeer true true]⟩⟩,
          ⟨6, { Event.onlyIn (.brings []) with err := true }, ⟨[]⟩⟩] s ∧
      s.kernel.isOpen 5 = true ∧ life 5 s.trace = some .tabled ∧ life 6 s.trace = some .closed := by
  obtain ⟨s, hs, h5, h6⟩ : ∃ s, serving.Visits (start 3 4)
      [⟨3, .onlyIn (.brings []), ⟨[.eintr, .conn 5 samplePeer true true, .conn 6 samplePeer true true]⟩⟩,
        ⟨6, { Event.onlyIn (.brings []) with err := true }, ⟨[]⟩⟩] s ∧
      (s.fdSessionHt 5).isSome = true ∧ (s.fdSessionHt 6).isSome = false :=
    ⟨_, .goes (.cons rfl (.cons rfl .nil)), rfl, rfl⟩
  obtain ⟨-, hopen, -, -, hlife, -⟩ := table_consistent 3 4 _ s hs
  exact ⟨s, hs, hopen 5 h5, by rw [hlife, h5]; rfl, by rw [hlife, h6]; rfl⟩

end Server

end RemoteScreenCapture
