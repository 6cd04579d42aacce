import RemoteScreenCapture.Table
/-!
# The loop that accepts

`AcceptNewConnections` over all that `accept` returns with until nothing is
pending. `server.h` has it accept until `EAGAIN`. It stops at any other error
too, so a connection that was aborted while it waited hides those behind it.
-/
open Lib

namespace RemoteScreenCapture

namespace Server

inductive Errno where
  /-- `EAGAIN` or `EWOULDBLOCK` -/
  | eagain
  | eintr
  | econnaborted
  | other
  deriving DecidableEq, Repr

/-- What `accept` returns with. A connection comes with whether
`epoll_ctl(EPOLL_CTL_ADD)` and `inet_ntop` succeed for it. -/
inductive AcceptResult where
  | conn (fd : Int) (peer : Endpoint) (addOk ntopOk : Bool)
  | error (errno : Errno)
  deriving DecidableEq, Repr

/-- The loop of `AcceptNewConnections`, for what the calls of `accept` return
with one after the other, and what is left of that when it ends. -/
def acceptLoop : List AcceptResult → ServerProc (List AcceptResult)
  | [] => throw .impossible
  | .conn fd peer addOk ntopOk :: results => do
    acceptOne fd peer addOk ntopOk
    acceptLoop results
  | .error errno :: results =>
    if errno = .eagain then return results
    else if errno = .eintr then acceptLoop results
    -- A warning is logged.
    else return results

/-- The result that `acceptNewConnections` goes round again after. -/
def Accept.result : Accept → AcceptResult
  | .eintr => .error .eintr
  | .conn fd peer addOk ntopOk => .conn fd peer addOk ntopOk

/-- A script is what is in front of the error that ends the loop. -/
theorem acceptLoop_script (accepts : List Accept) (errno : Errno) (he : errno ≠ .eintr) (results : List AcceptResult) :
    acceptLoop (accepts.map Accept.result ++ .error errno :: results) =
      (do
        acceptNewConnections ⟨accepts⟩
        return results) := by
  induction accepts with
  | nil =>
    funext s
    simp [acceptLoop, acceptNewConnections, Proc.bind_apply, he]
  | cons a accepts ih =>
    funext s
    cases a with
    | eintr => simpa [Accept.result, acceptLoop, acceptNewConnections, Proc.bind_apply] using congrFun ih s
    | conn fd peer addOk ntopOk =>
      simp only [List.map_cons, List.cons_append, Accept.result, acceptLoop, acceptNewConnections, List.forM_eq_forM,
        List.forM_cons, Proc.bind_apply] at ih ⊢
      cases acceptOne fd peer addOk ntopOk s with
      | returns _ t => exact congrFun ih t
      | throws e t => rfl
      | diverges => rfl

/-- A result that leaves what is pending behind it where it is: a connection, a
signal, or a connection that was aborted before it was accepted. -/
def AcceptResult.Transient : AcceptResult → Prop
  | .conn .. => True
  | .error errno => errno = .eintr ∨ errno = .econnaborted

/-- What a kernel returns: each descriptor is one that is not open. A connection
whose setup fails leaves its descriptor closed. -/
def Grants : (Int → Bool) → List AcceptResult → Prop
  | _, [] => True
  | isOpen, .conn fd _ addOk ntopOk :: results =>
    0 ≤ fd ∧ isOpen fd = false ∧ Grants (Function.update isOpen fd (addOk && ntopOk)) results
  | isOpen, .error _ :: results => Grants isOpen results

/-- The table has a session of its own for `fd`, made for the peer. -/
def HasSession (s : Server) (fd : Int) (peer : Endpoint) : Prop :=
  ∃ p, s.fdSessionHt fd = some p ∧
    s.heap p = some ⟨(Session.new (makeUniqueFD fd) (inetNtop peer) (toDecimal peer.port.toNat)).1, 1⟩

section Loop
variable {s t : Server} {fd : Int} {peer : Endpoint} {results : List AcceptResult}

theorem HasSession.touches {new : List FdEvent} {fd' : Int} (h : s.HasSession fd' peer) (ht : Touches fd new s t)
    (hne : fd' ≠ fd) : t.HasSession fd' peer := by
  obtain ⟨p, htab, hheap⟩ := h
  exact ⟨p, by rw [ht.table fd' hne, htab], by rw [ht.heap fd' p hne htab, hheap]⟩

/-- One connection: the server is consistent again, no session is lost, and there
is one more if the setup succeeded. -/
theorem acceptOne_admits (h : Consistent true s) (peer : Endpoint) (addOk ntopOk : Bool) (hpos : 0 ≤ fd)
    (hopen : s.kernel.isOpen fd = false) :
    ∃ t, acceptOne fd peer addOk ntopOk s = .returns () t ∧ Consistent true t ∧
      t.kernel.isOpen = Function.update s.kernel.isOpen fd (addOk && ntopOk) ∧
      ((addOk && ntopOk) = true → t.HasSession fd peer) ∧
      ∀ fd' peer', s.HasSession fd' peer' → t.HasSession fd' peer' := by
  have hother : ∀ {fd' peer'}, s.HasSession fd' peer' → fd' ≠ fd := by
    rintro fd' peer' ⟨p, htab, -⟩ rfl
    rw [h.untabled hopen] at htab
    cases htab
  refine ⟨_, acceptOne_spec peer addOk ntopOk hpos hopen (h.untabled hopen), ?_⟩
  cases hok : addOk && ntopOk with
  | true =>
    refine ⟨h.admitted hpos hopen _ _, rfl, fun _ => ⟨s.next, ?_, ?_⟩, fun fd' peer' hs => ?_⟩
    · simp [admitted]
    · simp [admitted, Conn.fresh]
    · exact hs.touches (h.touches_admitted hopen _) (hother hs)
  | false =>
    refine ⟨h.refused hopen, rfl, by simp, fun fd' peer' hs => ?_⟩
    exact hs.touches (h.touches_refused hopen) (hother hs)

/-- The loop on what the kernel can return, up to `EAGAIN`. -/
theorem acceptLoop_spec (h : Consistent true s) (hr : ∀ r ∈ results, r.Transient)
    (hg : Grants s.kernel.isOpen results) :
    ∃ rest t, acceptLoop (results ++ [.error .eagain]) s = .returns rest t ∧
      (rest = [] ↔ .error .econnaborted ∉ results) ∧
      (∀ fd' peer', s.HasSession fd' peer' → t.HasSession fd' peer') ∧
      (.error .econnaborted ∉ results → ∀ fd peer, .conn fd peer true true ∈ results → t.HasSession fd peer) := by
  induction results generalizing s with
  | nil => exact ⟨[], s, rfl, by simp, fun _ _ hs => hs, by simp⟩
  | cons r results ih =>
    have hrest : ∀ r ∈ results, r.Transient := fun r' hr' => hr r' (by simp [hr'])
    cases r with
    | conn fd peer addOk ntopOk =>
      obtain ⟨hpos, hopen, hg⟩ := hg
      obtain ⟨t, hone, ht, hkernel, hnew, hold⟩ := acceptOne_admits h peer addOk ntopOk hpos hopen
      rw [← hkernel] at hg
      obtain ⟨rest, u, hloop, hiff, hkept, hall⟩ := ih ht hrest hg
      refine ⟨rest, u, (Proc.bind_returns hone).trans hloop, by simpa using hiff, ?_, ?_⟩
      · exact fun fd' peer' hs => hkept fd' peer' (hold fd' peer' hs)
      · intro hno fd' peer' hmem
        have hno' : .error .econnaborted ∉ results := by simpa using hno
        rcases List.mem_cons.1 hmem with he | hmem
        · cases he
          exact hkept _ _ (hnew rfl)
        · exact hall hno' fd' peer' hmem
    | error errno =>
      rcases hr _ List.mem_cons_self with rfl | rfl
      · obtain ⟨rest, u, hloop, hiff, hkept, hall⟩ := ih h hrest hg
        exact ⟨rest, u, hloop, by simpa using hiff, hkept, by simpa using hall⟩
      · -- The loop ends here, and `EAGAIN` at least is left.
        refine ⟨results ++ [.error .eagain], s, rfl, by simp, fun _ _ hs => hs, by simp⟩

end Loop

/-- From any state of the server, a call takes all that the kernel has pending
and the `EAGAIN` behind it, and every connection that can be set up has a
session, if and only if no connection was aborted, the last one included. -/
theorem backlog_drained_iff (serverFd epollFd : Int) (rs : List Ready) (s : Server)
    (h : serving.Goes (start serverFd epollFd) rs s) (results : List AcceptResult)
    (hr : ∀ r ∈ results, r.Transient) (hg : Grants s.kernel.isOpen results) :
    ∃ rest t, acceptLoop (results ++ [.error .eagain]) s = .returns rest t ∧
      ((rest = [] ∧ ∀ fd peer, .conn fd peer true true ∈ results → t.HasSession fd peer) ↔
        .error .econnaborted ∉ results) := by
  obtain ⟨rest, t, hloop, hiff, -, hall⟩ := acceptLoop_spec (serving_consistent h) hr hg
  refine ⟨rest, t, hloop, fun hdrained => hiff.1 hdrained.1, fun hno => ⟨hiff.2 hno, hall hno⟩⟩

/-- A connection that is set up, behind one that is not and a signal. -/
theorem backlog_drained_two :
    ∃ t, acceptLoop [.conn 5 samplePeer false true, .error .eintr, .conn 5 samplePeer true true, .error .eagain]
        (start 3 4) = .returns [] t ∧ t.HasSession 5 samplePeer := by
  obtain ⟨rest, t, hloop, hiff⟩ := backlog_drained_iff 3 4 [] (start 3 4) .nil
    [.conn 5 samplePeer false true, .error .eintr, .conn 5 samplePeer true true]
    (by simp [AcceptResult.Transient]) (by simp [Grants, start])
  obtain ⟨rfl, hall⟩ := hiff.2 (by simp)
  exact ⟨t, hloop, hall 5 samplePeer (by simp)⟩

/-- A connection that was aborted hides the one behind it. -/
theorem aborted_hides_next :
    ¬∀ (serverFd epollFd : Int) (rs : List Ready) (s : Server), serving.Goes (start serverFd epollFd) rs s →
      ∀ results : List AcceptResult, (∀ r ∈ results, r.Transient) → Grants s.kernel.isOpen results →
        ∃ t, acceptLoop (results ++ [.error .eagain]) s = .returns [] t ∧
          ∀ fd peer, .conn fd peer true true ∈ results → t.HasSession fd peer := by
  intro h
  obtain ⟨t, hloop, -⟩ := h 3 4 [] (start 3 4) .nil [.error .econnaborted, .conn 5 samplePeer true true]
    (by simp [AcceptResult.Transient]) (by simp [Grants, start])
  have hleft : acceptLoop ([.error .econnaborted, .conn 5 samplePeer true true] ++ [.error .eagain]) (start 3 4) =
      .returns [.conn 5 samplePeer true true, .error .eagain] (start 3 4) := rfl
  rw [hleft] at hloop
  cases hloop

end Server

end RemoteScreenCapture
