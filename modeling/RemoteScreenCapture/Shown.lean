import RemoteScreenCapture.SessionRun
/-!
# What was shown plays no part

The handlers of an event only add to what a connection has shown. So a server
that runs them on a bare session, and keeps what they show elsewhere, does what
`sessions` does.
-/
open Lib

namespace RemoteScreenCapture

/-- The connection, with `es` shown before all else. -/
def Conn.behind (es : List Effect) (c : Conn) : Conn := { c with effects := es ++ c.effects }

section Behind
variable {es : List Effect}

theorem commutes_lift {α : Type} (p : SessionProc α) : Proc.Commutes (Conn.behind es) (liftM p : ConnProc α) := by
  change Proc.Commutes _ (Proc.zoom Conn.session (fun s c => { c with session := s }) p)
  apply Proc.commutes_zoom
  · exact fun _ => rfl
  · exact fun _ _ => rfl

theorem commutes_emit (e : Effect) : Proc.Commutes (Conn.behind es) (emit e) :=
  Proc.commutes_modify fun c => by simp [Conn.behind]

theorem commutes_updateEpollEvents (mask : Mask) (mod : Option String) :
    Proc.Commutes (Conn.behind es) (updateEpollEvents mask mod) := by
  cases mod with
  | none => exact commutes_emit _
  | some err => exact Proc.commutes_throw _

theorem commutes_trySend (script : SendScript) : Proc.Commutes (Conn.behind es) (trySend script) := by
  unfold trySend
  generalize script.sends = sends
  induction sends with
  | nil =>
    rw [trySend.go]
    refine Proc.commutes_get (fun _ => rfl) fun c => Proc.commutes_ite (Proc.commutes_pure _) (Proc.commutes_pure _)
  | cons send sends ih =>
    rw [trySend.go]
    refine Proc.commutes_get (fun _ => rfl) fun c => Proc.commutes_ite (Proc.commutes_pure _) ?_
    cases send with
    | eintr => exact ih
    | sent k =>
      refine Proc.commutes_bind (commutes_emit _) fun _ => Proc.commutes_bind ?_ fun _ => ih
      exact Proc.commutes_modify fun _ => rfl

theorem commutes_handleOutEvent (i : OutInput) : Proc.Commutes (Conn.behind es) (handleOutEvent i) := by
  unfold handleOutEvent
  refine Proc.commutes_bind (commutes_trySend _) fun sent => ?_
  refine Proc.commutes_ite (Proc.commutes_pure _) (Proc.commutes_get (fun _ => rfl) fun c => ?_)
  refine Proc.commutes_ite (Proc.commutes_bind (commutes_updateEpollEvents _ _) fun _ => ?_) ?_
  · exact Proc.commutes_pure _
  · exact Proc.commutes_pure _

theorem commutes_handleAuthRequest : Proc.Commutes (Conn.behind es) handleAuthRequest := by
  unfold handleAuthRequest
  refine Proc.commutes_bind (commutes_lift _) fun msg => Proc.commutes_bind ?_ fun ok => ?_
  · refine Proc.commutes_tryCatch ?_ fun e => ?_
    · exact Proc.commutes_bind (commutes_lift _) fun _ => Proc.commutes_bind (commutes_lift _) fun _ =>
        Proc.commutes_pure _
    · cases e with
      | runtimeError what => exact Proc.commutes_bind (commutes_lift _) fun _ => Proc.commutes_pure _
      | undefined => exact Proc.commutes_throw _
  · exact Proc.commutes_bind (commutes_emit _) fun _ => Proc.commutes_pure _

theorem commutes_sendAuthResponse (ok : Bool) (script : SendScript) :
    Proc.Commutes (Conn.behind es) (sendAuthResponse ok script) := by
  unfold sendAuthResponse
  refine Proc.commutes_bind (Proc.commutes_modify fun c => ?_) fun _ => commutes_trySend _
  by_cases hr : c.session.response = [] <;> simp [Conn.behind, hr]

theorem commutes_dispatchAuth (i : InInput) : Proc.Commutes (Conn.behind es) (dispatchAuth i) := by
  unfold dispatchAuth
  refine Proc.commutes_bind commutes_handleAuthRequest fun ok => ?_
  refine Proc.commutes_bind (commutes_sendAuthResponse _ _) fun sent => ?_
  refine Proc.commutes_ite (Proc.commutes_pure _) (Proc.commutes_get (fun _ => rfl) fun c => ?_)
  refine Proc.commutes_ite (Proc.commutes_bind (commutes_updateEpollEvents _ _) fun _ => ?_) ?_
  · exact Proc.commutes_pure _
  · exact Proc.commutes_pure _

theorem commutes_handleImgMessage (env : SaveEnv) : Proc.Commutes (Conn.behind es) (handleImgMessage env) := by
  unfold handleImgMessage saveScreen
  refine Proc.commutes_bind (commutes_lift _) fun msg => Proc.commutes_bind ?_ fun _ => commutes_lift _
  exact Proc.commutes_get (fun _ => rfl) fun c => commutes_emit _

theorem commutes_dispatchMessage (i : InInput) : Proc.Commutes (Conn.behind es) (dispatchMessage i) := by
  unfold dispatchMessage
  refine Proc.commutes_get (fun _ => rfl) fun c => Proc.commutes_ite ?_ (Proc.commutes_pure _)
  refine Proc.commutes_bind (commutes_lift _) fun msgType => Proc.commutes_ite (commutes_dispatchAuth i) ?_
  refine Proc.commutes_ite (Proc.commutes_bind (commutes_handleImgMessage _) fun _ => ?_) ?_
  · exact Proc.commutes_pure _
  · exact Proc.commutes_pure _

theorem commutes_handleInEvent (i : InInput) : Proc.Commutes (Conn.behind es) (handleInEvent i) := by
  unfold handleInEvent
  refine Proc.commutes_bind (commutes_lift _) fun received => Proc.commutes_ite (Proc.commutes_pure _) ?_
  exact Proc.commutes_bind (commutes_lift _) fun _ => commutes_dispatchMessage i

/-- An event does the same whatever was shown before it. -/
theorem commutes_serveEvent (e : Event) : Proc.Commutes (Conn.behind es) (serveEvent e) := by
  unfold serveEvent serveOut
  refine Proc.commutes_ite (Proc.commutes_pure _) (Proc.commutes_bind ?_ fun sent => ?_)
  · exact Proc.commutes_ite (commutes_handleOutEvent _) (Proc.commutes_pure _)
  · refine Proc.commutes_ite (Proc.commutes_pure _) ?_
    exact Proc.commutes_ite (commutes_handleInEvent _) (Proc.commutes_pure _)

end Behind

/-- A session does what it would do having shown nothing yet. -/
theorem serveEvent_behind (e : Event) (c : Conn) :
    serveEvent e c = (serveEvent e ⟨c.session, []⟩).mapState (Conn.behind c.effects) := by
  have h := @commutes_serveEvent c.effects e ⟨c.session, []⟩
  rw [← h]
  simp [Conn.behind]

end RemoteScreenCapture
