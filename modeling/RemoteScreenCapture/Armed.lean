import RemoteScreenCapture.Isolation
/-!
# Replies that wait

What `send` does not take at once stays in the response until an event with
`EPOLLOUT`. Under edge triggering such an event comes only if the mask asks for
it. It does, whenever a response waits.
-/
open Lib

namespace RemoteScreenCapture

open Server (maskAfter maskAfter_append)

/-! ## Within one event -/

/-- `EPOLLIN | EPOLLOUT | EPOLLET` -/
def Mask.armed : Mask := { epollin := true, epollout := true, epollet := true }

/-- Shown on a descriptor of the given mask, the effects leave a mask that asks
for `EPOLLOUT` if the response waits. -/
def Conn.Armed (mask : Option Mask) (c : Conn) : Prop :=
  c.session.response ≠ [] → maskAfter mask c.effects = some .armed

section Armed
variable {mask : Option Mask} {c c' : Conn}

/-- Effects that set no mask change nothing while the response does not grow. -/
theorem Conn.Armed.same (h : c.Armed mask) {e : Effect} (hresponse : c'.session.response ≠ [] → c.session.response ≠ [])
    (heffects : c'.effects = c.effects ++ [e]) (he : ∀ mask', e ≠ .epollMod mask') : c'.Armed mask := by
  intro hwaits
  rw [heffects, maskAfter_append, h (hresponse hwaits)]
  cases e with
  | epollMod mask' => exact absurd rfl (he mask')
  | _ => rfl

theorem armed_of_empty (h : c.session.response = []) : c.Armed mask := fun hwaits => absurd h hwaits

theorem Conn.Armed.trySend (h : c.Armed mask) {script : SendScript} {ok : Bool}
    (hs : RemoteScreenCapture.trySend script c = .returns ok c') : c'.Armed mask := by
  unfold RemoteScreenCapture.trySend at hs
  generalize script.sends = sends at hs
  induction sends generalizing c with
  | nil =>
    by_cases hr : c.session.response = []
    · rw [trySend_go_empty hr] at hs
      cases hs
      exact h
    · rw [trySend_go_nil hr] at hs
      cases hs
      exact h
  | cons send sends ih =>
    by_cases hr : c.session.response = []
    · rw [trySend_go_empty hr] at hs
      cases hs
      exact h
    cases send with
    | eintr =>
      rw [trySend_go_eintr hr] at hs
      exact ih h hs
    | sent k =>
      rw [trySend_go_sent hr] at hs
      exact ih (h.same (fun _ => hr) rfl (by simp)) hs

theorem Conn.Armed.handleOutEvent (h : c.Armed mask) {o : OutInput} {ok : Bool}
    (hs : RemoteScreenCapture.handleOutEvent o c = .returns ok c') : c'.Armed mask := by
  obtain ⟨sent, c₁, hsend, -, hspec⟩ := handleOutEvent_spec o c
  rw [hspec] at hs
  split at hs
  · split at hs
    · rename_i hempty
      rw [remask_returns hs]
      exact armed_of_empty hempty
    · cases hs
      exact h.trySend hsend
  · cases hs
    exact h.trySend hsend

/-- Whatever the mask was, a verdict that waits has set it. -/
theorem dispatchAuth_armed {i : InInput} {m : Message} {ms : List Message} (hm : c.session.messages = m :: ms)
    (hs : dispatchAuth i c = .returns true c') : c'.Armed mask := by
  obtain ⟨sent, c₁, -, -, hspec⟩ := dispatchAuth_spec i hm
  rw [hspec] at hs
  split at hs
  · split at hs
    · rename_i hempty
      cases hs
      exact armed_of_empty hempty
    · -- The mask is the last effect, whatever it was before.
      rw [remask_returns hs]
      intro _
      rw [maskAfter_append]
      rfl
  · cases hs

theorem Conn.Armed.dispatchMessage (h : c.Armed mask) {i : InInput} (hq : c.session.Typed)
    (hs : RemoteScreenCapture.dispatchMessage i c = .returns true c') : c'.Armed mask := by
  match hm : c.session.messages with
  | [] =>
    rw [dispatch_nil hm] at hs
    cases hs
    exact h
  | m :: ms =>
    obtain ⟨t, ht⟩ := hq m (by simp [hm])
    rw [dispatch_cons hm ht] at hs
    split at hs
    · exact dispatchAuth_armed hm hs
    · split at hs
      · cases hs
        exact h.same id rfl (by simp)
      · cases hs
        exact h

theorem Conn.Armed.handleInEvent (h : c.Armed mask) {i : InInput} (hsound : c.session.Sound)
    (hs : RemoteScreenCapture.handleInEvent i c = .returns true c') : c'.Armed mask := by
  by_cases hstop : i.recv.stop = .eagain
  · rw [handleInEvent_eagain hsound.ready hstop] at hs
    cases hc : wire.call Item.isOversized (c.session.pending ++ i.data) with
    | none =>
      rw [hc] at hs
      cases hs
    | some found =>
      rw [hc] at hs
      have hq : ((c.session.receive i.data).after found.1 found.2).Typed :=
        Session.Typed.after (s := c.session.receive i.data) hsound.typed found.1 found.2
      have hparsed : ({ c with session := (c.session.receive i.data).after found.1 found.2 } : Conn).Armed mask := h
      exact hparsed.dispatchMessage hq hs
  · rw [handleInEvent_closed hstop] at hs
    cases hs

/-- An event after which the session is kept leaves it armed. -/
theorem Conn.Armed.serveEvent (h : c.Armed mask) {e : Event} (hsound : c.session.Sound)
    (hs : RemoteScreenCapture.serveEvent e c = .returns true c') : c'.Armed mask := by
  rcases serveEvent_cases e c with ⟨-, he⟩ | ⟨-, c₁, hrep, ⟨x, -, he⟩ | ⟨-, he⟩ | ⟨hout, he⟩⟩ <;> rw [he] at hs
  · cases hs
  · cases hs
  · cases hs
  · have h₁ : c₁.Armed mask := by
      unfold serveOut at hout
      split at hout
      · exact h.handleOutEvent hout
      · cases hout
        exact h
    split at hs
    · exact h₁.handleInEvent (hsound.replies hrep) hs
    · cases hs
      exact h₁

end Armed

/-! ## Over whole runs -/

namespace Server

/-- A session that is sound, and waits for `EPOLLOUT` if its response waits. -/
structure Solo.Fit (solo : Solo) : Prop where
  sound : ∀ session, solo.session = some session → session.Sound
  armed : ∀ session, solo.session = some session → session.response ≠ [] → solo.mask = some .armed

/-- Whatever comes to a descriptor keeps it fit. -/
theorem Solo.Fit.step {fd : Int} {i : Solo.Input} {solo solo' : Solo} (h : solo.Fit)
    (hs : Solo.step fd i solo = some solo') : solo'.Fit := by
  obtain ⟨session, mask, trace⟩ := solo
  cases i with
  | accept peer addOk ntopOk =>
    cases session with
    | none =>
      simp only [Solo.step] at hs
      split at hs
      · cases hs
        constructor
        · rintro _ ⟨⟩
          exact sound_new _ _ _
        · rintro _ ⟨⟩ hwaits
          exact absurd rfl hwaits
      · cases hs
        exact ⟨by simp, by simp⟩
    | some session => cases hs
  | event e =>
    cases session with
    | none =>
      cases hs
      exact h
    | some session =>
      have hsound : session.Sound := h.sound session rfl
      have harmed : Conn.Armed mask ⟨session, []⟩ := h.armed session rfl
      simp only [Solo.step] at hs
      split at hs
      · rename_i c hserve
        cases hs
        constructor
        · rintro _ ⟨⟩
          exact Session.Sound.serveEvent (c := ⟨session, []⟩) hsound hserve
        · rintro _ ⟨⟩
          exact harmed.serveEvent hsound hserve
      · cases hs
        exact ⟨by simp, by simp⟩
      · cases hs

theorem Solo.Fit.exec {fd : Int} {is : List Solo.Input} {solo solo' : Solo} (h : solo.Fit)
    (hs : System.exec (Solo.step fd) solo is = some solo') : solo'.Fit :=
  (System.exec_goes hs).inv (fun _ solo => solo.Fit) h fun _ _ _ _ _ hfit hn => Solo.Fit.step hfit hn

theorem run_fit {serverFd epollFd : Int} {rs : List Ready} {s : Server}
    (h : serving.Goes (start serverFd epollFd) rs s) (fd : Int) : (s.solo fd).Fit := by
  have hstart : ((start serverFd epollFd).solo fd).Fit := ⟨by simp [solo, start], by simp [solo, start]⟩
  exact hstart.exec (run_solo .nil h fd)

/-- Where `epoll_ctl` succeeds, no step throws. -/
theorem visits_goes {serverFd epollFd : Int} {rs : List Ready} {s : Server}
    (h : serving.Visits (start serverFd epollFd) rs s)
    (hmods : ∀ r ∈ rs, r.event.out.mod = none ∧ r.event.inp.mod = none) :
    serving.Goes (start serverFd epollFd) rs s := by
  cases h with
  | goes hg => exact hg
  | @ends rs r u _ hg hl =>
    -- Only an exception ends a run, and a step without a failing `epoll_ctl` lets out none.
    obtain ⟨x, hx⟩ := hl
    obtain ⟨hout, hinp⟩ := hmods r (by simp)
    rcases step_goes_on (serving_consistent hg) hout hinp with ⟨v, hv⟩ | ⟨v, hv⟩ | ⟨hv, -⟩ <;>
    · rw [hx] at hv
      cases hv

/-- In every state of the server, whatever happened, a session in the table has
one byte of response at most, also between the calls that its next event makes;
and if it has one, its descriptor is registered for `EPOLLOUT`, with `EPOLLIN`
and `EPOLLET`. -/
theorem no_reply_stranded (serverFd epollFd : Int) (rs : List Ready) (s : Server)
    (h : serving.Visits (start serverFd epollFd) rs s)
    (hmods : ∀ r ∈ rs, r.event.out.mod = none ∧ r.event.inp.mod = none) :
    ∀ fd p, s.fdSessionHt fd = some p → ∃ o, s.heap p = some o ∧
      (o.session.response ≠ [] →
        s.kernel.interest fd = some { epollin := true, epollout := true, epollet := true }) ∧
      o.session.response.length ≤ 1 ∧
      ∀ cs session, calls.Visits o.session cs session → session.response.length ≤ 1 := by
  intro fd p htab
  have hg := visits_goes h hmods
  obtain ⟨-, -, c, -, hheap, -⟩ := (serving_consistent hg).held fd p htab
  have hfit := run_fit hg fd
  rw [solo_tabled htab hheap] at hfit
  have hsound : c.session.Sound := hfit.sound _ rfl
  refine ⟨_, hheap, hfit.armed _ rfl, hsound.response, ?_⟩
  intro cs session hcs
  exact (hsound.visits hcs).response

/-- A connection whose request is accepted while `send` takes nothing. -/
def waitingRun : List Ready :=
  [⟨3, .brings [], ⟨[.conn 5 samplePeer true true]⟩⟩,
    ⟨5, .onlyIn { InInput.brings [.data .request] with send := ⟨[], .eagain⟩ }, ⟨[]⟩⟩]

theorem no_reply_stranded_waiting :
    ∃ s, serving.Visits (start 3 4) waitingRun s ∧ (s.solo 5).session.map Session.response = some (lit "Y") ∧
      s.kernel.interest 5 = some .armed := by
  have hrun : (stepAll waitingRun (start 3 4)).map (fun s => (s.solo 5).session.map Session.response) =
      some (some (lit "Y")) := by decide +kernel
  obtain ⟨s, hall, hresponse⟩ := Option.map_eq_some_iff.1 hrun
  have hv : serving.Visits (start 3 4) waitingRun s := .goes (stepAll_goes hall)
  have hmods : ∀ r ∈ waitingRun, r.event.out.mod = none ∧ r.event.inp.mod = none := by
    intro r hr
    simp only [waitingRun, List.mem_cons, List.not_mem_nil, or_false] at hr
    rcases hr with rfl | rfl <;> exact ⟨rfl, rfl⟩
  cases htab : s.fdSessionHt 5 with
  | none => simp [solo_untabled htab] at hresponse
  | some p =>
    obtain ⟨o, hheap, harmed, -⟩ := no_reply_stranded 3 4 waitingRun s hv hmods 5 p htab
    have hsession : (s.solo 5).session = some o.session := by rw [solo_tabled htab hheap]
    refine ⟨s, hv, hresponse, harmed ?_⟩
    rw [hsession, Option.map_some, Option.some.injEq] at hresponse
    rw [hresponse]
    decide

end Server

end RemoteScreenCapture
