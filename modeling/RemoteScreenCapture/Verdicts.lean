import RemoteScreenCapture.SessionRun
/-!
# Answers to requests

`SendAuthResponse` writes its verdict over one that still waits in `_response`.
So a session owes its client an answer for each time that happened, and no
other answer is lost, doubled or out of order.
-/
open Lib

namespace RemoteScreenCapture

/-- The answer that a request gets. -/
def verdict (ok : Bool) : UInt8 := if ok then 'Y'.toUInt8 else 'N'.toUInt8

def Effect.verdict? : Effect → Option UInt8
  | .auth _ ok => some (verdict ok)
  | _ => none

/-- The verdicts of the `HandleAuthRequest` calls, in order. -/
def verdicts (es : List Effect) : Bytes := es.filterMap Effect.verdict?

@[simp] theorem verdicts_append (es es' : List Effect) : verdicts (es ++ es') = verdicts es ++ verdicts es' :=
  List.filterMap_append

/-- The answers that the kernel has accepted, and those that wait in `_response`. -/
def Conn.replies (c : Conn) : Bytes := sentBytes c.effects ++ c.session.response

/-- The event has a request handled while the answer to an earlier one waits. -/
def Overwrites (e : Event) (c : Conn) : Prop :=
  ∃ c' m ms, Dispatches e c c' ∧ c'.session.messages = m :: ms ∧ m.typeVec = ['A'.toUInt8] ∧
    c'.session.response ≠ []

/-! ## One event -/

section Balance
variable {c c' : Conn}

theorem verdicts_replies {es : List Effect} (h : ∀ e ∈ es, e.IsReply) : verdicts es = [] := by
  apply filterMap_replies _ h
  intro e he
  cases e <;> first | rfl | cases he

theorem Replies.balance (h : Replies c c') : c'.replies = c.replies ∧ verdicts c'.effects = verdicts c.effects := by
  obtain ⟨es, he, hr, hb⟩ := h.effects
  constructor
  · rw [Conn.replies, he, sentBytes_append, List.append_assoc, hb]
    rfl
  · rw [he, verdicts_append, verdicts_replies hr, List.append_nil]

theorem Conn.Rebuffered.balance (h : c.Rebuffered c') :
    c'.replies = c.replies ∧ verdicts c'.effects = verdicts c.effects := by
  obtain ⟨_, _, _, rfl⟩ := h
  exact ⟨rfl, rfl⟩

theorem verdicts_authenticated (m : Message) (ms : List Message) :
    verdicts (c.authenticated m ms).effects = verdicts c.effects ++ [verdict (announced m.bytesVec).ok] := by
  simp [Conn.authenticated, verdicts, Effect.verdict?]

theorem sentBytes_authenticated (m : Message) (ms : List Message) :
    sentBytes (c.authenticated m ms).effects = sentBytes c.effects := by
  simp [Conn.authenticated, sentBytes, Effect.sentBytes]

/-- A verdict joins the answers, or takes the place of the last of them. -/
theorem answer_replies (ok : Bool) :
    (c.session.response = [] ∧ (c.answer ok).replies = c.replies ++ [verdict ok]) ∨
      c.session.response ≠ [] ∧ (c.answer ok).replies.length = c.replies.length := by
  by_cases hr : c.session.response = []
  · refine .inl ⟨hr, ?_⟩
    simp [Conn.replies, Conn.answer, hr, verdict]
  · refine .inr ⟨hr, ?_⟩
    simp [Conn.replies, Conn.answer, hr]

/-- What the dispatch of the front message adds to the answers and to the verdicts. -/
theorem Dispatched.balance (h : Dispatched c c') :
    (∃ m ms, c.session.messages = m :: ms ∧ m.typeVec = ['A'.toUInt8] ∧ c.session.response ≠ [] ∧
      c'.replies.length = c.replies.length ∧ (verdicts c'.effects).length = (verdicts c.effects).length + 1) ∨
    (∀ m ms, c.session.messages = m :: ms → m.typeVec = ['A'.toUInt8] → c.session.response = []) ∧
      ∃ vs, c'.replies = c.replies ++ vs ∧ verdicts c'.effects = verdicts c.effects ++ vs := by
  cases h with
  | idle hn =>
    refine .inr ⟨fun m ms hm ht => absurd (.inl ht) (hn m ms hm), [], ?_, ?_⟩
    · rw [List.append_nil]
    · rw [List.append_nil]
  | @image m ms env hm ht =>
    -- The front message is an image, so no request is handled.
    refine .inr ⟨fun m' ms' hm' ht' => ?_, [], ?_, ?_⟩
    · rw [hm] at hm'
      cases hm'
      rw [ht] at ht'
      exact absurd ht' (by decide)
    · simp [Conn.replies, Conn.saved, sentBytes, Effect.sentBytes]
    · simp [Conn.saved, verdicts, Effect.verdict?]
  | @auth m ms _ hm ht hrep =>
    obtain ⟨hreplies, hverdicts⟩ := hrep.balance
    have hv : verdicts c'.effects = verdicts c.effects ++ [verdict (announced m.bytesVec).ok] :=
      hverdicts.trans (verdicts_authenticated m ms)
    have hbefore : (c.authenticated m ms).replies = c.replies := by
      rw [Conn.replies, sentBytes_authenticated]
      rfl
    rcases @answer_replies (c.authenticated m ms) (announced m.bytesVec).ok with ⟨hempty, ha⟩ | ⟨hwait, ha⟩
    · refine .inr ⟨fun _ _ _ _ => hempty, [verdict (announced m.bytesVec).ok], ?_, hv⟩
      rw [hreplies, ha, hbefore]
    · refine .inl ⟨m, ms, hm, ht, hwait, ?_, ?_⟩
      · rw [hreplies, ha, hbefore]
      · rw [hv, List.length_append, List.length_singleton]

/-- An event that overwrites leaves one answer less than verdicts; any other
adds the same to both. -/
theorem serveEvent_balance {e : Event} (hr : c.session.Ready) (hq : c.session.Typed)
    (h : (serveEvent e c).Leaves c') :
    (Overwrites e c ∧ c'.replies.length = c.replies.length ∧
      (verdicts c'.effects).length = (verdicts c.effects).length + 1) ∨
    ¬Overwrites e c ∧ ∃ vs, c'.replies = c.replies ++ vs ∧ verdicts c'.effects = verdicts c.effects ++ vs := by
  rcases serveEvent_dispatch hr h with ⟨c₂, hd, hl⟩ | ⟨hno, c₁, hrep, hbuf⟩
  · obtain ⟨c₁, hrep, hbuf, hq₂⟩ := hd.before hr hq
    have hreplies : c₂.replies = c.replies := hbuf.balance.1.trans hrep.balance.1
    have hverdicts : verdicts c₂.effects = verdicts c.effects := hbuf.balance.2.trans hrep.balance.2
    rw [← hreplies, ← hverdicts]
    rcases (dispatchMessage_leaves hq₂ hl).balance with ⟨m, ms, hm, ht, hwait, hlen⟩ | ⟨hempty, hvs⟩
    · exact .inl ⟨⟨c₂, m, ms, hd, hm, ht, hwait⟩, hlen⟩
    · refine .inr ⟨?_, hvs⟩
      rintro ⟨c₂', m, ms, hd', hm, ht, hwait⟩
      rw [hd'.unique hd] at hm hwait
      exact hwait (hempty m ms hm ht)
  · refine .inr ⟨fun ⟨c₂, m, ms, hd, _⟩ => hno c₂ hd, [], ?_, ?_⟩
    · rw [List.append_nil, hbuf.balance.1, hrep.balance.1]
    · rw [List.append_nil, hbuf.balance.2, hrep.balance.2]

end Balance

/-! ## Runs -/

/-- One of the events overwrites, where the run has come to it. -/
def Overwritten (c₀ : Conn) (es : List Event) : Prop :=
  ∃ before e after c, es = before ++ e :: after ∧ sessions.Goes c₀ before c ∧ Overwrites e c

theorem overwritten_snoc {c₀ c : Conn} {es : List Event} (hg : sessions.Goes c₀ es c) (e : Event) :
    Overwritten c₀ (es ++ [e]) ↔ Overwritten c₀ es ∨ Overwrites e c := by
  constructor
  · rintro ⟨before, e', after, c', he, hg', ho⟩
    rcases List.eq_nil_or_concat after with rfl | ⟨after, x, rfl⟩
    · obtain ⟨rfl, he'⟩ := List.append_inj' he rfl
      cases he'
      rw [sessions_unique hg hg']
      exact .inr ho
    · rw [List.concat_eq_append, ← List.cons_append, ← List.append_assoc] at he
      exact .inl ⟨before, e', after, c', (List.append_inj' he rfl).1, hg', ho⟩
  · rintro (⟨before, e', after, c', rfl, hg', ho⟩ | ho)
    · exact ⟨before, e', after ++ [e], c', by simp, hg', ho⟩
    · exact ⟨es, e, [], c, rfl, hg, ho⟩

/-- The answers are the verdicts, as long as none was overwritten; from then on
there are fewer. -/
structure Balanced (c₀ : Conn) (es : List Event) (c : Conn) : Prop where
  equal : ¬Overwritten c₀ es → c.replies = verdicts c.effects
  fewer : Overwritten c₀ es → c.replies.length < (verdicts c.effects).length

theorem Balanced.step {c₀ c c' : Conn} {es : List Event} {e : Event} (h : Balanced c₀ es c)
    (hg : sessions.Goes c₀ es c) (hr : c.session.Ready) (hq : c.session.Typed) (hl : (serveEvent e c).Leaves c') :
    Balanced c₀ (es ++ [e]) c' := by
  have hsnoc := overwritten_snoc hg e
  rcases serveEvent_balance hr hq hl with ⟨ho, hreplies, hverdicts⟩ | ⟨hno, vs, hreplies, hverdicts⟩
  · refine ⟨fun hn => absurd (hsnoc.2 (.inr ho)) hn, fun _ => ?_⟩
    rw [hreplies, hverdicts]
    -- From the first overwritten answer on, the verdicts stay ahead.
    by_cases hbefore : Overwritten c₀ es
    · exact Nat.lt_succ_of_lt (h.fewer hbefore)
    · rw [h.equal hbefore]
      exact Nat.lt_succ_self _
  · constructor
    · intro hn
      rw [hreplies, hverdicts, h.equal fun hbefore => hn (hsnoc.2 (.inl hbefore))]
    · intro hover
      have hlt := h.fewer ((hsnoc.1 hover).resolve_right hno)
      rw [hreplies, hverdicts, List.length_append, List.length_append]
      omega

theorem run_balanced {fd : UniqueFD} {host port : Bytes} {es : List Event} {c : Conn}
    (h : sessions.Visits (Conn.fresh fd host port) es c) : Balanced (Conn.fresh fd host port) es c := by
  apply sessions_induct (Balanced (Conn.fresh fd host port)) _ _ h
  · constructor
    · intro _
      rfl
    · rintro ⟨before, e, after, c, he, -⟩
      simp at he
  · intro es e c c' hg hb hl
    obtain ⟨r, ht⟩ := run_tracks hg
    exact hb.step hg ht.ready ht.typed hl

/-- At any point of any run, the bytes sent and the bytes that wait are the
verdicts given so far, in order, exactly if no request was handled while an
earlier answer was waiting. -/
theorem replies_are_verdicts_iff (fd : UniqueFD) (host port : Bytes) (es : List Event) (c : Conn)
    (h : sessions.Visits (Conn.fresh fd host port) es c) :
    sentBytes c.effects ++ c.session.response = verdicts c.effects ↔
      ∀ before e after c', es = before ++ e :: after → sessions.Goes (Conn.fresh fd host port) before c' →
        ¬Overwrites e c' := by
  have hb := run_balanced h
  constructor
  · intro heq before e after c' he hg ho
    have hlt := hb.fewer ⟨before, e, after, c', he, hg, ho⟩
    rw [Conn.replies, heq] at hlt
    exact lt_irrefl _ hlt
  · intro hno
    exact hb.equal fun ⟨before, e, after, c', he, hg, ho⟩ => hno before e after c' he hg ho

/-- A request whose answer does not go out at once. -/
def InInput.stalled (reads : List Read) : InInput := { InInput.brings reads with send := ⟨[], .eagain⟩ }

/-- Two requests, the first accepted and the second rejected. -/
def sampleRequests : Chunk × Chunk := (.request, .of [65, 0, 0, 0, 1, 7])

/-- Each answer goes out at once. -/
theorem replies_are_verdicts_iff_prompt :
    ∃ c, sessions.Visits .sample [.brings [.data sampleRequests.1], .brings [.data sampleRequests.2]] c ∧
      verdicts c.effects = [89, 78] ∧
      ∀ before e after c', [Event.brings [.data sampleRequests.1], .brings [.data sampleRequests.2]] =
        before ++ e :: after → sessions.Goes .sample before c' → ¬Overwrites e c' := by
  have hrun : (serveAll [.brings [.data sampleRequests.1], .brings [.data sampleRequests.2]] .sample).map
      (fun c => (sentBytes c.effects ++ c.session.response, verdicts c.effects)) =
      some ([89, 78], [89, 78]) := by decide +kernel
  obtain ⟨c, hc, h⟩ := Option.map_eq_some_iff.1 hrun
  obtain ⟨hs, hv⟩ := Prod.mk.inj h
  have hvisits : sessions.Visits .sample _ c := .goes (serveAll_goes hc)
  exact ⟨c, hvisits, hv, (replies_are_verdicts_iff _ _ _ _ c hvisits).1 (hs.trans hv.symm)⟩

/-- The answer to the first request waits when the second is handled. -/
theorem stalled_answer_overwritten :
    ¬∀ (es : List Event) (c : Conn), sessions.Goes .sample es c →
      sentBytes c.effects ++ c.session.response = verdicts c.effects := by
  intro h
  have hrun : (serveAll [.onlyIn (.stalled [.data sampleRequests.1]), .brings [.data sampleRequests.2]] .sample).map
      (fun c => (sentBytes c.effects ++ c.session.response, verdicts c.effects)) =
      some ([78], [89, 78]) := by decide +kernel
  obtain ⟨c, hc, he⟩ := Option.map_eq_some_iff.1 hrun
  obtain ⟨hs, hv⟩ := Prod.mk.inj he
  have heq := h _ c (serveAll_goes hc)
  rw [hs, hv] at heq
  exact absurd heq (by decide)

end RemoteScreenCapture
