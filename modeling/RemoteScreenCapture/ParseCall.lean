import RemoteScreenCapture.Calls
/-!
# One call of `ParseMessage`

From any state that calls can lead to: when `ParseMessage` returns at all, and
what has become of each byte when it does.
-/
open Lib Lib.BigEndian

namespace RemoteScreenCapture

/-- The bytes of the header in `_message`. -/
def Session.header (s : Session) : Bytes := s.message.typeVec ++ s.message.sizeVec

theorem Session.Ready.header_append {s : Session} (h : s.Ready) : s.header ++ s.request = s.pending := by
  unfold Session.Ready at h
  unfold Session.header Session.pending Message.held
  cases hm : s.message with
  | mk typeVec sizeVec bytesVec =>
    rw [hm] at h
    cases h <;> simp

/-! ## When it returns -/

/-- A call of the decoder gets stuck behind complete frames, at a header that announces nothing. -/
theorem wire_call_none {bs : Bytes} : wire.call Item.isOversized bs = none ↔
    ∃ (fs : List (Frame Limit.maxMessageSize)) (t : UInt8) (rest : Bytes),
      bs = Frame.encodeAll fs ++ t :: 0 :: 0 :: 0 :: 0 :: rest := by
  rw [wire.call_eq_none]
  constructor
  · rintro ⟨is, left, his, rfl, hstuck⟩
    obtain ⟨fs, rfl⟩ := exists_frames fun i hi => ⟨found_bounded (his i hi).1, (his i hi).2⟩
    obtain ⟨t, rest, rfl⟩ := look_stuck_iff.1 hstuck
    exact ⟨fs, t, rest, by rw [wire_encAll]⟩
  · rintro ⟨fs, t, rest, rfl⟩
    rw [← wire_encAll]
    refine ⟨fs.map Frame.item, _, ?_, rfl, (wire_look _).trans (look_stuck_iff.2 ⟨t, rest, rfl⟩)⟩
    intro i hi
    obtain ⟨f, -, rfl⟩ := List.mem_map.1 hi
    exact ⟨wire_found f.accepted, rfl⟩

theorem parseMessage_returns {s : Session} (h : s.Ready) :
    (∃ t, parseMessage s = .returns () t) ↔ wire.call Item.isOversized s.pending ≠ none := by
  rw [parseMessage_spec h]
  cases wire.call Item.isOversized s.pending <;> simp [Session.parsed]

/-- In any state of a session, and whatever is in its buffer, the loop of
`ParseMessage` reaches a `return` unless the bytes held begin with complete
frames and then a header that announces an empty payload. -/
theorem parseLoop_returns_iff (fd : UniqueFD) (host port : Bytes) (cs : List Call) (s : Session)
    (h : calls.Visits (Session.new fd host port).1 cs s) (request : Bytes) :
    (∃ n t, Proc.loop parsePass n { s with request := request } = .returns () t) ↔
      ¬∃ (fs : List (Frame Limit.maxMessageSize)) (type : UInt8) (rest : Bytes),
        s.header ++ request = Frame.encodeAll fs ++ type :: 0 :: 0 :: 0 :: 0 :: rest := by
  obtain ⟨s', hs'⟩ : ∃ s', s' = ({ s with request := request } : Session) := ⟨_, rfl⟩
  have hready : s'.Ready := by
    rw [hs']
    exact (calls_sound h).ready
  have hpend : s'.pending = s.header ++ request := by
    rw [← hready.header_append, hs']
    rfl
  rw [← hs', ← hpend, ← wire_call_none, ← ne_eq, ← parseMessage_returns hready]
  constructor
  · rintro ⟨n, t, hn⟩
    match hp : parseMessage s' with
    | .returns () t' => exact ⟨t', rfl⟩
    | .throws e t' => exact absurd hp (parseMessage_no_throw hready)
    | .diverges =>
      -- The bound of `parseMessage` would be reached by no larger one either.
      rw [(parseMessage_diverges s').1 hp n] at hn
      cases hn
  · rintro ⟨t, ht⟩
    exact ⟨s'.request.length + 1, t, ht⟩

/-- With the type of a frame in `_message`, the rest of it and the start of another. -/
theorem parseLoop_returns_iff_split :
    ∃ n t, Proc.loop parsePass n { (Session.new (makeUniqueFD 5) [] []).1 with
      message := ⟨[73], [], []⟩, request := [0, 0, 0, 1, 9, 73] } = .returns () t := by
  let fresh := (Session.new (makeUniqueFD 5) [] []).1
  let before : Session := { fresh with request := [73, 0, 0] }
  let held : Session := { fresh with message := ⟨[73], [], []⟩, request := [0, 0] }
  have hrecv : calls.next (.tryRecv ⟨[.data (.of [73, 0, 0])], .eagain⟩) fresh before := ⟨_, rfl, rfl⟩
  have hparse : calls.next .parseMessage before held := ⟨⟨held, []⟩, by decide +kernel, rfl⟩
  have hvisits : calls.Visits fresh _ held := .goes (.cons hrecv (.cons hparse .nil))
  refine (parseLoop_returns_iff (makeUniqueFD 5) [] [] _ held hvisits [0, 0, 0, 1, 9, 73]).2 ?_
  rintro ⟨fs, type, rest, he⟩
  have hcall : wire.call Item.isOversized [73, 0, 0, 0, 1, 9, 73] = none := wire_call_none.2 ⟨fs, type, rest, he⟩
  exact absurd hcall (by decide +kernel)

/-- Five bytes are enough for a call that never returns. -/
theorem empty_frame_never_returns :
    ¬∀ (cs : List Call) (s : Session), calls.Visits (Session.new (makeUniqueFD 5) [] []).1 cs s →
      ∃ n t, Proc.loop parsePass n s = .returns () t := by
  intro h
  obtain ⟨s, hs, hdiv⟩ : ∃ s, calls.Visits (Session.new (makeUniqueFD 5) [] []).1
      [.tryRecv ⟨[.data (.of [73, 0, 0, 0, 0])], .eagain⟩] s ∧ parseMessage s = .diverges :=
    ⟨_, .goes (.cons ⟨_, rfl, rfl⟩ .nil), rfl⟩
  obtain ⟨n, t, hn⟩ := h _ s hs
  rw [(parseMessage_diverges s).1 hdiv n] at hn
  cases hn

/-! ## What it leaves -/

/-- The bytes hold no complete frame, but the start of one. -/
def Incomplete (bs : Bytes) : Prop :=
  bs.length < 5 ∨ ∃ t a b c d rest, bs = t :: a :: b :: c :: d :: rest ∧ 1 ≤ value [a, b, c, d] ∧
    value [a, b, c, d] ≤ Limit.maxMessageSize ∧ rest.length < value [a, b, c, d]

theorem look_more {bs : Bytes} (h : look bs = .more) : Incomplete bs := by
  rcases look_cases bs with ⟨hlen, -⟩ | ⟨t, a, b, c, d, r, rfl, ⟨-, hl⟩ | ⟨-, hl⟩ | ⟨hpos, hle, ⟨hlt, -⟩ | ⟨-, hl⟩⟩⟩
  · exact .inl hlen
  · rw [h] at hl; cases hl
  · rw [h] at hl; cases hl
  · exact .inr ⟨t, a, b, c, d, r, rfl, hpos, hle, hlt⟩
  · rw [h] at hl; cases hl

/-- A header that announces more than the limit. -/
def OversizedHeader (bs : Bytes) : Prop :=
  ∃ t a b c d, bs = [t, a, b, c, d] ∧ Limit.maxMessageSize < value [a, b, c, d]

/-- The bytes of messages, as they were received. -/
def encodeMessages (ms : List Message) : Bytes := ms.flatMap fun m => m.typeVec ++ m.sizeVec ++ m.bytesVec

theorem encodeMessages_pushed {is : List Item} (h : ∀ i ∈ is, i.isOversized = false) :
    encodeMessages (pushed is) = wire.encAll is := by
  induction is with
  | nil => rfl
  | cons i is ih =>
    have hi := h i (by simp)
    cases i with
    | frame t p =>
      have ih := ih fun j hj => h j (by simp [hj])
      rw [Decoder.encAll_cons, ← ih]
      simp [encodeMessages, pushed, Item.toMessage?, wire, Item.encode]
    | oversized t n => cases hi

/-- The items of one call: frames, and perhaps an oversized header behind them. -/
theorem call_items {bs left : Bytes} {is : List Item} (h : wire.call Item.isOversized bs = some (is, left)) :
    ∃ dropped, bs = encodeMessages (pushed is) ++ dropped ++ left ∧
      (Decoder.stopped Item.isOversized is = true ∧ OversizedHeader dropped ∨
        Decoder.stopped Item.isOversized is = false ∧ dropped = [] ∧ Incomplete left) := by
  obtain ⟨hbs, hitems, hdropLast, hfalse⟩ := wire.call_spec h
  cases hstop : Decoder.stopped Item.isOversized is with
  | false =>
    obtain ⟨hall, -, hmore⟩ := hfalse hstop
    refine ⟨[], ?_, .inr ⟨rfl, rfl, look_more hmore⟩⟩
    rw [encodeMessages_pushed hall, List.append_nil]
    exact hbs
  | true =>
    rcases List.eq_nil_or_concat is with rfl | ⟨js, i, rfl⟩
    · cases hstop
    · rw [List.concat_eq_append] at hbs hitems hdropLast hstop ⊢
      rw [List.dropLast_concat] at hdropLast
      have hi : i.isOversized = true := by simpa [Decoder.stopped] using hstop
      have hb := found_bounded (wire.items_found bs i (hitems.subset (by simp)))
      cases i with
      | frame t p => cases hi
      | oversized t n =>
        obtain ⟨hgt, hlt⟩ := hb
        obtain ⟨a, b, c, d, hbytes, hvalue⟩ := exists_four n hlt
        refine ⟨t :: bytes 4 n, ?_, .inl ⟨rfl, t, a, b, c, d, by rw [hbytes], by rw [hvalue]; exact hgt⟩⟩
        have hpush : pushed (js ++ [.oversized t n]) = pushed js := by simp [pushed, Item.toMessage?]
        rw [hpush, encodeMessages_pushed hdropLast, hbs, Decoder.encAll_append]
        simp [wire, Item.encode]

/-- One `ParseMessage` call that returns loses no byte but those of a header
above the limit, pushes what is complete behind the old queue, and leaves no
complete frame unless it met such a header. -/
theorem parseMessage_conserves (fd : UniqueFD) (host port : Bytes) (cs : List Call) (s s' : Session)
    (h : calls.Visits (Session.new fd host port).1 cs s) (hp : parseMessage s = .returns () s') :
    ∃ ms dropped, s'.messages = s.messages ++ ms ∧
      (∀ m ∈ ms, m.typeVec.length = 1 ∧ m.sizeVec.length = 4 ∧ 1 ≤ m.bytesVec.length ∧
        m.bytesVec.length = value m.sizeVec ∧ m.bytesVec.length ≤ Limit.maxMessageSize) ∧
      s.header ++ s.request = encodeMessages ms ++ dropped ++ s'.header ++ s'.request ∧
      (dropped = [] ∨ OversizedHeader dropped ∧ s'.header = []) ∧
      (dropped = [] → Incomplete (s'.header ++ s'.request)) := by
  have hs := calls_sound h
  have hs' := hs.parsed hp
  rw [parseMessage_spec hs.ready] at hp
  cases hc : wire.call Item.isOversized s.pending with
  | none =>
    rw [hc] at hp
    cases hp
  | some found =>
    obtain ⟨is, left⟩ := found
    rw [hc] at hp
    cases hp
    have hleft : (s.after is left).header ++ (s.after is left).request = left := by
      rw [hs'.ready.header_append]
      exact unread_held _ _
    obtain ⟨dropped, hbytes, hdropped⟩ := call_items hc
    obtain ⟨-, hitems, -⟩ := wire.call_spec hc
    refine ⟨pushed is, dropped, rfl, ?_, ?_, ?_, ?_⟩
    · intro m hm
      have hf := pushed_framed (fun i hi => found_bounded (wire.items_found _ i (hitems.subset hi))) m hm
      exact ⟨hf.type, hf.size, hf.nonempty, hf.payload, hf.fits⟩
    · rw [hs.ready.header_append, List.append_assoc, hleft]
      exact hbytes
    · rcases hdropped with ⟨hstop, hover⟩ | ⟨-, hnil, -⟩
      · refine .inr ⟨hover, ?_⟩
        simp [Session.header, Session.after, unread, hstop, Message.clear]
      · exact .inl hnil
    · rintro rfl
      rw [hleft]
      rcases hdropped with ⟨-, t, a, b, c, d, he, -⟩ | ⟨-, -, hinc⟩
      · cases he
      · exact hinc

/-- A complete image and the start of a header. -/
theorem parseMessage_conserves_image :
    ∃ s s', calls.Visits (Session.new (makeUniqueFD 5) [] []).1
        [.tryRecv ⟨[.data (.of [73, 0, 0, 0, 1, 9, 73, 0])], .eagain⟩] s ∧ parseMessage s = .returns () s' ∧
      ∃ ms dropped, s'.messages = s.messages ++ ms ∧
        s.header ++ s.request = encodeMessages ms ++ dropped ++ s'.header ++ s'.request := by
  obtain ⟨s, s', hs, hp⟩ : ∃ s s', calls.Visits (Session.new (makeUniqueFD 5) [] []).1
      [.tryRecv ⟨[.data (.of [73, 0, 0, 0, 1, 9, 73, 0])], .eagain⟩] s ∧ parseMessage s = .returns () s' :=
    ⟨_, _, .goes (.cons ⟨_, rfl, rfl⟩ .nil), rfl⟩
  obtain ⟨ms, dropped, hms, -, hbytes, -⟩ := parseMessage_conserves _ _ _ _ s s' hs hp
  exact ⟨s, s', hs, hp, ms, dropped, hms, hbytes⟩

end RemoteScreenCapture
