import RemoteScreenCapture.Wire
/-!
# `ParseMessage` reads the wire format

A session waits for bytes in a `Ready` state: part of a header in `_message`,
nothing of a payload. One `ParseMessage` call on it is one call of the decoder
`wire` on the bytes it holds (`parseMessage_spec`): it pushes the frames, stops
behind a header that announces too much, and never ends if it meets one that
announces nothing.
-/
open Lib Lib.BigEndian

namespace RemoteScreenCapture

/-- `_message` holds nothing, a type, or a whole header. -/
inductive Message.Partial : Message → Prop where
  | none : Partial ⟨[], [], []⟩
  | type (t : UInt8) : Partial ⟨[t], [], []⟩
  | header (t a b c d : UInt8) : Partial ⟨[t], [a, b, c, d], []⟩

/-- The bytes of a message received so far. -/
def Message.held (m : Message) : Bytes := m.typeVec ++ m.sizeVec ++ m.bytesVec

namespace Session

/-- The session waits for bytes. -/
def Ready (s : Session) : Prop := s.message.Partial

/-- The bytes received and not yet part of a message in the queue. -/
def pending (s : Session) : Bytes := s.message.held ++ s.request

/-- Bytes arrive in `_request`. -/
def receive (s : Session) (bs : Bytes) : Session := { s with request := s.request ++ bs }

@[simp] theorem receive_pending (s : Session) (bs : Bytes) : (s.receive bs).pending = s.pending ++ bs := by
  simp [pending, receive]

theorem Ready.receive {s : Session} (h : s.Ready) (bs : Bytes) : (s.receive bs).Ready := h

end Session

/-- How `ParseMessage` leaves bytes that hold no item: the header goes to
`_message` as far as it can, the rest stays in `_request`. -/
def splitHeader : Bytes → Message × Bytes
  | t :: a :: b :: c :: d :: rest => (⟨[t], [a, b, c, d], []⟩, rest)
  | t :: rest => (⟨[t], [], []⟩, rest)
  | [] => (.clear, [])

theorem splitHeader_short {t : UInt8} {rest : Bytes} (h : rest.length < 4) :
    splitHeader (t :: rest) = (⟨[t], [], []⟩, rest) := by
  match rest, h with
  | [], _ | [_], _ | [_, _], _ | [_, _, _], _ => rfl

theorem splitHeader_held (bs : Bytes) : (splitHeader bs).1.held ++ (splitHeader bs).2 = bs := by
  unfold splitHeader
  split <;> rfl

theorem splitHeader_partial (bs : Bytes) : (splitHeader bs).1.Partial := by
  unfold splitHeader
  split
  · exact .header _ _ _ _ _
  · exact .type _
  · exact .none

theorem splitHeader_clear {bs : Bytes} (h : (splitHeader bs).1 = .clear) : bs = [] := by
  unfold splitHeader at h
  split at h <;> simp_all [Message.clear]

/-! ## One pass -/

section Fill
variable {s : Session} {vec : Message.Vec} {len : Nat}

theorem fill_done (h : (s.message.vec vec).length = len) : fill vec len s = .returns true s := by
  simp [fill, Proc.bind_apply, h]

theorem fill_short (h : (s.message.vec vec).length ≠ len) (hr : s.request.length < len) :
    fill vec len s = .returns false s := by
  simp [fill, fromReqToVec, Proc.bind_apply, h, hr]

theorem fill_take (h : (s.message.vec vec).length ≠ len) (hr : len ≤ s.request.length) :
    fill vec len s = .returns true { s with
      message := s.message.setVec (s.message.vec vec ++ s.request.take len) vec
      request := s.request.drop len } := by
  simp [fill, fromReqToVec, Proc.bind_apply, h, Nat.not_lt.2 hr]

theorem parsePass_return (h : fill .type 1 s = .returns false s) : parsePass s = .returns false s := by
  simp [parsePass, Proc.bind_apply, h]

theorem parsePass_size {s' : Session} (h : fill .type 1 s = .returns true s') :
    parsePass s = match fill .size 4 s' with
      | .returns true s'' => parseBody s''
      | .returns false s'' => .returns false s''
      | .throws e s'' => .throws e s''
      | .diverges => .diverges := by
  cases hs : fill .size 4 s' with
  | returns ok s'' => cases ok <;> simp [parsePass, Proc.bind_apply, h, hs]
  | throws e s'' => simp [parsePass, Proc.bind_apply, h, hs]
  | diverges => simp [parsePass, Proc.bind_apply, h, hs]

end Fill

/-- With a type byte, the size is filled or the pass returns. -/
theorem fill_size {s : Session} {t : UInt8} (hm : s.message = ⟨[t], [], []⟩) :
    (s.request.length < 4 ∧ fill .size 4 s = .returns false s) ∨
    ∃ a b c d rest, s.request = a :: b :: c :: d :: rest ∧
      fill .size 4 s = .returns true { s with message := ⟨[t], [a, b, c, d], []⟩, request := rest } := by
  have hlen : (s.message.vec .size).length ≠ 4 := by simp [hm, Message.vec]
  match hr : s.request with
  | [] | [_] | [_, _] | [_, _, _] =>
    exact .inl ⟨by simp, fill_short hlen (by simp [hr])⟩
  | a :: b :: c :: d :: rest =>
    refine .inr ⟨a, b, c, d, rest, rfl, ?_⟩
    rw [fill_take hlen (by simp [hr])]
    simp [hm, hr, Message.vec, Message.setVec]

/-- The header part of a pass: it returns with a header that is not complete,
or goes on to the payload. -/
def HeaderPass (s : Session) : Prop :=
  (s.pending.length < 5 ∧ parsePass s =
    .returns false { s with message := (splitHeader s.pending).1, request := (splitHeader s.pending).2 }) ∨
  ∃ t a b c d rest, s.pending = t :: a :: b :: c :: d :: rest ∧ rest.length ≤ s.request.length ∧
    parsePass s = parseBody { s with message := ⟨[t], [a, b, c, d], []⟩, request := rest }

theorem HeaderPass.typed {s s' : Session} {t : UInt8} (hf : fill .type 1 s = .returns true s')
    (hm : s'.message = ⟨[t], [], []⟩) (hle : s'.request.length ≤ s.request.length)
    (hp : s.pending = t :: s'.request)
    (hs : ∀ m r, { s' with message := m, request := r } = { s with message := m, request := r }) :
    HeaderPass s := by
  rcases fill_size hm with ⟨hr, he⟩ | ⟨a, b, c, d, rest, hr, he⟩
  · refine .inl ⟨by simp [hp]; omega, ?_⟩
    rw [parsePass_size hf, he, hp, splitHeader_short hr, ← hm, ← hs]
  · refine .inr ⟨t, a, b, c, d, rest, by rw [hp, hr], by simp [hr] at hle; omega, ?_⟩
    rw [parsePass_size hf, he]
    exact congrArg parseBody (hs _ _)

theorem parsePass_header {s : Session} (h : s.Ready) : HeaderPass s := by
  obtain ⟨m, hm⟩ : ∃ m, s.message = m := ⟨_, rfl⟩
  unfold Session.Ready at h
  rw [hm] at h
  cases h with
  | none =>
    have hlen : (s.message.vec .type).length ≠ 1 := by simp [hm, Message.vec]
    match hr : s.request with
    | [] =>
      have hp : s.pending = [] := by simp [Session.pending, hm, hr, Message.held]
      refine .inl ⟨by simp [hp], ?_⟩
      rw [parsePass_return (fill_short hlen (by simp [hr])), hp]
      congr 1
      rw [splitHeader, Message.clear, ← hm, ← hr]
    | t :: rest =>
      have hf := fill_take hlen (by simp [hr] : 1 ≤ s.request.length)
      apply HeaderPass.typed (t := t) hf
      · simp [hm, hr, Message.setVec, Message.vec]
      · simp
      · simp [Session.pending, hm, hr, Message.held]
      · exact fun _ _ => rfl
  | type t =>
    have hf : fill .type 1 s = .returns true s := fill_done (by simp [hm, Message.vec])
    apply HeaderPass.typed hf hm (le_refl _)
    · simp [Session.pending, hm, Message.held]
    · exact fun _ _ => rfl
  | header t a b c d =>
    have hf : fill .type 1 s = .returns true s := fill_done (by simp [hm, Message.vec])
    have hs : fill .size 4 s = .returns true s := fill_done (by simp [hm, Message.vec])
    refine .inr ⟨t, a, b, c, d, s.request, by simp [Session.pending, hm, Message.held], le_refl _, ?_⟩
    rw [parsePass_size hf, hs, ← hm]

section Body
variable {s : Session} {t a b c d : UInt8}

theorem peek_header (a b c d : UInt8) : peekUint32 [a, b, c, d] = .ok (value [a, b, c, d]) := rfl

theorem parseBody_zero (hm : s.message = ⟨[t], [a, b, c, d], []⟩) (h0 : value [a, b, c, d] = 0) :
    parseBody s = .returns true s := by
  simp [parseBody, Proc.bind_apply, hm, peek_header, h0]

theorem parseBody_oversized (hm : s.message = ⟨[t], [a, b, c, d], []⟩)
    (hgt : Limit.maxMessageSize < value [a, b, c, d]) :
    parseBody s = .returns false { s with message := .clear } := by
  have h0 : ¬0 = value [a, b, c, d] := by omega
  simp [parseBody, Proc.bind_apply, hm, peek_header, h0, hgt]

theorem parseBody_short (hm : s.message = ⟨[t], [a, b, c, d], []⟩) (hpos : 0 < value [a, b, c, d])
    (hle : value [a, b, c, d] ≤ Limit.maxMessageSize) (hr : s.request.length < value [a, b, c, d]) :
    parseBody s = .returns false s := by
  have h0 : ¬0 = value [a, b, c, d] := by omega
  simp [parseBody, Proc.bind_apply, hm, peek_header, h0, Nat.not_lt.2 hle, fromReqToVec, hr]

theorem parseBody_frame (hm : s.message = ⟨[t], [a, b, c, d], []⟩) (hpos : 0 < value [a, b, c, d])
    (hle : value [a, b, c, d] ≤ Limit.maxMessageSize) (hr : value [a, b, c, d] ≤ s.request.length) :
    parseBody s = .returns true { s with
      message := .clear
      messages := s.messages ++ [⟨[t], [a, b, c, d], s.request.take (value [a, b, c, d])⟩]
      request := s.request.drop (value [a, b, c, d]) } := by
  have h0 : ¬0 = value [a, b, c, d] := by omega
  simp [parseBody, Proc.bind_apply, hm, peek_header, h0, Nat.not_lt.2 hle, fromReqToVec, Nat.not_lt.2 hr,
    Message.vec, Message.setVec, hr]

end Body

/-- The header of the bytes a session holds goes to `_message`. -/
def Session.split (s : Session) : Session :=
  { s with message := (splitHeader s.pending).1, request := (splitHeader s.pending).2 }

@[simp] theorem Session.split_pending (s : Session) : s.split.pending = s.pending := splitHeader_held _

theorem Session.split_ready (s : Session) : s.split.Ready := splitHeader_partial _

@[simp] theorem Session.split_split (s : Session) : s.split.split = s.split := by
  simp only [Session.split]
  rw [show ({ s with message := (splitHeader s.pending).1, request := (splitHeader s.pending).2 } : Session).pending =
    s.pending from splitHeader_held _]

/-- One pass, by what the decoder finds in the bytes the session holds. -/
theorem parsePass_spec {s : Session} (h : s.Ready) :
    parsePass s = match look s.pending with
      | .more => .returns false s.split
      | .stuck => .returns true s.split
      | .item i rest => .returns (!i.isOversized)
          { s with messages := s.messages ++ pushed [i], message := .clear, request := rest } := by
  rcases parsePass_header h with ⟨hlen, hp⟩ | ⟨t, a, b, c, d, rest, hpend, hle, hp⟩
  · rw [hp, look_short hlen]
    rfl
  · obtain ⟨s', hs'⟩ : ∃ s', s' = ({ s with message := ⟨[t], [a, b, c, d], []⟩, request := rest } : Session) :=
      ⟨_, rfl⟩
    have hm : s'.message = ⟨[t], [a, b, c, d], []⟩ := by rw [hs']
    have hr : s'.request = rest := by rw [hs']
    have hsplit : s' = s.split := by rw [hs', Session.split, hpend]; rfl
    rw [← hs'] at hp
    rw [hp]
    rcases look_cases s.pending with ⟨hlen, -⟩ | ⟨_, _, _, _, _, _, he, hl⟩
    · simp only [hpend, List.length_cons] at hlen
      omega
    rw [hpend] at he
    obtain ⟨rfl, rfl, rfl, rfl, rfl, rfl⟩ : t = _ ∧ a = _ ∧ b = _ ∧ c = _ ∧ d = _ ∧ rest = _ := by
      simpa using he
    rcases hl with ⟨h0, hl⟩ | ⟨hgt, hl⟩ | ⟨hpos, hle', ⟨hlt, hl⟩ | ⟨hge, hl⟩⟩
    · rw [hl, parseBody_zero hm h0, hsplit]
    · rw [hl, parseBody_oversized hm hgt, hs']
      simp [pushed, Item.isOversized, Item.toMessage?]
    · rw [hl, parseBody_short hm hpos hle' (by rw [hr]; exact hlt), hsplit]
    · rw [hl, parseBody_frame hm hpos hle' (by rw [hr]; exact hge), hs']
      have hlen : (rest.take (value [a, b, c, d])).length = value [a, b, c, d] := by simpa using hge
      simp only [pushed, List.filterMap_cons, Item.toMessage?, List.filterMap_nil, hlen, bytes_four,
        Item.isOversized, Bool.not_false]

theorem parsePass_more {s : Session} (h : s.Ready) (hl : look s.pending = .more) :
    parsePass s = .returns false s.split := by
  rw [parsePass_spec h, hl]

theorem parsePass_stuck {s : Session} (h : s.Ready) (hl : look s.pending = .stuck) :
    parsePass s = .returns true s.split := by
  rw [parsePass_spec h, hl]

theorem parsePass_item {s : Session} (h : s.Ready) {i : Item} {rest : Bytes}
    (hl : look s.pending = .item i rest) :
    parsePass s = .returns (!i.isOversized)
      { s with messages := s.messages ++ pushed [i], message := .clear, request := rest } := by
  rw [parsePass_spec h, hl]

/-! ## What a pass takes -/

theorem fromReqToVec_true {s s' : Session} {vec : Message.Vec} {len : Nat}
    (h : fromReqToVec vec len s = .returns true s') :
    len ≤ s.request.length ∧ s' = { s with
      message := s.message.setVec (s.message.vec vec ++ s.request.take len) vec
      request := s.request.drop len } := by
  by_cases hr : s.request.length < len
  · simp [fromReqToVec, Proc.bind_apply, hr] at h
  · simp only [fromReqToVec, Proc.bind_apply, Proc.get_apply, Proc.ite_apply, hr, if_false] at h
    cases h
    exact ⟨by omega, rfl⟩

theorem fill_shrinks {s s' : Session} {vec : Message.Vec} {len : Nat} (hpos : 0 < len)
    (h : fill vec len s = .returns true s') : s'.request.length < s.request.length ∨ s' = s := by
  by_cases hl : (s.message.vec vec).length = len
  · rw [fill_done hl] at h
    cases h
    exact .inr rfl
  · have hf : fromReqToVec vec len s = .returns true s' := by
      simpa [fill, Proc.bind_apply, hl] using h
    obtain ⟨hr, rfl⟩ := fromReqToVec_true hf
    left
    simp only [List.length_drop]
    omega

theorem parseBody_shrinks {s s' : Session} (h : parseBody s = .returns true s') :
    s'.request.length < s.request.length ∨ s' = s := by
  cases hp : peekUint32 s.message.sizeVec with
  | error e => simp [parseBody, Proc.bind_apply, hp] at h
  | ok len =>
    by_cases hl : s.message.bytesVec.length = len
    · simp [parseBody, Proc.bind_apply, hp, hl] at h
      exact .inr h.symm
    by_cases hgt : Limit.maxMessageSize < len
    · simp [parseBody, Proc.bind_apply, hp, hl, hgt] at h
    cases hf : fromReqToVec .bytes len s with
    | throws e s₁ => simp [parseBody, Proc.bind_apply, hp, hl, hgt, hf] at h
    | diverges => simp [parseBody, Proc.bind_apply, hp, hl, hgt, hf] at h
    | returns ok s₁ =>
      cases ok with
      | false => simp [parseBody, Proc.bind_apply, hp, hl, hgt, hf] at h
      | true =>
        obtain ⟨hr, rfl⟩ := fromReqToVec_true hf
        have hpos : len ≠ 0 := by
          rintro rfl
          have hne : s.message.bytesVec ≠ [] := mt List.length_eq_zero_iff.2 hl
          simp [parseBody, Proc.bind_apply, hp, hf, Message.setVec, Message.vec, hne] at h
        simp only [parseBody, Proc.bind_apply, hp, hl, hgt, hf, Proc.get_apply, Proc.lift_ok, Proc.ite_apply,
          if_false, Bool.not_true, Bool.false_eq_true] at h
        split at h
        · cases h
        · cases h
          left
          simp only [List.length_drop]
          omega

theorem parsePass_shrinks {s s' : Session} (h : parsePass s = .returns true s') :
    s'.request.length < s.request.length ∨ s' = s := by
  cases ht : fill .type 1 s with
  | throws e s₁ => simp [parsePass, Proc.bind_apply, ht] at h
  | diverges => simp [parsePass, Proc.bind_apply, ht] at h
  | returns ok s₁ =>
    cases ok with
    | false => simp [parsePass, Proc.bind_apply, ht] at h
    | true =>
      rw [parsePass_size ht] at h
      cases hs : fill .size 4 s₁ with
      | throws e s₂ => simp [hs] at h
      | diverges => simp [hs] at h
      | returns ok s₂ =>
        cases ok with
        | false => simp [hs] at h
        | true =>
          simp only [hs] at h
          rcases fill_shrinks (by decide) ht with h1 | rfl
          · rcases fill_shrinks (by decide) hs with h2 | rfl
            · rcases parseBody_shrinks h with h3 | rfl <;> left <;> omega
            · rcases parseBody_shrinks h with h3 | rfl <;> left <;> omega
          · rcases fill_shrinks (by decide) hs with h2 | rfl
            · rcases parseBody_shrinks h with h3 | rfl <;> left <;> omega
            · exact parseBody_shrinks h

/-! ## The whole loop -/

/-- What the bytes `t` become in `_message` and `_request` when a call returns
with nothing else left. Behind a rejected header `_message` is clear. -/
def unread (stopped : Bool) (t : Bytes) : Message × Bytes :=
  if stopped then (.clear, t) else splitHeader t

theorem unread_held (stopped : Bool) (t : Bytes) : (unread stopped t).1.held ++ (unread stopped t).2 = t := by
  cases stopped with
  | true => rfl
  | false => exact splitHeader_held t

theorem unread_partial (stopped : Bool) (t : Bytes) : (unread stopped t).1.Partial := by
  cases stopped with
  | true => exact .none
  | false => exact splitHeader_partial t

/-- Only an empty rest looks the same whether or not the call was stopped. -/
theorem unread_inj {b b' : Bool} {t t' : Bytes} (h : unread b t = unread b' t') : t = t' ∧ (b = b' ∨ t = []) := by
  have ht : t = t' := by rw [← unread_held b t, h, unread_held]
  subst ht
  refine ⟨rfl, ?_⟩
  cases b <;> cases b'
  · exact .inl rfl
  · exact .inr (splitHeader_clear (congrArg Prod.fst h))
  · exact .inr (splitHeader_clear (congrArg Prod.fst h).symm)
  · exact .inl rfl

/-- The session that a call leaves which found the items `is` and has the
bytes `t` left. -/
def Session.after (s : Session) (is : List Item) (t : Bytes) : Session :=
  let rest := unread (Decoder.stopped Item.isOversized is) t
  { s with messages := s.messages ++ pushed is, message := rest.1, request := rest.2 }

@[simp] theorem Session.after_messages (s : Session) (is : List Item) (t : Bytes) :
    (s.after is t).messages = s.messages ++ pushed is := rfl

theorem Session.after_cons (s : Session) {i : Item} {is : List Item} {t r : Bytes} (hi : i.isOversized = false) :
    ({ s with messages := s.messages ++ pushed [i], message := .clear, request := r } : Session).after is t =
      s.after (i :: is) t := by
  have hstop : Decoder.stopped Item.isOversized (i :: is) = Decoder.stopped Item.isOversized is := by
    cases is with
    | nil => simp [Decoder.stopped, hi]
    | cons j is => simp [Decoder.stopped]
  have hpush : pushed (i :: is) = pushed [i] ++ pushed is := pushed_append [i] is
  simp only [Session.after, hstop, hpush, List.append_assoc]

/-- What a call of the decoder leaves of the session. -/
def Session.parsed (s : Session) : Option (List Item × Bytes) → Outcome Session Exn Unit
  | some (is, t) => .returns () (s.after is t)
  | none => .diverges

theorem parseLoop_spec (n : Nat) (s : Session) (h : s.Ready) (hn : s.request.length < n) :
    Proc.loop parsePass n s = s.parsed (wire.call Item.isOversized s.pending) := by
  induction n generalizing s with
  | zero => omega
  | succ n ih =>
    match hl : look s.pending with
    | .more =>
      rw [Proc.loop_return (parsePass_more h hl), wire.call_of_more hl]
      simp [Session.parsed, Session.after, Session.split, unread, Decoder.stopped, pushed]
    | .stuck =>
      -- An empty payload: the next pass finds the state that this one leaves.
      have hfix : parsePass s.split = .returns true s.split.split :=
        parsePass_stuck s.split_ready (by rw [s.split_pending, hl])
      rw [s.split_split] at hfix
      rw [Proc.loop_again (parsePass_stuck h hl), Proc.loop_fixpoint hfix, wire.call_of_stuck hl]
      rfl
    | .item i rest =>
      have hp := parsePass_item h hl
      cases hi : i.isOversized with
      | true =>
        simp only [hi, Bool.not_true] at hp
        rw [Proc.loop_return hp, wire.call_of_stop hl hi]
        simp [Session.parsed, Session.after, unread, Decoder.stopped, hi]
      | false =>
        simp only [hi, Bool.not_false] at hp
        -- The pass has taken bytes: behind the item fewer are left.
        have hlen : rest.length < s.request.length := by
          rcases parsePass_shrinks hp with hlt | he
          · exact hlt
          · have hpend := wire.rest_lt hl
            rw [← he] at hpend
            exact absurd hpend (lt_irrefl _)
        rw [Proc.loop_again hp, ih _ (by exact .none) (by simp only; omega), wire.call_of_item hl hi]
        have hpend : ∀ ms, ({ s with messages := ms, message := .clear, request := rest } : Session).pending = rest :=
          fun _ => rfl
        rw [hpend]
        cases wire.call Item.isOversized rest with
        | none => rfl
        | some r => exact congrArg (Outcome.returns ()) (Session.after_cons s hi)

/-- One `ParseMessage` call is one call of the decoder. -/
theorem parseMessage_spec {s : Session} (h : s.Ready) :
    parseMessage s = s.parsed (wire.call Item.isOversized s.pending) :=
  parseLoop_spec _ s h (Nat.lt_succ_self _)

theorem parseMessage_no_throw {s s' : Session} {e : Exn} (h : s.Ready) : parseMessage s ≠ .throws e s' := by
  rw [parseMessage_spec h]
  cases wire.call Item.isOversized s.pending <;> simp [Session.parsed]

/-- The bound on the passes of `ParseMessage` hides no result: a call that
does not end within it never ends. -/
theorem parseMessage_diverges (s : Session) :
    parseMessage s = .diverges ↔ ∀ n, Proc.loop parsePass n s = .diverges :=
  Proc.loop_diverges_iff (fun s => s.request.length) (fun _ _ => parsePass_shrinks) (Nat.lt_succ_self _)

end RemoteScreenCapture
