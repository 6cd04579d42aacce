import RemoteScreenCapture.Parser
/-!
# Byte streams in pieces

A session that gets a stream in chunks, with a `ParseMessage` call after each,
is a reader of `wire` (`feedAll_spec`). So what `Lib.Decoder` says of readers
holds of sessions: a stream of accepted frames is read the same however it is
cut, and a stream with rejected headers is read the same under two cuts if and
only if the final call ended at the same place, which is behind a rejected
header or at the end of the stream.
-/
open Lib Lib.BigEndian

namespace RemoteScreenCapture

/-- Each chunk is appended to `_request` and followed by a `ParseMessage` call. -/
def feedAll : List Bytes → SessionProc Unit
  | [] => pure ()
  | c :: cs => do
    modify fun s => s.receive c
    parseMessage
    feedAll cs

/-- The session `s`, in whose queue and buffers nothing was, as far as the
reading `r`. -/
def Session.reading (s : Session) (r : Decoder.Reading UInt8 Item) : Session :=
  let rest := unread r.stopped r.left
  { s with messages := pushed r.found, message := rest.1, request := rest.2 }

theorem Session.reading_ready (s : Session) (r : Decoder.Reading UInt8 Item) : (s.reading r).Ready :=
  unread_partial _ _

@[simp] theorem Session.reading_pending (s : Session) (r : Decoder.Reading UInt8 Item) :
    (s.reading r).pending = r.left :=
  unread_held _ _

/-- One chunk and one call. -/
theorem feedOne_spec (s : Session) (r : Decoder.Reading UInt8 Item) (c : Bytes) :
    parseMessage ((s.reading r).receive c) =
      match wire.feedStep Item.isOversized r c with
      | some r' => .returns () (s.reading r')
      | none => .diverges := by
  rw [parseMessage_spec ((s.reading_ready r).receive c), Session.receive_pending, Session.reading_pending]
  cases hc : wire.call Item.isOversized (r.left ++ c) with
  | none => simp [Decoder.feedStep, hc, Session.parsed]
  | some found =>
    simp only [Decoder.feedStep, hc, Session.parsed, Option.map_some]
    simp only [Session.after, Session.reading, Session.receive, pushed_append]

/-- A session that gets a stream in chunks is a reader of `wire`. -/
theorem feedAll_spec (s : Session) (chunks : List Bytes) (r : Decoder.Reading UInt8 Item) :
    feedAll chunks (s.reading r) =
      match wire.feed Item.isOversized r chunks with
      | some r' => .returns () (s.reading r')
      | none => .diverges := by
  induction chunks generalizing r with
  | nil => rfl
  | cons c cs ih =>
    simp only [feedAll, Proc.bind_apply, Proc.modify_apply, feedOne_spec, Decoder.feed_cons]
    cases wire.feedStep Item.isOversized r c with
    | none => rfl
    | some r' => exact ih r'

/-- A session just made has read nothing. -/
theorem new_reading (fd : UniqueFD) (host port : Bytes) :
    (Session.new fd host port).1 = (Session.new fd host port).1.reading .start := rfl

theorem feedAll_returns {fd : UniqueFD} {host port : Bytes} {chunks : List Bytes} {s : Session}
    (h : feedAll chunks (Session.new fd host port).1 = .returns () s) :
    ∃ r, wire.feed Item.isOversized .start chunks = some r ∧ s = (Session.new fd host port).1.reading r := by
  rw [new_reading, feedAll_spec] at h
  cases hf : wire.feed Item.isOversized .start chunks with
  | none => rw [hf] at h; cases h
  | some r => rw [hf] at h; cases h; exact ⟨r, rfl, rfl⟩

/-! ## Batches of `recv` -/

/-- The bytes that a `recv` returned. -/
def Read.bytes : Read → Bytes
  | .data chunk => chunk.bytes
  | .eintr => []

/-- The bytes that one `TryRecv` appends to `_request`. -/
def readData (reads : List Read) : Bytes := reads.flatMap Read.bytes

theorem tryRecv_go (script : RecvScript) (reads : List Read) (s : Session) :
    tryRecv.go script reads s = .returns (script.stop = .eagain) (s.receive (readData reads)) := by
  induction reads generalizing s with
  | nil => simp [tryRecv.go, readData, Session.receive]
  | cons read reads ih =>
    cases read with
    | data chunk =>
      simp only [tryRecv.go, Proc.bind_apply, Proc.modify_apply, ih]
      simp [readData, Read.bytes, Session.receive]
    | eintr =>
      simp only [tryRecv.go, ih]
      simp [readData, Read.bytes]

theorem tryRecv_spec (script : RecvScript) (s : Session) :
    tryRecv script s = .returns (script.stop = .eagain) (s.receive (readData script.reads)) :=
  tryRecv_go script script.reads s

/-- `TryRecv` calls that end with `EAGAIN`, each followed by `ParseMessage`. -/
def recvParse : List (List Read) → SessionProc Unit
  | [] => pure ()
  | reads :: batches => do
    if ← tryRecv ⟨reads, .eagain⟩ then
      parseMessage
    recvParse batches

theorem recvParse_eq (batches : List (List Read)) : recvParse batches = feedAll (batches.map readData) := by
  induction batches with
  | nil => rfl
  | cons reads batches ih =>
    funext s
    simp [recvParse, feedAll, Proc.bind_apply, tryRecv_spec, ih]

/-- A stream of accepted frames is read to the end, however it is cut. -/
theorem wire_feed_frames {max : Nat} {fs : List (Frame max)} {part : Bytes} {chunks : List Bytes}
    (hfs : ∀ f ∈ fs, f.Accepted) (hm : look part = .more) (hc : chunks.flatten = Frame.encodeAll fs ++ part) :
    wire.feed Item.isOversized .start chunks = some ⟨fs.map Frame.item, part, false⟩ := by
  have hitems := wire_items hfs hm
  rw [← hc] at hitems
  have hread : wire.feed Item.isOversized .start chunks =
      some ⟨(wire.items chunks.flatten).1, (wire.items chunks.flatten).2, false⟩ := by
    apply wire.feed_items
    · rw [hitems]
      exact isOversized_items fs
    · rw [hitems]
      exact hm
  rw [hread, hitems]

theorem feedAll_frames {max : Nat} {fs : List (Frame max)} {part : Bytes} {chunks : List Bytes}
    (fd : UniqueFD) (host port : Bytes) (hfs : ∀ f ∈ fs, f.Accepted) (hm : look part = .more)
    (hc : chunks.flatten = Frame.encodeAll fs ++ part) :
    feedAll chunks (Session.new fd host port).1 =
      .returns () ((Session.new fd host port).1.reading ⟨fs.map Frame.item, part, false⟩) := by
  have hspec := feedAll_spec (Session.new fd host port).1 chunks .start
  rwa [wire_feed_frames hfs hm hc, ← new_reading] at hspec

/-- Frames sent to a session arrive as its messages, in order and unchanged,
however `recv` splits them; the session holds exactly the unfinished rest. -/
theorem recvParse_frames (fd : UniqueFD) (host port : Bytes) (fs : List (Frame Limit.maxMessageSize))
    (next : Frame Limit.maxMessageSize) (part : Bytes) (hp : part <+: next.encode) (hne : part ≠ next.encode)
    (batches : List (List Read)) (hb : (batches.map readData).flatten = Frame.encodeAll fs ++ part) :
    ∃ s, recvParse batches (Session.new fd host port).1 = .returns () s ∧
      s.messages = fs.map Frame.toMessage ∧ s.message.held ++ s.request = part := by
  have hm : look part = .more := wire.look_part (wire_found next.accepted) hp hne
  have hrun := feedAll_frames fd host port (fun f _ => f.accepted) hm hb
  rw [← recvParse_eq] at hrun
  exact ⟨_, hrun, pushed_items fs, Session.reading_pending _ _⟩

/-- Two frames and half a header, cut inside a header, a payload and the rest. -/
theorem recvParse_frames_cut :
    ∃ s, recvParse
        [[.data ⟨[65, 0, 0], by decide, by decide⟩, .eintr, .data ⟨[0, 2, 7], by decide, by decide⟩], [],
          [.data ⟨[8, 73, 0, 0, 0, 1, 9, 73, 0], by decide, by decide⟩]]
        (Session.new (makeUniqueFD 5) (lit "10.0.0.1") (lit "4000")).1 = .returns () s ∧
      s.messages = [⟨[65], [0, 0, 0, 2], [7, 8]⟩, ⟨[73], [0, 0, 0, 1], [9]⟩] ∧
      s.message.held ++ s.request = [73, 0] :=
  recvParse_frames _ _ _ [⟨65, [7, 8], by decide, by decide⟩, ⟨73, [9], by decide, by decide⟩]
    ⟨73, [1], by decide, by decide⟩ [73, 0] (by decide) (by decide)
    [[.data ⟨[65, 0, 0], by decide, by decide⟩, .eintr, .data ⟨[0, 2, 7], by decide, by decide⟩], [],
      [.data ⟨[8, 73, 0, 0, 0, 1, 9, 73, 0], by decide, by decide⟩]] (by decide)

/-! ## Two ways to cut a stream -/

/-- Behind which byte of `bs`, cut into `chunks`, the final call ended: behind
the rejected header at which it stopped, or behind the last byte if it did not
stop at one. Each call stops at the first rejected header that no call has
stopped at, if all of it has arrived. -/
def lastRejection (bs : Bytes) (chunks : List Bytes) : Nat :=
  (lastStop (wire.stopEnds Item.isOversized 0 (wire.items bs).1) (cutPoints 0 chunks)).getD bs.length

/-- Two ways to cut a stream leave the same session if and only if the final
call ended at the same place in both: behind the same rejected header, or at the
end of the stream. -/
theorem feedAll_agree_iff (fd : UniqueFD) (host port : Bytes) (bs : Bytes) (chunks chunks' : List Bytes)
    (hc : chunks.flatten = bs) (hc' : chunks'.flatten = bs) (s s' : Session)
    (hs : feedAll chunks (Session.new fd host port).1 = .returns () s)
    (hs' : feedAll chunks' (Session.new fd host port).1 = .returns () s') :
    (s.messages = s'.messages ∧ s.message = s'.message ∧ s.request = s'.request) ↔
      lastRejection bs chunks = lastRejection bs chunks' := by
  obtain ⟨r, hf, rfl⟩ := feedAll_returns hs
  obtain ⟨r', hf', rfl⟩ := feedAll_returns hs'
  have hr : wire.Reads Item.isOversized bs r := by
    have := wire.feed_reads wire.reads_start hf
    rwa [List.nil_append, hc] at this
  have hr' : wire.Reads Item.isOversized bs r' := by
    have := wire.feed_reads wire.reads_start hf'
    rwa [List.nil_append, hc'] at this
  have hstop := wire.feed_stopAt hf
  have hstop' := wire.feed_stopAt hf'
  rw [hc] at hstop
  rw [hc'] at hstop'
  rw [lastRejection, lastRejection, hstop, hstop', ← hr.agree_iff wire hr']
  constructor
  · rintro ⟨-, hm, hq⟩
    exact unread_inj (Prod.ext hm hq)
  · rintro ⟨hl, hst⟩
    have hu : unread r.stopped r.left = unread r'.stopped r'.left := by
      rcases hst with hst | hnil
      · rw [hst, hl]
      · rw [← hl, hnil]
        cases r.stopped <;> cases r'.stopped <;> rfl
    exact ⟨congrArg pushed (hr.found_eq wire hr' hl), congrArg Prod.fst hu, congrArg Prod.snd hu⟩

/-- Cut inside the rejected header or not at all, the stream stops behind it. -/
theorem feedAll_agree_iff_header :
    lastRejection [73, 255, 255, 255, 255, 73, 0, 0] [[73, 255, 255, 255, 255, 73, 0, 0]] =
      lastRejection [73, 255, 255, 255, 255, 73, 0, 0] [[73, 255, 255], [255, 255, 73, 0, 0]] :=
  (feedAll_agree_iff (makeUniqueFD 5) (lit "10.0.0.1") (lit "4000") _ _ _ (by decide) (by decide)
    { (Session.new (makeUniqueFD 5) (lit "10.0.0.1") (lit "4000")).1 with request := [73, 0, 0] }
    { (Session.new (makeUniqueFD 5) (lit "10.0.0.1") (lit "4000")).1 with request := [73, 0, 0] } rfl rfl).1
    ⟨rfl, rfl, rfl⟩

/-- A rejected header and a frame behind it: in one chunk the frame stays in
`_request`, in two it reaches the queue. -/
theorem feedAll_depends_on_cuts :
    ¬∀ (chunks chunks' : List Bytes) (s s' : Session), chunks.flatten = chunks'.flatten →
      [] ∉ chunks → [] ∉ chunks' →
      feedAll chunks (Session.new (makeUniqueFD 5) (lit "10.0.0.1") (lit "4000")).1 = .returns () s →
      feedAll chunks' (Session.new (makeUniqueFD 5) (lit "10.0.0.1") (lit "4000")).1 = .returns () s' →
      s.messages = s'.messages ∧ s.message = s'.message ∧ s.request = s'.request := by
  intro h
  let fresh := (Session.new (makeUniqueFD 5) (lit "10.0.0.1") (lit "4000")).1
  have hs := h [[73, 255, 255, 255, 255, 73, 0, 0, 0, 1, 120]] [[73, 255, 255, 255, 255], [73, 0, 0, 0, 1, 120]]
    { fresh with request := [73, 0, 0, 0, 1, 120] }
    { fresh with messages := [⟨[73], [0, 0, 0, 1], [120]⟩] } (by decide) (by decide) (by decide)
    (by decide +kernel) (by decide +kernel)
  exact absurd hs.1 (by decide)

end RemoteScreenCapture
