import RemoteScreenCapture.Client
import RemoteScreenCapture.Lib.Run
/-!
# What the client sends

The client's thread against any peer: whatever `send`, `recv`, `GrabAsPNG` and
`stop_flag` bring, the bytes it has written are those of whole frames, except
for one that is being sent or was cut off by an error that ended `Run`.
-/
open Lib Lib.BigEndian

namespace RemoteScreenCapture

namespace Client

/-- A step of the thread, or bytes that the peer sends. -/
inductive Move where
  | thread (i : Input)
  | peer (bytes : Bytes)
  deriving DecidableEq, Repr

def move : Move → Client × Net → Option (Client × Net)
  | .thread i, (c, net) => c.step i net
  | .peer bytes, (c, net) => some (c, { net with toClient := net.toClient.write bytes })

/-- A client and its connection. -/
def clients : System (Client × Net) Move := .ofStep move

/-! ## Frames -/

/-- A type `'I'`, a length and a payload of that length. -/
def IsImageFrame (bs : Bytes) : Prop :=
  ∃ size payload, bs = 'I'.toUInt8 :: (size ++ payload) ∧ size.length = 4 ∧ value size = payload.length

theorem isImageFrame_create {png : Bytes} (h : png.length < 2 ^ 32) : IsImageFrame (createImgMessage png) := by
  have hlt : png.length < 256 ^ 4 := h
  exact ⟨bytes 4 png.length, png, rfl, bytes_length 4 _, value_bytes hlt⟩

/-- The bytes `w` are the start of a request, or the request, the frames of all
of the images `framed`, and of the last one perhaps the start only. -/
def Shape (auth : Bytes) (framed : List Bytes) (w : Bytes) : Prop :=
  framed = [] ∧ w <+: auth ∨
    ∃ imgs part, w = auth ++ imgs.flatMap createImgMessage ++ part ∧
      (framed = imgs ∧ part = [] ∨
        ∃ png, framed = imgs ++ [png] ∧ part <+: createImgMessage png ∧ part ≠ createImgMessage png)

theorem shape_whole (auth : Bytes) (framed : List Bytes) :
    Shape auth framed (auth ++ framed.flatMap createImgMessage) :=
  .inr ⟨framed, [], by simp, .inl ⟨rfl, rfl⟩⟩

theorem shape_part (auth : Bytes) (imgs : List Bytes) (png : Bytes) (n : Nat) :
    Shape auth (imgs ++ [png]) (auth ++ imgs.flatMap createImgMessage ++ (createImgMessage png).take n) := by
  by_cases he : (createImgMessage png).take n = createImgMessage png
  · have hw := shape_whole auth (imgs ++ [png])
    rw [List.flatMap_append, ← List.append_assoc] at hw
    rw [he]
    simpa using hw
  · exact .inr ⟨imgs, _, rfl, .inr ⟨png, rfl, List.take_prefix _ _, he⟩⟩

/-- What has been written, by where the client is. -/
def Sends (auth : Bytes) (c : Client) (w : Bytes) : Prop :=
  match c.point with
  | .sendAll .tryAuthenticate data n => c.framed = [] ∧ data = auth ∧ w = auth.take n
  | .recvAll _ => c.framed = [] ∧ w = auth
  | .sendAll .sendLoop data n => ∃ imgs png, c.framed = imgs ++ [png] ∧ data = createImgMessage png ∧
      w = auth ++ imgs.flatMap createImgMessage ++ data.take n
  | .returned => Shape auth c.framed w
  | _ => w = auth ++ c.framed.flatMap createImgMessage

section Sends
variable {auth w : Bytes} {c c' : Client} {net net' : Net}

theorem sends_inLoop (hp : c.point.InLoop) : c.Sends auth w ↔ w = auth ++ c.framed.flatMap createImgMessage := by
  rcases hp with hp | hp | ⟨i, hp⟩ <;> simp [Sends, hp]

/-- Wherever the client is, what it has written has the shape. -/
theorem Sends.shape (h : c.Sends auth w) : Shape auth c.framed w := by
  unfold Sends at h
  split at h
  · obtain ⟨hf, -, rfl⟩ := h
    exact .inl ⟨hf, List.take_prefix _ _⟩
  · obtain ⟨hf, rfl⟩ := h
    exact .inl ⟨hf, List.prefix_refl _⟩
  · obtain ⟨imgs, png, hf, rfl, rfl⟩ := h
    rw [hf]
    exact shape_part auth imgs png _
  · exact h
  · rw [h]
    exact shape_whole auth c.framed

/-- A frame that has been started only is being sent, or the run is over. -/
theorem Sends.sending {imgs : List Bytes} {png part : Bytes} (h : c.Sends auth w) (hf : c.framed = imgs ++ [png])
    (hw : w = auth ++ imgs.flatMap createImgMessage ++ part) (hne : part ≠ createImgMessage png) :
    c.point = .returned ∨ ∃ n, c.point = .sendAll .sendLoop (createImgMessage png) n := by
  unfold Sends at h
  split at h
  · exact absurd (hf.symm.trans h.1) (by simp)
  · exact absurd (hf.symm.trans h.1) (by simp)
  · rename_i data n hp
    obtain ⟨imgs', png', hf', rfl, -⟩ := h
    obtain ⟨-, hpng⟩ := List.append_inj' (hf.symm.trans hf') rfl
    cases hpng
    exact .inr ⟨n, hp⟩
  · rename_i hp
    exact .inl hp
  · -- Elsewhere the frames of all images have been written in full.
    rw [hw, hf, List.flatMap_append, ← List.append_assoc, List.append_cancel_left_eq] at h
    exact absurd (by simpa using h) hne

/-- Each step keeps what is known of the frames written. -/
theorem Stepped.sends (h : Stepped c net c' net') (hs : c.Sends auth net.toServer.written) :
    c'.Sends auth net'.toServer.written := by
  cases h with
  | again => exact hs
  | ended => exact hs.shape
  | @sent caller data totalSent n hp =>
    cases caller with
    | tryAuthenticate =>
      simp only [Sends, hp] at hs
      obtain ⟨hf, rfl, hw⟩ := hs
      exact ⟨hf, rfl, by rw [Channel.written_write, hw, List.take_add]⟩
    | sendLoop =>
      simp only [Sends, hp] at hs
      obtain ⟨imgs, png, hf, hd, hw⟩ := hs
      exact ⟨imgs, png, hf, hd, by rw [Channel.written_write, hw, List.take_add, List.append_assoc]⟩
  | @sentAll caller data totalSent hp hlen =>
    cases caller with
    | tryAuthenticate =>
      simp only [Sends, hp] at hs
      obtain ⟨hf, rfl, hw⟩ := hs
      rw [List.take_of_length_le hlen] at hw
      exact ⟨hf, hw⟩
    | sendLoop =>
      simp only [Sends, hp] at hs
      obtain ⟨imgs, png, hf, rfl, hw⟩ := hs
      rw [List.take_of_length_le hlen] at hw
      rw [sends_inLoop (.inr (.inr ⟨0, rfl⟩))]
      simp [goto, hf, hw]
  | received n hp =>
    simp only [Sends, hp] at hs
    exact hs
  | entered hp _ =>
    simp only [Sends, hp] at hs
    obtain ⟨hf, hw⟩ := hs
    rw [sends_inLoop (.inl rfl)]
    simp [hf, hw]
  | looped hp hp' =>
    rw [sends_inLoop hp] at hs
    exact (sends_inLoop hp').2 hs
  | framed png hp =>
    rw [sends_inLoop (.inr (.inl hp))] at hs
    exact ⟨c.framed, png, rfl, rfl, by simpa using hs⟩

end Sends

/-! ## Runs -/

/-- What is known of a client and its connection at any time. -/
structure Known (hostname username : Bytes) (s : Client × Net) : Prop where
  wrote : s.1.Wrote s.2.toServer.written
  heard : s.1.Heard s.2.toClient.read
  sends : s.1.Sends (createAuthenticationRequest hostname username) s.2.toServer.written

theorem run_known {hostname username : Bytes} {timeoutSec : Nat} {ms : List Move} {s : Client × Net}
    (h : clients.Goes (start hostname username timeoutSec, {}) ms s) : Known hostname username s := by
  apply h.inv fun _ s => Known hostname username s
  · exact ⟨wrote_start _ _ _, heard_start _ _ _, rfl, rfl, rfl⟩
  · rintro ms m ⟨c, net⟩ ⟨c', net'⟩ - hk hn
    have hn : move m (c, net) = some (c', net') := hn
    cases m with
    | thread i =>
      have hstep := step_stepped (show c.step i net = some (c', net') from hn)
      exact ⟨hstep.wrote hk.wrote, hstep.heard hk.heard, hstep.sends hk.sends⟩
    | peer bytes =>
      cases hn
      exact ⟨hk.wrote, hk.heard, hk.sends⟩

/-- Bytes beyond the request are sent in `SendLoop`, which is entered on a `'Y'`. -/
theorem Known.beyond {hostname username : Bytes} {c c' : Client} {net net' : Net} {i : Input}
    (hk : Known hostname username (c, net)) (h : c.step i net = some (c', net'))
    (hw : net'.toServer.written ≠ net.toServer.written)
    (hlen : (createAuthenticationRequest hostname username).length < net'.toServer.written.length) :
    createAuthenticationRequest hostname username <+: net.toServer.written ∧ 'Y'.toUInt8 ∈ net.toClient.read := by
  have hsends := hk.sends
  have hwrote := hk.wrote
  cases step_stepped h with
  | again => exact absurd rfl hw
  | @sent caller data totalSent n hp =>
    cases caller with
    | tryAuthenticate =>
      simp only [Sends, hp] at hsends
      obtain ⟨-, rfl, hbytes⟩ := hsends
      rw [Channel.written_write, hbytes, ← List.take_add] at hlen
      exact absurd hlen (Nat.not_lt.2 (List.length_take_le' _ _))
    | sendLoop =>
      simp only [Sends, hp] at hsends
      simp only [Wrote, hp] at hwrote
      obtain ⟨imgs, png, -, -, hbytes⟩ := hsends
      refine ⟨?_, hk.heard.1 hwrote.1⟩
      rw [hbytes, List.append_assoc]
      exact List.prefix_append _ _
  | _ => exact absurd rfl hw

theorem step_returned {c : Client} (h : c.point = .returned) (i : Input) (net : Net) : c.step i net = none := by
  cases i <;> simp [step, h]

/-- At any time of any run, the bytes written are the start of the request, or
the request, complete image frames and at most the start of one more, which is
still being sent or ended the run; and nothing goes out behind the request
before it is complete and `'Y'` has been received. -/
theorem stream_well_framed (hostname username : Bytes) (timeoutSec : Nat) (ms : List Move) (c : Client) (net : Net)
    (h : clients.Goes (start hostname username timeoutSec, {}) ms (c, net))
    (hsize : ∀ png ∈ c.framed, png.length < 2 ^ 32) :
    let auth := createAuthenticationRequest hostname username
    (net.toServer.written <+: auth ∨
      ∃ (frames : List Bytes) (part : Bytes), net.toServer.written = auth ++ frames.flatten ++ part ∧ (∀ f ∈ frames, IsImageFrame f) ∧
        (part = [] ∨ ∃ f, IsImageFrame f ∧ part <+: f ∧ part ≠ f ∧
          (c.point = .returned ∨ ∃ n, c.point = .sendAll .sendLoop f n))) ∧
    (c.point = .returned → ∀ i, c.step i net = none) ∧
    ∀ i c' net', c.step i net = some (c', net') → net'.toServer.written ≠ net.toServer.written →
      auth.length < net'.toServer.written.length →
        auth <+: net.toServer.written ∧ 'Y'.toUInt8 ∈ net.toClient.read := by
  have hk := run_known h
  have hsends : c.Sends (createAuthenticationRequest hostname username) net.toServer.written := hk.sends
  refine ⟨?_, fun hp i => step_returned hp i net, fun i c' net' => hk.beyond⟩
  have hframes : ∀ imgs : List Bytes, (∀ png ∈ imgs, png ∈ c.framed) →
      ∀ f ∈ imgs.map createImgMessage, IsImageFrame f := by
    intro imgs himgs f hf
    obtain ⟨png, hpng, rfl⟩ := List.mem_map.1 hf
    exact isImageFrame_create (hsize png (himgs png hpng))
  rcases hsends.shape with ⟨-, hpre⟩ | ⟨imgs, part, hw, ⟨hf, rfl⟩ | ⟨png, hf, hpart, hne⟩⟩
  · exact .inl hpre
  · exact .inr ⟨imgs.map createImgMessage, [], hw, hframes imgs fun png hpng => hf ▸ hpng, .inl rfl⟩
  · have himgs : ∀ png' ∈ imgs, png' ∈ c.framed := fun png' hpng => by rw [hf]; exact List.mem_append_left _ hpng
    have hlast : IsImageFrame (createImgMessage png) := isImageFrame_create (hsize png (by simp [hf]))
    exact .inr ⟨imgs.map createImgMessage, part, hw, hframes imgs himgs,
      .inr ⟨_, hlast, hpart, hne, hsends.sending hf hw hne⟩⟩

/-- The connection breaks within the frame of an image. -/
def sampleMoves : List Move :=
  [.thread (.sent 20), .thread .none, .peer [89], .thread (.received 0), .thread .none, .thread (.stopFlag false),
    .thread (.grabbed [7, 8]), .thread (.sent 2), .thread .failed]

theorem stream_well_framed_cut :
    ∃ c net, clients.Goes (start (lit "pc") (lit "ann") 1, {}) sampleMoves (c, net) ∧
      net.toServer.written = createAuthenticationRequest (lit "pc") (lit "ann") ++ [73, 0, 0] ∧
      ∀ i, c.step i net = none := by
  obtain ⟨⟨c, net⟩, hg, hp, hf, hw⟩ : ∃ s, clients.Goes (start (lit "pc") (lit "ann") 1, {}) sampleMoves s ∧
      s.1.point = .returned ∧ s.1.framed = [[7, 8]] ∧
      s.2.toServer.written = createAuthenticationRequest (lit "pc") (lit "ann") ++ [73, 0, 0] :=
    ⟨_, System.exec_goes rfl, rfl, rfl, rfl⟩
  have hsize : ∀ png ∈ c.framed, png.length < 2 ^ 32 := by
    intro png hpng
    rw [show c.framed = _ from hf] at hpng
    rw [List.mem_singleton.1 hpng]
    decide
  exact ⟨c, net, hg, hw, (stream_well_framed _ _ _ _ c net hg hsize).2.1 hp⟩

/-- The first `send` fails, and not even the request is written. -/
theorem request_cut_off :
    ¬∀ (ms : List Move) (c : Client) (net : Net), clients.Goes (start (lit "pc") (lit "ann") 1, {}) ms (c, net) →
      c.point = .returned → ∃ rest, net.toServer.written = createAuthenticationRequest (lit "pc") (lit "ann") ++ rest := by
  intro h
  obtain ⟨⟨c, net⟩, hg, hp, hw⟩ : ∃ s, clients.Goes (start (lit "pc") (lit "ann") 1, {}) [.thread .failed] s ∧
      s.1.point = .returned ∧ s.2.toServer.written = [] :=
    ⟨_, System.exec_goes rfl, rfl, rfl⟩
  obtain ⟨rest, he⟩ := h _ c net hg hp
  rw [show net.toServer.written = [] from hw] at he
  exact absurd he.symm (by simp [createAuthenticationRequest, insertToVector, memcpy, bytes])

end Client

end RemoteScreenCapture
