import RemoteScreenCapture.Common
import RemoteScreenCapture.Lib.Channel
/-!
# The client

`client.cc` behind `SetupSocket`: the messages it builds, and its one thread as
a machine that stops at every system call, every test of `stop_flag` and every
capture of the screen, so that the server can act in between. Its errors all
end in `Run`, which logs them and returns.
-/
open Lib Lib.BigEndian

namespace RemoteScreenCapture

namespace Client

/-! ## Messages -/

/-- `InsertToVector<T>` for a `T` of `size` bytes, which keeps the low bytes of `num`. -/
def insertToVector (size : Nat) (buffer : Bytes) (num : Nat) : Bytes := buffer ++ bytes size num

/-- `std::memcpy(buffer.data() + offset, src, ..)` -/
def memcpy (buffer : Bytes) (offset : Nat) (src : Bytes) : Bytes :=
  buffer.take offset ++ src ++ buffer.drop (offset + src.length)

def createAuthenticationRequest (hostname username : Bytes) : Bytes :=
  let buffer := insertToVector 1 [] 'A'.toNat
  let buffer := insertToVector 4 buffer 0
  let buffer := insertToVector 2 buffer hostname.length ++ hostname
  let buffer := insertToVector 2 buffer username.length ++ username
  let typeSize := 1
  let lenSize := 4
  let totalSize := buffer.length - typeSize - lenSize
  memcpy buffer typeSize (bytes 4 totalSize)

/-- `CreateImgMessage` behind `GrabAsPNG`. -/
def createImgMessage (imgBytes : Bytes) : Bytes :=
  let buffer := insertToVector 1 [] 'I'.toNat
  let buffer := insertToVector 4 buffer imgBytes.length
  buffer ++ imgBytes

/-! ## The thread -/

/-- The function that a call of `SendAll` returns to. -/
inductive Caller where
  | tryAuthenticate
  | sendLoop
  deriving DecidableEq, Repr

/-- Where the thread is, with the locals it still needs. -/
inductive Point where
  /-- At the test of the loop of `SendAll`. -/
  | sendAll (caller : Caller) (data : Bytes) (totalSent : Nat)
  /-- At the test of the loop of `RecvAll(&auth_resp, 1)`. -/
  | recvAll (buffer : Bytes)
  /-- At the test of the loop of `SendLoop`. -/
  | sendLoop
  /-- At `GrabAsPNG` in `CreateImgMessage`. -/
  | grab
  /-- At the test of the loop of `WaitLoop`. -/
  | waitLoop (i : Nat)
  /-- `Run` has returned. -/
  | returned
  deriving DecidableEq, Repr

/-- What the thread meets at its next step. -/
inductive Input where
  /-- `send()` accepts `k + 1` bytes, or all it is given if that is less. -/
  | sent (k : Nat)
  /-- `recv()` returns `k + 1` bytes, or as many as are there and asked for. -/
  | received (k : Nat)
  | eintr
  /-- `send()` or `recv()` fails, or says that the connection is closed. -/
  | failed
  | grabbed (png : Bytes)
  | grabberError
  /-- `stop_flag.load()` -/
  | stopFlag (set : Bool)
  /-- No call is made. -/
  | none
  deriving DecidableEq, Repr

end Client

structure Client where
  hostname : Bytes
  username : Bytes
  timeoutSec : Nat
  point : Client.Point
  /-- `SendLoop` has been called. -/
  entered : Bool := false
  /-- The images that `CreateImgMessage` has framed. -/
  framed : List Bytes := []

/-- The two directions of the connection. -/
structure Net where
  toServer : Channel UInt8 := {}
  toClient : Channel UInt8 := {}

namespace Client

/-- `Run` at the call of `TryAuthenticate`. -/
def start (hostname username : Bytes) (timeoutSec : Nat) : Client where
  hostname := hostname
  username := username
  timeoutSec := timeoutSec
  point := .sendAll .tryAuthenticate (createAuthenticationRequest hostname username) 0

def goto (c : Client) (p : Point) : Client := { c with point := p }

/-- Behind a call of `SendAll`. -/
def Caller.resume : Caller → Point
  | .tryAuthenticate => .recvAll []
  | .sendLoop => .waitLoop 0

/-- One pass of the loop of `SendAll`, or its return. -/
def sendAll (c : Client) (net : Net) (caller : Caller) (data : Bytes) (totalSent : Nat) :
    Input → Option (Client × Net)
  | .sent k =>
    if totalSent < data.length then
      let n := min (k + 1) (data.length - totalSent)
      some (c.goto (.sendAll caller data (totalSent + n)),
        { net with toServer := net.toServer.write ((data.drop totalSent).take n) })
    else .none
  | .eintr => if totalSent < data.length then some (c, net) else .none
  | .failed => if totalSent < data.length then some (c.goto .returned, net) else .none
  | .none => if totalSent < data.length then .none else some (c.goto caller.resume, net)
  | _ => .none

/-- One pass of the loop of `RecvAll`, or its return and the test of the answer. -/
def recvAll (c : Client) (net : Net) (buffer : Bytes) : Input → Option (Client × Net)
  | .received k =>
    if buffer.length < 1 ∧ net.toClient.inFlight ≠ [] then
      let n := min (k + 1) (1 - buffer.length)
      some (c.goto (.recvAll (buffer ++ net.toClient.inFlight.take n)),
        { net with toClient := net.toClient.take n })
    else .none
  | .eintr => if buffer.length < 1 then some (c, net) else .none
  | .failed => if buffer.length < 1 then some (c.goto .returned, net) else .none
  | .none =>
    if buffer.length < 1 then .none
    else if buffer.head? = some 'Y'.toUInt8 then some ({ c with point := .sendLoop, entered := true }, net)
    else some (c.goto .returned, net)
  | _ => .none

def step (i : Input) (c : Client) (net : Net) : Option (Client × Net) :=
  match c.point, i with
  | .sendAll caller data totalSent, i => c.sendAll net caller data totalSent i
  | .recvAll buffer, i => c.recvAll net buffer i
  | .sendLoop, .stopFlag set => some (c.goto (if set then .returned else .grab), net)
  | .grab, .grabbed png =>
    some ({ c with point := .sendAll .sendLoop (createImgMessage png) 0, framed := c.framed ++ [png] }, net)
  | .grab, .grabberError => some (c.goto (.waitLoop 0), net)
  | .waitLoop i, .stopFlag set =>
    if i < c.timeoutSec then some (c.goto (if set then .sendLoop else .waitLoop (i + 1)), net) else .none
  | .waitLoop i, .none => if i < c.timeoutSec then .none else some (c.goto .sendLoop, net)
  | _, _ => .none

/-! ## What one step can do -/

/-- The thread is in `SendLoop`, and not in a call of `SendAll`. -/
def Point.InLoop (p : Point) : Prop := p = .sendLoop ∨ p = .grab ∨ ∃ i, p = .waitLoop i

/-- The outcomes of a step. -/
inductive Stepped (c : Client) (net : Net) : Client → Net → Prop
  | again : Stepped c net c net
  | ended : Stepped c net (c.goto .returned) net
  | sent {caller : Caller} {data : Bytes} {totalSent : Nat} (n : Nat) : c.point = .sendAll caller data totalSent →
      Stepped c net (c.goto (.sendAll caller data (totalSent + n)))
        { net with toServer := net.toServer.write ((data.drop totalSent).take n) }
  | sentAll {caller : Caller} {data : Bytes} {totalSent : Nat} : c.point = .sendAll caller data totalSent →
      data.length ≤ totalSent → Stepped c net (c.goto caller.resume) net
  | received {buffer : Bytes} (n : Nat) : c.point = .recvAll buffer →
      Stepped c net (c.goto (.recvAll (buffer ++ net.toClient.inFlight.take n)))
        { net with toClient := net.toClient.take n }
  | entered {buffer : Bytes} : c.point = .recvAll buffer → 'Y'.toUInt8 ∈ buffer →
      Stepped c net { c with point := .sendLoop, entered := true } net
  | looped {p : Point} : c.point.InLoop → p.InLoop → Stepped c net (c.goto p) net
  | framed (png : Bytes) : c.point = .grab →
      Stepped c net
        { c with point := .sendAll .sendLoop (createImgMessage png) 0, framed := c.framed ++ [png] } net

section Step
variable {c c' : Client} {net net' : Net} {i : Input}

theorem sendAll_stepped {caller : Caller} {data : Bytes} {totalSent : Nat}
    (hp : c.point = .sendAll caller data totalSent) (h : c.sendAll net caller data totalSent i = some (c', net')) :
    Stepped c net c' net' := by
  unfold sendAll at h
  split at h
  · split at h <;> cases h
    exact .sent _ hp
  · split at h <;> cases h
    exact .again
  · split at h <;> cases h
    exact .ended
  · split at h <;> cases h
    rename_i hlen
    exact .sentAll hp (Nat.le_of_not_lt hlen)
  · cases h

theorem recvAll_stepped {buffer : Bytes} (hp : c.point = .recvAll buffer)
    (h : c.recvAll net buffer i = some (c', net')) : Stepped c net c' net' := by
  unfold recvAll at h
  split at h
  · split at h <;> cases h
    exact .received _ hp
  · split at h <;> cases h
    exact .again
  · split at h <;> cases h
    exact .ended
  · split at h
    · cases h
    · split at h <;> cases h
      · rename_i hY
        exact .entered hp (List.mem_of_head? hY)
      · exact .ended
  · cases h

theorem step_stepped (h : c.step i net = some (c', net')) : Stepped c net c' net' := by
  unfold step at h
  split at h
  · rename_i hp
    exact sendAll_stepped hp h
  · rename_i hp
    exact recvAll_stepped hp h
  · rename_i set hp
    cases h
    cases set with
    | true => exact .ended
    | false => exact .looped (.inl hp) (.inr (.inl rfl))
  · rename_i hp
    cases h
    exact .framed _ hp
  · rename_i hp
    cases h
    exact .looped (.inr (.inl hp)) (.inr (.inr ⟨0, rfl⟩))
  · rename_i j set hp
    split at h <;> cases h
    cases set with
    | true => exact .looped (.inr (.inr ⟨j, hp⟩)) (.inl rfl)
    | false => exact .looped (.inr (.inr ⟨j, hp⟩)) (.inr (.inr ⟨j + 1, rfl⟩))
  · rename_i j hp
    split at h <;> cases h
    exact .looped (.inr (.inr ⟨j, hp⟩)) (.inl rfl)
  · cases h

end Step

theorem Stepped.names {c c' : Client} {net net' : Net} (h : Stepped c net c' net') :
    c'.hostname = c.hostname ∧ c'.username = c.username := by
  cases h <;> exact ⟨rfl, rfl⟩

/-! ## What it writes and what it has heard -/

/-- The bytes of the client's messages: the request, and the images framed so far. -/
def stream (c : Client) : Bytes :=
  createAuthenticationRequest c.hostname c.username ++ c.framed.flatMap createImgMessage

/-- What the client has written, depending on where it is. -/
def Wrote (c : Client) (bs : Bytes) : Prop :=
  match c.point with
  | .sendAll .tryAuthenticate data n => c.entered = false ∧ c.framed = [] ∧ c.stream = data ∧ bs = data.take n
  | .recvAll _ => c.entered = false ∧ c.framed = [] ∧ bs = c.stream
  | .sendAll .sendLoop data n => c.entered = true ∧ ∃ front, c.stream = front ++ data ∧ bs = front ++ data.take n
  | .returned => (c.entered = false → c.framed = []) ∧ bs <+: c.stream
  | _ => c.entered = true ∧ bs = c.stream

/-- What the client has read of the answer. -/
def Heard (c : Client) (bs : Bytes) : Prop :=
  (c.entered = true → 'Y'.toUInt8 ∈ bs) ∧ ∀ buffer, c.point = .recvAll buffer → ∀ b ∈ buffer, b ∈ bs

theorem wrote_start (hostname username : Bytes) (timeoutSec : Nat) : (start hostname username timeoutSec).Wrote [] := by
  simp [Wrote, start, stream]

theorem heard_start (hostname username : Bytes) (timeoutSec : Nat) : (start hostname username timeoutSec).Heard [] := by
  simp [Heard, start]

section Wrote
variable {c c' : Client} {bs : Bytes}

theorem wrote_inLoop (hp : c.point.InLoop) : c.Wrote bs ↔ c.entered = true ∧ bs = c.stream := by
  rcases hp with hp | hp | ⟨i, hp⟩ <;> simp [Wrote, hp]

/-- Wherever the client is, it has written the start of its stream, and framed
images in `SendLoop` only. -/
theorem Wrote.weaken (h : c.Wrote bs) : (c.entered = false → c.framed = []) ∧ bs <+: c.stream := by
  unfold Wrote at h
  split at h
  · exact ⟨fun _ => h.2.1, by rw [h.2.2.1, h.2.2.2]; exact List.take_prefix _ _⟩
  · exact ⟨fun _ => h.2.1, by rw [h.2.2]⟩
  · obtain ⟨he, front, hs, rfl⟩ := h
    refine ⟨by simp [he], ?_⟩
    rw [hs]
    exact (List.prefix_append_right_inj _).2 (List.take_prefix _ _)
  · exact h
  · exact ⟨by simp [h.1], by rw [h.2]⟩

end Wrote

/-- Each step keeps what is known of the bytes written. -/
theorem Stepped.wrote {c c' : Client} {net net' : Net} (h : Stepped c net c' net')
    (hw : c.Wrote net.toServer.written) : c'.Wrote net'.toServer.written := by
  cases h with
  | again => exact hw
  | ended => exact hw.weaken
  | @sent caller data totalSent n hp =>
    cases caller with
    | tryAuthenticate =>
      simp only [Wrote, hp] at hw
      obtain ⟨he, hf, hs, hb⟩ := hw
      exact ⟨he, hf, hs, by rw [Channel.written_write, hb, List.take_add]⟩
    | sendLoop =>
      simp only [Wrote, hp] at hw
      obtain ⟨he, front, hs, hb⟩ := hw
      exact ⟨he, front, hs, by rw [Channel.written_write, hb, List.take_add, List.append_assoc]⟩
  | @sentAll caller data totalSent hp hlen =>
    cases caller with
    | tryAuthenticate =>
      simp only [Wrote, hp, List.take_of_length_le hlen] at hw
      obtain ⟨he, hf, hs, hb⟩ := hw
      exact ⟨he, hf, hb.trans hs.symm⟩
    | sendLoop =>
      simp only [Wrote, hp, List.take_of_length_le hlen] at hw
      obtain ⟨he, front, hs, hb⟩ := hw
      exact ⟨he, hb.trans hs.symm⟩
  | received n hp =>
    simp only [Wrote, hp] at hw
    exact hw
  | entered hp _ =>
    simp only [Wrote, hp] at hw
    exact ⟨rfl, hw.2.2⟩
  | looped hp hp' =>
    rw [wrote_inLoop hp] at hw
    exact (wrote_inLoop hp').2 hw
  | framed png hp =>
    rw [wrote_inLoop (.inr (.inl hp))] at hw
    refine ⟨hw.1, c.stream, ?_, ?_⟩
    · simp [stream]
    · rw [hw.2]
      simp

/-- Each step keeps what is known of the answer. -/
theorem Stepped.heard {c c' : Client} {net net' : Net} (h : Stepped c net c' net')
    (hh : c.Heard net.toClient.read) : c'.Heard net'.toClient.read := by
  cases h with
  | again => exact hh
  | ended => exact ⟨hh.1, by simp [goto]⟩
  | sent n hp => exact ⟨hh.1, by simp [goto]⟩
  | @sentAll caller data totalSent hp hlen =>
    refine ⟨hh.1, ?_⟩
    cases caller <;> simp [goto, Caller.resume]
  | @received buffer n hp =>
    constructor
    · intro he
      exact List.mem_append_left _ (hh.1 he)
    · intro buffer' hp' b hb
      cases hp'
      rcases List.mem_append.1 hb with hb | hb
      · exact List.mem_append_left _ (hh.2 buffer hp b hb)
      · exact List.mem_append_right _ hb
  | entered hp hY => exact ⟨fun _ => hh.2 _ hp _ hY, by simp⟩
  | looped _ hp' =>
    refine ⟨hh.1, ?_⟩
    rcases hp' with rfl | rfl | ⟨i, rfl⟩ <;> simp [goto]
  | framed png hp => exact ⟨hh.1, by simp⟩

end Client

end RemoteScreenCapture
