import RemoteScreenCapture.EndToEnd
import RemoteScreenCapture.PngFile
/-!
# From the screen to the file

The grabber, the PNG writer, the connection and the session together: what a
saved file decodes to is what the screen showed. Pictures that are too large
for a message, and captures without memory, come to nothing.
-/
open Lib Lib.BigEndian

namespace RemoteScreenCapture

open ScreenGrabber

/-! ## A capture -/

/-- A picture of `width` by `height` pixels is small enough for the compressor. -/
structure Encodable (width height : Nat) : Prop where
  width_pos : 0 < width
  height_pos : 0 < height
  line : width * 3 < 2 ^ 24
  size : (width * 3 + 1) * height ≤ 2 ^ 28

section Capture
variable {width height : Nat} {img : XImage} {screen : Screen} (settings : Stb.Settings) (malloc : Stb.Request → Bool)

theorem Encodable.pixels (h : Encodable width height) : 3 * (width * height) ≤ 2 ^ 28 := by
  have hsize := h.size
  rw [Nat.add_mul, Nat.one_mul] at hsize
  calc 3 * (width * height) = width * 3 * height := by ring
    _ ≤ 2 ^ 28 := by omega

/-- The writer, on rows without gaps. -/
theorem writePng_spec (h : Encodable width height) {bytes : Bytes} (hb : bytes.length = 3 * (width * height)) :
    ((∃ r, malloc r = false) → Stb.writePng settings malloc width height 3 bytes (width * 3) = []) ∧
    ((∀ r, malloc r = true) →
      Png.decode (Stb.writePng settings malloc width height 3 bytes (width * 3)) = some ⟨width, height, 3, bytes⟩ ∧
      (Stb.writePng settings malloc width height 3 bytes (width * 3)).length ≤
        Stb.storedSize ((width * 3 + 1) * height) + 63) := by
  have hlen : bytes.length = width * 3 * height := by rw [hb]; ring
  have hpixels := h.pixels
  have hstride : (if width * 3 = 0 then width * 3 else width * 3) = width * 3 := ite_self _
  have hrows : ∀ j < height, width * 3 * j + width * 3 ≤ bytes.length ∧ IsInt ((width * 3 : Nat) * j) := by
    intro j hj
    have hle : width * 3 * j + width * 3 ≤ bytes.length := by
      rw [hlen, ← Nat.mul_succ]
      exact Nat.mul_le_mul_left _ hj
    refine ⟨hle, ?_, ?_⟩
    · have : (0 : Int) ≤ (width * 3 : Nat) * j := Int.mul_nonneg (by omega) (by omega)
      omega
    · have : ((width * 3 * j : Nat) : Int) < 2 ^ 31 := by omega
      exact_mod_cast this
  have harg : Stb.writePng settings malloc width height 3 bytes (width * 3) =
      (Stb.stbiWritePngToFunc settings malloc width height 3 bytes (width * 3)).getD [] := rfl
  rw [harg, Stb.stbiWritePngToFunc]
  constructor
  · rintro ⟨r, hr⟩
    rw [Stb.stbiWritePngToMem_refused h.width_pos h.height_pos (by decide) h.line h.size hstride hrows hr]
    rfl
  · intro hm
    obtain ⟨png, hrun, hdecode, hsize⟩ := @Stb.stbiWritePngToMem_written bytes (width * 3) width height 3 malloc settings
      (width * 3) h.width_pos h.height_pos (by decide) h.line h.size hstride hrows hm (by decide)
    rw [Stb.rowsOf_tight hlen] at hdecode
    rw [hrun]
    exact ⟨hdecode, hsize⟩

end Capture

/-- What a screen shows when it is captured, where the capture has all its products. -/
structure Shot where
  width : Nat
  height : Nat
  img : XImage
  encodable : Encodable width height
  rows : ((height : Int) - 1) * img.bytesPerLine < 2 ^ 31

namespace Shot
variable (settings : Stb.Settings) (malloc : Stb.Request → Bool)

def picture (shot : Shot) : Png.Picture :=
  ⟨shot.width, shot.height, 3, shot.img.shown shot.width (shot.width * shot.height)⟩

/-- More than the bytes of a file for the picture. -/
def bound (shot : Shot) : Nat := Stb.storedSize ((shot.width * 3 + 1) * shot.height) + 63

/-- `GrabAsPNG` returned `png` when the screen showed this. -/
def Grabs (shot : Shot) (png : Bytes) : Prop :=
  ∃ screen pixels done, screen.Shows shot.width shot.height shot.img ∧
    grabAsPNG (Stb.writePng settings malloc) screen pixels = .returns (png, (shot.width : Int), (shot.height : Int)) done

/-- The file that the writer makes of the picture. -/
def png (shot : Shot) : Bytes :=
  Stb.writePng settings malloc shot.width shot.height 3 (shot.img.shown shot.width (shot.width * shot.height))
    (shot.width * 3)

theorem grabAsPNG_png (shot : Shot) {screen : Screen} (hs : screen.Shows shot.width shot.height shot.img)
    (pixels : Pixels) :
    ∃ done, grabAsPNG (Stb.writePng settings malloc) screen pixels =
      .returns (shot.png settings malloc, (shot.width : Int), (shot.height : Int)) done := by
  have henc := shot.encodable
  have hpixels := henc.pixels
  have hw : (0 : Int) < shot.width := by exact_mod_cast henc.width_pos
  have hh : (0 : Int) < shot.height := by exact_mod_cast henc.height_pos
  have hfits : Fits shot.img shot.width shot.height := by
    refine ⟨?_, fun _ => shot.rows⟩
    have hcast : 3 * (shot.width : Int) * shot.height = (3 * (shot.width * shot.height) : Nat) := by push_cast; ring
    rw [hcast]
    omega
  have hline : 0 ≤ shot.img.bytesPerLine := by
    have hnat := hs.covers.stride_toNat.1
    omega
  have hpng : IsInt ((shot.width : Int) * 3) := by
    have hlt := henc.line
    constructor <;> omega
  obtain ⟨done, hbytes, hrun⟩ := grabAsPNG_shown (Stb.writePng settings malloc) hs hw hh (hfits.intsFit hs.covers.bpp hw hh hline) hpng
    pixels
  rw [hbytes] at hrun
  exact ⟨done, hrun⟩

theorem png_spec (shot : Shot) :
    ((∃ r, malloc r = false) → shot.png settings malloc = []) ∧
      ((∀ r, malloc r = true) → Png.decode (shot.png settings malloc) = some shot.picture ∧
        (shot.png settings malloc).length ≤ shot.bound) :=
  writePng_spec settings malloc shot.encodable (shown_length _)

section Grabs
variable {settings malloc}

theorem Grabs.eq {shot : Shot} {png : Bytes} (h : shot.Grabs settings malloc png) : png = shot.png settings malloc := by
  obtain ⟨screen, pixels, done, hs, hrun⟩ := h
  obtain ⟨done', hrun'⟩ := grabAsPNG_png settings malloc shot hs pixels
  exact (Prod.mk.inj (Outcome.returns.inj (hrun.symm.trans hrun')).1).1

theorem Grabs.spec {shot : Shot} {png : Bytes} (h : shot.Grabs settings malloc png) :
    ((∃ r, malloc r = false) → png = []) ∧
      ((∀ r, malloc r = true) → Png.decode png = some shot.picture ∧ png.length ≤ shot.bound) := by
  rw [h.eq]
  exact png_spec settings malloc shot

end Grabs

/-- Every picture is what some image shows. -/
theorem exists_image {width height : Nat} (henc : Encodable width height) {picture : Bytes}
    (hlen : picture.length = 3 * (width * height)) :
    ∃ img : XImage, img.Covers width height ∧ img.shown width (width * height) = picture ∧
      ((height : Int) - 1) * img.bytesPerLine < 2 ^ 31 := by
  have hpixels := henc.pixels
  have hstride : IsInt ((width * 3 : Nat) : Int) := by
    have hlt := henc.line
    constructor <;> omega
  have hroom : width * (⟨.msbFirst, false⟩ : Layout).bytesPerPixel ≤ width * 3 := le_rfl
  refine ⟨Layout.store ⟨.msbFirst, false⟩ hstride width height picture fun _ => 0, store_covers hroom, ?_, ?_⟩
  · rw [store_shown hroom le_rfl hlen]
    exact List.take_of_length_le hlen.le
  · have hcast : (height : Int) * (width * 3 : Nat) = (3 * (width * height) : Nat) := by push_cast; ring
    show ((height : Int) - 1) * (width * 3 : Nat) < 2 ^ 31
    rw [Int.sub_mul, hcast]
    omega

/-- A screen can show every picture of its size. -/
theorem exists_grabs {width height : Nat} (henc : Encodable width height) {picture : Bytes}
    (hlen : picture.length = 3 * (width * height)) :
    ∃ shot : Shot, shot.picture = ⟨width, height, 3, picture⟩ ∧ shot.Grabs settings malloc
      (Stb.writePng settings malloc width height 3 picture (width * 3)) := by
  obtain ⟨img, hcovers, hshown, hrows⟩ := exists_image henc hlen
  subst hshown
  have hshows : Screen.Shows ⟨true, some ((width : Int), (height : Int)), fun _ _ => some img⟩ width height img :=
    ⟨⟨rfl, rfl, rfl⟩, hcovers⟩
  obtain ⟨done, hrun⟩ := grabAsPNG_png settings malloc ⟨width, height, img, henc, hrows⟩ hshows ⟨[], []⟩
  exact ⟨⟨width, height, img, henc, hrows⟩, rfl, _, _, done, hshows, hrun⟩

end Shot

/-- Two pixels, blue first, with a fourth byte each and two bytes of padding. -/
def Shot.two : Shot :=
  ⟨2, 1, ⟨[3, 2, 1, 77, 6, 5, 4, 88, 99, 99], 10, 32, .lsbFirst, by decide⟩,
    ⟨by decide, by decide, by decide, by decide⟩, by decide⟩

/-- What `GrabAsPNG` returned to the client, in order. -/
def grabbed (is : List World.Input) : List Bytes :=
  is.filterMap fun i => match i with | .client (.grabbed png) => some png | _ => none

theorem grabbed_snoc (is : List World.Input) (i : World.Input) :
    grabbed (is ++ [i]) = grabbed is ++ grabbed [i] := List.filterMap_append

section Framed
variable {c c' : Client} {net net' : Net} {i : Client.Input}

theorem sendAll_framed {caller : Client.Caller} {data : Bytes} {totalSent : Nat}
    (h : c.sendAll net caller data totalSent i = some (c', net')) :
    c'.framed = c.framed ∧ grabbed [.client i] = [] := by
  unfold Client.sendAll at h
  split at h
  · split at h <;> cases h
    exact ⟨rfl, rfl⟩
  · split at h <;> cases h
    exact ⟨rfl, rfl⟩
  · split at h <;> cases h
    exact ⟨rfl, rfl⟩
  · split at h <;> cases h
    exact ⟨rfl, rfl⟩
  · cases h

theorem recvAll_framed {buffer : Bytes} (h : c.recvAll net buffer i = some (c', net')) :
    c'.framed = c.framed ∧ grabbed [.client i] = [] := by
  unfold Client.recvAll at h
  split at h
  · split at h <;> cases h
    exact ⟨rfl, rfl⟩
  · split at h <;> cases h
    exact ⟨rfl, rfl⟩
  · split at h <;> cases h
    exact ⟨rfl, rfl⟩
  · split at h
    · cases h
    · split at h <;> cases h <;> exact ⟨rfl, rfl⟩
  · cases h

/-- A step frames the image it grabs, and no other. -/
theorem client_framed (h : c.step i net = some (c', net')) : c'.framed = c.framed ++ grabbed [.client i] := by
  have hnone : c'.framed = c.framed ∧ grabbed [.client i] = [] → c'.framed = c.framed ++ grabbed [.client i] := by
    rintro ⟨hf, hg⟩
    rw [hf, hg, List.append_nil]
  unfold Client.step at h
  split at h
  · exact hnone (sendAll_framed h)
  · exact hnone (recvAll_framed h)
  · cases h
    exact hnone ⟨rfl, rfl⟩
  · cases h
    rfl
  · cases h
    exact hnone ⟨rfl, rfl⟩
  · split at h <;> cases h
    exact hnone ⟨rfl, rfl⟩
  · split at h <;> cases h
    exact hnone ⟨rfl, rfl⟩
  · cases h

end Framed

section Delivery
variable {hostname username host port : Bytes} {timeoutSec : Nat} {fd : UniqueFD} {is : List World.Input} {w : World}

/-- A step frames the image that `GrabAsPNG` returned in it. -/
theorem World.step_framed {i : World.Input} {w' : World} (h : w.step i = some w') :
    w'.client.framed = w.client.framed ++ grabbed [i] := by
  have hkeep (hc : w'.client = w.client) (hg : grabbed [i] = []) :
      w'.client.framed = w.client.framed ++ grabbed [i] := by
    rw [hc, hg, List.append_nil]
  have hserve {proc : ConnProc Bool} {kept : Phase} (h : w.serve proc kept = some w') : w'.client = w.client := by
    obtain ⟨c, ⟨-, rfl⟩ | ⟨-, rfl⟩⟩ := serve_cases h <;> rfl
  unfold World.step at h
  split at h
  · obtain ⟨⟨c, net⟩, hc, rfl⟩ := Option.map_eq_some_iff.1 h
    exact client_framed hc
  · exact hkeep (hserve h) rfl
  · split at h <;> cases h
    exact hkeep rfl rfl
  · cases h
    exact hkeep rfl rfl
  · exact hkeep (hserve h) rfl
  · cases h

/-- The client frames what `GrabAsPNG` returns to it. -/
theorem world_framed (h : worlds.Goes (World.start hostname username timeoutSec fd host port) is w) :
    w.client.framed = grabbed is := by
  apply h.inv fun is w => w.client.framed = grabbed is
  · rfl
  · intro is i w w' _ hf hs
    rw [World.step_framed hs, hf, grabbed_snoc]

/-- The files that the server saves are those of the first pictures that the
client's screen showed, in order, and they are saved under the client's names. -/
theorem pictures_saved (settings : Stb.Settings) (hh : hostname.length ≤ 65535) (hu : username.length ≤ 65535)
    (h : worlds.Goes (World.start hostname username timeoutSec fd host port) is w) {shots : List Shot}
    (hgrab : List.Forall₂ (fun shot png => shot.Grabs settings (fun _ => true) png) shots (grabbed is))
    (hsmall : ∀ shot ∈ shots, shot.bound ≤ Limit.maxMessageSize) :
    ((saves w.server.effects).map fun call => Png.decode call.msg.bytesVec) <+: shots.map (fun shot => some shot.picture) ∧
      ∀ call ∈ saves w.server.effects, call.hostname = hostname ∧ call.username = username := by
  have hframed := world_framed h
  have hdecode : (grabbed is).map Png.decode = shots.map (fun shot => some shot.picture) := by
    generalize grabbed is = pngs at hgrab
    induction hgrab with
    | nil => rfl
    | cons hg _ ih =>
      rw [List.map_cons, List.map_cons, (hg.spec.2 fun _ => rfl).1, ih fun shot hs => hsmall shot (.tail _ hs)]
  have hsizes : ∀ png ∈ w.client.framed, 0 < png.length ∧ png.length ≤ Limit.maxMessageSize := by
    rw [hframed]
    intro png hpng
    obtain ⟨k, hk, rfl⟩ := List.getElem_of_mem hpng
    have hk' : k < shots.length := by rw [hgrab.length_eq]; exact hk
    obtain ⟨hdec, hlen⟩ := (List.Forall₂.get hgrab hk' hk).spec.2 fun _ => rfl
    refine ⟨?_, le_trans hlen (hsmall _ (List.get_mem _ _))⟩
    apply List.length_pos_of_ne_nil
    intro hnil
    rw [show (grabbed is).get ⟨k, hk⟩ = [] from hnil] at hdec
    cases hdec
  have hw := world_inv h
  refine ⟨?_, fun call hc => hw.saved hh hu hsizes hc⟩
  have himages := (hw.images hh hu hsizes).map Png.decode
  rw [hframed, hdecode, List.map_map] at himages
  exact himages

end Delivery

/-- The file of the two pixels. -/
def pngTwo : Bytes :=
  [137, 80, 78, 71, 13, 10, 26, 10, 0, 0, 0, 13, 73, 72, 68, 82, 0, 0, 0, 2, 0, 0, 0, 1, 8, 2, 0, 0, 0, 123, 64, 232, 221,
    0, 0, 0, 15, 73, 68, 65, 84, 120, 94, 99, 100, 100, 98, 102, 102, 102, 6, 0, 0, 60, 0, 17, 246, 218, 154, 88,
    0, 0, 0, 0, 73, 69, 78, 68, 174, 66, 96, 130]

theorem grabs_two : Shot.two.Grabs {} (fun _ => true) pngTwo := by
  have hshows : Screen.Shows ⟨true, some (2, 1), fun _ _ => some Shot.two.img⟩ 2 1 Shot.two.img :=
    ⟨⟨rfl, rfl, rfl⟩, ⟨by decide, by decide⟩, by decide⟩
  have hpng : Shot.two.png {} (fun _ => true) = pngTwo := by decide +kernel
  obtain ⟨done, hrun⟩ := Shot.grabAsPNG_png {} (fun _ => true) Shot.two hshows ⟨[], []⟩
  rw [hpng] at hrun
  exact ⟨_, _, done, hshows, hrun⟩

/-- The two pixels, sent in two parts. -/
def World.pictureRun : List World.Input :=
  World.sampleRun.take 9 ++ [.client (.grabbed pngTwo), .client (.sent 2), .client (.sent 99)] ++
  World.Input.brings (.of (Client.createImgMessage pngTwo))

theorem pictures_saved_two :
    ∃ w, System.exec World.step (.start (lit "pc") (lit "al") 10 (makeUniqueFD 5) (lit "10.0.0.1") (lit "4000"))
        World.pictureRun = some w ∧
      ∃ call, saves w.server.effects = [call] ∧ Png.decode call.msg.bytesVec = some ⟨2, 1, 3, [1, 2, 3, 4, 5, 6]⟩ ∧
        call.hostname = lit "pc" ∧ call.username = lit "al" := by
  have hrun : (System.exec World.step
      (.start (lit "pc") (lit "al") 10 (makeUniqueFD 5) (lit "10.0.0.1") (lit "4000")) World.pictureRun).map
      (fun w => (saves w.server.effects).length) = some 1 := by decide +kernel
  obtain ⟨w, hw, hsaves⟩ := Option.map_eq_some_iff.1 hrun
  obtain ⟨call, hcall⟩ := List.length_eq_one_iff.1 hsaves
  have hpicture : Shot.two.picture = ⟨2, 1, 3, [1, 2, 3, 4, 5, 6]⟩ := by decide
  obtain ⟨hpre, hnames⟩ := @pictures_saved (lit "pc") (lit "al") (lit "10.0.0.1") (lit "4000") 10 (makeUniqueFD 5)
    World.pictureRun w {} (by decide) (by decide) (System.exec_goes hw) [Shot.two] (.cons grabs_two .nil)
    (by decide)
  rw [hcall] at hpre hnames
  obtain ⟨hdec, -⟩ := List.cons_prefix_cons.1 hpre
  exact ⟨w, hw, call, hcall, hdec.trans (congrArg some hpicture), hnames call (by simp)⟩

/-! ## Pictures that do not arrive -/

section Unsaved
variable {fd : UniqueFD} {host port : Bytes} {es : List Event} {c : Conn}

/-- No session saves more than a message can hold. -/
theorem saved_length (h : sessions.Visits (Conn.fresh fd host port) es c) {call : SaveCall}
    (hc : call ∈ saves c.effects) : call.msg.bytesVec.length ≤ Limit.maxMessageSize := by
  obtain ⟨e, he, hs⟩ := List.mem_filterMap.1 hc
  have htaken : call.msg ∈ taken c.effects := by
    refine List.mem_filterMap.2 ⟨e, he, ?_⟩
    cases e <;> cases hs
    rfl
  obtain ⟨i, hi, hmsg⟩ := List.mem_filterMap.1 ((run_taken h).subset htaken)
  have hbound := found_bounded (wire.items_found _ i hi)
  cases i with
  | frame t p =>
    rw [← Option.some.inj hmsg]
    exact hbound.2
  | oversized => cases hmsg

/-- On a screen of more than ten megabytes of pixels, something can be shown
that no session ever saves: not every such picture has a short file. -/
theorem exists_unsaved (settings : Stb.Settings) {width height : Nat} (henc : Encodable width height)
    (hbig : Limit.maxMessageSize < 3 * (width * height)) :
    ∃ shot : Shot, shot.width = width ∧ shot.height = height ∧ ∃ png, shot.Grabs settings (fun _ => true) png ∧
      ∀ fd host port es c, sessions.Visits (Conn.fresh fd host port) es c →
        ∀ call ∈ saves c.effects, call.msg.bytesVec ≠ png := by
  obtain ⟨picture, hlen, hlong⟩ := @exists_not_shorter (3 * (width * height))
    (fun picture => Stb.writePng settings (fun _ => true) width height 3 picture (width * 3)) (by
      intro l l' hl hl' heq
      have hdec := ((writePng_spec settings (fun _ => true) henc hl).2 fun _ => rfl).1
      have hdec' := ((writePng_spec settings (fun _ => true) henc hl').2 fun _ => rfl).1
      rw [heq, hdec'] at hdec
      cases hdec
      rfl)
  obtain ⟨shot, hpicture, hgrabs⟩ := Shot.exists_grabs settings (fun _ => true) henc hlen
  refine ⟨shot, congrArg Png.Picture.width hpicture, congrArg Png.Picture.height hpicture, _, hgrabs, ?_⟩
  intro fd host port es c hv call hc heq
  have hle := saved_length hv hc
  rw [heq] at hle
  exact absurd (le_trans hlong hle) (Nat.not_le.2 hbig)

theorem exists_unsaved_large :
    ∃ shot : Shot, shot.width = 2560 ∧ shot.height = 1440 ∧ ∃ png, shot.Grabs {} (fun _ => true) png ∧
      ∀ fd host port es c, sessions.Visits (Conn.fresh fd host port) es c →
        ∀ call ∈ saves c.effects, call.msg.bytesVec ≠ png :=
  exists_unsaved {} ⟨by decide, by decide, by decide, by decide⟩ (by decide)

end Unsaved

section Empty
variable {hostname username host port : Bytes} {timeoutSec : Nat} {fd : UniqueFD} {is : List World.Input} {w : World}

end Empty

end RemoteScreenCapture
