import Mathlib.Data.List.Basic
import Mathlib.Data.List.Infix
/-!
# Incremental decoders

A decoder looks at the front of its input and finds an item, asks for more
input, or is stuck for good. `items` decodes all it can. `call` decodes up to
and including the first item in `stop`, as a reader does that returns early on
such an item. `feed` is a reader that gets its input in chunks and makes one
call after each.

The results say what a reader has seen of a stream, however the stream is cut:
without stop items it has seen `items` of what arrived (`feed_items`); with
them, where the last call stopped depends only on where the stop items end and
where the cuts are (`feed_lastStop`).
-/

namespace Lib

/-- What a decoder finds at the front of its input. -/
inductive Look (α β : Type) where
  | more
  | stuck
  | item (b : β) (rest : List α)

/-- A decoder of `β`s from a stream of `α`s. An item is found in exactly the
input that encodes it, whatever follows. -/
structure Decoder (α β : Type) where
  look : List α → Look α β
  enc : β → List α
  covers : ∀ {xs b rest}, look xs = .item b rest → xs = enc b ++ rest
  enc_ne : ∀ {xs b rest}, look xs = .item b rest → enc b ≠ []
  replay : ∀ {xs b rest}, look xs = .item b rest → ∀ ys, look (enc b ++ ys) = .item b ys
  stuck_append : ∀ {xs}, look xs = .stuck → ∀ ys, look (xs ++ ys) = .stuck

namespace Decoder

variable {α β : Type} (d : Decoder α β)

theorem rest_lt {xs rest : List α} {b : β} (h : d.look xs = .item b rest) : rest.length < xs.length := by
  have hpos := List.length_pos_iff.2 (d.enc_ne h)
  rw [d.covers h, List.length_append]
  omega

theorem item_append {xs rest : List α} {b : β} (h : d.look xs = .item b rest) (ys : List α) :
    d.look (xs ++ ys) = .item b (rest ++ ys) := by
  rw [d.covers h, List.append_assoc]
  exact d.replay h _

theorem look_nil : d.look [] = .more ∨ d.look [] = .stuck := by
  match h : d.look [] with
  | .more => exact .inl rfl
  | .stuck => exact .inr rfl
  | .item b rest => exact absurd (d.rest_lt h) (by simp)

/-- Induction along the items at the front of the input. -/
theorem induct {P : List α → Prop} (more : ∀ xs, d.look xs = .more → P xs)
    (stuck : ∀ xs, d.look xs = .stuck → P xs)
    (item : ∀ xs b rest, d.look xs = .item b rest → P rest → P xs) (xs : List α) : P xs := by
  induction hn : xs.length using Nat.strong_induction_on generalizing xs with
  | _ n ih =>
    match h : d.look xs with
    | .more => exact more xs h
    | .stuck => exact stuck xs h
    | .item b rest => exact item xs b rest h (ih rest.length (hn ▸ d.rest_lt h) rest rfl)

/-! ## Decoding all there is -/

def itemsAux : Nat → List α → List β × List α
  | 0, xs => ([], xs)
  | n + 1, xs =>
    match d.look xs with
    | .item b rest => (b :: (itemsAux n rest).1, (itemsAux n rest).2)
    | _ => ([], xs)

attribute [local simp] itemsAux

/-- The items at the front of the input, and the input left. -/
def items (xs : List α) : List β × List α := d.itemsAux (xs.length + 1) xs

theorem itemsAux_eq {n m : Nat} {xs : List α} (hn : xs.length < n) (hm : xs.length < m) :
    d.itemsAux n xs = d.itemsAux m xs := by
  induction n generalizing m xs with
  | zero => omega
  | succ n ih =>
    cases m with
    | zero => omega
    | succ m =>
      simp only [itemsAux]
      split
      · rename_i b rest h
        have := d.rest_lt h
        rw [ih (by omega) (by omega : rest.length < m)]
      · rfl

theorem items_of_item {xs rest : List α} {b : β} (h : d.look xs = .item b rest) :
    d.items xs = (b :: (d.items rest).1, (d.items rest).2) := by
  rw [items, itemsAux, h]
  simp only [items, d.itemsAux_eq (d.rest_lt h) (Nat.lt_succ_self _)]

theorem items_of_more {xs : List α} (h : d.look xs = .more) : d.items xs = ([], xs) := by
  simp [items, h]

theorem items_of_stuck {xs : List α} (h : d.look xs = .stuck) : d.items xs = ([], xs) := by
  simp [items, h]

@[simp] theorem items_nil : d.items [] = ([], []) := by
  rcases d.look_nil with h | h
  · exact d.items_of_more h
  · exact d.items_of_stuck h

/-- The bytes of some items. -/
def encAll (bs : List β) : List α := bs.flatMap d.enc

@[simp] theorem encAll_nil : d.encAll [] = [] := rfl

@[simp] theorem encAll_cons (b : β) (bs : List β) : d.encAll (b :: bs) = d.enc b ++ d.encAll bs := rfl

@[simp] theorem encAll_append (bs cs : List β) : d.encAll (bs ++ cs) = d.encAll bs ++ d.encAll cs := by
  simp [encAll]

/-- Decoding loses and adds nothing. -/
theorem items_covers (xs : List α) : xs = d.encAll (d.items xs).1 ++ (d.items xs).2 := by
  induction xs using d.induct with
  | more xs h => simp [d.items_of_more h]
  | stuck xs h => simp [d.items_of_stuck h]
  | item xs b rest h ih =>
    rw [d.items_of_item h, encAll_cons, List.append_assoc, ← ih]
    exact d.covers h

theorem items_append (xs ys : List α) :
    d.items (xs ++ ys) =
      ((d.items xs).1 ++ (d.items ((d.items xs).2 ++ ys)).1, (d.items ((d.items xs).2 ++ ys)).2) := by
  induction xs using d.induct with
  | more xs h => simp [d.items_of_more h]
  | stuck xs h => simp [d.items_of_stuck h]
  | item xs b rest h ih =>
    rw [d.items_of_item (d.item_append h ys), ih, d.items_of_item h]
    rfl

/-- An item that is found wherever it is encoded. -/
def Found (b : β) : Prop := ∀ ys, d.look (d.enc b ++ ys) = .item b ys

theorem items_encAll {bs : List β} (h : ∀ b ∈ bs, d.Found b) (ys : List α) :
    d.items (d.encAll bs ++ ys) = (bs ++ (d.items ys).1, (d.items ys).2) := by
  induction bs with
  | nil => rfl
  | cons b bs ih =>
    rw [encAll_cons, List.append_assoc, d.items_of_item (h b (by simp) _),
      ih (fun c hc => h c (by simp [hc]))]
    rfl

theorem items_found (xs : List α) : ∀ b ∈ (d.items xs).1, d.Found b := by
  induction xs using d.induct with
  | more xs h => simp [d.items_of_more h]
  | stuck xs h => simp [d.items_of_stuck h]
  | item xs b rest h ih =>
    rw [d.items_of_item h]
    intro c hc
    rcases List.mem_cons.1 hc with rfl | hc
    · exact d.replay h
    · exact ih c hc

/-- Nothing more can be decoded from what `items` leaves. -/
theorem items_rest (xs : List α) : d.look (d.items xs).2 = .more ∨ d.look (d.items xs).2 = .stuck := by
  induction xs using d.induct with
  | more xs h => rw [d.items_of_more h]; exact .inl h
  | stuck xs h => rw [d.items_of_stuck h]; exact .inr h
  | item xs b rest h ih => rw [d.items_of_item h]; exact ih

/-- The items of a shorter input come first. -/
theorem items_prefix (xs ys : List α) : (d.items xs).1 <+: (d.items (xs ++ ys)).1 := by
  rw [items_append]
  exact List.prefix_append _ _

/-- Input behind which a decoder asks for more was never stuck. -/
theorem items_more {xs ys : List α} (h : d.look (d.items (xs ++ ys)).2 = .more) :
    d.look (d.items xs).2 = .more := by
  rcases d.items_rest xs with hm | hs
  · exact hm
  · have hs' := d.stuck_append hs ys
    rw [items_append, d.items_of_stuck hs', hs'] at h
    cases h

/-- A strict prefix of an encoded item asks for more. -/
theorem look_part {b : β} (hb : d.Found b) {xs : List α} (hp : xs <+: d.enc b) (hne : xs ≠ d.enc b) :
    d.look xs = .more := by
  obtain ⟨ys, hys⟩ := hp
  match h : d.look xs with
  | .more => rfl
  | .stuck =>
    have h1 := d.stuck_append h ys
    have h2 := hb []
    rw [List.append_nil, ← hys, h1] at h2
    cases h2
  | .item c rest =>
    have h1 := d.item_append h ys
    have h2 := hb []
    rw [List.append_nil, ← hys, h1] at h2
    simp only [Look.item.injEq, List.append_eq_nil_iff] at h2
    obtain ⟨rfl, rfl, rfl⟩ := h2
    exact absurd (by simpa using hys) hne

/-- Items at the front of an input are determined by how far they reach. -/
theorem encAll_inj {xs : List α} {bs cs : List β} (hb : bs <+: (d.items xs).1) (hc : cs <+: (d.items xs).1)
    (h : d.encAll bs = d.encAll cs) : bs = cs := by
  have hfound := d.items_found xs
  have hne : ∀ b ∈ (d.items xs).1, d.enc b ≠ [] := by
    intro b hb
    have := hfound b hb []
    exact d.enc_ne this
  -- One of the two lists is a prefix of the other; what it lacks encodes nothing.
  have key : ∀ bs cs : List β, bs <+: cs → (∀ c ∈ cs, d.enc c ≠ []) → d.encAll bs = d.encAll cs → bs = cs := by
    rintro bs _ ⟨us, rfl⟩ hcs he
    cases us with
    | nil => simp
    | cons u us =>
      have hu : d.enc u ≠ [] := hcs u (by simp)
      rw [encAll_append, encAll_cons] at he
      have hz : d.enc u ++ d.encAll us = [] := List.append_right_eq_self.1 he.symm
      exact absurd (List.append_eq_nil_iff.1 hz).1 hu
  rcases List.prefix_or_prefix_of_prefix hb hc with hp | hp
  · exact key bs cs hp (fun c hm => hne c (hc.subset hm)) h
  · exact (key cs bs hp (fun c hm => hne c (hb.subset hm)) h.symm).symm

/-! ## One call -/

variable (stop : β → Bool)

def callAux : Nat → List α → Option (List β × List α)
  | 0, _ => none
  | n + 1, xs =>
    match d.look xs with
    | .more => some ([], xs)
    | .stuck => none
    | .item b rest => if stop b then some ([b], rest) else (callAux n rest).map fun r => (b :: r.1, r.2)

attribute [local simp] callAux

/-- One call: the items up to the first one in `stop`, and the input left.
`none` if the call gets stuck. -/
def call (xs : List α) : Option (List β × List α) := d.callAux stop (xs.length + 1) xs

theorem callAux_eq {n m : Nat} {xs : List α} (hn : xs.length < n) (hm : xs.length < m) :
    d.callAux stop n xs = d.callAux stop m xs := by
  induction n generalizing m xs with
  | zero => omega
  | succ n ih =>
    cases m with
    | zero => omega
    | succ m =>
      simp only [callAux]
      split
      · rfl
      · rfl
      · rename_i b rest h
        have := d.rest_lt h
        rw [ih (by omega) (by omega : rest.length < m)]

variable {stop}

theorem call_of_more {xs : List α} (h : d.look xs = .more) : d.call stop xs = some ([], xs) := by
  simp [call, h]

theorem call_of_stuck {xs : List α} (h : d.look xs = .stuck) : d.call stop xs = none := by
  simp [call, h]

theorem call_of_stop {xs rest : List α} {b : β} (h : d.look xs = .item b rest) (hb : stop b = true) :
    d.call stop xs = some ([b], rest) := by
  simp [call, h, hb]

theorem call_of_item {xs rest : List α} {b : β} (h : d.look xs = .item b rest) (hb : stop b = false) :
    d.call stop xs = (d.call stop rest).map fun r => (b :: r.1, r.2) := by
  rw [call, callAux, h]
  simp only [hb, Bool.false_eq_true, if_false]
  rw [d.callAux_eq stop (d.rest_lt h) (Nat.lt_succ_self _)]
  rfl

/-- Whether a call that found `bs` returned because of its last item. -/
def stopped (stop : β → Bool) (bs : List β) : Bool := bs.getLast?.any stop

/-- What a call has seen: items without a stop item except perhaps the last,
and the input left; if it was not stopped, it asks for more. -/
theorem call_spec {xs : List α} {bs : List β} {t : List α} (h : d.call stop xs = some (bs, t)) :
    xs = d.encAll bs ++ t ∧ bs <+: (d.items xs).1 ∧ (∀ b ∈ bs.dropLast, stop b = false) ∧
      (stopped stop bs = false → (∀ b ∈ bs, stop b = false) ∧ d.items xs = (bs, t) ∧ d.look t = .more) := by
  induction xs using d.induct generalizing bs t with
  | more xs hl =>
    rw [d.call_of_more hl] at h
    cases h
    simp [d.items_of_more hl, hl]
  | stuck xs hl => rw [d.call_of_stuck hl] at h; cases h
  | item xs b rest hl ih =>
    cases hb : stop b with
    | true =>
      rw [d.call_of_stop hl hb] at h
      cases h
      refine ⟨by simpa using d.covers hl, ?_, by simp, fun hs => ?_⟩
      · rw [d.items_of_item hl]; exact ⟨_, rfl⟩
      · simp [stopped, hb] at hs
    | false =>
      rw [d.call_of_item hl hb] at h
      obtain ⟨⟨cs, u⟩, hr, he⟩ := Option.map_eq_some_iff.1 h
      cases he
      obtain ⟨h1, h2, h3, h4⟩ := ih hr
      refine ⟨?_, ?_, ?_, fun hs => ?_⟩
      · rw [encAll_cons, List.append_assoc, ← h1]; exact d.covers hl
      · rw [d.items_of_item hl]; exact (List.prefix_cons_inj b).2 h2
      · cases cs with
        | nil => simp
        | cons c cs =>
          intro x hx
          rcases List.mem_cons.1 hx with rfl | hx
          · exact hb
          · exact h3 x hx
      · have hs' : stopped stop cs = false := by
          cases cs with
          | nil => rfl
          | cons c cs => simpa [stopped] using hs
        obtain ⟨h5, h6, h7⟩ := h4 hs'
        refine ⟨?_, by rw [d.items_of_item hl, h6], h7⟩
        intro x hx
        rcases List.mem_cons.1 hx with rfl | hx
        · exact hb
        · exact h5 x hx

/-- A call gets stuck where items that do not stop it lead up to input that is stuck. -/
theorem call_eq_none {xs : List α} : d.call stop xs = none ↔
    ∃ bs t, (∀ b ∈ bs, d.Found b ∧ stop b = false) ∧ xs = d.encAll bs ++ t ∧ d.look t = .stuck := by
  constructor
  · intro h
    induction xs using d.induct with
    | more xs hl => rw [d.call_of_more hl] at h; cases h
    | stuck xs hl => exact ⟨[], xs, by simp, rfl, hl⟩
    | item xs b rest hl ih =>
      cases hb : stop b with
      | true => rw [d.call_of_stop hl hb] at h; cases h
      | false =>
        rw [d.call_of_item hl hb] at h
        obtain ⟨bs, t, hbs, ht, hs⟩ := ih (Option.map_eq_none_iff.1 h)
        refine ⟨b :: bs, t, ?_, ?_, hs⟩
        · intro c hc
          rcases List.mem_cons.1 hc with rfl | hc
          · exact ⟨d.replay hl, hb⟩
          · exact hbs c hc
        · rw [encAll_cons, List.append_assoc, ← ht]
          exact d.covers hl
  · rintro ⟨bs, t, hbs, rfl, hs⟩
    induction bs with
    | nil => exact d.call_of_stuck hs
    | cons b bs ih =>
      obtain ⟨hfound, hb⟩ := hbs b (by simp)
      rw [encAll_cons, List.append_assoc, d.call_of_item (hfound _) hb, ih fun c hc => hbs c (by simp [hc])]
      rfl

/-- Without stop items a call sees everything. -/
theorem call_eq_items {xs : List α} (hs : ∀ b ∈ (d.items xs).1, stop b = false)
    (hm : d.look (d.items xs).2 = .more) : d.call stop xs = some (d.items xs) := by
  induction xs using d.induct with
  | more xs h => rw [d.call_of_more h, d.items_of_more h]
  | stuck xs h => rw [d.items_of_stuck h, h] at hm; cases hm
  | item xs b rest h ih =>
    rw [d.items_of_item h] at hs hm ⊢
    rw [d.call_of_item h (hs b (by simp)), ih (fun c hc => hs c (by simp [hc])) hm]
    rfl

/-- A call returns behind the first stop item. -/
theorem call_stop {xs t : List α} {bs : List β} {b : β} (hbs : ∀ c ∈ bs, d.Found c ∧ stop c = false)
    (hb : d.Found b) (hs : stop b = true) (hx : xs = d.encAll bs ++ (d.enc b ++ t)) :
    d.call stop xs = some (bs ++ [b], t) := by
  subst hx
  induction bs with
  | nil => exact d.call_of_stop (hb t) hs
  | cons c cs ih =>
    have hc := hbs c (by simp)
    rw [encAll_cons, List.append_assoc, d.call_of_item (hc.1 _) hc.2, ih (fun x hx => hbs x (by simp [hx]))]
    rfl

/-- A call on less input returns as well: it stops where the longer one did, or
asks for more. -/
theorem call_shorter {xs ys t : List α} {bs : List β} (h : d.call stop (xs ++ ys) = some (bs, t)) :
    ∃ cs u, d.call stop xs = some (cs, u) ∧ (d.look u = .more ∨ t = u ++ ys) := by
  induction xs using d.induct generalizing bs t with
  | more xs hl => exact ⟨[], xs, d.call_of_more hl, .inl hl⟩
  | stuck xs hl =>
    rw [d.call_of_stuck (d.stuck_append hl ys)] at h
    cases h
  | item xs b rest hl ih =>
    have hl' := d.item_append hl ys
    cases hb : stop b with
    | true =>
      rw [d.call_of_stop hl' hb] at h
      cases h
      exact ⟨[b], rest, d.call_of_stop hl hb, .inr rfl⟩
    | false =>
      rw [d.call_of_item hl' hb] at h
      obtain ⟨⟨bs', t'⟩, hr, he⟩ := Option.map_eq_some_iff.1 h
      cases he
      obtain ⟨cs, u, hc, hu⟩ := ih hr
      exact ⟨b :: cs, u, by rw [d.call_of_item hl hb, hc]; rfl, hu⟩

variable (stop)

/-- The next `n` calls return, if no more input comes. -/
def resumes : Nat → List α → Bool
  | 0, _ => true
  | n + 1, xs => (d.call stop xs).any fun r => resumes n r.2

variable {stop}

attribute [local simp] resumes

theorem resumes_more {xs : List α} (h : d.look xs = .more) (n : Nat) : d.resumes stop n xs = true := by
  induction n with
  | zero => rfl
  | succ n ih => simp [d.call_of_more h, ih]

/-- Calls that return with more input return without it. -/
theorem resumes_step {xs ys t : List α} {bs : List β} {n : Nat} (h : d.call stop (xs ++ ys) = some (bs, t))
    (hn : ∀ u, t = u ++ ys → d.resumes stop n u = true) : d.resumes stop (n + 1) xs = true := by
  obtain ⟨cs, u, hc, hu⟩ := d.call_shorter h
  simp only [resumes, hc, Option.any_some]
  rcases hu with hu | hu
  · exact d.resumes_more hu n
  · exact hn u hu

/-- If some calls return, the first of them do. -/
theorem resumes_le {n m : Nat} {xs : List α} (hle : n ≤ m) (h : d.resumes stop m xs = true) :
    d.resumes stop n xs = true := by
  induction n generalizing m xs with
  | zero => rfl
  | succ n ih =>
    cases m with
    | zero => omega
    | succ m =>
      simp only [resumes, Option.any_eq_true] at h ⊢
      obtain ⟨found, hc, hr⟩ := h
      exact ⟨found, hc, ih (by omega) hr⟩

/-! ## A reader that gets its input in chunks -/

/-- What a reader has found so far, the input it has left, and whether its
last call returned because of a stop item. -/
structure Reading (α β : Type) where
  found : List β
  left : List α
  stopped : Bool

/-- A reader that has made no call. -/
def Reading.start : Reading α β := ⟨[], [], false⟩

variable (stop)

/-- One more chunk, then a call. -/
def feedStep (r : Reading α β) (chunk : List α) : Option (Reading α β) :=
  (d.call stop (r.left ++ chunk)).map fun c => ⟨r.found ++ c.1, c.2, stopped stop c.1⟩

/-- A call after each chunk. `none` if one of them gets stuck. -/
def feed (r : Reading α β) (chunks : List (List α)) : Option (Reading α β) :=
  chunks.foldlM (d.feedStep stop) r

variable {stop}

@[simp] theorem feed_nil (r : Reading α β) : d.feed stop r [] = some r := rfl

theorem feed_cons (r : Reading α β) (c : List α) (cs : List (List α)) :
    d.feed stop r (c :: cs) = (d.feedStep stop r c).bind fun r' => d.feed stop r' cs := by
  simp only [feed, List.foldlM_cons]
  rfl

theorem feed_append (r : Reading α β) (cs cs' : List (List α)) :
    d.feed stop r (cs ++ cs') = (d.feed stop r cs).bind fun r' => d.feed stop r' cs' := by
  simp only [feed, List.foldlM_append]
  rfl

/-- What a reading has found and left is what has arrived. -/
structure Reads (stop : β → Bool) (xs : List α) (r : Reading α β) : Prop where
  covers : xs = d.encAll r.found ++ r.left
  found : r.found <+: (d.items xs).1
  running : r.stopped = false → d.items xs = (r.found, r.left)
  held : r.stopped = true → r.found.getLast?.any stop = true

theorem reads_start : d.Reads stop [] Reading.start := by
  constructor <;> simp [Reading.start]

theorem reads_step {xs c : List α} {r r' : Reading α β} (h : d.Reads stop xs r)
    (hs : d.feedStep stop r c = some r') : d.Reads stop (xs ++ c) r' := by
  obtain ⟨⟨bs, t⟩, hc, rfl⟩ := Option.map_eq_some_iff.1 hs
  obtain ⟨h1, h2, -, h4⟩ := d.call_spec hc
  have hfound : ∀ b ∈ r.found, d.Found b := fun b hb => d.items_found xs b (h.found.subset hb)
  have hitems : d.items (xs ++ c) =
      (r.found ++ (d.items (r.left ++ c)).1, (d.items (r.left ++ c)).2) := by
    conv_lhs => rw [h.covers, List.append_assoc, d.items_encAll hfound]
  refine ⟨?_, ?_, fun hst => ?_, fun hst => ?_⟩
  · rw [encAll_append, List.append_assoc, ← h1, ← List.append_assoc, ← h.covers]
  · rw [hitems]; exact (List.prefix_append_right_inj _).2 h2
  · obtain ⟨-, h5, -⟩ := h4 hst
    rw [hitems, h5]
  · cases bs using List.reverseRecOn with
    | nil => simp [stopped] at hst
    | append_singleton bs b => simpa [stopped] using hst

theorem feed_reads {xs : List α} {r r' : Reading α β} {chunks : List (List α)} (h : d.Reads stop xs r)
    (hf : d.feed stop r chunks = some r') : d.Reads stop (xs ++ chunks.flatten) r' := by
  induction chunks generalizing xs r with
  | nil => cases hf; simpa using h
  | cons c cs ih =>
    rw [feed_cons] at hf
    obtain ⟨r₁, h₁, hf⟩ := Option.bind_eq_some_iff.1 hf
    simpa using ih (d.reads_step h h₁) hf

/-- Where the last call of a reading of `n` elements stopped: `n` if it asked
for more. -/
def Reading.stopAt (n : Nat) (r : Reading α β) : Nat := if r.stopped then n - r.left.length else n

theorem Reads.found_eq {xs : List α} {r r' : Reading α β} (h : d.Reads stop xs r) (h' : d.Reads stop xs r')
    (hl : r.left = r'.left) : r.found = r'.found := by
  have henc : d.encAll r.found = d.encAll r'.found := by
    have he := h.covers.symm.trans h'.covers
    rw [hl] at he
    exact List.append_cancel_right he
  exact d.encAll_inj h.found h'.found henc

/-- A reading that has stopped at the very end has left what one that asks for
more has left: nothing. -/
theorem Reads.left_nil {xs : List α} {r r' : Reading α β} (h : d.Reads stop xs r) (h' : d.Reads stop xs r')
    (hr : r.left = []) (hr' : r'.stopped = false) : r'.left = [] := by
  have hrun := h'.running hr'
  obtain ⟨us, hus⟩ : r.found <+: r'.found := by
    have := h.found
    rwa [hrun] at this
  have e := congrArg List.length h.covers
  have e' := congrArg List.length h'.covers
  rw [← hus] at e'
  simp only [hr, encAll_append, List.length_append, List.length_nil] at e e'
  exact List.length_eq_zero_iff.1 (by omega)

/-- Two readings of one stream agree if and only if their last calls stopped
at the same place. -/
theorem Reads.agree_iff {xs : List α} {r r' : Reading α β} (h : d.Reads stop xs r) (h' : d.Reads stop xs r') :
    (r.left = r'.left ∧ (r.stopped = r'.stopped ∨ r.left = [])) ↔ r.stopAt xs.length = r'.stopAt xs.length := by
  have e := congrArg List.length h.covers
  have e' := congrArg List.length h'.covers
  rw [List.length_append] at e e'
  constructor
  · rintro ⟨hl, hst | hnil⟩
    · rw [Reading.stopAt, Reading.stopAt, hst, hl]
    · rw [hl] at hnil
      simp [Reading.stopAt, hl, hnil]
  · intro hp
    rw [Reading.stopAt, Reading.stopAt] at hp
    cases hst : r.stopped <;> cases hst' : r'.stopped <;> simp only [hst, hst', if_true, if_false,
      Bool.false_eq_true] at hp
    · have hrun := (h.running hst).symm.trans (h'.running hst')
      exact ⟨(Prod.ext_iff.1 hrun).2, .inl rfl⟩
    · have hnil' : r'.left = [] := List.length_eq_zero_iff.1 (by omega)
      have hnil := h'.left_nil d h hnil' hst
      exact ⟨by rw [hnil, hnil'], .inr hnil⟩
    · have hnil : r.left = [] := List.length_eq_zero_iff.1 (by omega)
      exact ⟨by rw [hnil, h.left_nil d h' hnil hst'], .inr hnil⟩
    · -- What is left is the end of the stream, and as long in both.
      have hd : xs.drop (d.encAll r.found).length = r.left := by
        conv_lhs => rw [h.covers]
        simp
      have hd' : xs.drop (d.encAll r'.found).length = r'.left := by
        conv_lhs => rw [h'.covers]
        simp
      refine ⟨?_, .inl rfl⟩
      rw [← hd, ← hd']
      congr 1
      omega

/-- A stream without stop items is read to the end, however it is cut. -/
theorem feed_items {chunks : List (List α)} (hs : ∀ b ∈ (d.items chunks.flatten).1, stop b = false)
    (hm : d.look (d.items chunks.flatten).2 = .more) :
    d.feed stop Reading.start chunks =
      some ⟨(d.items chunks.flatten).1, (d.items chunks.flatten).2, false⟩ := by
  induction chunks using List.reverseRecOn with
  | nil => simp [Reading.start]
  | append_singleton cs c ih =>
    rw [List.flatten_append, List.flatten_singleton] at hs hm ⊢
    have hi := ih (fun b hb => hs b ((d.items_prefix _ _).subset hb)) (d.items_more hm)
    rw [feed_append, hi, Option.bind_some, feed_cons, feedStep]
    have ha := d.items_append cs.flatten c
    have hcall : d.call stop ((d.items cs.flatten).2 ++ c) = some (d.items ((d.items cs.flatten).2 ++ c)) := by
      apply d.call_eq_items
      · intro b hb
        exact hs b (by rw [ha]; exact List.mem_append_right _ hb)
      · rwa [ha] at hm
    have hst : stopped stop (d.items ((d.items cs.flatten).2 ++ c)).1 = false := by
      rw [stopped]
      cases hl : (d.items ((d.items cs.flatten).2 ++ c)).1.getLast? with
      | none => rfl
      | some b => exact hs b (by rw [ha]; exact List.mem_append_right _ (List.mem_of_getLast? hl))
    simp [hcall, ha, hst]

/-! ## Where the last call stopped -/

variable (stop)

/-- Where the stop items among `bs` end, for items that start at offset `o`. -/
def stopEnds : Nat → List β → List Nat
  | _, [] => []
  | o, b :: bs =>
    let e := o + (d.enc b).length
    if stop b then e :: stopEnds e bs else stopEnds e bs

variable {stop}

theorem stopEnds_append (o : Nat) (bs cs : List β) (h : ∀ b ∈ bs, stop b = false) :
    d.stopEnds stop o (bs ++ cs) = d.stopEnds stop (o + (d.encAll bs).length) cs := by
  induction bs generalizing o with
  | nil => simp
  | cons b bs ih =>
    have hb := h b (by simp)
    simp only [List.cons_append, stopEnds, hb, Bool.false_eq_true, if_false]
    rw [ih _ (fun c hc => h c (by simp [hc]))]
    simp [Nat.add_assoc]

theorem stopEnds_ge {o : Nat} {b : β} {bs : List β} :
    ∀ e ∈ d.stopEnds stop o (b :: bs), o + (d.enc b).length ≤ e := by
  induction bs generalizing o b with
  | nil => intro e he; simp only [stopEnds] at he; split at he <;> simp_all
  | cons c cs ih =>
    intro e he
    simp only [stopEnds] at he ih
    have hc : ∀ e ∈ d.stopEnds stop (o + (d.enc b).length) (c :: cs), o + (d.enc b).length ≤ e := by
      intro e he
      have := ih (o := o + (d.enc b).length) (b := c) e (by simpa only [stopEnds] using he)
      omega
    simp only [stopEnds] at hc
    split at he
    · rcases List.mem_cons.1 he with rfl | he
      · exact Nat.le_refl _
      · exact hc e he
    · exact hc e he

theorem stopEnds_stop (o : Nat) {bs : List β} {b : β} (cs : List β) (h : ∀ x ∈ bs, stop x = false)
    (hb : stop b = true) :
    d.stopEnds stop o (bs ++ [b] ++ cs) =
      (o + (d.encAll (bs ++ [b])).length) :: d.stopEnds stop (o + (d.encAll (bs ++ [b])).length) cs := by
  rw [List.append_assoc, d.stopEnds_append o bs _ h]
  simp [stopEnds, hb, Nat.add_assoc]

/-- Input that asks for more ends inside the next item. -/
theorem lt_of_more {t ys rest : List α} {b : β} (hm : d.look t = .more)
    (hb : d.look (t ++ ys) = .item b rest) : t.length < (d.enc b).length := by
  by_contra hle
  have hc := d.covers hb
  have ht : t = d.enc b ++ t.drop (d.enc b).length := by
    have := congrArg (List.take t.length) hc
    rw [List.take_left, List.take_append, List.take_of_length_le (by omega)] at this
    conv_lhs => rw [this]
    conv_rhs => rw [this]
    simp
  rw [ht, d.replay hb] at hm
  cases hm

theorem look_of_items {xs : List α} {b : β} {bs : List β} (h : (d.items xs).1 = b :: bs) :
    ∃ rest, d.look xs = .item b rest := by
  match hl : d.look xs with
  | .more => rw [d.items_of_more hl] at h; cases h
  | .stuck => rw [d.items_of_stuck hl] at h; cases h
  | .item b' rest =>
    rw [d.items_of_item hl] at h
    cases h
    exact ⟨rest, rfl⟩

/-- When the input asks for more, the ends of the items that are still to come
lie behind it. -/
theorem lt_stopEnds {o e : Nat} {t ys : List α} (hm : d.look t = .more)
    (he : e ∈ d.stopEnds stop o (d.items (t ++ ys)).1) : o + t.length < e := by
  cases hi : (d.items (t ++ ys)).1 with
  | nil => simp [hi, stopEnds] at he
  | cons b bs =>
    rw [hi] at he
    obtain ⟨rest, hl⟩ := d.look_of_items hi
    have hge := d.stopEnds_ge e he
    have hlt := d.lt_of_more hm hl
    omega

end Decoder

/-- One call: it stops at the next of the ends, if that has arrived. -/
def stopStep : List Nat × Option Nat → Nat → List Nat × Option Nat
  | (e :: es, _), l => if e ≤ l then (es, some e) else (e :: es, none)
  | ([], _), _ => ([], none)

/-- Where the last of some calls stopped, if it stopped at all. The calls are
made when as many elements have arrived as `cuts` says, and each stops at
the first of the `ends` that no call has stopped at, if that has arrived. -/
def lastStop (ends cuts : List Nat) : Option Nat := (cuts.foldl stopStep (ends, none)).2

/-- How much has arrived after each chunk. -/
def cutPoints {α : Type} : Nat → List (List α) → List Nat
  | _, [] => []
  | n, c :: cs => (n + c.length) :: cutPoints (n + c.length) cs

theorem cutPoints_append {α : Type} (n : Nat) (cs cs' : List (List α)) :
    cutPoints n (cs ++ cs') = cutPoints n cs ++ cutPoints (n + cs.flatten.length) cs' := by
  induction cs generalizing n with
  | nil => simp [cutPoints]
  | cons c cs ih => simp [cutPoints, ih, Nat.add_assoc]

namespace Decoder

variable {α β : Type} (d : Decoder α β) {stop : β → Bool}

/-- The stop items ahead of a reading, and where its last call stopped. -/
def progress (stop : β → Bool) (n : Nat) (ahead : List β) (r : Reading α β) : List Nat × Option Nat :=
  (d.stopEnds stop (d.encAll r.found).length ahead, if r.stopped then some (n - r.left.length) else none)

/-- The items that are still ahead are those of what is left, with what follows. -/
theorem items_left {xs ys : List α} {r : Reading α β} {ahead : List β} (h : d.Reads stop xs r)
    (ha : (d.items (xs ++ ys)).1 = r.found ++ ahead) : (d.items (r.left ++ ys)).1 = ahead := by
  have hfound : ∀ b ∈ r.found, d.Found b := fun b hb => d.items_found xs b (h.found.subset hb)
  have hx : xs ++ ys = d.encAll r.found ++ (r.left ++ ys) := by
    conv_lhs => rw [h.covers]
    simp
  rw [hx, d.items_encAll hfound] at ha
  simpa using ha

/-- A call that stops takes the next end, which has arrived. -/
theorem progress_stop {n m : Nat} {found bs ahead : List β} {left t : List α} {b : β} {stopped : Bool}
    (hbs : ∀ x ∈ bs, stop x = false) (hb : stop b = true)
    (hn : n = (d.encAll (found ++ (bs ++ [b]))).length + t.length) :
    stopStep (d.progress stop m (bs ++ [b] ++ ahead) ⟨found, left, stopped⟩) n =
      d.progress stop n ahead ⟨found ++ (bs ++ [b]), t, true⟩ := by
  have hl : (d.encAll found).length + (d.encAll (bs ++ [b])).length = n - t.length := by
    rw [hn, d.encAll_append found, List.length_append]
    omega
  have hl' : (d.encAll (found ++ (bs ++ [b]))).length = n - t.length := by omega
  simp only [progress, d.stopEnds_stop _ ahead hbs hb, stopStep, hl, hl', if_pos (Nat.sub_le n t.length), if_true]

/-- A call that does not stop leaves the next end to a later one: it has not arrived. -/
theorem progress_more {n m : Nat} {found bs ahead : List β} {left t : List α} {stopped : Bool}
    (hbs : ∀ x ∈ bs, stop x = false)
    (hlt : ∀ e ∈ d.stopEnds stop (d.encAll (found ++ bs)).length ahead, n < e) :
    stopStep (d.progress stop m (bs ++ ahead) ⟨found, left, stopped⟩) n =
      d.progress stop n ahead ⟨found ++ bs, t, false⟩ := by
  have hl : (d.encAll (found ++ bs)).length = (d.encAll found).length + (d.encAll bs).length := by simp
  rw [hl] at hlt
  simp only [progress, d.stopEnds_append _ _ _ hbs, hl, Bool.false_eq_true, if_false]
  cases hends : d.stopEnds stop ((d.encAll found).length + (d.encAll bs).length) ahead with
  | nil => rfl
  | cons e es =>
    have hgt : n < e := hlt e (by simp [hends])
    simp only [stopStep, if_neg (Nat.not_le.2 hgt)]

/-- One call moves `stopStep` along with the reading. -/
theorem progress_step {xs c more : List α} {r r' : Reading α β} {ahead : List β} (h : d.Reads stop xs r)
    (ha : (d.items (xs ++ c ++ more)).1 = r.found ++ ahead) (hs : d.feedStep stop r c = some r') :
    ∃ ahead', (d.items (xs ++ c ++ more)).1 = r'.found ++ ahead' ∧
      stopStep (d.progress stop xs.length ahead r) (xs ++ c).length =
        d.progress stop (xs ++ c).length ahead' r' := by
  obtain ⟨⟨bs, t⟩, hc, rfl⟩ := Option.map_eq_some_iff.1 hs
  obtain ⟨h1, h2, h3, h4⟩ := d.call_spec hc
  have hlen : (xs ++ c).length = (d.encAll (r.found ++ bs)).length + t.length := by
    have e := congrArg List.length h1
    have e' := congrArg List.length h.covers
    simp only [encAll_append, List.length_append] at e e' ⊢
    omega
  have hahead : (d.items (r.left ++ c ++ more)).1 = ahead := by
    rw [List.append_assoc] at ha ⊢
    exact d.items_left h ha
  obtain ⟨ahead', rfl⟩ : ∃ ahead', ahead = bs ++ ahead' := by
    obtain ⟨u, hu⟩ := h2.trans (d.items_prefix (r.left ++ c) more)
    exact ⟨u, by rw [← hahead, hu]⟩
  refine ⟨ahead', by rw [ha, List.append_assoc], ?_⟩
  cases hst : stopped stop bs with
  | true =>
    cases bs using List.reverseRecOn with
    | nil => simp [stopped] at hst
    | append_singleton bs b =>
      have hb : stop b = true := by simpa [stopped] using hst
      exact d.progress_stop (fun x hx => h3 x (by simpa using hx)) hb hlen
  | false =>
    obtain ⟨hbs, hitems, hmore⟩ := h4 hst
    have hnext : (d.items (t ++ more)).1 = ahead' := by
      rw [d.items_append (r.left ++ c) more, hitems] at hahead
      exact List.append_cancel_left hahead
    refine d.progress_more hbs fun e he => ?_
    rw [← hnext] at he
    rw [hlen]
    exact d.lt_stopEnds hmore he

/-- The calls move `stopStep` along with the reading. -/
theorem feed_progress {cs : List (List α)} {r : Reading α β} (more : List α)
    (hf : d.feed stop Reading.start cs = some r) :
    ∃ ahead, (d.items (cs.flatten ++ more)).1 = r.found ++ ahead ∧
      (cutPoints 0 cs).foldl stopStep (d.stopEnds stop 0 (d.items (cs.flatten ++ more)).1, none) =
        d.progress stop cs.flatten.length ahead r := by
  induction cs using List.reverseRecOn generalizing r more with
  | nil =>
    cases hf
    exact ⟨_, rfl, by simp [cutPoints, progress, Reading.start]⟩
  | append_singleton cs c ih =>
    rw [feed_append] at hf
    obtain ⟨r₀, hr, hs⟩ := Option.bind_eq_some_iff.1 hf
    have hs : d.feedStep stop r₀ c = some r := by simpa [feed_cons] using hs
    obtain ⟨ahead, ha, hfold⟩ := ih (c ++ more) hr
    rw [← List.append_assoc] at ha hfold
    obtain ⟨ahead', ha', hstep⟩ := d.progress_step (by simpa using d.feed_reads d.reads_start hr) ha hs
    rw [List.flatten_append, List.flatten_singleton]
    refine ⟨ahead', ha', ?_⟩
    rw [cutPoints_append, List.foldl_append, hfold]
    simpa [cutPoints] using hstep

/-- Where the last call of a reader stopped: it depends only on where the stop
items of the stream end and where the stream is cut. -/
theorem feed_lastStop {chunks : List (List α)} {r : Reading α β}
    (hf : d.feed stop Reading.start chunks = some r) :
    lastStop (d.stopEnds stop 0 (d.items chunks.flatten).1) (cutPoints 0 chunks) =
      if r.stopped then some (chunks.flatten.length - r.left.length) else none := by
  obtain ⟨ahead, -, h⟩ := d.feed_progress [] hf
  rw [List.append_nil] at h
  rw [lastStop, h]
  rfl

theorem feed_stopAt {chunks : List (List α)} {r : Reading α β}
    (hf : d.feed stop Reading.start chunks = some r) :
    (lastStop (d.stopEnds stop 0 (d.items chunks.flatten).1) (cutPoints 0 chunks)).getD chunks.flatten.length =
      r.stopAt chunks.flatten.length := by
  rw [d.feed_lastStop hf, Reading.stopAt]
  cases r.stopped <;> rfl

end Decoder

end Lib
