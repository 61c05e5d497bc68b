import Courier.Proofs.Delivery.Parcels
import Courier.Proofs.View.Rendering

/-!
The HTML of the units of a message.

The rendering of a message is well-formed, and its units carry the chunks of it.  Chunks know
nothing of HTML: a cut can fall within a line that is too long, and there within an entity, a tag or
an element, or before a newline that stands in an element.

Well-formedness is read from left to right, so a text that is well-formed up to some place goes on
from there as if it began there (`WellFormed.append_iff`).  By induction on the chunks, they are all
well-formed if and only if the text is so before each cut (`Chunk.Woven.wellFormed_iff`); this is a
property of texts in chunks, whatever made them.  Which cuts are made is known from the splitter
(`Chunk.split_allowed`), and a cut within an element needs a newline in one of its strings
(`Chunk.Allowed.cause`).

Main statement: the units of a message are well-formed, each on its own, if and only if what comes
before each cut is; a cut that is not so is one of those two (`Entry.texts_wellFormed`).  There are
messages with such a cut (`Entry.texts_wellFormed_overlong`).
-/

namespace Courier

open Html

/-! ### Cuts in well-formed HTML -/

namespace Chunk

/-- Newlines at the end of a well-formed text can be left out. -/
theorem Woven.wellFormed_of_append {max : Nat} {c text : List Char} (h : Woven max [] text)
    (hc : WellFormed (c ++ text)) : WellFormed c := by
  generalize hchunks : [] = chunks at h
  induction h generalizing c with
  | nil => simpa using hc
  | newline _ ih =>
    rw [← List.singleton_append, ← List.append_assoc] at hc
    exact (ih hc hchunks).of_concat_newline
  | chunk _ _ _ => cases hchunks

/-- Chunks of a well-formed text are well-formed if and only if the text is so before each cut. -/
theorem Woven.wellFormed_iff {max : Nat} {chunks : List (List Char)} {text : List Char}
    (h : Woven max chunks text) (htext : WellFormed text) :
    (∀ c ∈ chunks, WellFormed c) ↔ ∀ p ∈ cuts chunks text, WellFormed p.1 := by
  -- by induction on how the chunks lie in the text
  induction h with
  | nil =>
    constructor
    · intro _ p hp
      cases hp
    · intro _ c hc
      cases hc
  | newline _ ih =>
    rw [ih (WellFormed.newline_cons_iff.mp htext), cuts_newline, List.forall_mem_map]
    simp only [WellFormed.newline_cons_iff]
  | @chunk c chunks text hc _ h ih =>
    cases chunks with
    | nil =>
      constructor
      · intro _ p hp
        cases hp
      · intro _ d hd
        obtain rfl := List.mem_singleton.mp hd
        exact h.wellFormed_of_append htext
    | cons c' chunks =>
      rw [cuts_append hc]
      refine List.forall_mem_cons.trans (Iff.trans ?_ List.forall_mem_cons.symm)
      rw [List.forall_mem_map]
      apply and_congr_right
      intro hwell
      -- behind the first chunk, which is well-formed, the text is read as on its own
      rw [ih (hwell.append_iff.mp htext)]
      simp only [hwell.append_iff]

/-- Chunks of a well-formed text, also of one that is not too long. -/
theorem split_wellFormed_iff (max : Nat) {text : List Char} (htext : WellFormed text) :
    (∀ c ∈ split max text, WellFormed c) ↔ ∀ p ∈ cuts (split max text) text, WellFormed p.1 := by
  by_cases hlong : max < text.length
  · exact (split_woven hlong).wellFormed_iff htext
  · rw [split, if_pos (Nat.le_of_not_lt hlong)]
    constructor
    · intro _ p hp
      cases hp
    · intro _ c hc
      rwa [List.mem_singleton.mp hc]

/-- A rendering is well-formed before a cut unless the cut falls within a line that is too long, or
before a newline that stands in an element. -/
theorem Allowed.cause {max : Nat} {content : Content} {p : List Char × List Char}
    (h : Allowed max content.html p) (hbad : ¬ WellFormed p.1) :
    Hard max p ∨
      (∃ rest, p.2 = '\n' :: rest) ∧ ∃ s ∈ content.elementTexts, '\n' ∈ s.toList := by
  obtain ⟨hwhole, ⟨rest, hrest⟩ | hhard⟩ := h
  · refine .inr ⟨⟨rest, hrest⟩, ?_⟩
    by_contra hnone
    have hlevel : Level content.html :=
      content.html_level fun s hs hnewline => hnone ⟨s, hs, hnewline⟩
    exact hbad (hlevel p.1 rest (hrest ▸ hwhole))
  · exact .inl hhard

end Chunk

/-! ### Units -/

/-- The HTML of a parcel: its text, or its caption. -/
def Parcel.html? : Parcel → Option (List Char)
  | .text html => some html.toList
  | .photo _ caption => caption.map String.toList

namespace Delivery

open Chunk

/-- The HTML of the units of an entry, in order. -/
def Entry.texts (e : Entry Parcel) : List (List Char) := e.units.filterMap fun u => u.payload.html?

/-- The chunks that the parcels of a rendering carry. -/
theorem parcels_html (imageUrl : Option String) (html : List Char) :
    (parcels imageUrl html).filterMap Parcel.html? =
      if html.all Text.isBlank then [] else split messageMax html := by
  obtain ⟨caption, texts, hparceled⟩ := exists_parceled imageUrl html
  show _ = chunks html
  have htexts : (texts.map Parcel.text).filterMap Parcel.html? = texts.map String.toList := by
    simp [Parcel.html?, Function.comp_def]
  rw [hparceled.parcels_eq, ← hparceled.carried, List.filterMap_append, List.map_append, htexts]
  congr 1
  cases himage : image? imageUrl with
  | none =>
    have hcaption : caption = none := by
      apply Option.eq_none_iff_forall_not_mem.mpr
      intro c hc
      have himg := ((hparceled.caption_iff c).mp hc).1
      rw [himage] at himg
      cases himg
    rw [hcaption]
    rfl
  | some url => cases caption <;> rfl

/-- An entry carries the chunks of the rendering of its message. -/
theorem Entry.exists_of_ofMessage {m : Message} {maxRetry : Nat} {e : Entry Parcel}
    (h : Entry.ofMessage m maxRetry = .ok e) :
    ∃ view content, View.ofName? m.view = some view ∧ view.read m.data = .ok content ∧
      e.texts = if content.html.all Text.isBlank then [] else split messageMax content.html := by
  -- the message is refused unless its view is known, its data can be read and something is left to
  -- send
  unfold ofMessage render at h
  split at h
  · cases h
  · next html hrender =>
    split at hrender
    · cases hrender
    · next view hview =>
      split at hrender
      · next content hcontent =>
        cases hrender
        refine ⟨view, content, hview, hcontent, ?_⟩
        rw [← parcels_html m.imageUrl]
        split at h
        · cases h
        · cases h
          rw [texts, List.filterMap_map]
          rfl
      · cases hrender

/-- A message whose rendering is not blank becomes an entry. -/
theorem Entry.exists_ofMessage {m : Message} {html : List Char} (maxRetry : Nat)
    (hrender : render m.view m.data = .ok html) (hblank : html.all Text.isBlank = false) :
    ∃ e, Entry.ofMessage m maxRetry = .ok e ∧ e.texts = split messageMax html := by
  have hparcels := parcels_html m.imageUrl html
  rw [hblank, if_neg Bool.false_ne_true] at hparcels
  have hne : parcels m.imageUrl html ≠ [] := by
    intro hnil
    rw [hnil] at hparcels
    exact split_ne_nil hblank hparcels.symm
  obtain ⟨p, ps, hps⟩ := List.exists_cons_of_ne_nil hne
  rw [hps] at hparcels
  refine ⟨⟨(p :: ps).map fun p => Unit.new p maxRetry, m.delay⟩, ?_, ?_⟩
  · unfold ofMessage
    rw [hrender]
    simp only [hps]
  · rw [texts, List.filterMap_map, ← hparcels]
    rfl

/-- The units of a message are well-formed, each on its own, if and only if its rendering is so before
each cut.  A cut at which it is not falls within a line that is too long, or before a newline while a
string within an element has one; so all units of a rendering that is short, or has neither, are
well-formed. -/
theorem Entry.texts_wellFormed {m : Message} {maxRetry : Nat} {e : Entry Parcel}
    (h : Entry.ofMessage m maxRetry = .ok e) :
    ∃ view content, View.ofName? m.view = some view ∧ view.read m.data = .ok content ∧
      WellFormed content.html ∧
      ((∀ t ∈ e.texts, WellFormed t) ↔
        ∀ p ∈ cuts e.texts content.html, WellFormed p.1) ∧
      (∀ p ∈ cuts e.texts content.html, content.html = p.1 ++ p.2 ∧
        (¬ WellFormed p.1 →
          Hard messageMax p ∨
            (∃ rest, p.2 = '\n' :: rest) ∧ ∃ s ∈ content.elementTexts, '\n' ∈ s.toList)) ∧
      (content.html.length ≤ messageMax ∨
          (∀ l ∈ lines content.html, l.length ≤ messageMax) ∧
            (∀ s ∈ content.elementTexts, '\n' ∉ s.toList) →
        ∀ t ∈ e.texts, WellFormed t) := by
  obtain ⟨view, content, hview, hcontent, htexts⟩ := exists_of_ofMessage h
  have hwell : WellFormed content.html := content.html_wellFormed
  -- a blank rendering has no texts and so no cuts
  have hiff : (∀ t ∈ e.texts, WellFormed t) ↔ ∀ p ∈ cuts e.texts content.html, WellFormed p.1 := by
    rw [htexts]
    split_ifs
    · simp [cuts]
    · exact split_wellFormed_iff messageMax hwell
  have hallowed : ∀ p ∈ cuts e.texts content.html, Allowed messageMax content.html p := by
    rw [htexts]
    split_ifs
    · simp [cuts]
    · exact split_allowed messageMax content.html
  refine ⟨view, content, hview, hcontent, hwell, hiff, ?_, ?_⟩
  · intro p hp
    exact ⟨(hallowed p hp).whole, (hallowed p hp).cause⟩
  · -- and without a line that is too long, and without a newline in an element, no cut is bad
    rintro (hshort | ⟨hlines, helements⟩)
    · -- one chunk at most, so there is no cut
      rw [hiff, htexts, split, if_pos hshort]
      split_ifs <;> simp [cuts]
    apply hiff.mpr
    intro p hp
    by_contra hbad
    rcases (hallowed p hp).cause hbad with hhard | ⟨-, s, hs, hnewline⟩
    · obtain ⟨l, hl, hlong⟩ := hhard.exists_line
      rw [← (hallowed p hp).whole] at hl
      exact absurd (hlines l hl) (Nat.not_le.mpr hlong)
    · exact helements s hs hnewline

/-- A status text that leaves room for four more characters. -/
def filler : List Char := List.replicate 4090 'x'

/-- A message whose rendering is one line and has the limit within an entity. -/
def overlong : Message :=
  Message.new 1 "success.html" (.string (String.ofList (filler ++ ['&', '&'])))

/-- The rendering up to the limit. -/
def overlongStart : List Char := ('✅' :: ' ' :: filler) ++ ['&', 'a', 'm', 'p']

/-- The rendering beyond the limit. -/
def overlongRest : List Char := [';', '&', 'a', 'm', 'p', ';']

theorem escapeHtml_replicate (n : Nat) :
    escapeHtml (List.replicate n 'x') = List.replicate n 'x' := by
  induction n with
  | zero => rfl
  | succ n ih =>
    show escapeHtmlChar 'x' ++ escapeHtml (List.replicate n 'x') = _
    rw [ih]
    rfl

theorem escapeHtml_filler : escapeHtml filler = filler := escapeHtml_replicate 4090

theorem overlong_read : View.success.read overlong.data =
    .ok (.status "✅ " (String.ofList (filler ++ ['&', '&']))) := rfl

theorem overlong_html : (Content.status "✅ " (String.ofList (filler ++ ['&', '&']))).html =
    overlongStart ++ overlongRest := by
  show Markup.print [Markup.run "✅ ", Markup.run _] = _
  have hescape : escapeHtml (filler ++ ['&', '&']) = filler ++ escapeHtml ['&', '&'] := by
    rw [escapeHtml, List.flatMap_append]
    exact congrArg (· ++ escapeHtml ['&', '&']) escapeHtml_filler
  simp only [Markup.print_cons, Markup.print_nil, Markup.run, Markup.printPiece,
    String.toList_ofList, hescape]
  have hsign : escapeHtml "✅ ".toList = ['✅', ' '] := by decide
  rw [hsign]
  simp [overlongStart, overlongRest, escapeHtml, escapeHtmlChar]

theorem overlong_split :
    split messageMax (overlongStart ++ overlongRest) = [overlongStart, overlongRest] := by
  have hline : '\n' ∉ filler := by
    intro hmem
    exact absurd (List.eq_of_mem_replicate hmem) (by decide)
  have hlength : filler.length = 4090 := List.length_replicate
  apply split_of_pieces
  · simp [overlongStart, overlongRest, hline]
  · simp [overlongStart, hlength, messageMax]
  · exact List.cons_ne_nil _ _
  · decide

theorem overlongStart_not_wellFormed : ¬ WellFormed overlongStart := by
  have hfiller : ∀ n, WellFormed (List.replicate n 'x') := by
    intro n
    induction n with
    | zero => exact .nil
    | succ n ih => exact .char (by unfold Reserved; decide) ih
  have hsign : WellFormed ('✅' :: ' ' :: filler) :=
    .char (by unfold Reserved; decide) (.char (by unfold Reserved; decide) (hfiller 4090))
  intro h
  have hcut : WellFormed ['&', 'a', 'm', 'p'] := hsign.append_iff.mp h
  generalize hx : ['&', 'a', 'm', 'p'] = x at hcut
  cases hcut with
  | nil => cases hx
  | char hc _ =>
    obtain ⟨rfl, -⟩ := List.cons.inj hx
    exact hc (.inl rfl)
  | entity he _ => cases he <;> simp at hx
  | element ht _ _ =>
    obtain ⟨d, r, rfl, -⟩ := ht.opening_head
    simp at hx

theorem overlong_render : render overlong.view overlong.data = .ok (overlongStart ++ overlongRest) := by
  show render View.success.name overlong.data = _
  rw [render, View.ofName?_name]
  simp only [overlong_read, overlong_html]

/-- The units of an overlong message are not all well-formed. -/
theorem Entry.texts_wellFormed_overlong :
    ∃ e, Entry.ofMessage overlong 3 = .ok e ∧ ¬ ∀ t ∈ e.texts, WellFormed t := by
  have hblank : (overlongStart ++ overlongRest).all Text.isBlank = false := rfl
  obtain ⟨e, he, htexts⟩ := Entry.exists_ofMessage 3 overlong_render hblank
  refine ⟨e, he, ?_⟩
  obtain ⟨view, content, hview, hcontent, -, hiff, -⟩ := Entry.texts_wellFormed he
  obtain rfl : .success = view := Option.some.inj ((View.ofName?_name .success).symm.trans hview)
  obtain rfl : _ = content := Except.ok.inj (overlong_read.symm.trans hcontent)
  intro hall
  have hcut := hiff.mp hall
  rw [htexts, overlong_split, overlong_html] at hcut
  have hstart : Starts overlongStart := ⟨'✅', _, rfl, by decide⟩
  rw [cuts_append hstart] at hcut
  exact overlongStart_not_wellFormed (hcut _ List.mem_cons_self)

end Delivery

end Courier
