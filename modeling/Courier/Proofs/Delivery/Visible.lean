import Courier.Proofs.Delivery.Markup
import Courier.Proofs.View.Contents

/-!
Blank units.

A rendering that is blank is not sent, but its chunks are not looked at one by one.  The first one
begins with what the rendering begins with, which is never a blank; a later one is blank if all of
the rest is, or if too many blanks come before the next visible character (`Chunk.Barren`).

That a chunk is blank can be seen from the text behind the cut alone, without knowing how it goes on
to be cut (`Chunk.Ending.visible_iff`): a chunk that is blank takes in all the blanks it has room
for and then ends, because the line behind them is too long for what is left.  It needs both laws of
the splitter, that the chunk is not too long and that it leaves no room for what comes next, so it
is stated for texts that are packed.  Newlines at a cut are not part of any chunk and are passed
over (`Chunk.onward`).

That renderings begin with a visible character is shown view by view (`Content.begins_html`).

Main statement: the first unit of a message is visible and so is every caption, and all units are if
and only if no cut is before a barren text; so it is when the rendering is short, or has neither a
line that is too long nor one of blanks only (`Delivery.Entry.texts_visible`).  A line that is too
long with blanks at its end gives a blank unit (`Delivery.Entry.texts_visible_trailing`).
-/

namespace Courier

open Html

/-! ### Blank chunks -/

namespace Chunk

/-- Whether a text has a character that is not a blank. -/
def Visible (cs : List Char) : Prop := cs.all Text.isBlank = false

instance (cs : List Char) : Decidable (Visible cs) := inferInstanceAs (Decidable (_ = false))

theorem visible_iff {cs : List Char} : Visible cs ↔ ∃ c ∈ cs, Text.isBlank c = false := by
  simp [Visible]

theorem not_visible_iff {cs : List Char} : ¬ Visible cs ↔ ∀ c ∈ cs, Text.isBlank c = true := by
  simp [Visible]

theorem Visible.append_right {cs : List Char} (h : Visible cs) (ds : List Char) :
    Visible (cs ++ ds) := by
  obtain ⟨c, hc, hblank⟩ := visible_iff.mp h
  exact visible_iff.mpr ⟨c, List.mem_append_left _ hc, hblank⟩

/-- The blanks at the beginning of a text. -/
def margin (cs : List Char) : List Char := cs.takeWhile Text.isBlank

/-- What comes behind the blanks at the beginning of a text. -/
def beyond (cs : List Char) : List Char := cs.dropWhile Text.isBlank

/-- Whether a chunk that begins where a text does has blanks only: nothing else comes, or the blanks
at its beginning leave no room for the line that they lead to; without a newline among them they
have to fill the chunk alone, as a line that is too long is cut. -/
def Barren (max : Nat) (cs : List Char) : Prop :=
  ¬ Visible cs ∨ ('\n' ∈ margin cs ∨ max ≤ (margin cs).length) ∧
    max < (margin cs).length + (firstLine (beyond cs)).length

instance (max : Nat) (cs : List Char) : Decidable (Barren max cs) :=
  inferInstanceAs (Decidable (_ ∨ _))

theorem margin_append_of_not_visible {c : List Char} (hc : ¬ Visible c) (text : List Char) :
    margin (c ++ text) = c ++ margin text ∧ beyond (c ++ text) = beyond text := by
  have hall := not_visible_iff.mp hc
  exact ⟨List.takeWhile_append_of_pos hall, List.dropWhile_append_of_pos hall⟩

/-- Behind its first visible character a text does not matter for the blanks at its beginning. -/
theorem margin_append_of_visible {c : List Char} (hc : Visible c) (text : List Char) :
    margin (c ++ text) = margin c ∧ beyond (c ++ text) = beyond c ++ text ∧
      beyond c ≠ [] := by
  induction c with
  | nil => cases hc
  | cons d c ih =>
    cases hd : Text.isBlank d with
    | true =>
      have hrest : Visible c := by simpa [Visible, hd] using hc
      simpa [margin, beyond, hd] using ih hrest
    | false => simp [margin, beyond, hd]

theorem margin_append_beyond (cs : List Char) : margin cs ++ beyond cs = cs :=
  List.takeWhile_append_dropWhile

/-- A line is not longer than the blanks at its beginning with what comes behind them. -/
theorem length_le_margin {k : List Char} (hk : '\n' ∉ k) (text : List Char) :
    k.length ≤ (margin (k ++ text)).length + (firstLine (beyond (k ++ text))).length := by
  by_cases hvisible : Visible k
  · obtain ⟨hmargin, hbeyond, -⟩ := margin_append_of_visible hvisible text
    have hline : '\n' ∉ beyond k := fun hmem => hk ((List.dropWhile_sublist _).subset hmem)
    have hprefix : beyond k <+: firstLine (beyond k ++ text) := by
      have hall : ∀ c ∈ beyond k, (c ≠ '\n' : Bool) = true := by
        intro c hc
        simpa using ne_of_mem_of_not_mem hc hline
      rw [firstLine, List.takeWhile_append_of_pos hall]
      exact List.prefix_append _ _
    have hlength := congrArg List.length (margin_append_beyond k)
    rw [List.length_append] at hlength
    rw [hmargin, hbeyond]
    have hle := hprefix.length_le
    omega
  · rw [(margin_append_of_not_visible hvisible text).1, List.length_append]
    omega

theorem firstLine_beyond_ne_nil {cs : List Char} (h : Visible cs) : firstLine (beyond cs) ≠ [] := by
  induction cs with
  | nil => cases h
  | cons c cs ih =>
    cases hc : Text.isBlank c with
    | true =>
      have hrest : Visible cs := by simpa [Visible, hc] using h
      simpa [beyond, hc] using ih hrest
    | false =>
      have hne : c ≠ '\n' := by
        rintro rfl
        cases hc
      simp [beyond, hc, firstLine, hne]

theorem newline_not_mem_firstLine (cs : List Char) : '\n' ∉ firstLine cs := by
  intro hmem
  have hall : (firstLine cs).all (· ≠ '\n') = true := List.all_takeWhile
  simpa using List.all_eq_true.mp hall _ hmem

theorem length_firstLine_le (cs : List Char) (ls : List (List Char)) :
    (firstLine (cs ++ continued ls)).length ≤ cs.length := by
  induction cs with
  | nil =>
    rcases continued_ends ls with hnil | ⟨rest, hrest⟩
    · simp [hnil, firstLine]
    · simp [hrest, firstLine]
  | cons c cs ih =>
    by_cases hc : c = '\n'
    · simp [firstLine, hc]
    · simpa [firstLine, hc] using ih

/-! ### Chunks where they begin -/

/-- A chunk can be seen to be blank where it begins, if it has no room for the line that comes
behind the blanks after it. -/
theorem Ending.visible_iff {max : Nat} {c text : List Char} (h : Ending max c text)
    (hfits : c.length ≤ max)
    (hfull : Visible text →
      max < c.length + (margin text).length + (firstLine (beyond text)).length) :
    Visible c ↔ ¬ Barren max (c ++ text) := by
  constructor
  · rintro hvisible (hblank | ⟨hwide, hroom⟩)
    · exact hblank (hvisible.append_right text)
    obtain ⟨hmargin, hbeyond, hne⟩ := margin_append_of_visible hvisible text
    have hsplit := margin_append_beyond c
    have hlength := congrArg List.length hsplit
    rw [List.length_append] at hlength
    rw [hmargin] at hwide hroom
    rw [hbeyond] at hroom
    have hline : ∀ ls, text = continued ls → False := by
      -- the line that the blanks lead to ends in the chunk, which is not too long
      rintro ls rfl
      have hle := length_firstLine_le (beyond c) ls
      omega
    -- by how the chunk ends: with the text, before a newline, or within a line that is too long
    cases h with
    | text => exact hline [] rfl
    | @line rest => exact hline (lines rest) (continued_lines rest).symm
    | piece hfull hnewline hgoes =>
      rcases hwide with hmem | hlong
      · exact hnewline (hsplit ▸ List.mem_append_left _ hmem)
      · have hpos := List.length_pos_of_ne_nil hne
        omega
  · intro hbarren
    -- the chunk is blank, so its blanks go on in those behind it
    by_contra hblank
    obtain ⟨hmargin, hbeyond⟩ := margin_append_of_not_visible hblank text
    apply hbarren
    by_cases hrest : Visible text
    · refine .inr ⟨?_, ?_⟩
      · rw [hmargin]
        cases h with
        | text => cases hrest
        | line => exact .inl (List.mem_append_right _ List.mem_cons_self)
        | piece hlength hnewline hgoes =>
          rw [List.length_append]
          exact .inr (by omega)
      · rw [hmargin, hbeyond, List.length_append]
        exact hfull hrest
    · refine .inl (not_visible_iff.mpr fun x hx => ?_)
      rcases List.mem_append.mp hx with hx | hx
      · exact not_visible_iff.mp hblank x hx
      · exact not_visible_iff.mp hrest x hx

/-- The first of some chunks in its text, with the newlines before it and what comes behind it. -/
theorem Woven.head {max : Nat} {c : List Char} {chunks : List (List Char)} {text : List Char}
    (h : Woven max (c :: chunks) text) :
    ∃ gap rest, (∀ x ∈ gap, x = '\n') ∧ text = gap ++ (c ++ rest) ∧ Starts c ∧
      Ending max c rest ∧ Woven max chunks rest := by
  generalize hcs : c :: chunks = cs at h
  induction h with
  | nil => cases hcs
  | newline _ ih =>
    obtain ⟨gap, rest, hgap, rfl, hrest⟩ := ih hcs
    exact ⟨'\n' :: gap, rest, List.forall_mem_cons.mpr ⟨rfl, hgap⟩, rfl, hrest⟩
  | @chunk c' chunks' rest hc hends h ih =>
    obtain ⟨rfl, rfl⟩ := List.cons.inj hcs
    exact ⟨[], rest, by simp, rfl, hc, hends, h⟩

/-- What comes behind a cut, from the next chunk on. -/
def onward (text : List Char) : List Char := text.dropWhile (· = '\n')

theorem onward_gap {gap c : List Char} (hgap : ∀ x ∈ gap, x = '\n') (hc : Starts c)
    (rest : List Char) : onward (gap ++ (c ++ rest)) = c ++ rest := by
  obtain ⟨d, ds, rfl, hd⟩ := hc
  rw [onward, List.dropWhile_append_of_pos (by simpa using hgap)]
  simp [hd]

/-- The next chunk behind a cut is visible if and only if the text is not barren there. -/
theorem Woven.head_visible_iff {max : Nat} {c : List Char} {chunks : List (List Char)}
    {text : List Char} (h : Woven max (c :: chunks) text) (hfits : c.length ≤ max)
    (hgreedy : (c :: chunks).IsChain fun c d => max < c.length + 1 + (firstLine d).length) :
    Visible c ↔ ¬ Barren max (onward text) := by
  obtain ⟨gap, rest, hgap, rfl, hstarts, hends, hrest⟩ := h.head
  rw [onward_gap hgap hstarts]
  refine hends.visible_iff hfits fun hvisible => ?_
  -- within a line that is too long the chunk is full, so nothing has room
  cases hends with
  | text => cases hvisible
  | piece hlength _ _ =>
    have hpos := List.length_pos_of_ne_nil (firstLine_beyond_ne_nil hvisible)
    omega
  | @line r =>
    -- the newline at the end of the chunk is followed by another chunk, which has not fitted in
    cases chunks with
    | nil =>
      have hblank := hrest.blank
      rw [hvisible] at hblank
      cases hblank
    | cons d chunks =>
      obtain ⟨gap', rest', hgap', hr, hd, -, -⟩ := hrest.head
      have hroom : max < c.length + 1 + (firstLine d).length :=
        (List.isChain_cons.mp hgreedy).1 d rfl
      have hnot : ¬ Visible gap' := not_visible_iff.mpr fun x hx => hgap' x hx ▸ rfl
      have hpos : 0 < gap'.length := by
        refine List.length_pos_of_ne_nil ?_
        rintro rfl
        obtain ⟨x, xs, rfl, hx⟩ := hd
        exact hx (List.cons.inj hr).1.symm
      obtain ⟨hmargin, hbeyond⟩ := margin_append_of_not_visible hnot (d ++ rest')
      have hwhole : firstLine d ++ d.dropWhile (· ≠ '\n') = d := List.takeWhile_append_dropWhile
      have hle := length_le_margin (newline_not_mem_firstLine d) (d.dropWhile (· ≠ '\n') ++ rest')
      rw [← List.append_assoc, hwhole] at hle
      rw [hr, hmargin, hbeyond, List.length_append]
      omega

/-- Chunks are visible if and only if the first one is and the text is not barren behind a cut. -/
theorem Woven.visible_iff {max : Nat} {chunks : List (List Char)} {text : List Char}
    (h : Woven max chunks text) (hfits : ∀ c ∈ chunks, c.length ≤ max)
    (hgreedy : chunks.IsChain fun c d => max < c.length + 1 + (firstLine d).length) :
    (∀ c ∈ chunks, Visible c) ↔
      (∀ c ∈ chunks.head?, Visible c) ∧ ∀ p ∈ cuts chunks text, ¬ Barren max (onward p.2) := by
  induction h with
  | nil => simp [cuts]
  | newline _ ih =>
    rw [ih hfits hgreedy, cuts_newline, List.forall_mem_map]
  | @chunk c chunks text hc hends h ih =>
    obtain ⟨hc', hfits'⟩ := List.forall_mem_cons.mp hfits
    cases chunks with
    | nil => simp [cuts]
    | cons d chunks =>
      have hgreedy' := (List.isChain_cons.mp hgreedy).2
      have hd := h.head_visible_iff (hfits' d List.mem_cons_self) hgreedy'
      rw [List.forall_mem_cons, ih hfits' hgreedy', cuts_append hc, List.forall_mem_cons,
        List.forall_mem_map]
      simp [hd]

/-- Whether a text begins with a visible character. -/
def Begins (cs : List Char) : Prop := ∃ c rest, cs = c :: rest ∧ Text.isBlank c = false

theorem Begins.visible {cs : List Char} (h : Begins cs) : Visible cs := by
  obtain ⟨c, rest, rfl, hc⟩ := h
  exact visible_iff.mpr ⟨c, List.mem_cons_self, hc⟩

theorem Begins.append {cs : List Char} (h : Begins cs) (ds : List Char) : Begins (cs ++ ds) := by
  obtain ⟨c, rest, rfl, hc⟩ := h
  exact ⟨c, rest ++ ds, rfl, hc⟩

/-- The first chunk begins with what the text begins with. -/
theorem visible_head_split {max : Nat} {text : List Char} (h : Begins text) :
    ∀ c ∈ (split max text).head?, Visible c := by
  by_cases hlong : max < text.length
  · have hwoven := split_woven hlong
    generalize split max text = chunks at hwoven
    intro c hc
    cases chunks with
    | nil => cases hc
    | cons c' chunks =>
      obtain rfl := Option.some.inj hc
      obtain ⟨gap, rest, hgap, htext, ⟨x, xs, rfl, hx⟩, -, -⟩ := hwoven.head
      obtain ⟨d, ds, rfl, hd⟩ := h
      cases gap with
      | nil =>
        obtain ⟨rfl, -⟩ := List.cons.inj htext
        exact visible_iff.mpr ⟨d, List.mem_cons_self, hd⟩
      | cons y gap =>
        -- a newline is a blank
        obtain ⟨rfl, -⟩ := List.cons.inj htext
        rw [hgap d List.mem_cons_self] at hd
        cases hd
  · rw [split_of_length_le (Nat.le_of_not_lt hlong)]
    intro c hc
    obtain rfl := Option.some.inj hc
    exact h.visible

/-- The chunks of a text that begins with a visible character are visible if and only if it is not
barren behind a cut. -/
theorem split_visible_iff {max : Nat} (hmax : 0 < max) {text : List Char} (h : Begins text) :
    (∀ c ∈ split max text, Visible c) ↔
      ∀ p ∈ cuts (split max text) text, ¬ Barren max (onward p.2) := by
  by_cases hlong : max < text.length
  · have hfits : ∀ c ∈ split max text, c.length ≤ max := fun _ => length_le_of_mem_split hmax
    rw [(split_woven hlong).visible_iff hfits (split_tight hmax hlong).greedy]
    exact and_iff_right (visible_head_split h)
  · rw [split_of_length_le (Nat.le_of_not_lt hlong)]
    simp [cuts, h.visible]

/-- Blanks before a line that has no room behind them, and before one that has. -/
example :
    split 6 "abcd\n  \n cdef\n \ngh".toList =
        ["abcd".toList, "  ".toList, " cdef".toList, " \ngh".toList] ∧
      Barren 6 "  \n cdef\n \ngh".toList ∧ ¬ Barren 6 " \ngh".toList := by
  decide +kernel

/-- Short lines that are visible or empty make visible chunks. -/
theorem Packed.visible {max : Nat} {ls chunks : List (List Char)} (h : Packed max ls chunks)
    (hls : ∀ l ∈ ls, l.length ≤ max ∧ (l ≠ [] → Visible l)) : ∀ c ∈ chunks, Visible c := by
  induction h with
  | nil =>
    intro c hc
    cases hc
  | blank _ ih => exact ih fun l hl => hls l (List.mem_cons_of_mem _ hl)
  | @chunk l last ps more rest chunks hcut _ _ _ ih =>
    obtain ⟨hlength, hvisible⟩ := hls l List.mem_cons_self
    obtain ⟨rfl, rfl⟩ := hcut.eq_of_length_le hlength
    refine List.forall_mem_cons.mpr ⟨(hvisible hcut.last_ne_nil).append_right _, ih ?_⟩
    exact fun k hk => hls k (List.mem_cons_of_mem _ (List.mem_append_right _ hk))

end Chunk

/-! ### Renderings -/

namespace Content

open Markup Chunk

theorem begins_separated {m : List Markup} (h : Begins (print m)) (between : String)
    (ms : List (List Markup)) : Begins (print (separated between (m :: ms))) := by
  cases ms with
  | nil => exact h
  | cons n ms =>
    rw [separated, print_append]
    · exact h.append _
    · simp

/-- A rendering begins with a visible character, if it is not empty. -/
theorem begins_html {v : View} {data : Json.Value} {content : Content}
    (h : v.read data = .ok content) : content.html = [] ∨ Begins content.html := by
  -- each view begins with a sign, a tag or the first of its items
  cases Content.of_read h with
  | success t =>
    have hsign : Begins (print [run "✅ "]) := ⟨'✅', [' '], by decide, by decide⟩
    exact .inr (hsign.append _)
  | error t =>
    have hsign : Begins (print [run "❌ "]) := ⟨'❌', [' '], by decide, by decide⟩
    exact .inr (hsign.append _)
  | info t =>
    have hsign : Begins (print [run "ℹ️ "]) := ⟨'ℹ', ['\uFE0F', ' '], by decide, by decide⟩
    exact .inr (hsign.append _)
  | list items =>
    cases items with
    | nil => exact .inl rfl
    | cons i items =>
      have hitem : Begins (print [run "• "]) := ⟨'•', [' '], by decide, by decide⟩
      exact .inr (begins_separated (hitem.append _) "\n" _)
  | article h => exact .inr ⟨'<', _, rfl, by decide⟩
  | @digest members sections h =>
    show print (separated "\n\n" ((Content.shown _).map _)) = [] ∨
      Begins (print (separated "\n\n" ((Content.shown _).map _)))
    cases Content.shown (Json.Members.ofList sections) with
    | nil => exact .inl rfl
    | cons s shown =>
      have hblock : Begins (print (sectionBlock s.1 s.2)) := ⟨'<', _, rfl, by decide⟩
      exact .inr (begins_separated hblock "\n\n" _)

end Content

/-! ### Units -/

namespace Delivery

open Chunk

/-- A caption is the first chunk of a rendering that is visible. -/
theorem Entry.caption_of_ofMessage {m : Message} {html : List Char} {maxRetry : Nat}
    {e : Entry Parcel} (hrender : render m.view m.data = .ok html)
    (h : Entry.ofMessage m maxRetry = .ok e) {u : Unit Parcel} (hu : u ∈ e.units)
    {url caption : String} (hpayload : u.payload = .photo url (some caption)) :
    Visible html ∧ (split messageMax html).head? = some caption.toList := by
  obtain ⟨hempty, hcarries⟩ := Entry.ofMessage_carries hrender maxRetry
  have hfull : ¬ (html.all Text.isBlank = true ∧ image? m.imageUrl = none) := by
    rw [← hempty, h]
    simp
  obtain ⟨e', he', carries⟩ := hcarries hfull
  obtain rfl := Except.ok.inj (h.symm.trans he')
  obtain ⟨first, texts, hparceled⟩ := carries.parceled
  have hmem : Parcel.photo url (some caption) ∈ e.units.map Unit.payload :=
    List.mem_map.mpr ⟨u, hu, hpayload⟩
  rw [hparceled.parcels_eq] at hmem
  -- only the photo of the image has a caption
  have hfirst : first = some caption := by
    rcases List.mem_append.mp hmem with himage | htext
    · obtain ⟨url', -, hphoto⟩ := Option.map_eq_some_iff.mp (Option.mem_toList.mp himage)
      injection hphoto
    · simp at htext
  obtain ⟨-, hvisible, hhead, -⟩ := (hparceled.caption_iff caption).mp hfirst
  exact ⟨hvisible, hhead⟩

/-- The first unit of a message is visible, and so is every caption.  All units are if and only if
the rendering is not barren behind a cut; so all units of a rendering that is short, or has neither
a line that is too long nor one of blanks only, are visible. -/
theorem Entry.texts_visible {m : Message} {maxRetry : Nat} {e : Entry Parcel}
    (h : Entry.ofMessage m maxRetry = .ok e) :
    ∃ view content, View.ofName? m.view = some view ∧ view.read m.data = .ok content ∧
      (∀ t ∈ e.texts.head?, Visible t) ∧
      (∀ u ∈ e.units, ∀ url caption, u.payload = .photo url (some caption) →
        Visible caption.toList) ∧
      ((∀ t ∈ e.texts, Visible t) ↔
        ∀ p ∈ cuts e.texts content.html, ¬ Barren messageMax (onward p.2)) ∧
      (content.html.length ≤ messageMax ∨
          (∀ l ∈ lines content.html, l.length ≤ messageMax ∧ (l ≠ [] → Visible l)) →
        ∀ t ∈ e.texts, Visible t) := by
  obtain ⟨view, content, hview, hcontent, htexts⟩ := exists_of_ofMessage h
  have hrender : render m.view m.data = .ok content.html := by
    simp only [render, hview, hcontent]
  have hbegins : Visible content.html → Begins content.html := by
    intro hvisible
    rcases Content.begins_html hcontent with hnil | hbegins
    · rw [hnil] at hvisible
      cases hvisible
    · exact hbegins
  have hiff : (∀ t ∈ e.texts, Visible t) ↔
      ∀ p ∈ cuts e.texts content.html, ¬ Barren messageMax (onward p.2) := by
    rw [htexts]
    split_ifs with hblank
    · simp [cuts]
    · exact split_visible_iff (by decide) (hbegins (by simpa [Visible] using hblank))
  refine ⟨view, content, hview, hcontent, ?_, ?_, hiff, ?_⟩
  · rw [htexts]
    split_ifs with hblank
    · simp
    · exact visible_head_split (hbegins (by simpa [Visible] using hblank))
  · intro u hu url caption hpayload
    obtain ⟨hvisible, hhead⟩ := caption_of_ofMessage hrender h hu hpayload
    exact visible_head_split (hbegins hvisible) _ hhead
  · -- a rendering in one chunk, or with lines that are short and visible
    intro hplain
    rw [htexts]
    split_ifs with hblank
    · simp
    have hvisible : Visible content.html := by simpa [Visible] using hblank
    by_cases hlong : messageMax < content.html.length
    · have hlines := hplain.resolve_left (Nat.not_le.mpr hlong)
      exact (split_packed hlong).visible hlines
    · rw [split_of_length_le (Nat.le_of_not_lt hlong)]
      simpa using hvisible

/-- A status text that fills a unit. -/
def padding : List Char := List.replicate 4094 'x'

/-- A message whose rendering goes on with a blank where the first unit is full. -/
def trailing : Message :=
  Message.new 1 "success.html" (.string (String.ofList (padding ++ [' '])))

theorem trailing_render :
    render trailing.view trailing.data = .ok (('✅' :: ' ' :: padding) ++ [' ']) := by
  have hsign : escapeHtml ['✅', ' '] = ['✅', ' '] := by decide
  have hpadding : escapeHtml padding = padding := escapeHtml_replicate 4094
  have hescape : escapeHtml (padding ++ [' ']) = padding ++ [' '] := by
    rw [escapeHtml, List.flatMap_append]
    exact congrArg (· ++ escapeHtml [' ']) hpadding
  show render View.success.name trailing.data = _
  rw [render, View.ofName?_name]
  show Except.ok (Markup.print [Markup.run "✅ ", Markup.run (String.ofList (padding ++ [' ']))]) = _
  simp [Markup.run, Markup.printPiece, hsign, hescape]

theorem trailing_split :
    split messageMax (('✅' :: ' ' :: padding) ++ [' ']) = ['✅' :: ' ' :: padding, [' ']] := by
  have hline : '\n' ∉ padding := by
    intro hmem
    exact absurd (List.eq_of_mem_replicate hmem) (by decide)
  have hlength : padding.length = 4094 := List.length_replicate
  apply split_of_pieces
  · simp [hline]
  · simp [hlength, messageMax]
  · exact List.cons_ne_nil _ _
  · decide

/-- The blank at the end of the text makes a unit of its own. -/
theorem Entry.texts_visible_trailing :
    ∃ e, Entry.ofMessage trailing 3 = .ok e ∧ e.texts = ['✅' :: ' ' :: padding, [' ']] ∧
      ¬ ∀ t ∈ e.texts, Visible t := by
  have hblank : (('✅' :: ' ' :: padding) ++ [' ']).all Text.isBlank = false := rfl
  obtain ⟨e, he, htexts⟩ := Entry.exists_ofMessage 3 trailing_render hblank
  rw [trailing_split] at htexts
  refine ⟨e, he, htexts, ?_⟩
  obtain ⟨view, content, hview, hcontent, -, -, hiff, -⟩ := Entry.texts_visible he
  have hrender : render trailing.view trailing.data = .ok content.html := by
    simp only [render, hview, hcontent]
  obtain hhtml := Except.ok.inj (hrender.symm.trans trailing_render)
  have hstart : Starts ('✅' :: ' ' :: padding) := ⟨'✅', _, rfl, by decide⟩
  have hbarren : Barren messageMax (onward [' ']) := .inl (by decide)
  intro hall
  have hcuts := hiff.mp hall
  rw [htexts, hhtml, cuts_append hstart] at hcuts
  exact hcuts _ List.mem_cons_self hbarren

end Delivery

end Courier
