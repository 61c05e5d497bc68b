import Courier.Proofs.Delivery.Chunks
import Mathlib.Data.List.Chain

/-!
What cutting a text into chunks keeps, and where it cuts.

Nothing but newlines is lost between chunks, and every chunk has the greatest length at most
(`Chunk.Conserves`).  Lines that are short enough lie whole in one chunk, lines that are too long
are cut into pieces of the greatest length, and no chunk has room for what the next one begins with
(`Chunk.Tight`).

Both are read off the two relations of `Chunk.split`: what lies between chunks is a matter of how
they are woven into the text (`Woven.exists_gapped`), and where lines go is a matter of how they are
packed (`Packed.exists_stand`).  Where chunks stand in a text is said by `Chunk.Stand`: the chunks
before them are laced into what comes before them, and those behind them into what comes behind.  A
line of the text is given by what comes before and behind it (`Chunk.IsLine`), so that equal lines
are told apart.

Packing is greedy for any two consecutive chunks (`Packed.greedy`): the next chunk begins with the
line that was too long for the room, or with a piece of the greatest length.

Main statements: `Chunk.split_conserves` and `Chunk.split_tight`.
-/

namespace Courier.Chunk

/-! ### Chunks and gaps -/

/-- The gap before the first chunk and the chunks, each with the gap behind it, make up the text.  Gaps
hold newlines only, and between two chunks there are some unless the first has the greatest length. -/
structure Gapped (max : Nat) (chunks : List (List Char)) (text lead : List Char)
    (gapped : List (List Char × List Char)) : Prop where
  chunks_eq : gapped.map Prod.fst = chunks
  text_eq : text = lead ++ gapped.flatMap fun p => p.1 ++ p.2
  newlines : (∀ x ∈ lead, x = '\n') ∧ ∀ p ∈ gapped, ∀ x ∈ p.2, x = '\n'
  inner : ∀ p ∈ gapped.dropLast, p.2 = [] → p.1.length = max

theorem Packed.length_le {max : Nat} {ls chunks : List (List Char)} (h : Packed max ls chunks)
    (hmax : 0 < max) : ∀ c ∈ chunks, c.length ≤ max := by
  induction h with
  | nil =>
    intro c hc
    cases hc
  | blank _ ih => exact ih
  | chunk hcut hfits _ _ ih =>
    intro c hc
    rcases List.mem_append.mp hc with hc | hc
    · exact Nat.le_of_eq (hcut.full c hc).2
    · rcases List.mem_cons.mp hc with rfl | hc
      · exact hfits hmax
      · exact ih c hc

theorem Woven.filter {max : Nat} {chunks : List (List Char)} {text : List Char}
    (h : Woven max chunks text) :
    chunks.flatten.filter (· ≠ '\n') = text.filter (· ≠ '\n') := by
  induction h with
  | nil => rfl
  | newline _ ih => simpa using ih
  | chunk _ _ _ ih => rw [List.flatten_cons, List.filter_append, List.filter_append, ih]

theorem Woven.starts {max : Nat} {chunks : List (List Char)} {text : List Char}
    (h : Woven max chunks text) : ∀ c ∈ chunks, Starts c := by
  induction h with
  | nil =>
    intro c hc
    cases hc
  | newline _ ih => exact ih
  | chunk hc _ _ ih => exact List.forall_mem_cons.mpr ⟨hc, ih⟩

theorem Woven.exists_gapped {max : Nat} {chunks : List (List Char)} {text : List Char}
    (h : Woven max chunks text) : ∃ lead gapped, Gapped max chunks text lead gapped := by
  -- by induction on how the chunks lie in the text, from its end
  induction h with
  | nil => exact ⟨[], [], rfl, rfl, by simp, by simp⟩
  | newline _ ih =>
    obtain ⟨lead, gapped, hchunks, rfl, ⟨hlead, hgaps⟩, hinner⟩ := ih
    exact ⟨'\n' :: lead, gapped, hchunks, rfl, ⟨List.forall_mem_cons.mpr ⟨rfl, hlead⟩, hgaps⟩, hinner⟩
  | @chunk c chunks text hc hends h ih =>
    obtain ⟨lead, gapped, hchunks, htext, ⟨hlead, hgaps⟩, hinner⟩ := ih
    refine ⟨[], (c, lead) :: gapped, ?_, ?_, ⟨?_, ?_⟩, ?_⟩
    · rw [List.map_cons, hchunks]
    · simp [htext]
    · simp
    · exact List.forall_mem_cons.mpr ⟨hlead, hgaps⟩
    · cases gapped with
      | nil =>
        intro p hp
        cases hp
      | cons q gapped =>
        rw [List.dropLast_cons_cons]
        refine List.forall_mem_cons.mpr ⟨?_, hinner⟩
        -- a chunk follows, so the text goes on, and not with a newline
        rintro rfl
        obtain ⟨d, rest, hq, hd⟩ : Starts q.1 := h.starts q.1 (hchunks ▸ List.mem_cons_self)
        cases hends with
        | piece hlength _ _ => exact hlength
        | text => simp [hq] at htext
        | line =>
          simp only [List.nil_append, List.flatMap_cons, hq, List.cons_append, List.cons.injEq] at htext
          exact absurd htext.1.symm hd

theorem split_of_length_le {max : Nat} {text : List Char} (h : text.length ≤ max) :
    split max text = [text] := by
  rw [split, if_pos h]

theorem length_le_of_mem_split {max : Nat} (hmax : 0 < max) {text c : List Char}
    (hc : c ∈ split max text) : c.length ≤ max := by
  by_cases hlong : max < text.length
  · exact (split_packed hlong).length_le hmax c hc
  · have hshort : text.length ≤ max := Nat.le_of_not_lt hlong
    rw [split_of_length_le hshort] at hc
    rwa [List.mem_singleton.mp hc]

/-- Only the chunk of an empty text is empty. -/
theorem nil_not_mem_split {max : Nat} {text : List Char} (h : text ≠ []) : [] ∉ split max text := by
  by_cases hlong : max < text.length
  · intro hnil
    obtain ⟨d, rest, hd, -⟩ := (split_woven hlong).starts [] hnil
    cases hd
  · rw [split_of_length_le (Nat.le_of_not_lt hlong), List.mem_singleton]
    exact h.symm

/-- What is kept when a text is cut into chunks. -/
structure Conserves (max : Nat) (text : List Char) (chunks : List (List Char)) : Prop where
  bounded : ∀ c ∈ chunks, c.length ≤ max
  short : text.length ≤ max → chunks = [text]
  gapped : max < text.length → [] ∉ chunks ∧ ∃ lead gapped, Gapped max chunks text lead gapped
  order : chunks.flatten.filter (· ≠ '\n') = text.filter (· ≠ '\n')

/-- Chunks are bounded and lose nothing but newlines. -/
theorem split_conserves {max : Nat} (hmax : 0 < max) (text : List Char) :
    Conserves max text (split max text) where
  bounded _ := length_le_of_mem_split hmax
  short := split_of_length_le
  gapped hlong := by
    have hne : text ≠ [] := List.ne_nil_of_length_pos (Nat.lt_of_le_of_lt (Nat.zero_le max) hlong)
    exact ⟨nil_not_mem_split hne, (split_woven hlong).exists_gapped⟩
  order := by
    by_cases hlong : max < text.length
    · exact (split_woven hlong).filter
    · rw [split_of_length_le (Nat.le_of_not_lt hlong)]
      simp

/-- Blank lines around chunks, a line in pieces and a line behind what is left of it. -/
theorem split_conserves_mixed :
    0 < 3 ∧ Conserves 3 "\n\nab\n\ncdefgh\ni".toList
      ["ab\n".toList, "cde".toList, "fgh".toList, "i".toList] := by
  have hsplit : split 3 "\n\nab\n\ncdefgh\ni".toList =
      ["ab\n".toList, "cde".toList, "fgh".toList, "i".toList] := by decide +kernel
  have hmax : 0 < 3 := by decide
  exact ⟨hmax, hsplit ▸ split_conserves hmax _⟩

/-! ### Chunks at their places -/

/-- Lines, each before a newline. -/
def ended (lines : List (List Char)) : List Char := lines.flatMap fun l => l ++ ['\n']

theorem ended_cons (l : List Char) (ls : List (List Char)) :
    ended (l :: ls) = l ++ '\n' :: ended ls := by
  simp [ended]

theorem ended_append (ls ks : List (List Char)) : ended (ls ++ ks) = ended ls ++ ended ks := by
  simp [ended]

theorem newline_ended (ls : List (List Char)) : '\n' :: ended ls = continued ls ++ ['\n'] := by
  induction ls with
  | nil => rfl
  | cons l ls ih =>
    rw [ended_cons, ih, continued_cons]
    simp

/-- Chunks with newlines before, between and behind them. -/
inductive Laced : List (List Char) → List Char → Prop
  | nil : Laced [] []
  | newline {chunks : List (List Char)} {text : List Char} (h : Laced chunks text) :
      Laced chunks ('\n' :: text)
  | chunk {c : List Char} {chunks : List (List Char)} {text : List Char} (h : Laced chunks text) :
      Laced (c :: chunks) (c ++ text)

theorem Laced.pieces {chunks : List (List Char)} {text : List Char} (h : Laced chunks text)
    (ps : List (List Char)) : Laced (ps ++ chunks) (ps.flatten ++ text) := by
  induction ps with
  | nil => exact h
  | cons p ps ih =>
    rw [List.flatten_cons, List.append_assoc]
    exact .chunk ih

theorem Packed.laced {max : Nat} {ls chunks : List (List Char)} (h : Packed max ls chunks) :
    Laced chunks (continued ls) := by
  induction h with
  | nil => exact .nil
  | blank _ ih => exact .newline ih
  | @chunk l last ps more rest chunks hcut _ _ _ ih =>
    rw [hcut.continued_eq]
    exact .newline ((Laced.chunk ih).pieces ps)

theorem Laced.append {cs ds : List (List Char)} {a b : List Char} (ha : Laced cs a)
    (hb : Laced ds b) : Laced (cs ++ ds) (a ++ b) := by
  induction ha with
  | nil => exact hb
  | newline _ ih => exact .newline ih
  | chunk _ ih =>
    rw [List.append_assoc]
    exact .chunk ih

/-- Where chunks stand in a text: the chunks before them are laced into what comes before, those
behind them into what comes after. -/
def Stand (chunks : List (List Char)) (before : List Char) (cs : List (List Char))
    (after : List Char) : Prop :=
  ∃ earlier later, chunks = earlier ++ cs ++ later ∧ Laced earlier before ∧ Laced later after

theorem Stand.behind {chunks cs ds : List (List Char)} {before b after : List Char}
    (h : Stand chunks before cs after) (hb : Laced ds b) :
    Stand (ds ++ chunks) (b ++ before) cs after := by
  obtain ⟨earlier, later, rfl, hbefore, hafter⟩ := h
  exact ⟨ds ++ earlier, later, by simp, hb.append hbefore, hafter⟩

theorem Stand.drop {chunks ps cs : List (List Char)} {before after : List Char}
    (h : Stand chunks before (ps ++ cs) after) : Stand chunks (before ++ ps.flatten) cs after := by
  obtain ⟨earlier, later, rfl, hbefore, hafter⟩ := h
  have hps : Laced ps ps.flatten := by simpa using Laced.nil.pieces ps
  exact ⟨earlier ++ ps, later, by simp, hbefore.append hps, hafter⟩

/-- A line that is not empty begins a chunk or is one of the lines behind its first. -/
theorem Packed.exists_stand {max : Nat} {ls chunks : List (List Char)} (h : Packed max ls chunks)
    {us vs : List (List Char)} {l : List Char} (hls : ls = us ++ l :: vs) (hl : l ≠ []) :
    ∃ first last ps more before after pre post,
      Cut max first ps last ∧ (0 < max → (last ++ continued more).length ≤ max) ∧
      Stand chunks (ended before) (ps ++ [last ++ continued more]) (continued after) ∧
      first :: more = pre ++ l :: post ∧ us = before ++ pre ∧ vs = post ++ after := by
  -- by induction on how the lines are packed; a line that is empty begins no chunk
  induction h generalizing us with
  | nil => simp at hls
  | @blank ls chunks _ ih =>
    cases us with
    | nil => exact absurd (List.cons.inj hls).1.symm hl
    | cons u us =>
      obtain ⟨hu, hls⟩ := List.cons_eq_cons.mp hls
      obtain ⟨first, last, ps, more, before, after, pre, post, hcut, hfits, hstand, hgroup, hus, hvs⟩ :=
        ih hls
      refine ⟨first, last, ps, more, [] :: before, after, pre, post, hcut, hfits, ?_, hgroup, ?_, hvs⟩
      · exact hstand.behind (.newline .nil)
      · rw [← hu, hus, List.cons_append]
  | @chunk first last ps more rest chunks hcut hfits _ h ih =>
    rw [← List.cons_append] at hls
    -- the line comes behind the lines of this chunk, or is one of them
    have hplace : (∃ us', us = first :: more ++ us' ∧ rest = us' ++ l :: vs) ∨
        ∃ post, first :: more = us ++ l :: post ∧ vs = post ++ rest := by
      rcases List.append_eq_append_iff.mp hls with hbehind | ⟨mid, hmid, hvs⟩
      · exact .inl hbehind
      · cases mid with
        | nil => exact .inl ⟨[], by simpa using hmid.symm, hvs.symm⟩
        | cons k post =>
          obtain ⟨rfl, rfl⟩ := List.cons.inj hvs
          exact .inr ⟨post, hmid, rfl⟩
    rcases hplace with ⟨us', rfl, hrest⟩ | ⟨post, hgroup, hvs⟩
    · -- the line is behind this chunk, which is laced into what comes before
      obtain ⟨first', last', ps', more', before, after, pre, post, hcut', hfits', hstand, hgroup, rfl,
        hvs⟩ := ih hrest
      refine ⟨first', last', ps', more', first :: more ++ before, after, pre, post, hcut', hfits', ?_,
        hgroup, by simp, hvs⟩
      have hlaced : Laced (ps ++ [last ++ continued more]) (ended (first :: more)) := by
        have htext : ended (first :: more) = ps.flatten ++ ((last ++ continued more) ++ ['\n']) := by
          rw [ended_cons, newline_ended, hcut.whole]
          simp
        rw [htext]
        exact (Laced.chunk (.newline .nil)).pieces ps
      have hbehind := hstand.behind hlaced
      rwa [← ended_append, List.append_assoc, List.singleton_append] at hbehind
    · -- the line is in this chunk or cut before it, and nothing was packed before
      have hstand : Stand (ps ++ (last ++ continued more) :: chunks) (ended [])
          (ps ++ [last ++ continued more]) (continued rest) := ⟨[], chunks, by simp, .nil, h.laced⟩
      exact ⟨first, last, ps, more, [], rest, us, post, hcut, hfits, hstand, hgroup, rfl, hvs⟩

/-! ### Lines in chunks -/

theorem Cut.eq_of_length_le {max : Nat} {l last : List Char} {ps : List (List Char)}
    (h : Cut max l ps last) (hl : l.length ≤ max) : ps = [] ∧ last = l := by
  cases ps with
  | nil => exact ⟨rfl, h.whole.symm⟩
  | cons p ps =>
    have hp := (h.full p List.mem_cons_self).2
    have hlast := List.length_pos_of_ne_nil h.last_ne_nil
    rw [h.whole] at hl
    simp only [List.flatten_cons, List.length_append] at hl
    omega

theorem length_lt_continued {l : List Char} {ls : List (List Char)} (h : l ∈ ls) :
    l.length < (continued ls).length := by
  obtain ⟨us, vs, rfl⟩ := List.append_of_mem h
  rw [continued_append, continued_cons]
  simp
  omega

/-- A line of a text, with what comes before it and behind it. -/
structure IsLine (before l after : List Char) : Prop where
  newline_not_mem : '\n' ∉ l
  begins : before = [] ∨ ∃ b, before = b ++ ['\n']
  ends : after = [] ∨ ∃ a, after = '\n' :: a

theorem lines_append (cs ds : List Char) : lines (cs ++ '\n' :: ds) = lines cs ++ lines ds := by
  induction cs with
  | nil => simp [lines]
  | cons c cs ih =>
    obtain ⟨l, ls, hlines, -, -⟩ := lines_spec cs
    rw [List.cons_append, lines, lines, ih, hlines]
    split_ifs <;> rfl

/-- A line of a text is one of its lines, behind those that what comes before is made of. -/
theorem IsLine.exists_lines {before l after : List Char} (h : IsLine before l after) :
    ∃ us vs, lines (before ++ l ++ after) = us ++ l :: vs ∧
      before = ended us ∧ after = continued vs := by
  obtain ⟨hl, hbegins, hends⟩ := h
  obtain ⟨us, hus, hbefore⟩ : ∃ us, (∀ rest, lines (before ++ rest) = us ++ lines rest) ∧
      before = ended us := by
    rcases hbegins with rfl | ⟨b, rfl⟩
    · exact ⟨[], by simp, rfl⟩
    · refine ⟨lines b, ?_, ?_⟩
      · intro rest
        rw [List.append_assoc, List.singleton_append, lines_append]
      · have htext := newline_ended (lines b)
        rw [continued_lines, List.cons_append] at htext
        exact (List.cons.inj htext).2.symm
  obtain ⟨vs, hvs, hafter⟩ : ∃ vs, lines (l ++ after) = l :: vs ∧ after = continued vs := by
    rcases hends with rfl | ⟨a, rfl⟩
    · exact ⟨[], by rw [List.append_nil, lines_of_not_mem hl], rfl⟩
    · refine ⟨lines a, ?_, (continued_lines a).symm⟩
      rw [lines_append, lines_of_not_mem hl, List.singleton_append]
  exact ⟨us, vs, by rw [List.append_assoc, hus, hvs], hbefore, hafter⟩

/-- The line lies whole in one chunk. -/
def Kept (chunks : List (List Char)) (before l after : List Char) : Prop :=
  ∃ b x y a, before = b ++ x ∧ after = y ++ a ∧ Stand chunks b [x ++ l ++ y] a

/-- The line begins a chunk and is cut into pieces of the greatest length, up to what is left. -/
def CutUp (max : Nat) (chunks : List (List Char)) (before l after : List Char) : Prop :=
  ∃ ps last y a, Cut max l ps last ∧ ps ≠ [] ∧ after = y ++ a ∧
    Stand chunks before (ps ++ [last ++ y]) a

theorem Packed.kept {max : Nat} {us vs chunks : List (List Char)} {l : List Char}
    (h : Packed max (us ++ l :: vs) chunks) (hl : l ≠ []) (hlength : l.length ≤ max) :
    Kept chunks (ended us) l (continued vs) := by
  obtain ⟨first, last, ps, more, before, after, pre, post, hcut, -, hstand, hgroup, rfl, rfl⟩ :=
    h.exists_stand rfl hl
  cases pre with
  | nil =>
    -- the line begins its chunk, and it is not cut
    obtain ⟨rfl, rfl⟩ := List.cons.inj hgroup
    obtain ⟨rfl, rfl⟩ := hcut.eq_of_length_le hlength
    refine ⟨ended before, [], continued more, continued after, ?_, continued_append _ _, hstand⟩
    rw [List.append_nil, List.append_nil]
  | cons _ pre =>
    -- before the line, its chunk has what is left of the first line and the lines `pre`
    obtain ⟨rfl, rfl⟩ := List.cons.inj hgroup
    refine ⟨ended before ++ ps.flatten, last ++ continued pre ++ ['\n'], continued post,
      continued after, ?_, continued_append _ _, ?_⟩
    · rw [ended_append, ended_cons, newline_ended, hcut.whole]
      simp
    · have hchunk : last ++ continued (pre ++ l :: post) =
          last ++ continued pre ++ ['\n'] ++ l ++ continued post := by
        rw [continued_append, continued_cons]
        simp
      rw [← hchunk]
      exact hstand.drop

theorem Packed.cutUp {max : Nat} {us vs chunks : List (List Char)} {l : List Char}
    (h : Packed max (us ++ l :: vs) chunks) (hmax : 0 < max) (hlength : max < l.length) :
    CutUp max chunks (ended us) l (continued vs) := by
  have hl : l ≠ [] := List.ne_nil_of_length_pos (Nat.lt_of_le_of_lt (Nat.zero_le max) hlength)
  obtain ⟨first, last, ps, more, before, after, pre, post, hcut, hfits, hstand, hgroup, rfl, rfl⟩ :=
    h.exists_stand rfl hl
  -- the line can only be the first of its group
  cases pre with
  | nil =>
    obtain ⟨rfl, rfl⟩ := List.cons.inj hgroup
    refine ⟨ps, last, continued more, continued after, hcut, ?_, continued_append _ _, ?_⟩
    · -- without pieces the line would be what is left of it, which is not too long
      rintro rfl
      have hwhole : first = last := hcut.whole
      have hle := hcut.last_length_le hmax
      rw [hwhole] at hlength
      omega
    · rwa [List.append_nil]
  | cons _ pre =>
    -- a line behind the first one of a chunk is not too long
    have hmore : more = pre ++ l :: post := (List.cons.inj hgroup).2
    have hlt : l.length < (continued more).length := length_lt_continued (by simp [hmore])
    have hle := hfits hmax
    rw [List.length_append] at hle
    omega

/-! ### Room in chunks -/

/-- The part of a chunk up to its first newline. -/
def firstLine (c : List Char) : List Char := c.takeWhile (· ≠ '\n')

theorem firstLine_append {l : List Char} (hl : '\n' ∉ l) (ls : List (List Char)) :
    firstLine (l ++ continued ls) = l := by
  have hall : ∀ c ∈ l, (c ≠ '\n' : Bool) = true := by
    intro c hc
    simpa using ne_of_mem_of_not_mem hc hl
  rw [firstLine, List.takeWhile_append_of_pos hall]
  cases ls with
  | nil => simp [continued]
  | cons k ls => simp [continued_cons]

/-- The first chunk of packed lines begins with the first of them, or with a piece of it. -/
theorem Packed.length_firstLine {max : Nat} {k : List Char} {ks chunks : List (List Char)}
    (h : Packed max (k :: ks) chunks) (hk : '\n' ∉ k) :
    ∀ d ∈ chunks.head?, min max k.length ≤ (firstLine d).length := by
  generalize hls : k :: ks = ls at h
  cases h with
  | nil => cases hls
  | blank _ =>
    obtain ⟨rfl, -⟩ := List.cons.inj hls
    simp
  | @chunk l last ps more rest chunks hcut _ _ _ =>
    -- the first line of the group is whole, or its first piece is a chunk
    obtain ⟨rfl, -⟩ := List.cons.inj hls
    intro d hd
    cases ps with
    | nil =>
      obtain rfl := Option.some.inj hd
      obtain rfl : k = last := hcut.whole
      rw [firstLine_append hk]
      exact Nat.min_le_right _ _
    | cons p ps =>
      -- the first chunk is a piece, with no newline and of the greatest length
      obtain rfl := Option.some.inj hd
      have hline := ((hcut.starts hk).1 p List.mem_cons_self).2
      have hp := firstLine_append hline []
      rw [continued, List.flatMap_nil, List.append_nil] at hp
      rw [hp, (hcut.full p List.mem_cons_self).2]
      exact Nat.min_le_left _ _

/-- A chunk has no room for the line that the next chunk begins with. -/
theorem Packed.greedy {max : Nat} {ls chunks : List (List Char)} (h : Packed max ls chunks)
    (hls : ∀ l ∈ ls, '\n' ∉ l) :
    chunks.IsChain fun c d => max < c.length + 1 + (firstLine d).length := by
  induction h with
  | nil => exact .nil
  | blank _ ih => exact ih fun k hk => hls k (List.mem_cons_of_mem _ hk)
  | @chunk l last ps more rest chunks hcut _ hfull h ih =>
    have hrest : ∀ k ∈ rest, '\n' ∉ k := fun k hk =>
      hls k (List.mem_cons_of_mem _ (List.mem_append_right _ hk))
    have hchunk : ((last ++ continued more) :: chunks).IsChain fun c d =>
        max < c.length + 1 + (firstLine d).length := by
      refine List.isChain_cons.mpr ⟨?_, ih hrest⟩
      -- the next chunk begins with a line for which there was no room
      intro d hd
      cases rest with
      | nil => cases h; cases hd
      | cons k ks =>
        have hroom := hfull k rfl
        have hfirst := h.length_firstLine (hrest k List.mem_cons_self) d hd
        omega
    have hps := hcut.full
    clear hcut
    induction ps with
    | nil => exact hchunk
    | cons p ps ihps =>
      -- a piece of the greatest length has no room for anything
      refine List.isChain_cons.mpr ⟨?_, ihps fun q hq => hps q (List.mem_cons_of_mem _ hq)⟩
      intro d _
      have hp := (hps p List.mem_cons_self).2
      omega

/-- Where a text is cut into chunks. -/
structure Tight (max : Nat) (text : List Char) (chunks : List (List Char)) : Prop where
  kept : ∀ before l after, text = before ++ l ++ after → IsLine before l after → l ≠ [] →
    l.length ≤ max → Kept chunks before l after
  cutUp : ∀ before l after, text = before ++ l ++ after → IsLine before l after →
    max < l.length → CutUp max chunks before l after
  greedy : chunks.IsChain fun c d => max < c.length + 1 + (firstLine d).length

/-- A text that is too long is cut only where it must be. -/
theorem split_tight {max : Nat} (hmax : 0 < max) {text : List Char} (hlong : max < text.length) :
    Tight max text (split max text) := by
  have hpacked : Packed max (lines text) (split max text) := split_packed hlong
  refine ⟨?_, ?_, ?_⟩
  · rintro before l after rfl hline hl hlength
    obtain ⟨us, vs, hlines, rfl, rfl⟩ := hline.exists_lines
    rw [hlines] at hpacked
    exact hpacked.kept hl hlength
  · rintro before l after rfl hline hlength
    obtain ⟨us, vs, hlines, rfl, rfl⟩ := hline.exists_lines
    rw [hlines] at hpacked
    exact hpacked.cutUp hmax hlength
  · obtain ⟨l, ls, hlines, -, hnewline⟩ := lines_spec text
    exact hpacked.greedy (hlines ▸ hnewline)

/-- A line that is too long behind a short one, and a line that has room behind what is left of it. -/
theorem split_tight_mixed :
    0 < 4 ∧ 4 < "a\nbcdefg\ni\n\nj".toList.length ∧
      Tight 4 "a\nbcdefg\ni\n\nj".toList
        ["a".toList, "bcde".toList, "fg\ni".toList, "j".toList] := by
  have hsplit : split 4 "a\nbcdefg\ni\n\nj".toList =
      ["a".toList, "bcde".toList, "fg\ni".toList, "j".toList] := by decide +kernel
  have hmax : 0 < 4 := by decide
  have hlong : 4 < "a\nbcdefg\ni\n\nj".toList.length := by decide
  exact ⟨hmax, hlong, hsplit ▸ split_tight hmax hlong⟩

end Courier.Chunk
