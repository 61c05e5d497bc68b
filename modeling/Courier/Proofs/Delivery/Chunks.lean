import Courier.Chunk
import Courier.Text.Blank
import Mathlib.Data.List.Basic

/-!
The chunks of a text, in the text.

`Chunk.Packed` says which chunks lines are packed into, chunk by chunk: a chunk holds as many lines
as have room in it.  `Chunk.Woven` says how chunks lie in a text: between them there are newlines,
and a chunk with no newline behind it is a piece of a line that is too long.  `Chunk.cuts` are the
places between two chunks.

The splitter fills a chunk line by line, so what it does is first brought to two rules: how a line
is packed behind an empty chunk (`Chunk.pack_nil_cons`) and behind one that is being filled
(`Chunk.pack_cons`).  From these it is shown by induction on the lines that packing is greedy
(`Chunk.pack_packed`); the statement speaks of a chunk that is being filled as well, since the
induction passes through one.  That packed lines are woven into their text is then a fact about the
two relations and not about the splitter (`Chunk.Packed.woven`).

Everything holds for every bound, zero included, where pieces are never cut.

Main statements: the lines of a text that is too long are packed (`Chunk.split_packed`), its chunks
are woven into it (`Chunk.split_woven`), and a text is cut before newlines and within lines that are
too long only (`Chunk.split_allowed`).
-/

namespace Courier.Chunk

/-! ### Chunks in a text -/

/-- The text begins with a character other than a newline. -/
def Starts (cs : List Char) : Prop := ∃ c rest, cs = c :: rest ∧ c ≠ '\n'

/-- Where a chunk ends: at the end of the text or of a line, or, if it is a piece of the greatest
length, within a line that goes on. -/
inductive Ending (max : Nat) (c : List Char) : List Char → Prop
  | text : Ending max c []
  | line {rest : List Char} : Ending max c ('\n' :: rest)
  | piece {rest : List Char} (hlength : c.length = max) (hline : '\n' ∉ c) (hgoes : Starts rest) :
      Ending max c rest

/-- How chunks lie in a text: each begins behind the newlines that follow the one before it. -/
inductive Woven (max : Nat) : List (List Char) → List Char → Prop
  | nil : Woven max [] []
  | newline {chunks : List (List Char)} {text : List Char} (h : Woven max chunks text) :
      Woven max chunks ('\n' :: text)
  | chunk {c : List Char} {chunks : List (List Char)} {text : List Char} (hc : Starts c)
      (hends : Ending max c text) (h : Woven max chunks text) : Woven max (c :: chunks) (c ++ text)

/-! ### Lines -/

/-- Lines, each behind a newline. -/
def continued (lines : List (List Char)) : List Char := lines.flatMap fun l => '\n' :: l

theorem continued_cons (l : List Char) (lines : List (List Char)) :
    continued (l :: lines) = '\n' :: (l ++ continued lines) := rfl

theorem continued_append (ls ks : List (List Char)) :
    continued (ls ++ ks) = continued ls ++ continued ks := by
  simp [continued]

theorem continued_ends (lines : List (List Char)) :
    continued lines = [] ∨ ∃ rest, continued lines = '\n' :: rest := by
  cases lines with
  | nil => exact .inl rfl
  | cons l lines => exact .inr ⟨_, continued_cons l lines⟩

/-- A text is its lines with newlines between them. -/
theorem lines_spec (cs : List Char) :
    ∃ l ls, lines cs = l :: ls ∧ cs = l ++ continued ls ∧ ∀ k ∈ l :: ls, '\n' ∉ k := by
  -- by induction on the characters: a newline begins a line, and any other is put in front of the
  -- first
  induction cs with
  | nil =>
    refine ⟨[], [], rfl, rfl, ?_⟩
    intro k hk
    rw [List.mem_singleton.mp hk]
    exact List.not_mem_nil
  | cons c cs ih =>
    obtain ⟨l, ls, hlines, hcs, hnewline⟩ := ih
    by_cases hc : c = '\n'
    · refine ⟨[], l :: ls, ?_, ?_, ?_⟩
      · rw [lines, if_pos hc, hlines]
      · rw [continued_cons, ← hcs, hc, List.nil_append]
      · intro k hk
        rcases List.mem_cons.mp hk with rfl | hk
        · exact List.not_mem_nil
        · exact hnewline k hk
    · refine ⟨c :: l, ls, ?_, ?_, ?_⟩
      · rw [lines, if_neg hc, hlines]
      · rw [hcs, List.cons_append]
      · intro k hk
        rcases List.mem_cons.mp hk with rfl | hk
        · rw [List.mem_cons, not_or]
          exact ⟨Ne.symm hc, hnewline l List.mem_cons_self⟩
        · exact hnewline k (List.mem_cons_of_mem _ hk)

/-- A text behind a newline is its lines, each behind one. -/
theorem continued_lines (cs : List Char) : continued (lines cs) = '\n' :: cs := by
  obtain ⟨l, ls, hlines, hcs, -⟩ := lines_spec cs
  rw [hlines, continued_cons, ← hcs]

/-- A stretch without newlines at the beginning of a text lies in its first line. -/
theorem prefix_line {s l rest : List Char} (hs : '\n' ∉ s)
    (hends : rest = [] ∨ ∃ r, rest = '\n' :: r) (h : s <+: l ++ rest) : s <+: l := by
  rcases List.prefix_or_prefix_of_prefix h (List.prefix_append l rest) with hle | ⟨more, rfl⟩
  · exact hle
  · have hmore : more <+: rest := (List.prefix_append_right_inj l).mp h
    cases more with
    | nil => exact ⟨[], by simp⟩
    | cons c more =>
      -- what goes beyond the line would begin with its newline
      rcases hends with rfl | ⟨r, rfl⟩
      · cases List.prefix_nil.mp hmore
      · obtain ⟨rfl, -⟩ := List.cons_prefix_cons.mp hmore
        exact absurd (List.mem_append_right _ List.mem_cons_self) hs

/-- A stretch without newlines lies in one line. -/
theorem exists_line_of_infix {s cs : List Char} (hs : '\n' ∉ s) (h : s <:+: cs) :
    ∃ l ∈ lines cs, s <:+: l := by
  induction cs with
  | nil => exact ⟨[], List.mem_cons_self, h⟩
  | cons c cs ih =>
    -- the stretch begins with the first character, or it lies in what follows
    rcases List.infix_cons_iff.mp h with hprefix | hinfix
    · obtain ⟨l, ls, hlines, hcs, -⟩ := lines_spec (c :: cs)
      rw [hcs] at hprefix
      have hl : s <+: l := prefix_line hs (continued_ends ls) hprefix
      exact ⟨l, hlines ▸ List.mem_cons_self, hl.isInfix⟩
    · obtain ⟨k, hk, hsk⟩ := ih hinfix
      by_cases hc : c = '\n'
      · refine ⟨k, ?_, hsk⟩
        rw [lines, if_pos hc]
        exact List.mem_cons_of_mem _ hk
      · obtain ⟨l, ls, hlines, -, -⟩ := lines_spec cs
        have hstep : lines (c :: cs) = (c :: l) :: ls := by
          rw [lines, if_neg hc, hlines]
        rw [hlines] at hk
        rw [hstep]
        rcases List.mem_cons.mp hk with rfl | hk
        · exact ⟨c :: k, List.mem_cons_self, List.infix_cons hsk⟩
        · exact ⟨k, List.mem_cons_of_mem _ hk, hsk⟩

/-! ### Packing -/

theorem starts_of_line {l : List Char} (hl : '\n' ∉ l) (hne : l ≠ []) : Starts l := by
  cases l with
  | nil => exact absurd rfl hne
  | cons c l =>
    refine ⟨c, l, rfl, ?_⟩
    rintro rfl
    exact hl List.mem_cons_self

theorem Starts.append {c : List Char} (hc : Starts c) (text : List Char) : Starts (c ++ text) := by
  obtain ⟨d, rest, rfl, hd⟩ := hc
  exact ⟨d, rest ++ text, rfl, hd⟩

/-- A line at the beginning of a chunk is packed piece by piece. -/
theorem pack_nil_cons (max : Nat) (l : List Char) (ls : List (List Char)) :
    pack max [] (l :: ls) =
      (pieces max l).dropLast ++ pack max ((pieces max l).getLastD []) ls := by
  rw [pack]
  split_ifs with hl h
  · rfl
  · have hpieces : pieces max l = [l] := by
      unfold pieces
      rw [if_pos (.inr (by simpa using hl))]
    rw [hpieces]
    rfl
  · exact absurd rfl h
  · exact absurd rfl h

/-- A line is packed behind the chunk that is being filled if there is room, else it begins the next
chunk. -/
theorem pack_cons (max : Nat) (current l : List Char) (ls : List (List Char)) :
    pack max current (l :: ls) =
      if current ≠ [] ∧ current.length + 1 + l.length ≤ max then
        pack max (current ++ '\n' :: l) ls
      else flush current ++ pack max [] (l :: ls) := by
  -- there is room behind a chunk only if it has something in it
  by_cases hroom : current ≠ [] ∧ current.length + 1 + l.length ≤ max
  · have hl : ¬ l.length > max := by omega
    have hempty : ¬ current.isEmpty = true := by simpa using hroom.1
    rw [if_pos hroom, pack, if_neg hl, if_neg hempty, if_neg (Nat.not_lt.mpr hroom.2)]
  · rw [if_neg hroom]
    by_cases hl : l.length > max
    · rw [pack_nil_cons, pack, if_pos hl, List.append_assoc]
    · by_cases hempty : current = []
      · subst hempty
        rfl
      · have hfull : current.length + 1 + l.length > max := by
          by_contra hle
          exact hroom ⟨hempty, Nat.not_lt.mp hle⟩
        simp [pack, hl, hempty, hfull, flush]

/-- A line that begins a chunk, in pieces of the greatest length and what is left of it. -/
structure Cut (max : Nat) (l : List Char) (ps : List (List Char)) (last : List Char) : Prop where
  whole : l = ps.flatten ++ last
  full : ∀ p ∈ ps, 0 < max ∧ p.length = max
  last_ne_nil : last ≠ []
  last_length_le : 0 < max → last.length ≤ max

/-- Lines packed into chunks: lines without characters are dropped before a chunk; a line that begins
a chunk is cut if it is too long; behind what is left of it come the lines that have room, and the
line after them has none. -/
inductive Packed (max : Nat) : List (List Char) → List (List Char) → Prop
  | nil : Packed max [] []
  | blank {ls chunks : List (List Char)} (h : Packed max ls chunks) : Packed max ([] :: ls) chunks
  | chunk {l last : List Char} {ps more rest chunks : List (List Char)} (hcut : Cut max l ps last)
      (hfits : 0 < max → (last ++ continued more).length ≤ max)
      (hfull : ∀ k ∈ rest.head?, max < (last ++ continued more).length + 1 + k.length)
      (h : Packed max rest chunks) :
      Packed max (l :: (more ++ rest)) (ps ++ (last ++ continued more) :: chunks)

/-- The text of packed lines, by chunks. -/
theorem Cut.continued_eq {max : Nat} {l last : List Char} {ps : List (List Char)}
    (h : Cut max l ps last) (more rest : List (List Char)) :
    continued (l :: (more ++ rest)) =
      '\n' :: (ps.flatten ++ ((last ++ continued more) ++ continued rest)) := by
  rw [continued_cons, continued_append, h.whole]
  simp

theorem exists_cut (max : Nat) {l : List Char} (hl : l ≠ []) :
    ∃ ps last, pieces max l = ps ++ [last] ∧ Cut max l ps last := by
  -- as pieces are taken off
  induction l using pieces.induct max with
  | case1 l hlast =>
    refine ⟨[], l, ?_, rfl, ?_, hl, ?_⟩
    · rw [pieces, if_pos hlast, List.nil_append]
    · intro p hp
      cases hp
    · intro hmax
      have hdrop : (l.drop max).isEmpty = true := hlast.resolve_left (Nat.ne_of_gt hmax)
      exact List.drop_eq_nil_iff.mp (List.isEmpty_iff.mp hdrop)
  | case2 l hmore ih =>
    obtain ⟨hmax, hdrop⟩ := not_or.mp hmore
    have hrest : l.drop max ≠ [] := by simpa using hdrop
    obtain ⟨ps, last, hpieces, hcut⟩ := ih hrest
    refine ⟨l.take max :: ps, last, ?_, ?_, ?_, hcut.last_ne_nil, hcut.last_length_le⟩
    · rw [pieces, if_neg hmore, hpieces, List.cons_append]
    · rw [List.flatten_cons, List.append_assoc, ← hcut.whole, List.take_append_drop]
    · intro p hp
      rcases List.mem_cons.mp hp with rfl | hp
      · refine ⟨Nat.pos_of_ne_zero hmax, ?_⟩
        rw [List.length_take, Nat.min_eq_left]
        by_contra hshort
        exact hrest (List.drop_eq_nil_of_le (Nat.le_of_not_le hshort))
      · exact hcut.full p hp

/-- Packing is greedy, also behind a chunk that is being filled. -/
theorem pack_packed (max : Nat) (ls : List (List Char)) :
    Packed max ls (pack max [] ls) ∧
      ∀ l ps last more, Cut max l ps last →
        (0 < max → (last ++ continued more).length ≤ max) →
        Packed max (l :: (more ++ ls)) (ps ++ pack max (last ++ continued more) ls) := by
  -- by induction on the lines, for every chunk that is being filled
  induction ls with
  | nil =>
    refine ⟨.nil, ?_⟩
    intro l ps last more hcut hfits
    have hne : last ++ continued more ≠ [] := List.append_ne_nil_of_left_ne_nil hcut.last_ne_nil _
    have hpack : pack max (last ++ continued more) [] = [last ++ continued more] := by
      rw [pack, flush, if_neg (by simpa using hne)]
    rw [hpack]
    exact .chunk hcut hfits (by simp) .nil
  | cons k ks ih =>
    obtain ⟨ihnew, ihgoes⟩ := ih
    have hnew : Packed max (k :: ks) (pack max [] (k :: ks)) := by
      rw [pack_nil_cons]
      by_cases hk : k = []
      · subst hk
        have hpieces : pieces max [] = [[]] := by
          rw [pieces, if_pos (.inr (by simp))]
        rw [hpieces]
        exact .blank ihnew
      · obtain ⟨ps, last, hpieces, hcut⟩ := exists_cut max hk
        have hgoes := ihgoes k ps last [] hcut (by simpa [continued] using hcut.last_length_le)
        simpa [hpieces, continued] using hgoes
    -- and behind a chunk that is being filled
    refine ⟨hnew, ?_⟩
    intro l ps last more hcut hfits
    have hne : last ++ continued more ≠ [] := List.append_ne_nil_of_left_ne_nil hcut.last_ne_nil _
    rw [pack_cons]
    split_ifs with hroom
    · have hmore : last ++ continued (more ++ [k]) = last ++ continued more ++ '\n' :: k := by
        simp [continued]
      have hlength : (last ++ continued (more ++ [k])).length ≤ max := by
        have hr := hroom.2
        rw [hmore, List.length_append, List.length_cons]
        omega
      have hgoes := ihgoes l ps last (more ++ [k]) hcut fun _ => hlength
      rw [hmore] at hgoes
      simpa using hgoes
    · have hfull : ∀ j ∈ (k :: ks).head?, max < (last ++ continued more).length + 1 + j.length := by
        intro j hj
        obtain rfl := Option.some.inj hj
        by_contra hle
        exact hroom ⟨hne, Nat.le_of_not_lt hle⟩
      rw [flush, if_neg (by simpa using hne)]
      exact .chunk hcut hfits hfull hnew

/-- The lines of a text that is too long are packed. -/
theorem split_packed {max : Nat} {cs : List Char} (h : max < cs.length) :
    Packed max (lines cs) (split max cs) := by
  rw [split, if_neg (Nat.not_le.mpr h)]
  exact (pack_packed max (lines cs)).1

/-! ### Packed lines in their text -/

theorem Cut.starts {max : Nat} {l last : List Char} {ps : List (List Char)} (h : Cut max l ps last)
    (hl : '\n' ∉ l) : (∀ p ∈ ps, Starts p ∧ '\n' ∉ p) ∧ Starts last := by
  have hwhole := h.whole
  subst hwhole
  rw [List.mem_append, not_or] at hl
  refine ⟨?_, starts_of_line hl.2 h.last_ne_nil⟩
  intro p hp
  have hline : '\n' ∉ p := fun hmem => hl.1 (List.mem_flatten.mpr ⟨p, hp, hmem⟩)
  obtain ⟨hmax, hlength⟩ := h.full p hp
  exact ⟨starts_of_line hline (List.ne_nil_of_length_pos (hlength ▸ hmax)), hline⟩

/-- Pieces of a line that goes on are chunks. -/
theorem Woven.pieces {max : Nat} {ps chunks : List (List Char)} {text : List Char}
    (hps : ∀ p ∈ ps, p.length = max ∧ Starts p ∧ '\n' ∉ p) (htext : Starts text)
    (h : Woven max chunks text) :
    Woven max (ps ++ chunks) (ps.flatten ++ text) ∧ Starts (ps.flatten ++ text) := by
  induction ps with
  | nil => exact ⟨h, htext⟩
  | cons p ps ih =>
    obtain ⟨hlength, hstarts, hline⟩ := hps p List.mem_cons_self
    obtain ⟨hwoven, hgoes⟩ := ih fun q hq => hps q (List.mem_cons_of_mem _ hq)
    rw [List.flatten_cons, List.append_assoc]
    exact ⟨.chunk hstarts (.piece hlength hline hgoes) hwoven, hstarts.append _⟩

/-- Packed lines are woven into their text. -/
theorem Packed.woven {max : Nat} {ls chunks : List (List Char)} (h : Packed max ls chunks)
    (hls : ∀ l ∈ ls, '\n' ∉ l) : Woven max chunks (continued ls) := by
  -- as the lines are packed
  induction h with
  | nil => exact .nil
  | blank _ ih => exact .newline (ih fun k hk => hls k (List.mem_cons_of_mem _ hk))
  | @chunk l last ps more rest chunks hcut _ _ _ ih =>
    obtain ⟨hps, hlast⟩ := hcut.starts (hls l List.mem_cons_self)
    have hrest : Woven max chunks (continued rest) :=
      ih fun k hk => hls k (List.mem_cons_of_mem _ (List.mem_append_right _ hk))
    have hends : Ending max (last ++ continued more) (continued rest) := by
      rcases continued_ends rest with hnil | ⟨after, hafter⟩
      · rw [hnil]
        exact .text
      · rw [hafter]
        exact .line
    have hchunk : Woven max ((last ++ continued more) :: chunks)
        ((last ++ continued more) ++ continued rest) := .chunk (hlast.append _) hends hrest
    rw [hcut.continued_eq]
    refine .newline (Woven.pieces ?_ ((hlast.append _).append _) hchunk).1
    intro p hp
    exact ⟨(hcut.full p hp).2, hps p hp⟩

theorem Woven.of_newline {max : Nat} {chunks : List (List Char)} {text : List Char}
    (h : Woven max chunks ('\n' :: text)) : Woven max chunks text := by
  generalize hx : '\n' :: text = x at h
  cases h with
  | nil => cases hx
  | newline h =>
    obtain ⟨-, rfl⟩ := List.cons.inj hx
    exact h
  | chunk hc _ _ =>
    obtain ⟨d, rest, rfl, hd⟩ := hc
    exact absurd (List.cons.inj hx).1.symm hd

/-- The chunks of a text that is too long are woven into it. -/
theorem split_woven {max : Nat} {cs : List Char} (h : max < cs.length) :
    Woven max (split max cs) cs := by
  obtain ⟨l, ls, hlines, -, hnewline⟩ := lines_spec cs
  have hwoven := (split_packed h).woven (hlines ▸ hnewline)
  rw [continued_lines] at hwoven
  exact hwoven.of_newline

theorem lines_of_not_mem {l : List Char} (hl : '\n' ∉ l) : lines l = [l] := by
  obtain ⟨k, ks, hlines, htext, -⟩ := lines_spec l
  cases ks with
  | nil =>
    rw [hlines, htext]
    simp [continued]
  | cons k' ks =>
    rw [htext, continued_cons] at hl
    simp at hl

/-- A line of two pieces. -/
theorem split_of_pieces {max : Nat} {first rest : List Char} (hline : '\n' ∉ first ++ rest)
    (hfirst : first.length = max) (hne : rest ≠ []) (hrest : rest.length ≤ max) :
    split max (first ++ rest) = [first, rest] := by
  have hpos : 0 < rest.length := List.length_pos_of_ne_nil hne
  have hlong : ¬ (first ++ rest).length ≤ max := by
    rw [List.length_append]
    omega
  have htake : (first ++ rest).take max = first := by rw [← hfirst, List.take_left]
  have hdrop : (first ++ rest).drop max = rest := by rw [← hfirst, List.drop_left]
  have hmore : ¬ (max = 0 ∨ ((first ++ rest).drop max).isEmpty = true) := by
    rw [hdrop, List.isEmpty_iff]
    rintro (hmax | hnil)
    · omega
    · exact hne hnil
  have hlast : pieces max rest = [rest] := by
    rw [pieces, if_pos (.inr (by simpa using hrest))]
  have hpieces : pieces max (first ++ rest) = [first, rest] := by
    rw [pieces, if_neg hmore, htake, hdrop, hlast]
  rw [split, if_neg hlong, lines_of_not_mem hline, pack_nil_cons, hpieces]
  show [first] ++ flush rest = [first, rest]
  rw [flush, if_neg (by simpa using hne)]
  rfl

theorem Woven.blank {max : Nat} {text : List Char} (h : Woven max [] text) :
    text.all Text.isBlank = true := by
  generalize hchunks : [] = chunks at h
  induction h with
  | nil => rfl
  | newline _ ih => exact ih hchunks
  | chunk _ _ _ => cases hchunks

/-- A text that is not blank has chunks. -/
theorem split_ne_nil {max : Nat} {text : List Char} (h : text.all Text.isBlank = false) :
    split max text ≠ [] := by
  intro hnil
  by_cases hlong : max < text.length
  · have hwoven := split_woven hlong
    rw [hnil] at hwoven
    rw [hwoven.blank] at h
    cases h
  · rw [split, if_pos (Nat.le_of_not_lt hlong)] at hnil
    cases hnil

/-! ### Places between chunks -/

/-- The places at which a text is cut into chunks: for every chunk but the last, the text up to its end
and the text that follows. -/
def cuts : List (List Char) → List Char → List (List Char × List Char)
  | c :: c' :: chunks, text =>
    let n := (text.takeWhile (· = '\n')).length + c.length
    (text.take n, text.drop n) ::
      (cuts (c' :: chunks) (text.drop n)).map fun p => (text.take n ++ p.1, p.2)
  | _, _ => []

theorem cuts_newline (chunks : List (List Char)) (text : List Char) :
    cuts chunks ('\n' :: text) = (cuts chunks text).map fun p => ('\n' :: p.1, p.2) := by
  match chunks with
  | [] => rfl
  | [c] => rfl
  | c :: c' :: chunks =>
    have hn : ((('\n' :: text).takeWhile (· = '\n')).length + c.length) =
        (text.takeWhile (· = '\n')).length + c.length + 1 := by
      simp
      omega
    simp only [cuts, hn, List.take_succ_cons, List.drop_succ_cons, List.map_cons, List.map_map]
    rfl

theorem cuts_append {c : List Char} (hc : Starts c) (c' : List Char) (chunks : List (List Char))
    (text : List Char) :
    cuts (c :: c' :: chunks) (c ++ text) =
      (c, text) :: (cuts (c' :: chunks) text).map fun p => (c ++ p.1, p.2) := by
  obtain ⟨d, rest, rfl, hd⟩ := hc
  have hn : ((d :: rest ++ text).takeWhile (· = '\n')).length + (d :: rest).length =
      (d :: rest).length := by
    simp [hd]
  simp only [cuts, hn, List.take_left, List.drop_left]

theorem Woven.ne_nil {max : Nat} {c : List Char} {chunks : List (List Char)} {text : List Char}
    (h : Woven max (c :: chunks) text) : text ≠ [] := by
  cases h with
  | newline _ => exact List.cons_ne_nil _ _
  | chunk hc _ _ =>
    obtain ⟨d, rest, rfl, -⟩ := hc
    exact List.cons_ne_nil _ _

/-- Whether a cut falls into a line that is too long: it is behind a piece of the greatest length, and
the line goes on. -/
def Hard (max : Nat) (cut : List Char × List Char) : Prop :=
  ∃ piece, piece <:+ cut.1 ∧ piece.length = max ∧ '\n' ∉ piece ∧ Starts cut.2

/-- A place at which a text may be cut: before a newline, or within a line that is too long. -/
structure Allowed (max : Nat) (text : List Char) (cut : List Char × List Char) : Prop where
  whole : text = cut.1 ++ cut.2
  place : (∃ rest, cut.2 = '\n' :: rest) ∨ Hard max cut

theorem Allowed.append {max : Nat} {text : List Char} {p : List Char × List Char}
    (h : Allowed max text p) (x : List Char) : Allowed max (x ++ text) (x ++ p.1, p.2) where
  whole := by rw [h.whole, List.append_assoc]
  place := by
    rcases h.place with hnewline | ⟨piece, hpiece, hlength, hline, hgoes⟩
    · exact .inl hnewline
    · exact .inr ⟨piece, hpiece.trans (List.suffix_append x p.1), hlength, hline, hgoes⟩

/-- A text is cut before newlines and within lines that are too long only. -/
theorem Woven.allowed {max : Nat} {chunks : List (List Char)} {text : List Char}
    (h : Woven max chunks text) : ∀ p ∈ cuts chunks text, Allowed max text p := by
  -- as the chunks are woven
  induction h with
  | nil =>
    intro p hp
    cases hp
  | newline _ ih =>
    intro p hp
    rw [cuts_newline] at hp
    obtain ⟨q, hq, rfl⟩ := List.mem_map.mp hp
    exact (ih q hq).append ['\n']
  | @chunk c chunks text hc hends h ih =>
    intro p hp
    cases chunks with
    | nil => cases hp
    | cons c' chunks =>
      rw [cuts_append hc] at hp
      -- the cut behind the first chunk, and the later ones
      rcases List.mem_cons.mp hp with rfl | hp
      · refine ⟨rfl, ?_⟩
        cases hends with
        | text => exact absurd rfl h.ne_nil
        | line => exact .inl ⟨_, rfl⟩
        | piece hlength hline hgoes => exact .inr ⟨c, List.suffix_rfl, hlength, hline, hgoes⟩
      · obtain ⟨q, hq, rfl⟩ := List.mem_map.mp hp
        exact (ih q hq).append c

/-- Any text is cut there only. -/
theorem split_allowed (max : Nat) (text : List Char) :
    ∀ p ∈ cuts (split max text) text, Allowed max text p := by
  by_cases hlong : max < text.length
  · exact (split_woven hlong).allowed
  · rw [split, if_pos (Nat.le_of_not_lt hlong)]
    intro p hp
    cases hp

/-- A line that is cut is too long. -/
theorem Hard.exists_line {max : Nat} {p : List Char × List Char} (h : Hard max p) :
    ∃ l ∈ lines (p.1 ++ p.2), max < l.length := by
  obtain ⟨piece, ⟨before, hbefore⟩, rfl, hline, d, rest, hrest, hd⟩ := h
  have hstretch : '\n' ∉ piece ++ [d] := by
    rw [List.mem_append, not_or, List.mem_singleton]
    exact ⟨hline, Ne.symm hd⟩
  have hinfix : piece ++ [d] <:+: p.1 ++ p.2 := ⟨before, rest, by rw [hrest, ← hbefore]; simp⟩
  obtain ⟨l, hl, hin⟩ := exists_line_of_infix hstretch hinfix
  have hlength := hin.length_le
  rw [List.length_append, List.length_singleton] at hlength
  exact ⟨l, hl, hlength⟩

end Courier.Chunk
