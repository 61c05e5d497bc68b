import Courier.Proofs.Json.Reread

/-!
The balance of JSON texts.

A text is JSON if its tokens complete a document and nothing follows (`IsJson`).  Two things are
balanced in it.  Every bracket is closed, so from where `n` containers are open the rest of the text
closes `n` more than it opens (`Completes.depth_add_level`); and every string is closed, so no text
can be read to its end both from inside a string and from outside of one (`not_whole_of_opposite`).

The first is an invariant of the parser, step by step: what a token adds to the level it adds to the
stack (`depth_step`).  A colon stands inside an object, so the rest of the text has a level below
zero (`level_lt_of_colon`), and a whole JSON text has level zero.

The second is about the scanner.  A character outside of strings keeps the scanner there, or opens a
string, or is a colon (`scan_outside`), and one inside of strings leads on or out of it
(`scan_inString`); all else breaks the text.  Two scans of one text, the one outside and the other
one inside, change places at every quote, so one of them ends inside of a string.

Main statement: a JSON text never ends with a colon and a whole JSON text, or with a colon and
nothing (`not_isJson_colon`), since a colon stands either in a string or inside an object.
-/

namespace Courier.Json

/-! ### Texts that are JSON -/

/-- Whether tokens complete the document whose containers are open. -/
def Completes (e : Expected) (stack : List Frame) (ts : List Token) : Prop :=
  (Document.read e stack ts).2 = false ∧ (Document.read e stack ts).1.skip = none

instance (e : Expected) (stack : List Frame) (ts : List Token) : Decidable (Completes e stack ts) :=
  inferInstanceAs (Decidable (_ ∧ _))

/-- Whether a text is one JSON document.  It may be nested as deeply as it likes, and its strings
and numbers need not denote anything. -/
def IsJson (text : String) : Prop := Completes .value [] (tokens text.toList)

instance (text : String) : Decidable (IsJson text) := inferInstanceAs (Decidable (Completes ..))

theorem skip_of_values {ds : List Document} {room : ℕ} {vs : List Value}
    (h : Document.value.values room ds = .ok vs)
    (hskip : ∀ d ∈ ds, ∀ v, d.value room = .ok v → d.skip = none) :
    Document.skip.skipItems ds = none := by
  induction ds generalizing vs with
  | nil => rfl
  | cons d ds ih =>
    obtain ⟨hd, hds⟩ := List.forall_mem_cons.mp hskip
    rw [Document.value.values] at h
    obtain ⟨v, hv, h⟩ := bind_eq_ok.mp h
    obtain ⟨rest, hrest, -⟩ := bind_eq_ok.mp h
    rw [Document.skip.skipItems, hd v hv, ih hrest hds, Option.or_none]

theorem skip_of_valueMembers {ms : List (List Piece × Document)} {room : ℕ}
    {vs : List (String × Value)} (h : Document.value.valueMembers room ms = .ok vs)
    (hskip : ∀ m ∈ ms, ∀ v, m.2.value room = .ok v → m.2.skip = none) :
    Document.skip.skipMembers ms = none := by
  induction ms generalizing vs with
  | nil => rfl
  | cons m ms ih =>
    obtain ⟨hm, hms⟩ := List.forall_mem_cons.mp hskip
    rw [Document.value.valueMembers] at h
    obtain ⟨_, -, h⟩ := bind_eq_ok.mp h
    obtain ⟨v, hv, h⟩ := bind_eq_ok.mp h
    obtain ⟨rest, hrest, -⟩ := bind_eq_ok.mp h
    rw [Document.skip.skipMembers, hm v hv, ih hrest hms, Option.or_none]

theorem stop_of_orFail {stop : Option Break} {u : Unit}
    (h : orFail (stop.map fun b => b.reason.error) = .ok u) : stop = none := by
  rcases stop with - | b
  · rfl
  · cases h

/-- What has a value can be passed over. -/
theorem skip_of_value {d : Document} {room : ℕ} {v : Value} (h : d.value room = .ok v) :
    d.skip = none := by
  induction d using Document.induction generalizing room v with
  | array ds stop ih =>
    unfold Document.value at h
    obtain ⟨_, -, h⟩ := bind_eq_ok.mp h
    obtain ⟨vs, hvs, h⟩ := bind_eq_ok.mp h
    obtain ⟨_, hstop, -⟩ := bind_eq_ok.mp h
    rw [Document.skip, skip_of_values hvs fun d hd v hv => ih d hd hv, stop_of_orFail hstop]
    rfl
  | object ms stop ih =>
    unfold Document.value at h
    obtain ⟨_, -, h⟩ := bind_eq_ok.mp h
    obtain ⟨vs, hvs, h⟩ := bind_eq_ok.mp h
    obtain ⟨_, hstop, -⟩ := bind_eq_ok.mp h
    rw [Document.skip, skip_of_valueMembers hvs fun m hm v hv => ih m hm hv, stop_of_orFail hstop]
    rfl
  | broken b => cases h
  | _ => rfl

/-- A text that says something is JSON. -/
theorem isJson_of_parse {t : String} {v : Value} (h : parse t = .ok v) : IsJson t := by
  rcases hread : Document.ofText t with ⟨d, more⟩
  rw [parse, Read.text, hread] at h
  obtain ⟨w, hw, h⟩ := bind_eq_ok.mp h
  cases more with
  | true => cases h
  | false =>
    rw [IsJson, Completes]
    rw [Document.ofText] at hread
    rw [hread]
    exact ⟨rfl, skip_of_value hw⟩

/-- The text of a value whose numbers can be read back is JSON. -/
theorem isJson_text {v : Value} (h : v.Numbers Number.Legible) : IsJson v.text := by
  have htext := (spells_of_legible h).ofText
  rw [Document.ofText, String.toList_ofList] at htext
  rw [IsJson, Value.text, String.toList_ofList, Completes, htext]
  exact ⟨rfl, skip_document v⟩

/-! ### Brackets -/

/-- How many containers a token opens. -/
def Token.turn : Token → ℤ
  | .openArray | .openObject => 1
  | .closeArray | .closeObject => -1
  | _ => 0

/-- How many containers more some tokens open than they close. -/
def level : List Token → ℤ
  | [] => 0
  | t :: ts => t.turn + level ts

/-- How many containers are open. -/
def Expected.depth (e : Expected) (stack : List Frame) : ℤ :=
  match e with
  | .firstItem | .firstKey | .nextKey _ => stack.length + 1
  | .value | .colon | .comma _ => stack.length

theorem skipItems_ne_none {ds : List Document} {d : Document} (hd : d ∈ ds) (h : d.skip ≠ none) :
    Document.skip.skipItems ds ≠ none := by
  induction hd with
  | head ds => simp [Document.skip.skipItems, h]
  | tail e _ ih => simp [Document.skip.skipItems, ih]

theorem skipMembers_ne_none {ms : List (List Piece × Document)} {m : List Piece × Document}
    (hm : m ∈ ms) (h : m.2.skip ≠ none) : Document.skip.skipMembers ms ≠ none := by
  induction hm with
  | head ms => simp [Document.skip.skipMembers, h]
  | tail e _ ih => simp [Document.skip.skipMembers, ih]

/-- A fault stays one in the containers around it. -/
theorem skip_enclose_ne_none {stack : List Frame} {d : Document} (h : d.skip ≠ none) :
    (Frame.enclose stack d).skip ≠ none := by
  induction stack generalizing d with
  | nil => exact h
  | cons frame stack ih =>
    cases frame with
    | array done =>
      have hd : d ∈ (d :: done).reverse := by simp
      exact ih (by rw [Document.skip, Option.map_none, Option.or_none]; exact skipItems_ne_none hd h)
    | object done key =>
      have hm : (key, d) ∈ ((key, d) :: done).reverse := by simp
      exact ih (by rw [Document.skip, Option.map_none, Option.or_none]; exact skipMembers_ne_none hm h)

/-- A text that breaks off cannot be passed over, except behind the whole value. -/
theorem skip_halt_ne_none {e : Expected} {stack : List Frame} (b : Break)
    (h : ¬∃ d, e = .comma d ∧ stack = []) : (e.halt stack b).skip ≠ none := by
  cases e with
  | comma d =>
    rcases stack with - | ⟨done | ⟨done, key⟩, rest⟩
    · exact absurd ⟨d, rfl, rfl⟩ h
    · exact skip_enclose_ne_none (by simp [Document.skip])
    · exact skip_enclose_ne_none (by simp [Document.skip])
  | _ => exact skip_enclose_ne_none (by simp [Document.skip])

theorem completes_nil {e : Expected} {stack : List Frame} (h : Completes e stack []) :
    e.depth stack = 0 := by
  by_contra hdepth
  refine skip_halt_ne_none .atEnd ?_ h.2
  rintro ⟨d, rfl, rfl⟩
  exact hdepth rfl

/-- Every token of a document that is completed stands where it can. -/
theorem exists_step_of_completes {e : Expected} {stack : List Frame} {t : Token} {ts : List Token}
    (h : Completes e stack (t :: ts)) :
    ∃ e' stack', e.step stack t = .ok (e', stack') ∧ Completes e' stack' ts := by
  by_cases hover : ∃ d, e = .comma d ∧ stack = []
  · obtain ⟨d, rfl, rfl⟩ := hover
    exact absurd h.1 (by simp [Document.read])
  · rcases hstep : e.step stack t with b | ⟨e', stack'⟩
    · have hskip := h.2
      rw [read_cons_error hstep] at hskip
      exact absurd hskip (skip_halt_ne_none b hover)
    · refine ⟨e', stack', rfl, ?_⟩
      rwa [Completes, read_cons hstep] at h

theorem not_isBroken_of_step {e e' : Expected} {stack stack' : List Frame} {t : Token}
    (h : e.step stack t = .ok (e', stack')) : t.isBroken = false := by
  cases t with
  | brokenText b => cases e <;> rcases stack with - | ⟨_ | _, _⟩ <;> cases h
  | broken b => cases e <;> rcases stack with - | ⟨_ | _, _⟩ <;> cases h
  | _ => rfl

/-- A token opens and closes what it is to. -/
theorem depth_step {e e' : Expected} {stack stack' : List Frame} {t : Token}
    (h : e.step stack t = .ok (e', stack')) : e'.depth stack' = e.depth stack + t.turn := by
  cases e with
  | comma d =>
    rcases stack with - | ⟨done | ⟨done, key⟩, rest⟩ <;> cases t <;> cases h <;>
      simp [Expected.depth, Token.turn]
  | _ => cases t <;> cases h <;> simp [Expected.depth, Token.turn]

namespace Completes

variable {e : Expected} {stack : List Frame} {ts : List Token}

theorem whole (h : Completes e stack ts) : Whole ts := by
  induction ts generalizing e stack with
  | nil => simp [Whole]
  | cons t ts ih =>
    obtain ⟨e', stack', hstep, h⟩ := exists_step_of_completes h
    exact whole_cons.mpr ⟨not_isBroken_of_step hstep, ih h⟩

/-- What completes a document closes all that is open. -/
theorem depth_add_level (h : Completes e stack ts) : e.depth stack + level ts = 0 := by
  induction ts generalizing e stack with
  | nil => rw [completes_nil h, level, add_zero]
  | cons t ts ih =>
    obtain ⟨e', stack', hstep, h⟩ := exists_step_of_completes h
    rw [level, ← add_assoc, ← depth_step hstep, ih h]

/-- A colon stands inside an object, so what follows it closes more than it opens. -/
theorem level_lt_of_colon {us : List Token} (hcolon : e = .colon → stack ≠ [])
    (h : Completes e stack (ts ++ .colon :: us)) : level us < 0 := by
  induction ts generalizing e stack with
  | nil =>
    obtain ⟨e', stack', hstep, h⟩ := exists_step_of_completes h
    have hlevel := h.depth_add_level
    cases e with
    | colon =>
      -- only here may a colon come, and then a container is open
      cases hstep
      have hpos := List.length_pos_iff.mpr (hcolon rfl)
      simp only [Expected.depth] at hlevel
      omega
    | comma d => rcases stack with - | ⟨_ | _, _⟩ <;> cases hstep
    | _ => cases hstep
  | cons t ts ih =>
    obtain ⟨e', stack', hstep, h⟩ := exists_step_of_completes h
    refine ih ?_ h
    -- the key of a colon is that of the object just entered
    rintro rfl
    cases e with
    | comma d => rcases stack with - | ⟨_ | _, _⟩ <;> cases t <;> cases hstep
    | _ => cases t <;> cases hstep <;> exact List.cons_ne_nil _ _

end Completes

/-! ### Strings -/

/-- Whether reading stands outside of strings.  The words of JSON are of letters. -/
def Scan.Outside : Scan → Prop
  | .between | .numeral .. => True
  | .word _ left => ∀ l ∈ left, l.isAlpha
  | .text _ | .escape _ | .hex .. => False

/-- Whether reading stands inside of a string. -/
def Scan.InString : Scan → Prop
  | .text _ | .escape _ | .hex .. => True
  | .between | .numeral .. | .word .. => False

/-- What a character outside of strings does: a quote opens a string, a colon is a token of its own,
a backslash cannot stand there. -/
inductive Scan.Turn : Char → List Token → Scan → Prop
  | quote (ts : List Token) : Turn '"' ts (.text [])
  | colon (ts : List Token) : Turn ':' (ts ++ [.colon]) .between
  | other {c : Char} {ts : List Token} {s : Scan} (hquote : c ≠ '"') (hcolon : c ≠ ':')
      (hslash : c ≠ '\\') (hs : s.Outside) : Turn c ts s

/-- A letter is none of the characters that matter. -/
theorem Scan.Turn.of_isAlpha {c : Char} (hc : c.isAlpha) {ts : List Token} {s : Scan}
    (hs : s.Outside) : Scan.Turn c ts s := by
  refine .other ?_ ?_ ?_ hs
  all_goals
    rintro rfl
    exact absurd hc (by decide)

theorem Scan.turn_start {c : Char} {ts : List Token} {s : Scan}
    (h : Scan.start c = some (ts, s)) (us : List Token) : Scan.Turn c (us ++ ts) s := by
  unfold Scan.start at h
  split at h
  case h_6 => cases h; exact .colon us
  case h_7 => cases h; exact .quote _
  case h_12 =>
    rename_i hcolon hquote _ _ _ _
    have hslash : c ≠ '\\' := by
      rintro rfl
      cases h
    refine .other hquote hcolon hslash ?_
    split at h
    · cases h
      trivial
    · split at h <;> cases h <;> trivial
  all_goals
    cases h
    refine .other (by decide) (by decide) (by decide) ?_
    simp [Scan.Outside]

/-- A character outside of strings does what it is to, or the text stops being JSON. -/
theorem scan_outside {s : Scan} (hs : s.Outside) (c : Char) :
    (∃ ts s', Scan.Turn c ts s' ∧ ∀ cs, scan s (c :: cs) = ts ++ scan s' cs) ∨
      ∀ cs, ¬Whole (scan s (c :: cs)) := by
  have hbroken : ¬Whole [.broken ⟨[], .malformed⟩] := by simp [Whole, Token.isBroken]
  cases s with
  | between =>
    -- by the first character of a token, or none begins with it
    rcases hstart : Scan.start c with - | ⟨ts, s'⟩
    · exact .inr fun cs => by simpa only [scan, hstart] using hbroken
    · exact .inl ⟨_, s', Scan.turn_start hstart [], fun cs => by simp only [scan, hstart]; rfl⟩
  | word token left =>
    rcases left with - | ⟨l, left⟩
    · exact .inr fun cs => hbroken
    · -- the letters of a word that are left have to come one by one
      obtain ⟨hl, hleft⟩ := List.forall_mem_cons.mp hs
      by_cases hc : c = l
      · subst hc
        rcases left with - | ⟨l', left⟩
        · exact .inl ⟨[token], .between, .of_isAlpha hl trivial, fun cs => by simp [scan]⟩
        · exact .inl ⟨[], .word token (l' :: left), .of_isAlpha hl hleft, fun cs => by simp [scan]⟩
      · refine .inr fun cs => ?_
        rcases left with - | ⟨l', left⟩ <;> simpa only [scan, hc, if_false] using hbroken
  | numeral part n =>
    rcases hstep : Numeral.step part n c with ⟨part', n'⟩ | - | -
    · -- the character goes on with the number
      refine .inl ⟨[], .numeral part' n', .other ?_ ?_ ?_ trivial, fun cs => by
        simp only [scan, hstep, List.nil_append]⟩
      all_goals
        rintro rfl
        cases part <;> cases hstep
    · -- the number ends here, and something else begins
      rcases hstart : Scan.start c with - | ⟨ts, s'⟩
      · refine .inr fun cs => ?_
        simp only [scan, hstep, hstart]
        exact fun h => hbroken (whole_cons.mp h).2
      · exact .inl ⟨_, s', Scan.turn_start hstart [.numeral n.finish], fun cs => by
          simp only [scan, hstep, hstart]; rfl⟩
    · exact .inr fun cs => by simpa only [scan, hstep] using hbroken
  | _ => exact hs.elim

/-- No text is read to its end both from outside of strings and from inside one: every quote leads
from the one to the other, and a backslash, which may hide a quote, stands in strings only. -/
theorem not_whole_of_opposite {s : Scan} {cs : List Char} (hs : s.Outside)
    (h : Whole (scan s cs)) (done : List Piece) : ¬Whole (scan (.text done) cs) := by
  induction cs generalizing s done with
  | nil => simp [scan, Scan.finish, Whole, Token.isBroken]
  | cons c cs ih =>
    rcases scan_outside hs c with ⟨ts, s', hturn, hscan⟩ | hbroken
    · rw [hscan] at h
      replace h := (whole_append.mp h).2
      -- any character but a quote or a backslash stays in the string of the second scan
      have hgo (hquote : c ≠ '"') (hslash : c ≠ '\\') (hs' : s'.Outside) :
          ¬Whole (scan (.text done) (c :: cs)) := by
        simp only [scan, hquote, hslash, if_false]
        split
        · simp [Whole, Token.isBroken]
        · exact ih hs' h _
      cases hturn with
      | quote =>
        -- at a quote the scans change places
        intro hclosed
        have hclosed : Whole (.text done.reverse :: scan .between cs) := hclosed
        exact ih (s := .between) trivial (whole_cons.mp hclosed).2 [] h
      | colon ts => exact hgo (by decide) (by decide) trivial
      | other hquote _ hslash hs' => exact hgo hquote hslash hs'
    · exact absurd h (hbroken cs)

/-! ### Colons -/

theorem hexDigit?_of_hexValue? {ds : List Char} {v : ℕ} (h : hexValue? ds = some v) :
    ∀ d ∈ ds, hexDigit? d ≠ none := by
  induction ds using List.reverseRecOn generalizing v with
  | nil => simp
  | append_singleton ds d ih =>
    rw [hexValue?, List.foldl_append] at h
    rcases hds : hexValue? ds with - | u
    · rw [hexValue?] at hds
      simp [hds] at h
    · have hall := ih hds
      rw [hexValue?] at hds
      intro e he
      rcases List.mem_append.mp he with he | he
      · exact hall e he
      · rw [List.mem_singleton.mp he]
        intro hnone
        simp [hds, hnone] at h

/-- An escape with a colon among its digits breaks off. -/
theorem not_whole_hex {digits : List Char} (h : ':' ∈ digits) (done : List Piece)
    (cs : List Char) : ¬Whole (scan (.hex done digits) cs) := by
  induction cs generalizing digits with
  | nil => simp [scan, Scan.finish, Whole, Token.isBroken]
  | cons c cs ih =>
    have hmem : ':' ∈ digits ++ [c] := List.mem_append_left _ h
    have hnone : hexValue? (digits ++ [c]) = none := by
      by_contra hsome
      obtain ⟨v, hv⟩ := Option.ne_none_iff_exists'.mp hsome
      exact hexDigit?_of_hexValue? hv ':' hmem (by decide)
    rw [scan]
    split
    · simp [hnone, Whole, Token.isBroken]
    · exact ih hmem

/-- A character of a string leads on in the string or out of it, or the text stops being JSON. -/
theorem scan_inString {s : Scan} (hs : s.InString) (c : Char) :
    (∃ ts s', (s'.Outside ∨ s'.InString) ∧ ∀ cs, scan s (c :: cs) = ts ++ scan s' cs) ∨
      ∀ cs, ¬Whole (scan s (c :: cs)) := by
  have hcut (done : List Piece) : ¬Whole [.brokenText ⟨done.reverse, .malformed⟩] := by
    simp [Whole, Token.isBroken]
  cases s with
  | text done =>
    by_cases hquote : c = '"'
    · exact .inl ⟨[.text done.reverse], .between, .inl trivial, fun cs => by simp [scan, hquote]⟩
    by_cases hslash : c = '\\'
    · exact .inl ⟨[], .escape done, .inr trivial, fun cs => by simp [scan, hslash]⟩
    by_cases hcontrol : c.toNat < 0x20
    · exact .inr fun cs => by
        simpa only [scan, hquote, hslash, hcontrol, if_true, if_false] using hcut done
    · exact .inl ⟨[], .text (.char c :: done), .inr trivial, fun cs => by
        simp only [scan, hquote, hslash, hcontrol, if_false, List.nil_append]⟩
  | escape done =>
    by_cases hu : c = 'u'
    · exact .inl ⟨[], .hex done [], .inr trivial, fun cs => by simp [scan, hu]⟩
    rcases hescape : shortEscape? c with - | e
    · exact .inr fun cs => by simpa only [scan, hu, hescape, if_false] using hcut done
    · exact .inl ⟨[], .text (.char e :: done), .inr trivial, fun cs => by
        simp [scan, hu, hescape]⟩
  | hex done digits =>
    by_cases hfull : hexFull (digits ++ [c]) = true
    · rcases hunit : hexValue? (digits ++ [c]) with - | unit
      · exact .inr fun cs => by simpa only [scan, hfull, hunit, if_true] using hcut done
      · exact .inl ⟨[], .text (Piece.ofUnit unit :: done), .inr trivial, fun cs => by
          simp [scan, hfull, hunit]⟩
    · exact .inl ⟨[], .hex done (digits ++ [c]), .inr trivial, fun cs => by simp [scan, hfull]⟩
  | _ => exact hs.elim

/-- Reading goes on outside of strings or inside one, or the text stops being JSON. -/
theorem scan_onward {s : Scan} (hs : s.Outside ∨ s.InString) (c : Char) :
    (∃ ts s', (s'.Outside ∨ s'.InString) ∧ ∀ cs, scan s (c :: cs) = ts ++ scan s' cs) ∨
      ∀ cs, ¬Whole (scan s (c :: cs)) := by
  rcases hs with hs | hs
  · refine (scan_outside hs c).imp_left ?_
    rintro ⟨ts, s', hturn, hscan⟩
    refine ⟨ts, s', ?_, hscan⟩
    cases hturn with
    | quote => exact .inr trivial
    | colon => exact .inl trivial
    | other _ _ _ hs' => exact .inl hs'
  · exact scan_inString hs c

/-- A colon of a text that is read whole is a token, or the rest of the text is read whole from
inside a string. -/
theorem scan_colon {s : Scan} (hs : s.Outside ∨ s.InString) {r p : List Char}
    (h : Whole (scan s (r ++ ':' :: p))) :
    (∃ ts, scan s (r ++ ':' :: p) = ts ++ .colon :: tokens p) ∨
      ∃ done, Whole (scan (.text done) p) := by
  induction r generalizing s with
  | nil =>
    rcases hs with hs | hs
    case inl =>
      rcases scan_outside hs ':' with ⟨_, s', hturn, hscan⟩ | hbroken
      · cases hturn with
        | colon ts => exact .inl ⟨ts, by rw [List.nil_append, hscan, List.append_assoc]; rfl⟩
        | other _ hcolon => exact absurd rfl hcolon
      · exact absurd h (hbroken p)
    case inr =>
      cases s with
      | text done => exact .inr ⟨.char ':' :: done, h⟩
      | escape done => exact absurd h (by simp [scan, shortEscape?, Whole, Token.isBroken])
      | hex done digits =>
        rw [List.nil_append, scan] at h
        split at h
        · split at h
          case h_1 hunit => exact absurd (by decide) (hexDigit?_of_hexValue? hunit ':' (by simp))
          case h_2 => exact absurd h (by simp [Whole, Token.isBroken])
        · exact absurd h (not_whole_hex (by simp) done p)
      | _ => exact hs.elim
  | cons c r ih =>
    rcases scan_onward hs c with ⟨ts, s', hs', hscan⟩ | hbroken
    · rw [List.cons_append, hscan] at h
      refine (ih hs' (whole_append.mp h).2).imp_left ?_
      rintro ⟨us, hus⟩
      exact ⟨ts ++ us, by rw [List.cons_append, hscan, hus, List.append_assoc]⟩
    · exact absurd h (hbroken _)

/-- A JSON text does not end with a colon and a JSON text, or with a colon. -/
theorem not_isJson_colon {r t : String} (ht : t = "" ∨ IsJson t) : ¬IsJson (r ++ ":" ++ t) := by
  intro h
  have htext : (r ++ ":" ++ t).toList = r.toList ++ ':' :: t.toList := by
    simp [String.toList_append]
  -- what follows the colon is whole and closes just what it opens
  have hafter : Whole (tokens t.toList) ∧ level (tokens t.toList) = 0 := by
    rcases ht with rfl | ht
    · exact ⟨by decide, rfl⟩
    · exact ⟨ht.whole, by simpa [Expected.depth] using ht.depth_add_level⟩
  rw [IsJson, htext] at h
  rcases scan_colon (s := .between) (.inl trivial) h.whole with ⟨ts, hts⟩ | ⟨done, hdone⟩
  · rw [tokens, hts] at h
    have hlevel := Completes.level_lt_of_colon (by simp) h
    omega
  · exact not_whole_of_opposite (s := .between) trivial hafter.1 done hdone

end Courier.Json
