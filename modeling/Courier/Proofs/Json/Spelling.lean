import Courier.Json.Decode
import Courier.Proofs.Json.Scanning

/-!
Texts and the documents that they spell.

`Spells cs d` says that a text, wherever it stands, is read as a document: its tokens are whole,
begin a value, and lead the parser from expecting a value to having read the document, whatever
containers are open.  That they begin a value is a part of its own, since the first item of an array
is read like the others only if no bracket closes it at once (`Opens.read_firstItem`).

Scalars spell themselves (`spells_of_tokens`, `spells_string`), and what arrays and objects spell is
put together from their parts (`spells_array`, `spells_object`), by induction on the list of the
parts from the first one on (`read_items`, `read_members`).

The other way round, a text that is read as a number is one numeral (`tokens_of_parse`).  Once a
container is open the parser never gives a scalar (`Inside`), and there is nothing but a numeral
that is a number.
-/

namespace Courier.Json

/-! ### Texts and documents -/

/-- A token that can stand where it does is read. -/
theorem read_cons {e e' : Expected} {stack stack' : List Frame} {t : Token}
    (hstep : e.step stack t = .ok (e', stack')) (ts : List Token) :
    Document.read e stack (t :: ts) = Document.read e' stack' ts := by
  rw [Document.read]
  · simp only [hstep]
  · rintro d rfl rfl
    cases hstep

/-- Tokens that begin like a value. -/
def Opens (ts : List Token) : Prop := ∃ t us e, ts = t :: us ∧ t.begin = .ok e

/-- A text that is read as a document wherever a value may stand. -/
structure Spells (cs : List Char) (d : Document) : Prop where
  whole : Whole (tokens cs)
  opens : Opens (tokens cs)
  reads : ∀ stack ts, Document.read .value stack (tokens cs ++ ts) =
    Document.read (.comma d) stack ts

theorem Opens.append {ts : List Token} (h : Opens ts) (us : List Token) : Opens (ts ++ us) := by
  obtain ⟨t, rest, e, rfl, hbegin⟩ := h
  exact ⟨t, rest ++ us, e, rfl, hbegin⟩

/-- Nothing but the text. -/
theorem Spells.ofText {cs : List Char} {d : Document} (h : Spells cs d) :
    Document.ofText (String.ofList cs) = (d, false) := by
  have hread := h.reads [] []
  rw [List.append_nil] at hread
  rw [Document.ofText, String.toList_ofList, hread]
  rfl

/-- A value of one token. -/
theorem spells_of_tokens {cs : List Char} {d : Document} {t : Token} (htokens : tokens cs = [t])
    (hbegin : t.begin = .ok (.comma d)) : Spells cs d where
  whole := by
    have ht : t.isBroken = false := by
      cases t <;> first | rfl | cases hbegin
    rw [htokens]
    simp [Whole, ht]
  opens := ⟨t, [], .comma d, htokens, hbegin⟩
  reads := by
    intro stack ts
    rw [htokens, List.singleton_append]
    refine read_cons ?_ ts
    simp only [Expected.step, hbegin, Except.map]

theorem spells_string (s : String) : Spells (printString s) (.text (s.toList.map .char)) := by
  have htokens := tokens_printString s []
  rw [List.append_nil] at htokens
  exact spells_of_tokens htokens rfl

section Closing

variable {cs rest : List Char} {c : Char} (hc : ends c = true)

include hc

theorem whole_concat (h : Whole (tokens cs)) (hrest : Whole (tokens (c :: rest))) :
    Whole (tokens (cs ++ c :: rest)) := by
  rw [tokens_append h hc]
  exact whole_append.mpr ⟨h, hrest⟩

variable {d : Document} (h : Spells cs d)

include h

/-- In front of a comma or a closing bracket a text is read as its document. -/
theorem Spells.read_append (stack : List Frame) (ts : List Token) :
    Document.read .value stack (tokens (cs ++ c :: rest) ++ ts) =
      Document.read (.comma d) stack (tokens (c :: rest) ++ ts) := by
  rw [tokens_append h.whole hc, List.append_assoc, h.reads]

theorem Spells.opens_append : Opens (tokens (cs ++ c :: rest)) := by
  rw [tokens_append h.whole hc]
  exact h.opens.append _

end Closing

/-! ### Arrays -/

theorem tokens_comma (cs : List Char) : tokens (',' :: cs) = .comma :: tokens cs := rfl

/-- Items with commas between them and a bracket behind them. -/
theorem read_items {p : List Char × Document} {ps : List (List Char × Document)}
    (h : ∀ q ∈ p :: ps, Spells q.1 q.2) :
    let ts := tokens (commaSeparated ((p :: ps).map Prod.fst) ++ [']'])
    Whole ts ∧ Opens ts ∧ ∀ done stack us,
      Document.read .value (.array done :: stack) (ts ++ us) =
        Document.read (.comma (.array (done.reverse ++ (p :: ps).map Prod.snd) none)) stack us := by
  have hp := h p List.mem_cons_self
  induction ps generalizing p with
  | nil =>
    -- the last item has the bracket behind it
    refine ⟨whole_concat rfl hp.whole (by decide), hp.opens_append rfl, ?_⟩
    intro done stack us
    refine (hp.read_append rfl _ us).trans ((read_cons rfl us).trans ?_)
    simp
  | cons q ps ih =>
    -- the other items have a comma before them
    have hq := h q (List.mem_cons_of_mem p List.mem_cons_self)
    obtain ⟨hwhole, -, hread⟩ := ih (fun r hr => h r (List.mem_cons_of_mem p hr)) hq
    have htext : commaSeparated ((p :: q :: ps).map Prod.fst) ++ [']'] =
        p.1 ++ ',' :: (commaSeparated ((q :: ps).map Prod.fst) ++ [']']) := by
      simp [commaSeparated]
    rw [htext]
    refine ⟨whole_concat rfl hp.whole ?_, hp.opens_append rfl, ?_⟩
    · rw [tokens_comma]
      exact whole_cons.mpr ⟨rfl, hwhole⟩
    · intro done stack us
      rw [hp.read_append rfl, tokens_comma]
      refine (read_cons rfl _).trans ((hread _ _ us).trans ?_)
      simp

/-- The first item of an array is read like the others. -/
theorem Opens.read_firstItem {ts : List Token} (h : Opens ts) (stack : List Frame) :
    Document.read .firstItem stack ts = Document.read .value (.array [] :: stack) ts := by
  obtain ⟨t, us, e, rfl, hbegin⟩ := h
  have hfirst : Expected.step .firstItem stack t = .ok (e, .array [] :: stack) := by
    cases t <;> cases hbegin <;> rfl
  have hvalue : Expected.step .value (.array [] :: stack) t = .ok (e, .array [] :: stack) := by
    simp only [Expected.step, hbegin, Except.map]
  rw [read_cons hfirst, read_cons hvalue]

theorem spells_array {ps : List (List Char × Document)} (h : ∀ p ∈ ps, Spells p.1 p.2) :
    Spells ('[' :: (commaSeparated (ps.map Prod.fst) ++ [']'])) (.array (ps.map Prod.snd) none) := by
  have hopen (cs : List Char) : tokens ('[' :: cs) = .openArray :: tokens cs := rfl
  -- an empty array, or one whose first item is read like the others
  rcases ps with - | ⟨p, ps⟩
  · refine ⟨by decide, ⟨_, _, _, rfl, rfl⟩, ?_⟩
    intro stack us
    exact (read_cons rfl _).trans (read_cons rfl us)
  · obtain ⟨hwhole, hopens, hread⟩ := read_items h
    refine ⟨?_, ⟨_, _, _, hopen _, rfl⟩, ?_⟩
    · rw [hopen]
      exact whole_cons.mpr ⟨rfl, hwhole⟩
    · intro stack us
      rw [hopen, List.cons_append]
      refine (read_cons rfl _).trans ?_
      rw [(hopens.append us).read_firstItem, hread]
      rfl

/-! ### Objects -/

/-- The text of a key is one token, and so is the colon behind it. -/
theorem tokens_printMember (key : String) (value rest : List Char) :
    tokens (printMember key value ++ rest) =
      .text (key.toList.map .char) :: .colon :: tokens (value ++ rest) := by
  rw [printMember, List.append_assoc, tokens_printString]
  rfl

/-- A member as written, with its key and what its text spells. -/
structure Member where
  key : String
  text : List Char
  document : Document

/-- Members with commas between them and a brace behind them. -/
theorem read_members {m : Member} {ms : List Member}
    (h : ∀ n ∈ m :: ms, Spells n.text n.document) :
    let ts := tokens (commaSeparated ((m :: ms).map fun n => printMember n.key n.text) ++ ['}'])
    Whole ts ∧ (∃ key vs, ts = .text key :: vs) ∧ ∀ done stack us,
      Document.read (.nextKey done) stack (ts ++ us) =
        Document.read (.comma (.object (done.reverse ++
          (m :: ms).map fun n => (n.key.toList.map .char, n.document)) none)) stack us := by
  have hm := h m List.mem_cons_self
  induction ms generalizing m with
  | nil =>
    have htext : commaSeparated ([m].map fun n => printMember n.key n.text) ++ ['}'] =
        printMember m.key m.text ++ ['}'] := rfl
    rw [htext, tokens_printMember]
    refine ⟨?_, ⟨_, _, rfl⟩, ?_⟩
    · exact whole_cons.mpr ⟨rfl, whole_cons.mpr ⟨rfl, whole_concat rfl hm.whole (by decide)⟩⟩
    · intro done stack us
      refine (read_cons rfl _).trans ((read_cons rfl _).trans ((hm.read_append rfl _ us).trans ?_))
      refine (read_cons rfl us).trans ?_
      simp
  | cons n ms ih =>
    have hn := h n (List.mem_cons_of_mem m List.mem_cons_self)
    obtain ⟨hwhole, -, hread⟩ := ih (fun r hr => h r (List.mem_cons_of_mem m hr)) hn
    have htext : commaSeparated ((m :: n :: ms).map fun n => printMember n.key n.text) ++ ['}'] =
        printMember m.key m.text ++ ',' ::
          (commaSeparated ((n :: ms).map fun n => printMember n.key n.text) ++ ['}']) := by
      simp [commaSeparated]
    rw [htext, tokens_printMember]
    refine ⟨?_, ⟨_, _, rfl⟩, ?_⟩
    · refine whole_cons.mpr ⟨rfl, whole_cons.mpr ⟨rfl, whole_concat rfl hm.whole ?_⟩⟩
      rw [tokens_comma]
      exact whole_cons.mpr ⟨rfl, hwhole⟩
    · intro done stack us
      refine (read_cons rfl _).trans ((read_cons rfl _).trans ((hm.read_append rfl _ us).trans ?_))
      rw [tokens_comma]
      refine (read_cons rfl _).trans ((hread _ _ us).trans ?_)
      simp

theorem spells_object {ms : List Member} (h : ∀ m ∈ ms, Spells m.text m.document) :
    Spells (printObject (ms.map fun m => (m.key, m.text)))
      (.object (ms.map fun m => (m.key.toList.map .char, m.document)) none) := by
  have hopen (cs : List Char) : tokens ('{' :: cs) = .openObject :: tokens cs := rfl
  have htext : printObject (ms.map fun m => (m.key, m.text)) =
      '{' :: (commaSeparated (ms.map fun m => printMember m.key m.text) ++ ['}']) := by
    simp [printObject, List.map_map, Function.comp_def]
  rw [htext]
  -- an empty object has no key
  rcases ms with - | ⟨m, ms⟩
  · refine ⟨by decide, ⟨_, _, _, rfl, rfl⟩, ?_⟩
    intro stack us
    exact (read_cons rfl _).trans (read_cons rfl us)
  · obtain ⟨hwhole, ⟨key, vs, hkey⟩, hread⟩ := read_members h
    refine ⟨?_, ⟨_, _, _, hopen _, rfl⟩, ?_⟩
    · rw [hopen]
      exact whole_cons.mpr ⟨rfl, hwhole⟩
    · intro stack us
      rw [hopen, List.cons_append]
      refine (read_cons rfl _).trans ?_
      -- the first key is read like the others
      have hfirst : ∀ ts, Document.read .firstKey stack (.text key :: ts) =
          Document.read (.nextKey []) stack (.text key :: ts) := by
        intro ts
        exact (read_cons rfl ts).trans (read_cons rfl ts).symm
      have hmembers := hread [] stack us
      rw [hkey, List.cons_append] at hmembers ⊢
      rw [hfirst, hmembers]
      rfl

/-! ### Numbers -/

/-- Whether a document is an array or an object, closed or not. -/
def Document.isContainer : Document → Bool
  | .array .. | .object .. => true
  | _ => false

/-- Whether the value that is read is a container. -/
def Inside (e : Expected) (stack : List Frame) : Prop :=
  match e with
  | .firstItem | .firstKey | .nextKey _ => True
  | .value | .colon => stack ≠ []
  | .comma d => stack ≠ [] ∨ d.isContainer = true

theorem isContainer_enclose {stack : List Frame} {d : Document}
    (h : stack ≠ [] ∨ d.isContainer = true) : (Frame.enclose stack d).isContainer = true := by
  induction stack generalizing d with
  | nil => exact h.resolve_left fun hne => hne rfl
  | cons frame stack ih =>
    cases frame with
    | array done => exact ih (.inr rfl)
    | object done key => exact ih (.inr rfl)

theorem Inside.halt {e : Expected} {stack : List Frame} (h : Inside e stack) (b : Break) :
    (e.halt stack b).isContainer = true := by
  cases e with
  | value => exact isContainer_enclose (.inl h)
  | firstItem => exact isContainer_enclose (.inr rfl)
  | firstKey => exact isContainer_enclose (.inr rfl)
  | nextKey done => exact isContainer_enclose (.inr rfl)
  | colon => exact isContainer_enclose (.inl h)
  | comma d =>
    rcases stack with - | ⟨done | ⟨done, key⟩, rest⟩
    · exact h.resolve_left fun hne => hne rfl
    · exact isContainer_enclose (.inr rfl)
    · exact isContainer_enclose (.inr rfl)

theorem Inside.step {e e' : Expected} {stack stack' : List Frame} {t : Token}
    (h : Inside e stack) (hstep : e.step stack t = .ok (e', stack')) : Inside e' stack' := by
  -- by what is expected; every token either is an error or leads on inside
  cases e with
  | value =>
    have hne : stack ≠ [] := h
    cases t <;> cases hstep <;> first | trivial | exact .inl hne
  | firstItem =>
    cases t <;> cases hstep <;>
      first | trivial | exact .inr rfl | exact .inl (List.cons_ne_nil _ _)
  | firstKey => cases t <;> cases hstep <;> first | exact List.cons_ne_nil _ _ | exact .inr rfl
  | nextKey done => cases t <;> cases hstep; exact List.cons_ne_nil _ _
  | colon => cases t <;> cases hstep; exact h
  | comma d =>
    rcases stack with - | ⟨done | ⟨done, key⟩, rest⟩
    · cases hstep
    · cases t <;> cases hstep <;> first | exact List.cons_ne_nil _ _ | exact .inr rfl
    · cases t <;> cases hstep <;> first | trivial | exact .inr rfl

/-- Where a token cannot stand, the text breaks off. -/
theorem read_cons_error {e : Expected} {stack : List Frame} {t : Token} {b : Break}
    (hstep : e.step stack t = .error b) (ts : List Token) :
    (Document.read e stack (t :: ts)).1 = e.halt stack b := by
  by_cases hover : ∃ d, e = .comma d ∧ stack = []
  · obtain ⟨d, rfl, rfl⟩ := hover
    rfl
  · rw [Document.read]
    · simp only [hstep]
    · rintro d rfl rfl
      exact hover ⟨d, rfl, rfl⟩

/-- What is read inside a container is part of one. -/
theorem Inside.read {e : Expected} {stack : List Frame} (h : Inside e stack) (ts : List Token) :
    (Document.read e stack ts).1.isContainer = true := by
  induction ts generalizing e stack with
  | nil => exact h.halt .atEnd
  | cons t ts ih =>
    rcases hstep : e.step stack t with b | ⟨e', stack'⟩
    · rw [read_cons_error hstep]
      exact h.halt b
    · rw [read_cons hstep]
      exact ih (h.step hstep)

/-- A text that is read as a numeral is one token. -/
theorem tokens_of_read {ts : List Token} {n : Numeral}
    (h : Document.read .value [] ts = (.numeral n, false)) : ts = [.numeral n] := by
  -- the first token begins a value, which is a numeral only if it is complete at once
  rcases ts with - | ⟨t, ts⟩
  · cases h
  · rcases hbegin : t.begin with b | e
    · have hstep : Expected.step .value [] t = .error b := by
        simp only [Expected.step, hbegin, Except.map]
      have hbroken := read_cons_error hstep ts
      rw [h] at hbroken
      cases hbroken
    · have hstep : Expected.step .value [] t = .ok (e, []) := by
        simp only [Expected.step, hbegin, Except.map]
      have hnext := read_cons hstep ts
      rw [h] at hnext
      have hcontainer : ¬ Inside e [] := by
        intro hinside
        have hread := hinside.read ts
        rw [← hnext] at hread
        cases hread
      -- a scalar is complete, and nothing may follow it; inside a container none is read
      cases e with
      | comma d =>
        rcases ts with - | ⟨u, ts⟩
        · obtain rfl : Document.numeral n = d := congrArg Prod.fst hnext
          cases t <;> cases hbegin
          rfl
        · cases hnext
      | firstItem => exact absurd trivial hcontainer
      | firstKey => exact absurd trivial hcontainer
      | _ => cases t <;> cases hbegin

/-- Only numerals are numbers. -/
theorem Document.eq_numeral_of_value {d : Document} {room : Nat} {n : Number}
    (h : d.value room = .ok (.number n)) : ∃ m, d = .numeral m ∧ m.value? = some n := by
  cases d with
  | numeral m =>
    refine ⟨m, rfl, ?_⟩
    unfold Document.value Numeral.read at h
    rcases hvalue : m.value? with - | k
    · rw [hvalue] at h
      cases h
    · rw [hvalue] at h
      cases h
      rfl
  | null => cases h
  | bool b => cases h
  | broken b => cases h
  | text ps =>
    unfold Document.value at h
    rcases hspell : spell ps with e | s
    · rw [hspell] at h
      cases h
    · rw [hspell] at h
      cases h
  | array items stop =>
    unfold Document.value at h
    simp only [bind, Except.bind, pure, Except.pure] at h
    repeat (split at h; · cases h)
    cases h
  | object members stop =>
    unfold Document.value at h
    simp only [bind, Except.bind, pure, Except.pure] at h
    repeat (split at h; · cases h)
    cases h

/-- A number that is read back is one token, a numeral with its value. -/
theorem tokens_of_parse {cs : List Char} {n : Number}
    (h : parse (String.ofList cs) = .ok (.number n)) :
    ∃ m, tokens cs = [.numeral m] ∧ m.value? = some n := by
  rcases hread : Document.ofText (String.ofList cs) with ⟨d, more⟩
  rw [parse, Read.text, hread] at h
  rcases hvalue : d.value maxDepth with e | v
  · simp [Source.value, hvalue, bind, Except.bind] at h
  · cases more with
    | true => simp [Source.value, hvalue, bind, Except.bind, throw, throwThe, MonadExceptOf.throw] at h
    | false =>
      obtain rfl : v = .number n := by
        simpa [Source.value, hvalue, bind, Except.bind, pure, Except.pure] using h
      obtain ⟨m, rfl, hm⟩ := Document.eq_numeral_of_value hvalue
      rw [Document.ofText, String.toList_ofList] at hread
      exact ⟨m, tokens_of_read hread, hm⟩

end Courier.Json
