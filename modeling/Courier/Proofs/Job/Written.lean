import Courier.Proofs.Message.RoundTrip
import Courier.Proofs.Text.Words
import Courier.Job.Option

/-!
Options in their written form.

The written form of an option is its kind, an equals sign and the JSON text of its value.  It is
taken apart where it was put together, since the kind has no equals sign (`splitEquals_append`), and
trimming leaves both parts as they are: the kind because it is trimmed already, and the JSON text of
a value because it begins and ends visibly (`Value.trimChars_print`).  What stands behind the equals
sign is read as JSON, or else as a plain string; the text of a value is JSON, so strings that look
like JSON come back as strings.

An option has such a form only if its kind is trimmed, not empty and without an equals sign
(`Named`), and if the members in its value are in order; the options that are read are so
(`of_parse`).  Their numbers are to be whole ones of 64 bits, whose texts are digits and a sign.

Main statement: the written form of an option is read as the option (`parse_written`).
-/

namespace Courier

namespace Json

open Text

/-- The text of a whole number has no blanks. -/
theorem Number.isBlank_of_mem_print {n : Int} {c : Char} (h : c ∈ (Number.whole n).print) :
    Text.isBlank c = false := by
  -- digits have the codes from 48 to 57, and no blank has one of these
  have hdigit : ∀ m, c ∈ Nat.toDigits 10 m → Text.isBlank c = false := by
    intro m hc
    have hrange := Nat.isDigit_of_mem_toDigits (by decide) (by decide) hc
    simp only [Char.isDigit, Bool.and_eq_true, decide_eq_true_eq] at hrange
    have hlow : 48 ≤ c.toNat := hrange.1
    have hhigh : c.toNat ≤ 57 := hrange.2
    simp only [Text.isBlank, Bool.or_eq_false_iff, Bool.and_eq_false_iff, decide_eq_false_iff_not,
      beq_eq_false_iff_ne]
    omega
  cases n with
  | ofNat n =>
    rw [Int.ofNat_eq_natCast, print_ofNat] at h
    exact hdigit n h
  | negSucc n =>
    rw [print_negSucc] at h
    rcases List.mem_cons.mp h with rfl | h
    · rfl
    · exact hdigit _ h

/-- The text of a value begins and ends visibly, so trimming leaves it as it is. -/
theorem Value.trimChars_print {v : Value} (h : v.Numbers Number.Integral) :
    trimChars v.print = v.print := by
  -- all values but numbers stand between two marks or are words
  cases h with
  | null => rfl
  | bool b => cases b <;> rfl
  | @number n h =>
    cases n with
    | whole n =>
      refine trimChars_of_ends (fun c hc => ?_) fun c hc => ?_
      · exact Number.isBlank_of_mem_print (List.mem_of_head? hc)
      · exact Number.isBlank_of_mem_print (List.mem_of_getLast? hc)
    | real x => exact h.elim
  | string s => exact trimChars_fenced (by decide) (by decide) _
  | array h => exact trimChars_fenced (by decide) (by decide) _
  | object h => exact trimChars_fenced (by decide) (by decide) _

end Json

namespace JobOption

open Json Text

/-! ### Taking apart -/

theorem splitEquals_append {kind : List Char} (h : '=' ∉ kind) (raw : List Char) :
    splitEquals (kind ++ '=' :: raw) = some (kind, raw) := by
  induction kind with
  | nil => rfl
  | cons c cs ih =>
    obtain ⟨hc, hcs⟩ := not_or.mp (fun hor => h (List.mem_cons.mpr hor))
    rw [List.cons_append, splitEquals, if_neg (Ne.symm hc), ih hcs]
    rfl

theorem not_mem_of_splitEquals {cs kind raw : List Char} (h : splitEquals cs = some (kind, raw)) :
    '=' ∉ kind := by
  induction cs generalizing kind with
  | nil => cases h
  | cons c cs ih =>
    rw [splitEquals] at h
    split at h
    · cases h
      exact List.not_mem_nil
    · rename_i hc
      obtain ⟨⟨kind', raw'⟩, hsplit, h⟩ := Option.map_eq_some_iff.mp h
      cases h
      exact fun hmem => (List.mem_cons.mp hmem).elim (Ne.symm hc) (ih hsplit)

/-- Trimming does not add characters. -/
theorem not_mem_trimChars {c : Char} {cs : List Char} (h : c ∉ cs) : c ∉ trimChars cs := by
  obtain ⟨as, bs, hcs, -, -⟩ := exists_trimChars cs
  rw [hcs] at h
  exact fun hc => h (List.mem_append_right _ (List.mem_append_left _ hc))

/-! ### Reading back -/

/-- Whether the kind of an option can stand in front of an equals sign: there is one, without blanks
around it, and no equals sign is in it. -/
structure Named (o : JobOption) : Prop where
  nonempty : o.kind ≠ ""
  trimmed : trim o.kind = o.kind
  unequal : '=' ∉ o.kind.toList

/-- What is read from a text has a kind that can be written, and a value that comes from JSON. -/
theorem of_parse {s : String} {o : JobOption} (h : parse s = .ok o) :
    o.Named ∧ o.value.Ordered ∧ o.value.Readable maxDepth := by
  unfold parse at h
  split at h
  · cases h
  next kind raw hsplit =>
  dsimp only at h
  split at h
  · cases h
  next hkind =>
  obtain rfl := Except.ok.inj h
  refine ⟨⟨?_, ?_, ?_⟩, ?_⟩
  · intro hempty
    exact hkind (by simpa using congrArg String.toList hempty)
  · rw [trim, String.toList_ofList, trimChars_trimChars]
  · rw [String.toList_ofList]
    exact not_mem_trimChars (not_mem_of_splitEquals hsplit)
  · dsimp only
    unfold looseValue
    split
    · -- the value is that of a JSON text, or the text itself as a string
      rename_i hparse
      obtain ⟨d, hd⟩ := exists_document_of_parse hparse
      exact ⟨ordered_of_value hd, readable_of_value hd⟩
    · -- a plain string has no parts
      exact ⟨.string _, .string _, Nat.zero_le _⟩

/-- The written form is taken apart into the kind and the text of the value. -/
theorem parse_written_eq {o : JobOption} (h : o.Named) (hnumbers : o.value.Numbers Number.Integral) :
    parse o.written = .ok ⟨o.kind, looseValue o.value.text⟩ := by
  have hlist : o.written.toList = o.kind.toList ++ '=' :: o.value.print := by
    simp [written, Value.text]
  have hkind : trimChars o.kind.toList = o.kind.toList := by
    rw [← String.toList_ofList (l := trimChars o.kind.toList)]
    exact congrArg String.toList h.trimmed
  have hnonempty : ¬ o.kind.toList.isEmpty = true := by
    simpa using h.nonempty
  simp only [parse, hlist, splitEquals_append h.unequal, hkind, hnonempty,
    String.ofList_toList, Value.trimChars_print hnumbers]
  rfl

/-- A value that can be written in JSON and read again is not taken for a plain string. -/
theorem looseValue_text {v : Value} (hordered : v.Ordered) (hnumbers : v.Numbers Number.Integral)
    (hdepth : v.depth ≤ maxDepth) : looseValue v.text = v := by
  have hparse := parse_text (hordered.faithful (hnumbers.mono fun _ hn => hn.faithful)) hdepth
  simp only [looseValue, hparse]

/-- A sound number that is not a double is a whole one that fits in 64 bits. -/
theorem integral_of_sound {v : Value} (hsound : v.Numbers Number.Sound)
    (hwhole : v.Numbers fun n => ∃ k, n = .whole k) : v.Numbers Number.Integral := by
  induction hsound with
  | null => exact .null
  | bool b => exact .bool b
  | string s => exact .string s
  | number h =>
    cases hwhole with
    | number hk =>
      obtain ⟨k, rfl⟩ := hk
      exact .number h
  | array _ ih =>
    cases hwhole with
    | array hitems => exact .array fun v hv => ih v hv (hitems v hv)
  | object _ ih =>
    cases hwhole with
    | object hms => exact .object fun m hm => ih m hm (hms m hm)

/-- An option that has been read from any text is read again from its written form, unless its value
holds a double; and every option whose kind can be written, and whose value is one of JSON with whole
numbers, is read from its written form. -/
theorem parse_written :
    (∀ (s : String) (o : JobOption), parse s = .ok o →
      o.value.Numbers (fun n => ∃ k, n = .whole k) → parse o.written = .ok o) ∧
      ∀ o : JobOption, o.Named → o.value.Ordered → o.value.Numbers Number.Integral →
        o.value.depth ≤ maxDepth → parse o.written = .ok o := by
  have hnamed : ∀ o : JobOption, o.Named → o.value.Ordered → o.value.Numbers Number.Integral →
      o.value.depth ≤ maxDepth → parse o.written = .ok o := by
    intro o hkind hordered hnumbers hdepth
    rw [parse_written_eq hkind hnumbers, looseValue_text hordered hnumbers hdepth]
  refine ⟨fun s o h hwhole => ?_, hnamed⟩
  obtain ⟨hkind, hordered, hreadable⟩ := of_parse h
  exact hnamed o hkind hordered (integral_of_sound hreadable.numbers hwhole) hreadable.depth_le

/-- A plain string with an equals sign in it, and an option whose value is a string that looks like
JSON. -/
theorem parse_written_equals :
    let s := " queue\u00a0= a=\"1\" "
    let o : JobOption := ⟨"queue", .string "a=\"1\""⟩
    let p : JobOption := ⟨"task id", .array [.string "[1]", .string "", .number (.whole (-3))]⟩
    parse s = .ok o ∧ parse o.written = .ok o ∧ p.Named ∧ parse p.written = .ok p := by
  intro s o p
  have hread : parse s = .ok o := by decide +kernel
  have hnamed : p.Named := ⟨by decide, by decide +kernel, by decide⟩
  have hordered : p.value.Ordered := .array (List.forall_mem_cons.mpr ⟨.string _,
    List.forall_mem_cons.mpr ⟨.string _, List.forall_mem_singleton.mpr (.number _)⟩⟩)
  have hnumbers : p.value.Numbers Number.Integral := .array (List.forall_mem_cons.mpr ⟨.string _,
    List.forall_mem_cons.mpr ⟨.string _, List.forall_mem_singleton.mpr (.number rfl)⟩⟩)
  have hboth := parse_written
  exact ⟨hread, hboth.1 s o hread (.string _), hnamed,
    hboth.2 p hnamed hordered hnumbers (by decide)⟩

end JobOption

end Courier
