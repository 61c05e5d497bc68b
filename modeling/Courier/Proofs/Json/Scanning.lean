import Courier.Json.Printer
import Courier.Json.Token
import Mathlib.Data.Nat.Digits.Defs
import Mathlib.Tactic.IntervalCases

/-!
The tokens of printed values.

The scanner goes through a text character by character.  Each one completes some tokens and leads on
to a state, or breaks the text (`scan_cons`); this is the one place where all states are looked at,
and what is said of tokens here goes by induction on the characters with it.

A text is read whole if none of its tokens is broken.  Then its tokens stay what they are in front
of a comma or a closing bracket (`scan_append`): a numeral is the only token that does not say
itself where it ends, and these three characters end it.  So the tokens of a printed value are put
together from those of its parts.

This module has the ones of strings and of whole numbers (`tokens_printString`, `tokens_whole`), and
what these numbers are read as (`Numeral.value?_ofInt`).  A character of a string is read as itself
however it is written, that is, as it is, with a short escape or with four hexadecimal digits
(`scan_escapeChar`).
-/

namespace Courier.Json

/-! ### Texts that are read whole -/

/-- Whether a token says that the text stops being JSON. -/
def Token.isBroken : Token → Bool
  | .brokenText _ | .broken _ => true
  | _ => false

/-- Whether a text has been read to its end. -/
def Whole (ts : List Token) : Prop := ∀ t ∈ ts, t.isBroken = false

instance (ts : List Token) : Decidable (Whole ts) :=
  inferInstanceAs (Decidable (∀ t ∈ ts, t.isBroken = false))

theorem whole_append {ts us : List Token} : Whole (ts ++ us) ↔ Whole ts ∧ Whole us := by
  constructor
  · intro h
    exact ⟨fun t ht => h t (List.mem_append_left us ht), fun t ht => h t (List.mem_append_right ts ht)⟩
  · rintro ⟨hts, hus⟩ t ht
    rcases List.mem_append.mp ht with ht | ht
    · exact hts t ht
    · exact hus t ht

theorem whole_cons {t : Token} {ts : List Token} :
    Whole (t :: ts) ↔ t.isBroken = false ∧ Whole ts := by
  simp [Whole]

/-- Whether a character ends a number without being a part of it. -/
def ends (c : Char) : Bool := c = ',' || c = ']' || c = '}'

/-- Where a numeral may end, it does so in front of such a character. -/
theorem Numeral.step_of_ends {c : Char} (hc : ends c = true) {part : Numeral.Part}
    (hpart : part.complete = true) (n : Numeral) : Numeral.step part n c = .over := by
  have hcases : c = ',' ∨ c = ']' ∨ c = '}' := by simpa [ends, or_assoc] using hc
  rcases hcases with rfl | rfl | rfl <;> cases part <;> first | rfl | cases hpart

/-- A character completes some tokens and reading goes on, or the text stops being JSON. -/
theorem scan_cons (s : Scan) (c : Char) :
    (∃ ts s', ∀ cs, scan s (c :: cs) = ts ++ scan s' cs) ∨
      ∃ ts, ¬ Whole ts ∧ ∀ cs, scan s (c :: cs) = ts := by
  have hbroken : ¬ Whole [.broken ⟨[], .malformed⟩] := by simp [Whole, Token.isBroken]
  have hcut (done : List Piece) : ¬ Whole [.brokenText ⟨done.reverse, .malformed⟩] := by
    simp [Whole, Token.isBroken]
  cases s with
  | between =>
    rcases hstart : Scan.start c with - | ⟨ts, s'⟩
    · exact .inr ⟨_, hbroken, fun cs => by simp only [scan, hstart]⟩
    · exact .inl ⟨ts, s', fun cs => by simp only [scan, hstart]⟩
  | word token left =>
    -- the letters of a word that are left have to come one by one
    rcases left with - | ⟨l, - | ⟨l', left⟩⟩
    · exact .inr ⟨_, hbroken, fun cs => rfl⟩
    · by_cases hc : c = l
      · exact .inl ⟨[token], .between, fun cs => by simp [scan, hc]⟩
      · exact .inr ⟨_, hbroken, fun cs => by simp [scan, hc]⟩
    · by_cases hc : c = l
      · exact .inl ⟨[], .word token (l' :: left), fun cs => by simp [scan, hc]⟩
      · exact .inr ⟨_, hbroken, fun cs => by simp [scan, hc]⟩
  | text done =>
    by_cases hquote : c = '"'
    · exact .inl ⟨[.text done.reverse], .between, fun cs => by simp [scan, hquote]⟩
    · by_cases hslash : c = '\\'
      · exact .inl ⟨[], .escape done, fun cs => by simp [scan, hslash]⟩
      · by_cases hcontrol : c.toNat < 0x20
        · exact .inr ⟨_, hcut done, fun cs => by
            simp only [scan, hquote, hslash, hcontrol, if_true, if_false]⟩
        · exact .inl ⟨[], .text (.char c :: done), fun cs => by
            simp only [scan, hquote, hslash, hcontrol, if_false, List.nil_append]⟩
  | escape done =>
    by_cases hu : c = 'u'
    · exact .inl ⟨[], .hex done [], fun cs => by simp [scan, hu]⟩
    · rcases hescape : shortEscape? c with - | e
      · exact .inr ⟨_, hcut done, fun cs => by simp only [scan, hu, hescape, if_false]⟩
      · exact .inl ⟨[], .text (.char e :: done), fun cs => by simp [scan, hu, hescape]⟩
  | hex done digits =>
    by_cases hfull : hexFull (digits ++ [c]) = true
    · rcases hunit : hexValue? (digits ++ [c]) with - | unit
      · exact .inr ⟨_, hcut done, fun cs => by simp only [scan, hfull, hunit, if_true]⟩
      · exact .inl ⟨[], .text (Piece.ofUnit unit :: done), fun cs => by simp [scan, hfull, hunit]⟩
    · exact .inl ⟨[], .hex done (digits ++ [c]), fun cs => by simp [scan, hfull]⟩
  | numeral part n =>
    rcases hstep : Numeral.step part n c with ⟨part', n'⟩ | - | -
    · -- the character goes on with the number
      exact .inl ⟨[], .numeral part' n', fun cs => by simp only [scan, hstep, List.nil_append]⟩
    · -- the number ends here, and something else begins
      rcases hstart : Scan.start c with - | ⟨ts, s'⟩
      · refine .inr ⟨[.numeral n.finish, .broken ⟨[], .malformed⟩], ?_, fun cs => by
          simp only [scan, hstep, hstart]⟩
        exact fun h => hbroken (whole_cons.mp h).2
      · exact .inl ⟨.numeral n.finish :: ts, s', fun cs => by
          simp only [scan, hstep, hstart, List.cons_append]⟩
    · exact .inr ⟨_, hbroken, fun cs => by simp only [scan, hstep]⟩

/-- What is read whole is read in the same way in front of a comma or a closing bracket. -/
theorem scan_append {c : Char} (hc : ends c = true) (rest : List Char) (s : Scan)
    (cs : List Char) (h : Whole (scan s cs)) :
    scan s (cs ++ c :: rest) = scan s cs ++ tokens (c :: rest) := by
  induction cs generalizing s with
  | nil =>
    have hfinish : Whole s.finish := h
    show scan s (c :: rest) = s.finish ++ scan .between (c :: rest)
    cases s with
    | between => rfl
    | numeral part n =>
      -- a numeral ends here if it may, and else it was not whole
      by_cases hpart : part.complete = true
      · simp only [scan, Numeral.step_of_ends hc hpart, Scan.finish, hpart, if_true]
        rcases Scan.start c with - | ⟨ts, s⟩
        · rfl
        · rfl
      · simp [Scan.finish, hpart, Whole, Token.isBroken] at hfinish
    | _ => simp [Scan.finish, Whole, Token.isBroken] at hfinish
  | cons d cs ih =>
    -- the text goes on, or it was not whole
    rcases scan_cons s d with ⟨ts, s', hgo⟩ | ⟨ts, hts, hstop⟩
    · rw [hgo] at h
      rw [List.cons_append, hgo, hgo, ih s' (whole_append.mp h).2, List.append_assoc]
    · rw [hstop] at h
      exact absurd h hts

/-- The tokens of a text in front of a comma or a closing bracket. -/
theorem tokens_append {cs : List Char} (h : Whole (tokens cs)) {c : Char} (hc : ends c = true)
    (rest : List Char) : tokens (cs ++ c :: rest) = tokens cs ++ tokens (c :: rest) :=
  scan_append hc rest .between cs h

/-! ### Strings -/

/-- The character of four hexadecimal digits. -/
theorem scan_hex (done : List Piece) {n : Nat} (hn : n < 32) (rest : List Char) :
    scan (.hex done []) ('0' :: '0' :: hexDigit (n / 16) :: hexDigit (n % 16) :: rest) =
      scan (.text (.char (Char.ofNat n) :: done)) rest := by
  have hdigits : ∀ n < 32, hexFull ['0', '0', hexDigit (n / 16)] = false ∧
      hexFull ['0', '0', hexDigit (n / 16), hexDigit (n % 16)] = true ∧
      hexValue? ['0', '0', hexDigit (n / 16), hexDigit (n % 16)] = some n := by decide
  obtain ⟨hthree, hfour, hvalue⟩ := hdigits n hn
  have hone : hexFull ['0'] = false := by decide
  have htwo : hexFull ['0', '0'] = false := by decide
  have hunit : Piece.ofUnit n = .char (Char.ofNat n) := by
    rw [Piece.ofUnit, if_neg]
    omega
  simp [scan, hone, htwo, hthree, hfour, hvalue, hunit]

/-- A character of a string is read as itself, however it is written. -/
theorem scan_escapeChar (done : List Piece) (c : Char) (rest : List Char) :
    scan (.text done) (escapeChar c ++ rest) = scan (.text (.char c :: done)) rest := by
  unfold escapeChar
  split
  · simp [scan, shortEscape?, *]
  split
  · simp [scan, shortEscape?, *]
  split
  · simp [scan, shortEscape?, *]
  split
  · simp [scan, shortEscape?, *]
  split
  · simp [scan, shortEscape?, *]
  split
  · simp [scan, shortEscape?, *]
  split
  · simp [scan, shortEscape?, *]
  split
  · -- all other control characters are written with four digits
    rename_i hcontrol
    have hhex := scan_hex done hcontrol rest
    rw [Char.ofNat_toNat] at hhex
    simpa [scan] using hhex
  · rename_i hquote hslash _ _ _ _ _ hcontrol
    simp only [List.singleton_append, scan, hquote, hslash, hcontrol, if_false]

/-- The tokens of a string are one text of its characters, whatever comes after it. -/
theorem tokens_printString (s : String) (rest : List Char) :
    tokens (printString s ++ rest) = .text (s.toList.map .char) :: tokens rest := by
  have hbody (cs : List Char) (done : List Piece) :
      scan (.text done) (cs.flatMap escapeChar ++ '"' :: rest) =
        .text (done.reverse ++ cs.map .char) :: tokens rest := by
    induction cs generalizing done with
    | nil => simp [scan, tokens]
    | cons c cs ih => simp [List.flatMap_cons, scan_escapeChar, ih]
  have hall := hbody s.toList []
  simpa [tokens, printString, scan, Scan.start] using hall

/-- Characters spell themselves. -/
theorem spell?_map_char (cs : List Char) : Piece.spell? (cs.map .char) = some cs := by
  induction cs with
  | nil => rfl
  | cons c cs ih => simp [Piece.spell?, ih]

/-! ### Whole numbers -/

theorem digit?_digitChar {d : Nat} (h : d < 10) : digit? (Nat.digitChar d) = some d := by
  have hall : ∀ d < 10, digit? (Nat.digitChar d) = some d := by decide
  exact hall d h

/-- Digits are read one by one, once the first one has been read. -/
theorem scan_toDigits {s : Scan} {negative : Bool}
    (hfirst : ∀ d < 10, 0 < d → ∀ rest, scan s (Nat.digitChar d :: rest) =
      scan (.numeral .whole ⟨negative, [d], [], none, false⟩) rest) {n : Nat} (hn : 0 < n)
    (rest : List Char) :
    scan s (Nat.toDigits 10 n ++ rest) =
      scan (.numeral .whole ⟨negative, Nat.digits 10 n, [], none, false⟩) rest := by
  -- by strong induction: the last digit is read after those of the quotient
  induction n using Nat.strongRecOn generalizing rest with
  | ind n ih =>
    by_cases hlt : n < 10
    · rw [Nat.toDigits_of_lt_base hlt, Nat.digits_of_lt 10 n (Nat.ne_of_gt hn) hlt]
      exact hfirst n hlt hn rest
    · have hdiv : 0 < n / 10 := Nat.div_pos (Nat.not_lt.mp hlt) (by decide)
      have hstep := ih (n / 10) (Nat.div_lt_self hn (by decide)) hdiv
        (Nat.digitChar (n % 10) :: rest)
      have hdigit := digit?_digitChar (Nat.mod_lt n (by decide : 0 < 10))
      rw [Nat.toDigits_eq_if (by decide), if_neg hlt, Nat.digits_def' (by decide) hn,
        List.append_assoc, List.singleton_append, hstep]
      simp only [scan, Numeral.step, hdigit]

/-- The numeral of a whole number. -/
def Numeral.ofInt (n : Int) : Numeral :=
  ⟨n < 0, if n = 0 then [0] else (Nat.digits 10 n.natAbs).reverse, [], none, false⟩

theorem print_ofNat (n : Nat) : (Number.whole n).print = Nat.toDigits 10 n := by
  simp [Number.print, toString, Int.repr, Nat.repr]

theorem print_negSucc (n : Nat) :
    (Number.whole (Int.negSucc n)).print = '-' :: Nat.toDigits 10 (n + 1) := by
  simp [Number.print, toString, Int.repr, Nat.repr]

/-- The tokens of a whole number are one numeral. -/
theorem tokens_whole (n : Int) : tokens (Number.whole n).print = [.numeral (.ofInt n)] := by
  cases n with
  | ofNat n =>
    have hfirst : ∀ d < 10, 0 < d → ∀ rest, scan .between (Nat.digitChar d :: rest) =
        scan (.numeral .whole ⟨false, [d], [], none, false⟩) rest := by
      intro d hd hpos rest
      interval_cases d <;> rfl
    rcases Nat.eq_zero_or_pos n with rfl | hn
    · decide
    · have hne : ((n : Int) = 0) = False := by simp [Nat.ne_of_gt hn]
      have hscan := scan_toDigits hfirst hn []
      rw [List.append_nil] at hscan
      show tokens (Number.whole n).print = [.numeral (.ofInt n)]
      rw [print_ofNat, tokens, hscan]
      simp only [Numeral.ofInt, hne, scan, Scan.finish, Numeral.Part.complete, Numeral.finish]
      simp
  | negSucc n =>
    have hfirst : ∀ d < 10, 0 < d → ∀ rest,
        scan (.numeral .sign ⟨true, [], [], none, false⟩) (Nat.digitChar d :: rest) =
          scan (.numeral .whole ⟨true, [d], [], none, false⟩) rest := by
      intro d hd hpos rest
      interval_cases d <;> rfl
    have hscan := scan_toDigits hfirst (Nat.succ_pos n) []
    rw [List.append_nil] at hscan
    have hsign : tokens ('-' :: Nat.toDigits 10 (n + 1)) =
        scan (.numeral .sign ⟨true, [], [], none, false⟩) (Nat.toDigits 10 (n + 1)) := rfl
    rw [print_negSucc, hsign, hscan]
    simp [Numeral.ofInt, scan, Scan.finish, Numeral.Part.complete, Numeral.finish]

theorem takeDigits_concat {m v d : Nat} {ds : List Nat} (h : takeDigits m ds = (v, []))
    (hd : 10 * v + d < bound64) : takeDigits m (ds ++ [d]) = (10 * v + d, []) := by
  induction ds generalizing m with
  | nil =>
    obtain rfl : m = v := congrArg Prod.fst h
    simp [takeDigits, hd]
  | cons e ds ih =>
    rw [List.cons_append, takeDigits]
    rw [takeDigits] at h
    split at h
    · rename_i hlt
      rw [if_pos hlt]
      exact ih h
    · cases h

/-- The digits of a number that fits in 64 bits are all taken. -/
theorem takeDigits_digits {n : Nat} (hn : n < bound64) :
    takeDigits 0 (Nat.digits 10 n).reverse = (n, []) := by
  induction n using Nat.strongRecOn with
  | ind n ih =>
    rcases Nat.eq_zero_or_pos n with rfl | hpos
    · rfl
    · have hrest := ih (n / 10) (Nat.div_lt_self hpos (by decide))
        (Nat.lt_of_le_of_lt (Nat.div_le_self n 10) hn)
      have hvalue : 10 * (n / 10) + n % 10 = n := Nat.div_add_mod n 10
      rw [Nat.digits_def' (by decide) hpos, List.reverse_cons,
        takeDigits_concat hrest (by rw [hvalue]; exact hn), hvalue]

/-- A whole number that is exact is read as itself. -/
theorem Numeral.value?_ofInt {n : Int} (h : isExact n = true) :
    (Numeral.ofInt n).value? = some (.whole n) := by
  obtain ⟨hlow, hhigh⟩ : -(bound63 : Int) ≤ n ∧ n < bound64 := by simpa [isExact] using h
  unfold bound63 at hlow
  unfold bound64 at hhigh
  have hnat : n.natAbs < bound64 := by
    show n.natAbs < 18446744073709551616
    omega
  have htake : takeDigits 0 (ofInt n).whole = (n.natAbs, []) := by
    -- zero is written as one digit, though it has none in base ten
    by_cases hn : n = 0
    · subst hn
      decide
    · simp only [ofInt, hn, if_false]
      exact takeDigits_digits hnat
  -- a minus sign never stands before zero, nor before more than can be negative
  have hsigned : ¬ ((ofInt n).negative = true ∧ (n.natAbs = 0 ∨ bound63 < n.natAbs)) := by
    rintro ⟨hnegative, hbad⟩
    have hnegative : n < 0 := of_decide_eq_true hnegative
    rcases hbad with hzero | hlarge
    · omega
    · have hlarge : 9223372036854775808 < n.natAbs := hlarge
      omega
  have hpointed : (ofInt n).pointed = false := rfl
  rw [value?, htake]
  simp only [hpointed, hsigned, decide_false, Bool.not_false, List.isEmpty_nil, and_self, if_true]
  congr 2
  by_cases hn : n < 0
  · have hnegative : (ofInt n).negative = true := decide_eq_true hn
    rw [if_pos hnegative]
    omega
  · have hnegative : ¬ (ofInt n).negative = true := by simpa [ofInt] using hn
    rw [if_neg hnegative]
    omega

end Courier.Json
