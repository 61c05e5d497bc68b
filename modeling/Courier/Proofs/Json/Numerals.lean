import Courier.Proofs.Json.Scanning
import Courier.Proofs.Number.Rounding

/-!
Numerals and what they say.

A numeral is scanned digit by digit, and the part that the scanner is in says what may come next.
`Numeral.written` is its text, made of a sign, a whole part, a fraction and an exponent, each
scanned by a lemma of its own (`scan_whole`, `scan_fraction`, `scan_exponent`) whose result the next
one starts from.  Together they say that the text is scanned as the numeral (`tokens_written`), if
the numeral is one that a text can have (`Regular`): digits below ten, no leading zeros, and a point
or an exponent just if it is said to be there.

Only so many digits count as fit in 64 bits (`takeDigits`), and those left over only count as
places.  So the number that a numeral says is not always the double next to its `magnitude`.  But
what is kept of the digits is not more than that, so only the two errors of rounding can lead above
it.

Main statements: what a numeral says is sound, whole numbers in their range and doubles canonical
(`Numeral.sound_of_value?`), and a numeral says something if its magnitude is some way below the
overflow (`Numeral.exists_value?`).
-/

namespace Courier.Json

/-! ### Numerals as they are written -/

/-- Digits as they are written. -/
def writeDigits (ds : List ℕ) : List Char := ds.map Nat.digitChar

/-- The digits behind the point, if there are any. -/
def writeFraction (ds : List ℕ) : List Char := if ds = [] then [] else '.' :: writeDigits ds

/-- An exponent with its sign. -/
def writeExponent : Option (Bool × List ℕ) → List Char
  | none => []
  | some (negative, ds) => 'e' :: (if negative then '-' else '+') :: writeDigits ds

namespace Numeral

/-- A numeral as it is written. -/
def written (n : Numeral) : List Char :=
  (if n.negative then ['-'] else []) ++ writeDigits n.whole ++
    (writeFraction n.fraction ++ writeExponent n.exponent)

/-- Whether a numeral can be written: its digits are decimal ones, no zero leads them, and it says
truly whether it has a point or an exponent. -/
structure Regular (n : Numeral) : Prop where
  whole_lt : ∀ d ∈ n.whole, d < 10
  fraction_lt : ∀ d ∈ n.fraction, d < 10
  exponent_lt : ∀ e ∈ n.exponent, e.2 ≠ [] ∧ ∀ d ∈ e.2, d < 10
  lead : n.whole = [0] ∨ ∃ d ds, n.whole = d :: ds ∧ 0 < d
  pointed_iff : n.pointed = true ↔ n.fraction ≠ [] ∨ n.exponent ≠ none

/-! ### Reading what is written -/

/-- Digits are read into the part of the numeral that they belong to. -/
theorem scan_digits {part : Part} {put : List ℕ → Numeral}
    (hstep : ∀ done, ∀ d < 10,
      step part (put done) (Nat.digitChar d) = .extended part (put (d :: done)))
    {ds : List ℕ} (hds : ∀ d ∈ ds, d < 10) (done : List ℕ) (rest : List Char) :
    scan (.numeral part (put done)) (writeDigits ds ++ rest) =
      scan (.numeral part (put (ds.reverse ++ done))) rest := by
  induction ds generalizing done with
  | nil => rfl
  | cons d ds ih =>
    obtain ⟨hd, hds⟩ := List.forall_mem_cons.mp hds
    have hread : scan (.numeral part (put done)) (Nat.digitChar d :: (writeDigits ds ++ rest)) =
        scan (.numeral part (put (d :: done))) (writeDigits ds ++ rest) := by
      rw [scan, hstep done d hd]
    show scan (.numeral part (put done)) (Nat.digitChar d :: (writeDigits ds ++ rest)) = _
    rw [hread, ih hds, List.reverse_cons, List.append_assoc]
    rfl

/-- Whether a point or an exponent may follow this part. -/
def Part.isWhole : Part → Bool
  | .zero | .whole => true
  | _ => false

/-- Sign and whole part. -/
theorem scan_whole {n : Numeral} (h : n.Regular) (rest : List Char) :
    ∃ part : Part, part.isWhole = true ∧
      scan .between ((if n.negative then ['-'] else []) ++ writeDigits n.whole ++ rest) =
        scan (.numeral part ⟨n.negative, n.whole.reverse, [], none, false⟩) rest := by
  have hlead := h.lead
  have hdigits := h.whole_lt
  generalize n.whole = ds at hlead hdigits ⊢
  generalize n.negative = negative
  -- a whole part of one zero, or one that begins with another digit
  rcases hlead with rfl | ⟨d, ds, rfl, hd⟩
  · refine ⟨.zero, rfl, ?_⟩
    cases negative <;> rfl
  · obtain ⟨hlt, hds⟩ := List.forall_mem_cons.mp hdigits
    refine ⟨.whole, rfl, ?_⟩
    have hfirst : scan .between ((if negative then ['-'] else []) ++ writeDigits (d :: ds) ++ rest) =
        scan (.numeral .whole ⟨negative, [d], [], none, false⟩) (writeDigits ds ++ rest) := by
      -- the first digit is not read like the others, as a zero would end the whole part
      cases negative <;> interval_cases d <;> rfl
    have hstep : ∀ done, ∀ e < 10, step .whole ⟨negative, done, [], none, false⟩ (Nat.digitChar e) =
        .extended .whole ⟨negative, e :: done, [], none, false⟩ := by
      intro done e he
      simp only [step, digit?_digitChar he]
    rw [hfirst, scan_digits hstep hds, List.reverse_cons]

theorem scan_fraction {part : Part} (hpart : part.isWhole = true) (negative : Bool)
    (whole : List ℕ) {ds : List ℕ} (hds : ∀ d ∈ ds, d < 10) (rest : List Char) :
    ∃ next : Part, (next.isWhole = true ∨ next = .fraction) ∧
      scan (.numeral part ⟨negative, whole, [], none, false⟩) (writeFraction ds ++ rest) =
        scan (.numeral next ⟨negative, whole, ds.reverse, none, !ds.isEmpty⟩) rest := by
  -- without a fraction nothing is read, else the point comes first
  rcases ds with - | ⟨d, ds⟩
  · exact ⟨part, .inl hpart, rfl⟩
  obtain ⟨hd, hds⟩ := List.forall_mem_cons.mp hds
  have hpoint : step part ⟨negative, whole, [], none, false⟩ '.' =
      .extended .point ⟨negative, whole, [], none, true⟩ := by
    cases part <;> first | rfl | cases hpart
  have hfirst : step .point ⟨negative, whole, [], none, true⟩ (Nat.digitChar d) =
      .extended .fraction ⟨negative, whole, [d], none, true⟩ := by
    simp only [step, digit?_digitChar hd]
  have hstep : ∀ done, ∀ e < 10, step .fraction ⟨negative, whole, done, none, true⟩ (Nat.digitChar e) =
      .extended .fraction ⟨negative, whole, e :: done, none, true⟩ := by
    intro done e he
    simp only [step, digit?_digitChar he]
  have hrest := scan_digits hstep hds [d] rest
  rw [← List.reverse_cons] at hrest
  refine ⟨.fraction, .inr rfl, Eq.trans ?_ hrest⟩
  show scan _ ('.' :: Nat.digitChar d :: (writeDigits ds ++ rest)) = _
  simp only [scan, hpoint, hfirst]

theorem scan_exponent {part : Part} (hpart : part.isWhole = true ∨ part = .fraction)
    (negative : Bool) (whole fraction : List ℕ) (pointed sign : Bool) {ds : List ℕ} (hne : ds ≠ [])
    (hds : ∀ d ∈ ds, d < 10) :
    scan (.numeral part ⟨negative, whole, fraction, none, pointed⟩) (writeExponent (some (sign, ds))) =
      scan (.numeral .exponent ⟨negative, whole, fraction, some (sign, ds.reverse), true⟩) [] := by
  rcases ds with - | ⟨d, ds⟩
  · exact absurd rfl hne
  obtain ⟨hd, hds⟩ := List.forall_mem_cons.mp hds
  have hmark : step part ⟨negative, whole, fraction, none, pointed⟩ 'e' =
      .extended .mark ⟨negative, whole, fraction, some (false, []), true⟩ := by
    -- the mark may come behind a whole part or behind a fraction
    rcases hpart with hpart | rfl
    · cases part <;> first | rfl | cases hpart
    · rfl
  have hsign : step .mark ⟨negative, whole, fraction, some (false, []), true⟩
      (if sign then '-' else '+') =
      .extended .markSign ⟨negative, whole, fraction, some (sign, []), true⟩ := by
    cases sign <;> rfl
  have hfirst : step .markSign ⟨negative, whole, fraction, some (sign, []), true⟩ (Nat.digitChar d) =
      .extended .exponent ⟨negative, whole, fraction, some (sign, [d]), true⟩ := by
    simp only [step, digit?_digitChar hd, Option.map_some]
  have hstep : ∀ done, ∀ e < 10, step .exponent ⟨negative, whole, fraction, some (sign, done), true⟩
      (Nat.digitChar e) =
      .extended .exponent ⟨negative, whole, fraction, some (sign, e :: done), true⟩ := by
    intro done e he
    simp only [step, digit?_digitChar he, Option.map_some]
  have hrest := scan_digits hstep hds [d] []
  rw [← List.reverse_cons, List.append_nil] at hrest
  refine Eq.trans ?_ hrest
  show scan _ ('e' :: (if sign then '-' else '+') :: Nat.digitChar d :: writeDigits ds) = _
  simp only [scan, hmark, hsign, hfirst]

/-- What is written is read as the numeral. -/
theorem tokens_written {n : Numeral} (h : n.Regular) : tokens n.written = [.numeral n] := by
  obtain ⟨first, hfirst, hwhole⟩ := scan_whole h (writeFraction n.fraction ++ writeExponent n.exponent)
  obtain ⟨second, hsecond, hfraction⟩ := scan_fraction hfirst n.negative n.whole.reverse
    h.fraction_lt (writeExponent n.exponent)
  have hexponent := h.exponent_lt
  have hpointed := h.pointed_iff
  rw [tokens, written, hwhole, hfraction]
  obtain ⟨negative, whole, fraction, exponent, pointed⟩ := n
  -- what has been scanned so far is a numeral, and an exponent may follow
  rcases exponent with - | ⟨sign, ds⟩
  · have hcomplete : second.complete = true := by
      rcases hsecond with hsecond | rfl
      · cases second <;> first | rfl | cases hsecond
      · rfl
    have hpointed : pointed = !fraction.isEmpty := by
      cases pointed <;> cases fraction <;> simp_all
    simp [writeExponent, scan, Scan.finish, hcomplete, finish, hpointed]
  · obtain ⟨hne, hds⟩ := hexponent _ rfl
    have hpointed : pointed = true := by simpa using hpointed
    rw [scan_exponent hsecond negative whole.reverse fraction.reverse (!fraction.isEmpty) sign hne hds]
    simp [scan, Scan.finish, Part.complete, finish, hpointed]

/-! ### The value of a numeral -/

/-- The power of ten that the exponent of a numeral says. -/
def power (n : Numeral) : ℤ :=
  match n.exponent with
  | none => 0
  | some (negative, ds) => if negative then -(digitsValue ds : ℤ) else digitsValue ds

/-- The magnitude that a numeral denotes. -/
def magnitude (n : Numeral) : ℚ :=
  digitsValue (n.whole ++ n.fraction) * 10 ^ (n.power - n.fraction.length)

end Numeral

theorem mul_pow_le_foldl (n : ℕ) (ds : List ℕ) :
    n * 10 ^ ds.length ≤ ds.foldl (fun n d => 10 * n + d) n := by
  induction ds generalizing n with
  | nil => simp
  | cons d ds ih =>
    refine le_trans ?_ (ih (10 * n + d))
    rw [List.length_cons, pow_succ, mul_comm (10 ^ ds.length) 10, ← mul_assoc, mul_comm n 10]
    exact Nat.mul_le_mul_right _ (Nat.le_add_right _ d)

/-- Digits that are taken make up the front of a number. -/
theorem takeDigits_le {n kept : ℕ} {ds left : List ℕ} (h : takeDigits n ds = (kept, left)) :
    kept * 10 ^ left.length ≤ ds.foldl (fun n d => 10 * n + d) n := by
  induction ds generalizing n with
  | nil =>
    cases h
    simp
  | cons d ds ih =>
    rw [takeDigits] at h
    split at h
    · exact ih h
    · cases h
      exact mul_pow_le_foldl _ (d :: ds)

theorem takeDigits_lt {n kept : ℕ} {ds left : List ℕ} (h : takeDigits n ds = (kept, left))
    (hn : n < bound64) : kept < bound64 := by
  induction ds generalizing n with
  | nil =>
    cases h
    exact hn
  | cons d ds ih =>
    rw [takeDigits] at h
    split at h
    · exact ih h ‹_›
    · cases h
      exact hn

/-- Nineteen digits fit in 64 bits. -/
theorem takeDigits_eq {n : ℕ} {ds : List ℕ} (hds : ∀ d ∈ ds, d < 10)
    (h : (n + 1) * 10 ^ ds.length ≤ 10 ^ 19) :
    takeDigits n ds = (ds.foldl (fun n d => 10 * n + d) n, []) := by
  induction ds generalizing n with
  | nil => rfl
  | cons d ds ih =>
    obtain ⟨hd, hds⟩ := List.forall_mem_cons.mp hds
    have hnext : (10 * n + d + 1) * 10 ^ ds.length ≤ 10 ^ 19 := by
      refine le_trans ?_ h
      rw [List.length_cons, pow_succ, mul_comm (10 ^ ds.length) 10, ← mul_assoc]
      exact Nat.mul_le_mul_right _ (by omega)
    have hfits : 10 * n + d < bound64 := by
      have hle : 10 * n + d + 1 ≤ 10 ^ 19 :=
        (Nat.le_mul_of_pos_right _ (Nat.pow_pos (by decide))).trans hnext
      unfold bound64
      omega
    rw [takeDigits, if_pos hfits, ih hds hnext]
    rfl

/-- Whether a number is one that a text can say: a whole one that fits in 64 bits, or a double in
canonical form. -/
def Number.Sound : Number → Prop
  | .whole n => isExact n = true
  | .real x => x.Canonical

namespace Numeral

open Binary64

/-- The digits of a numeral that count, and the power of ten that goes with them. -/
theorem value?_pointed {n : Numeral} (hpointed : n.pointed = true) :
    n.value? = ((ofNat (takeDigits (takeDigits 0 n.whole).1 n.fraction).1).scaleByTen
      ((takeDigits 0 n.whole).2.length - (n.fraction.length -
        (takeDigits (takeDigits 0 n.whole).1 n.fraction).2.length) + n.power)).map
        fun x => .real (if n.negative then x.neg else x) := by
  unfold value?
  simp only [hpointed, Bool.not_true, Bool.false_eq_true, false_and, if_false]
  rfl

theorem kept_lt (whole fraction : List ℕ) :
    (takeDigits (takeDigits 0 whole).1 fraction).1 < bound64 :=
  takeDigits_lt rfl (takeDigits_lt rfl (by decide))

/-- What a numeral denotes can be said. -/
theorem sound_of_value? {n : Numeral} {v : Number} (h : n.value? = some v) : v.Sound := by
  unfold value? at h
  dsimp only at h
  split at h
  · -- a whole number in its range
    rename_i hwhole
    obtain ⟨-, -, hbounds⟩ := hwhole
    have hkept : (takeDigits 0 n.whole).1 < bound64 := takeDigits_lt rfl (by decide)
    cases h
    unfold bound64 at hkept
    simp only [Number.Sound, isExact, Bool.and_eq_true, decide_eq_true_eq]
    unfold bound64 bound63
    cases hnegative : n.negative with
    | false =>
      simp only [Bool.false_eq_true, if_false]
      omega
    | true =>
      have hbounds : ¬ bound63 < (takeDigits 0 n.whole).1 := by
        intro hlarge
        simp [hnegative, hlarge] at hbounds
      unfold bound63 at hbounds
      simp only [if_true]
      omega
  · -- a double, which is rounded and canonical either way
    obtain ⟨x, hx, rfl⟩ := Option.map_eq_some_iff.mp h
    have hcanonical :=
      (roundsTo_ofNat_of_lt (kept_lt n.whole n.fraction)).canonical.scaleByTen hx
    show Binary64.Canonical _
    split
    · exact hcanonical.neg
    · exact hcanonical

/-- A numeral that is not too large has a value. -/
theorem exists_value? {n : Numeral} (hpointed : n.pointed = true) (hdigits : ∀ d ∈ n.whole, d < 10)
    (hlength : n.whole.length ≤ 19)
    (hsmall : n.magnitude * (1 + 1 / (2 * leastNormal)) ^ 2 < overflow) :
    ∃ v, n.value? = some v := by
  have hpow : (0 + 1) * 10 ^ n.whole.length ≤ 10 ^ 19 := by
    rw [Nat.zero_add, Nat.one_mul]
    exact Nat.pow_le_pow_right (by decide) hlength
  -- all digits of the whole part count
  have hwhole := takeDigits_eq hdigits hpow
  have hlt := kept_lt n.whole n.fraction
  rw [value?_pointed hpointed]
  rw [hwhole] at hlt ⊢
  rcases htake : takeDigits (n.whole.foldl (fun n d => 10 * n + d) 0) n.fraction with ⟨kept, unread⟩
  rw [htake] at hlt
  obtain ⟨e, he⟩ : ∃ e : ℤ, (([] : List ℕ).length : ℤ) - (n.fraction.length - unread.length) +
      n.power = e := ⟨_, rfl⟩
  simp only [he]
  -- the digits that are kept, at their power, are not more than the numeral
  have hkept : (kept : ℚ) * 10 ^ e ≤ n.magnitude := by
    have hfront := takeDigits_le htake
    rw [← List.foldl_append] at hfront
    have hfront : (kept : ℚ) * 10 ^ unread.length ≤ digitsValue (n.whole ++ n.fraction) := by
      exact_mod_cast hfront
    have hpower : (10 : ℚ) ^ e = 10 ^ unread.length * 10 ^ (n.power - n.fraction.length) := by
      rw [← zpow_natCast, ← zpow_add₀ (by norm_num), ← he]
      congr 1
      simp only [List.length_nil]
      omega
    rw [hpower, ← mul_assoc]
    exact mul_le_mul_of_nonneg_right hfront (zpow_nonneg (by norm_num) _)
  have hfits : (kept : ℚ) * 10 ^ e * (1 + 1 / (2 * leastNormal)) ^ 2 < overflow :=
    (mul_le_mul_of_nonneg_right hkept (by positivity)).trans_lt hsmall
  obtain ⟨y, hy⟩ := exists_scaleByTen_ofNat hlt hfits
  exact ⟨_, by rw [hy]; rfl⟩

end Numeral

end Courier.Json
