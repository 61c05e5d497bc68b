/-!
Punycode: labels of domain names in ASCII.

The characters beyond ASCII of a label are written after its ASCII characters as a sequence of
insertions, in ascending order of the characters.
-/

namespace Courier.Text.Punycode

/-- The digit of a number below 36. -/
def digit (n : Nat) : Char := if n < 26 then Char.ofNat (97 + n) else Char.ofNat (22 + n)

/-- Divides until a number is small, counting steps of the base. -/
def reduce : Nat → Nat → Nat → Nat × Nat
  | 0, delta, k => (delta, k)
  | n + 1, delta, k => if delta > 455 then reduce n (delta / 35) (k + 36) else (delta, k)

/-- The bias after an insertion. -/
def adapt (delta count : Nat) (first : Bool) : Nat :=
  let delta := if first then delta / 700 else delta / 2
  let (delta, k) := reduce delta (delta + delta / count) 0
  k + 36 * delta / (delta + 38)

/-- A number in digits of a base that depends on the bias. -/
def varint (bias : Nat) : Nat → Nat → Nat → List Char
  | 0, _, _ => []
  | n + 1, k, q =>
    let t := if k ≤ bias then 1 else if k ≥ bias + 26 then 26 else k - bias
    if q < t then [digit q]
    else digit (t + (q - t) % (36 - t)) :: varint bias n (k + 36) ((q - t) / (36 - t))

/-- The state of an encoding: characters written, distance, bias and output. -/
structure State where
  handled : Nat
  delta : Nat
  bias : Nat
  first : Bool
  output : List Char

/-- Goes over the label once for the character `n`, writing an insertion for every one of it. -/
def pass (n : Nat) (label : List Char) (s : State) : State :=
  label.foldl (fun s c =>
    if c.toNat < n then { s with delta := s.delta + 1 }
    else if c.toNat = n then
      { handled := s.handled + 1
        delta := 0
        bias := adapt s.delta (s.handled + 1) s.first
        first := false
        output := s.output ++ varint s.bias (s.delta + 2) 36 s.delta }
    else s) s

/-- The code of a label. -/
def encode (label : List Char) : List Char :=
  let basic := label.filter fun c => c.toNat < 128
  let extended := ((label.filter fun c => 128 ≤ c.toNat).map Char.toNat).mergeSort.eraseDups
  let start := basic ++ (if basic.isEmpty then [] else ['-'])
  let (s, _) := extended.foldl (fun (s, n) m =>
    let s := { s with delta := s.delta + (m - n) * (s.handled + 1) }
    let s := pass m label s
    ({ s with delta := s.delta + 1 }, m + 1)) (State.mk basic.length 0 72 true start, 128)
  s.output

end Courier.Text.Punycode
