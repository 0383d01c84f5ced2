/-!
# Decimals

A decimal is a number as it is written: a sign, digits with a point anywhere among them, and a power of
ten behind an `e`.  One digit is all that is required.  `Decimal.read?` reads such a text; `float?` reads
also the two infinities and the text for what is no number, in letters of either case.
-/

namespace Growable.Text

/-- A number in writing: `± digits · 10 ^ exponent`. -/
structure Decimal where
  negative : Bool
  digits : Nat
  exponent : Int
  deriving DecidableEq

namespace Decimal

/-- The closest binary floating-point number.  From `10 ^ 309` on that is infinity, and below
`10 ^ (-324)` it is zero; the digits are fewer than `10 ^ (log2 + 1)`. -/
def toFloat (d : Decimal) : Float :=
  let magnitude : Float :=
    if d.digits = 0 ∨ d.exponent + d.digits.log2 + 1 ≤ -324 then 0.0
    else if 309 ≤ d.exponent then 1.0 / 0.0
    else Float.ofScientific d.digits (d.exponent < 0) d.exponent.natAbs
  if d.negative then -magnitude else magnitude

/-- A decimal in writing. -/
def text (d : Decimal) : String :=
  (if d.negative then "-" else "") ++ s!"{d.digits}e{d.exponent}"

/-- The number that decimal digits denote. -/
def digitsValue (digits : List Char) : Nat :=
  digits.foldl (fun n c => 10 * n + (c.toNat - '0'.toNat)) 0

/-- Takes decimal digits off the front, at least one of them. -/
def digits? (cs : List Char) : Option (List Char × List Char) :=
  match cs.takeWhile Char.isDigit with
  | [] => none
  | digits => some (digits, cs.dropWhile Char.isDigit)

/-- Takes the exponent off the front, if there is one. -/
def exponent? (cs : List Char) : Option (Option Int × List Char) :=
  match cs with
  | 'e' :: '-' :: rest | 'E' :: '-' :: rest => do
    let (digits, rest) ← digits? rest
    return (some (-(digitsValue digits : Int)), rest)
  | 'e' :: '+' :: rest | 'E' :: '+' :: rest | 'e' :: rest | 'E' :: rest => do
    let (digits, rest) ← digits? rest
    return (some (digitsValue digits), rest)
  | rest => some (none, rest)

/-- Takes the sign off the front; a number without sign is not negative. -/
def sign : List Char → Bool × List Char
  | '-' :: rest => (true, rest)
  | '+' :: rest => (false, rest)
  | rest => (false, rest)

/-- The decimal that characters without sign are the writing of. -/
def unsigned? (negative : Bool) (cs : List Char) : Option Decimal := do
  let whole := cs.takeWhile Char.isDigit
  let (fraction, rest) :=
    match cs.dropWhile Char.isDigit with
    | '.' :: rest => (rest.takeWhile Char.isDigit, rest.dropWhile Char.isDigit)
    | rest => ([], rest)
  if whole = [] ∧ fraction = [] then
    none
  let (exponent, rest) ← exponent? rest
  if rest ≠ [] then
    none
  return ⟨negative, digitsValue (whole ++ fraction), exponent.getD 0 - fraction.length⟩

/-- The decimal that a text is the writing of. -/
def read? (text : String) : Option Decimal :=
  let (negative, cs) := sign text.toList
  unsigned? negative cs

end Decimal

/-- The floating-point number that a text is the writing of. -/
def float? (text : String) : Option Float :=
  let (negative, cs) := Decimal.sign text.toList
  let word := String.ofList (cs.map Char.toLower)
  if word = "nan" then
    some (0.0 / 0.0)
  else if word = "inf" ∨ word = "infinity" then
    some (if negative then -1.0 / 0.0 else 1.0 / 0.0)
  else
    (Decimal.unsigned? negative cs).map Decimal.toFloat

end Growable.Text
