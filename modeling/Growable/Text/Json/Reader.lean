import Growable.Text.Json

/-!
# Reading JSON

A reader takes a value off the front of a list of characters and leaves the rest; `Json.read?` reads a
whole text, which may have blanks around the value.  Every reader takes at least one character for each
value it makes, so that the length of the text bounds the work.
-/

namespace Growable.Text.Json

/-- Blanks between the parts of a value. -/
def isBlank (c : Char) : Bool := c = ' ' || c = '\t' || c = '\n' || c = '\r'

/-- Leaves blanks out. -/
def skipBlanks (cs : List Char) : List Char := cs.dropWhile isBlank

/-- Takes a fixed text off the front. -/
def literal? (text : List Char) (cs : List Char) : Option (List Char) :=
  if text.isPrefixOf cs then some (cs.drop text.length) else none

/-- The value of a hexadecimal digit. -/
def hexValue? (c : Char) : Option Nat :=
  if '0' ≤ c ∧ c ≤ '9' then some (c.toNat - '0'.toNat)
  else if 'a' ≤ c ∧ c ≤ 'f' then some (c.toNat - 'a'.toNat + 10)
  else if 'A' ≤ c ∧ c ≤ 'F' then some (c.toNat - 'A'.toNat + 10)
  else none

/-- Takes four hexadecimal digits off the front. -/
def unit? : List Char → Option (Nat × List Char)
  | a :: b :: c :: d :: rest => do
    let a ← hexValue? a
    let b ← hexValue? b
    let c ← hexValue? c
    let d ← hexValue? d
    return (((a * 16 + b) * 16 + c) * 16 + d, rest)
  | _ => none

/-- Takes the character off the front that follows a backslash and a `u`: one code unit, or two that
stand for one character together. -/
def escapedUnit? (cs : List Char) : Option (Char × List Char) := do
  let (high, rest) ← unit? cs
  if 0xD800 ≤ high ∧ high ≤ 0xDBFF then
    let rest ← literal? ['\\', 'u'] rest
    let (low, rest) ← unit? rest
    if 0xDC00 ≤ low ∧ low ≤ 0xDFFF then
      return (Char.ofNat (0x10000 + (high - 0xD800) * 0x400 + (low - 0xDC00)), rest)
    else
      none
  else if 0xDC00 ≤ high ∧ high ≤ 0xDFFF then
    none
  else
    return (Char.ofNat high, rest)

/-- Takes the character off the front that follows a backslash. -/
def escape? : List Char → Option (Char × List Char)
  | '"' :: rest => some ('"', rest)
  | '\\' :: rest => some ('\\', rest)
  | '/' :: rest => some ('/', rest)
  | 'b' :: rest => some ('\x08', rest)
  | 'f' :: rest => some ('\x0c', rest)
  | 'n' :: rest => some ('\n', rest)
  | 'r' :: rest => some ('\r', rest)
  | 't' :: rest => some ('\t', rest)
  | 'u' :: rest => escapedUnit? rest
  | _ => none

/-- Takes the inside of a string and the closing quote off the front. -/
def stringTail? (fuel : Nat) (made : List Char) (cs : List Char) : Option (String × List Char) :=
  match fuel, cs with
  | 0, _ => none
  | _, [] => none
  | _, '"' :: rest => some (String.ofList made.reverse, rest)
  | fuel + 1, '\\' :: rest => do
    let (c, rest) ← escape? rest
    stringTail? fuel (c :: made) rest
  | fuel + 1, c :: rest =>
    if c.toNat < 32 then none else stringTail? fuel (c :: made) rest

/-- Takes the fraction off the front, if there is one. -/
def fraction? : List Char → Option (List Char × List Char)
  | '.' :: rest => Decimal.digits? rest
  | rest => some ([], rest)

/-- Takes a number without sign off the front. -/
def number? (negative : Bool) (cs : List Char) : Option (Json × List Char) := do
  let (whole, rest) ← Decimal.digits? cs
  if whole.length > 1 ∧ whole.head? = some '0' then
    none
  let (fraction, rest) ← fraction? rest
  let (exponent, rest) ← Decimal.exponent? rest
  let digits := Decimal.digitsValue (whole ++ fraction)
  if fraction = [] ∧ exponent = none ∧ ¬(negative ∧ digits = 0) then
    return (integer (if negative then -digits else digits), rest)
  else
    return (decimal ⟨negative, digits, exponent.getD 0 - fraction.length⟩, rest)

mutual

/-- Takes a value off the front. -/
def value? (fuel : Nat) (cs : List Char) : Option (Json × List Char) :=
  match fuel with
  | 0 => none
  | fuel + 1 =>
    match cs with
    | 'n' :: rest => (literal? ['u', 'l', 'l'] rest).map (null, ·)
    | 't' :: rest => (literal? ['r', 'u', 'e'] rest).map (bool true, ·)
    | 'f' :: rest => (literal? ['a', 'l', 's', 'e'] rest).map (bool false, ·)
    | '"' :: rest => (stringTail? (rest.length + 1) [] rest).map fun (s, rest) => (string s, rest)
    | '-' :: rest => number? true rest
    | '[' :: rest =>
      match skipBlanks rest with
      | ']' :: rest => some (array [], rest)
      | rest => (items? fuel [] rest).map fun (items, rest) => (array items, rest)
    | '\x7b' :: rest =>
      match skipBlanks rest with
      | '\x7d' :: rest => some (object [], rest)
      | rest => (members? fuel [] rest).map fun (members, rest) => (object members, rest)
    | cs => number? false cs

/-- Takes values and the closing bracket off the front. -/
def items? (fuel : Nat) (made : List Json) (cs : List Char) : Option (List Json × List Char) :=
  match fuel with
  | 0 => none
  | fuel + 1 => do
    let (item, rest) ← value? fuel cs
    match skipBlanks rest with
    | ',' :: rest => items? fuel (item :: made) (skipBlanks rest)
    | ']' :: rest => return ((item :: made).reverse, rest)
    | _ => none

/-- Takes named values and the closing brace off the front. -/
def members? (fuel : Nat) (made : List (String × Json)) (cs : List Char) :
    Option (List (String × Json) × List Char) :=
  match fuel with
  | 0 => none
  | fuel + 1 => do
    let rest ← literal? ['"'] cs
    let (name, rest) ← stringTail? (rest.length + 1) [] rest
    let rest ← literal? [':'] (skipBlanks rest)
    let (value, rest) ← value? fuel (skipBlanks rest)
    match skipBlanks rest with
    | ',' :: rest => members? fuel ((name, value) :: made) (skipBlanks rest)
    | '\x7d' :: rest => return (((name, value) :: made).reverse, rest)
    | _ => none

end

/-- The value that a text is the writing of. -/
def read? (text : String) : Option Json := do
  let cs := text.toList
  let (value, rest) ← value? (cs.length + 1) (skipBlanks cs)
  if skipBlanks rest = [] then return value else none

end Growable.Text.Json
