import Growable.Text.Quoted
import Growable.Text.Json
import Growable.Sequence.Drain
import Growable.Sequence.Reading
import Growable.BitSequence.Assignment

/-!
# Writing and reading sequences

A codec says how the elements of a type are written, for a reader of diagnostics and as JSON, and which
JSON values are elements.  A sequence is written as the list of its elements, and read from a JSON array
alone.
-/

namespace Growable

open Text (Json)

/-- How the elements of a type are written and read. -/
structure Codec (α : Type) where
  debugText : α → String
  toJson : α → Json
  ofJson? : Json → Option α

namespace Codec

/-- Integers within bounds. -/
def integer (least greatest : Int) : Codec Int where
  debugText n := toString n
  toJson n := .integer n
  ofJson?
    | .integer n => if least ≤ n ∧ n ≤ greatest then some n else none
    | _ => none

/-- Texts. -/
def text : Codec String where
  debugText s := Text.quoted s
  toJson s := .string s
  ofJson?
    | .string s => some s
    | _ => none

/-- The value without content. -/
def unit : Codec Unit where
  debugText _ := "()"
  toJson _ := .null
  ofJson?
    | .null => some ()
    | _ => none

/-- Truth values. -/
def bool : Codec Bool where
  debugText b := toString b
  toJson b := .bool b
  ofJson?
    | .bool b => some b
    | _ => none

variable {α : Type} (codec : Codec α)

/-- The text of some elements for a reader of diagnostics. -/
def listText (items : List α) : String := Text.bracketed (items.map codec.debugText)

/-- Some elements as JSON. -/
def listJson (items : List α) : Json := .array (items.map codec.toJson)

/-- The items of a JSON array, each an element or not valid; other values have none. -/
def items? : Json → Option (List (Option α))
  | .array items => some (items.map codec.ofJson?)
  | _ => none

end Codec

/-- The text of a sequence for a reader of diagnostics. -/
def Sequence.debugText {α : Type} (codec : Codec α) (s : Sequence α) : String :=
  codec.listText s.items

/-- A sequence as JSON. -/
def Sequence.toJson {α : Type} (codec : Codec α) (s : Sequence α) : Json :=
  codec.listJson s.items

/-- The text of a drain for a reader of diagnostics. -/
def Drain.debugText {α : Type} (codec : Codec α) (d : Drain α) : String :=
  s!"IntoIter({codec.listText d.rest})"

/-- The text of a bit sequence for a reader of diagnostics. -/
def BitSequence.debugText (s : BitSequence) : String := Codec.bool.listText s.bits

/-- A bit sequence as JSON. -/
def BitSequence.toJson (s : BitSequence) : Json := Codec.bool.listJson s.bits

/-- The text of a single bit that was picked out, for a reader of diagnostics. -/
def BitChange.debugText (bit : Bool) : String := s!"BitRef({bit})"

/-- The wording when a sequence is read from something else than a JSON array. -/
def Sequence.mismatch (value : Json) : String :=
  s!"invalid type: {value.describe}, expected a sequence"

/-- The wording when a bit sequence is read from something else than a JSON array. -/
def BitSequence.mismatch (value : Json) : String :=
  s!"invalid type: {value.describe}, expected a sequence of booleans"

/-- An error as JSON: the name of its cause, with what it carries if it carries anything. -/
def SequenceError.toJson (e : SequenceError) : Json :=
  match e with
  | .outOfBounds index len =>
    .object [(e.kind, .object [("index", .integer index), ("len", .integer len)])]
  | _ => .string e.kind

/-- The error that a JSON value stands for. -/
def SequenceError.ofJson? : Json → Option SequenceError
  | .string "AllocationFailure" => some .allocationFailure
  | .string "CapacityExceeded" => some .capacityExceeded
  | .object [("BoundsError", .object [("index", .integer index), ("len", .integer len)])] =>
    if 0 ≤ index ∧ 0 ≤ len then some (.outOfBounds index.toNat len.toNat) else none
  | _ => none

theorem SequenceError.ofJson?_toJson (e : SequenceError) : ofJson? e.toJson = some e := by
  cases e <;> simp [toJson, ofJson?, kind]

end Growable
