import ReflectivePi.Tui.StdinBuffer

/-!
# Tui — Editor text

Texts are lists of UTF-16 code units. `slice` takes the indices the program
hands over, negative ones and those past the end included. A paste marker is
text such as `[paste #1 +123 lines]`.
-/

namespace ReflectivePi.Tui

abbrev Text := List CodeUnit

def ascii (text : String) : Text := text.toList.map unit

/-- A position of `slice` and `splice`: a negative one counts from the end. -/
def sliceIndex (length : Nat) (index : Int) : Nat :=
  if index < 0 then (length + index).toNat else min index.toNat length

/-- `text.slice(start, stop)`, also of an array. -/
def slice {α : Type} (text : List α) (start stop : Int) : List α :=
  (text.take (sliceIndex text.length stop)).drop (sliceIndex text.length start)

/-- `/\s/` accepts the character. -/
def isSpaceUnit (c : CodeUnit) : Bool :=
  (0x09 ≤ c && c ≤ 0x0d) || c = 0x20 || c = 0xa0 || c = 0x1680 || (0x2000 ≤ c && c ≤ 0x200a)
    || c = 0x2028 || c = 0x2029 || c = 0x202f || c = 0x205f || c = 0x3000 || c = 0xfeff

/-- `/\s/.test(char)`. -/
def isWhitespaceChar (char : Text) : Bool := char.any isSpaceUnit

def trim (text : Text) : Text :=
  ((text.dropWhile isSpaceUnit).reverse.dropWhile isSpaceUnit).reverse

/-! ## Paste markers -/

/-- The parts of a paste marker: the digits of its number, and what follows. -/
structure PasteMarker where
  digits : Text
  suffix : Option Text

def markerHead : Text := ascii "[paste #"

/-- `count` between two texts. -/
def counted (before after text : Text) : Option Text :=
  if before.isPrefixOf text then
    let count := (text.drop before.length).takeWhile isDigit
    if count ≠ [] ∧ after.isPrefixOf (text.drop (before.length + count.length)) then
      some (before ++ count ++ after)
    else none
  else none

/-- `( (\+\d+ lines|\d+ chars))`. -/
def markerSuffix (text : Text) : Option Text :=
  (counted (ascii " +") (ascii " lines") text).or (counted (ascii " ") (ascii " chars") text)

/-- `PASTE_MARKER_REGEX` at the beginning of a text. -/
def pasteMarkerAt (text : Text) : Option (PasteMarker × Nat) :=
  if markerHead.isPrefixOf text then
    let digits := (text.drop markerHead.length).takeWhile isDigit
    let rest := text.drop (markerHead.length + digits.length)
    let suffix := markerSuffix rest
    let length := markerHead.length + digits.length + (suffix.getD []).length
    if digits ≠ [] ∧ [unit ']'].isPrefixOf (text.drop length) then
      some ({ digits, suffix }, length + 1)
    else none
  else none

/-- `PASTE_MARKER_SINGLE.exec(segment)`. -/
def pasteMarkerSingle (segment : Text) : Option PasteMarker :=
  match pasteMarkerAt segment with
  | some (marker, length) => if length = segment.length then some marker else none
  | none => none

def isPasteMarker (segment : Text) : Bool :=
  segment.length ≥ 10 && (pasteMarkerSingle segment).isSome

end ReflectivePi.Tui
