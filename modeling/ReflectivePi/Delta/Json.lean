import Mathlib.Data.Rat.Defs
import ReflectivePi.Lib.InsertionMap

/-!
# Delta — Json

The values the operation log is over. A string is its UTF-16 code units,
because `slice` and `length` count them; a number is the finite value it
holds; an object is its own properties in enumeration order.
-/

namespace ReflectivePi.Delta

open InsertionMap (findEntry setEntry)

/-- A string as the code units `slice` cuts between. -/
abbrev JsString := List UInt16

/-- A string constant of the source. -/
def js (s : String) : JsString :=
  s.toList.map (fun c => UInt16.ofNat c.toNat)

/-- `String(n)`. -/
def natString (n : Nat) : JsString :=
  (Nat.toDigits 10 n).map (fun c => UInt16.ofNat c.toNat)

inductive Json where
  | null
  | bool (b : Bool)
  | num (n : ℚ)
  | str (s : JsString)
  | arr (items : List Json)
  | obj (fields : List (JsString × Json))

namespace Json

/-- `isObj`: an array or an object. -/
def isObj : Json → Bool
  | .arr _ => true
  | .obj _ => true
  | _ => false

mutual

/-- No object has a property twice. -/
def WellFormed : Json → Prop
  | .arr items => ItemsWellFormed items
  | .obj fields => (fields.map Prod.fst).Nodup ∧ FieldsWellFormed fields
  | _ => True

def ItemsWellFormed : List Json → Prop
  | [] => True
  | item :: items => item.WellFormed ∧ ItemsWellFormed items

def FieldsWellFormed : List (JsString × Json) → Prop
  | [] => True
  | (_, value) :: fields => value.WellFormed ∧ FieldsWellFormed fields

end

end Json

end ReflectivePi.Delta
