import ReflectivePi.Delta.Json

/-!
# Frames — Json

Tool-call arguments while they stream in. `JSON.parse`, `JSON.stringify`
and the partial parser are parameters with what is documented of them;
`parseStreamingJson` and the repair before it are the source's. A number is
whatever `Object.is` tells apart.
-/

namespace ReflectivePi.Frames

open Delta (JsString js)
open InsertionMap (findEntry)

inductive JsonValue (ν : Type) where
  | null
  | bool (b : Bool)
  | num (n : ν)
  | str (s : JsString)
  | arr (items : List (JsonValue ν))
  | obj (fields : List (JsString × JsonValue ν))

/-! ## Repair -/

def quote : UInt16 := 0x22

def backslash : UInt16 := 0x5C

def validJsonEscapes : List UInt16 := js "\"\\/bfnrtu"

def isControlCharacter (c : UInt16) : Bool := c ≤ 0x1F

def isHexDigit (c : UInt16) : Bool :=
  (0x30 ≤ c && c ≤ 0x39) || (0x41 ≤ c && c ≤ 0x46) || (0x61 ≤ c && c ≤ 0x66)

def escapeControlCharacter (c : UInt16) : JsString :=
  if c = 0x08 then js "\\b"
  else if c = 0x0C then js "\\f"
  else if c = 0x0A then js "\\n"
  else if c = 0x0D then js "\\r"
  else if c = 0x09 then js "\\t"
  else
    let digits := (Nat.toDigits 16 c.toNat).map fun d => UInt16.ofNat d.toNat
    js "\\u" ++ List.replicate (4 - digits.length) 0x30 ++ digits

/-- The loop of `repairJson`, inside a string or outside. -/
def repairLoop : Bool → JsString → JsString
  | _, [] => []
  | false, c :: rest => c :: repairLoop (c = quote) rest
  | true, c :: rest =>
    if c = quote then c :: repairLoop false rest
    else if c = backslash then
      match rest with
      | [] => [backslash, backslash]
      | next :: a :: b :: d :: e :: rest' =>
        if next = 0x75 && isHexDigit a && isHexDigit b && isHexDigit d && isHexDigit e then
          backslash :: next :: a :: b :: d :: e :: repairLoop true rest'
        else if next ∈ validJsonEscapes then
          backslash :: next :: repairLoop true (a :: b :: d :: e :: rest')
        else backslash :: backslash :: repairLoop true (next :: a :: b :: d :: e :: rest')
      | next :: rest' =>
        -- too short for a unicode escape
        if next ∈ validJsonEscapes then
          backslash :: next :: repairLoop true rest'
        else backslash :: backslash :: repairLoop true (next :: rest')
    else if isControlCharacter c then
      escapeControlCharacter c ++ repairLoop true rest
    else c :: repairLoop true rest

def repairJson (json : JsString) : JsString := repairLoop false json

/-! ## Parsing -/

/-- What `trim` takes away. -/
def isWhitespace (c : UInt16) : Bool :=
  c ∈ ([0x20, 0xA0, 0x1680, 0x2028, 0x2029, 0x202F, 0x205F, 0x3000, 0xFEFF] : List UInt16)
    || (0x09 ≤ c && c ≤ 0x0D) || (0x2000 ≤ c && c ≤ 0x200A)

def emptyObject {ν : Type} : JsonValue ν := .obj []

/-- JSON over the numbers `ν`, and the parser of unfinished JSON. `none` is
a text that is rejected. Writing a value and reading it back may change it
(`-0`, numbers JSON does not have), but not what is written for it; and
only the empty object is written as it is. -/
structure JsonText (ν : Type) where
  stringify : JsonValue ν → JsString
  parse : JsString → Option (JsonValue ν)
  partialParse : JsString → Option (JsonValue ν)
  not_blank : ∀ v, (stringify v).all isWhitespace = false
  reparse : ∀ v, ∃ w, parse (stringify v) = some w ∧ stringify w = stringify v
  eq_empty : ∀ v, stringify v = stringify emptyObject → v = emptyObject

namespace JsonText

variable {ν : Type} (T : JsonText ν)

def parseJsonWithRepair (json : JsString) : Option (JsonValue ν) :=
  match T.parse json with
  | some v => some v
  | none =>
    let repairedJson := repairJson json
    if repairedJson ≠ json then T.parse repairedJson else none

/-- `result ?? {}`. -/
def orEmpty : JsonValue ν → JsonValue ν
  | .null => emptyObject
  | v => v

def parseStreamingJson (partialJson : JsString) : JsonValue ν :=
  if partialJson.all isWhitespace then emptyObject
  else
    match T.parseJsonWithRepair partialJson with
    | some v => v
    | none =>
      match T.partialParse partialJson with
      | some v => orEmpty v
      | none =>
        match T.partialParse (repairJson partialJson) with
        | some v => orEmpty v
        | none => emptyObject

@[simp] theorem parseStreamingJson_nil :
    T.parseStreamingJson [] = emptyObject := rfl

theorem stringify_parseStreamingJson (v : JsonValue ν) :
    T.stringify (T.parseStreamingJson (T.stringify v)) = T.stringify v := by
  obtain ⟨w, hparse, hsame⟩ := T.reparse v
  rw [parseStreamingJson, T.not_blank, parseJsonWithRepair, hparse]
  exact hsame

end JsonText

/-! ## Extension -/

/-- The snapshot with more at its ends: a longer string, more items, more
properties. -/
inductive Extends {ν : Type} : JsonValue ν → JsonValue ν → Prop
  | null : Extends .null .null
  | bool (b : Bool) : Extends (.bool b) (.bool b)
  | num (n : ν) : Extends (.num n) (.num n)
  | str {snapshot current : JsString} (h : snapshot <+: current) :
      Extends (.str snapshot) (.str current)
  | arr {snapshot current : List (JsonValue ν)}
      (hlength : snapshot.length ≤ current.length)
      (hitems : ∀ (i : Nat) v w, snapshot[i]? = some v → current[i]? = some w →
        Extends v w) : Extends (.arr snapshot) (.arr current)
  | obj {snapshot current : List (JsString × JsonValue ν)}
      (hkeys : ∀ p ∈ snapshot, (findEntry p.1 current).isSome = true)
      (hfields : ∀ p ∈ snapshot, ∀ w, findEntry p.1 current = some w →
        Extends p.2 w) : Extends (.obj snapshot) (.obj current)

section

variable {ν : Type} [DecidableEq ν]

mutual

def isJsonPrefix : JsonValue ν → JsonValue ν → Bool
  | .str snapshot, .str current => snapshot.isPrefixOf current
  | .arr snapshot, .arr current =>
    decide (snapshot.length ≤ current.length) && isItemsPrefix snapshot current
  | .null, .null => true
  | .bool a, .bool b => a = b
  | .num a, .num b => a = b
  | .obj snapshot, .obj current => isFieldsPrefix snapshot current
  | _, _ => false

/-- `snapshot.every(…)` over items. -/
def isItemsPrefix : List (JsonValue ν) → List (JsonValue ν) → Bool
  | v :: snapshot, w :: current =>
    isJsonPrefix v w && isItemsPrefix snapshot current
  | _, _ => true

/-- `Object.entries(snapshot).every(…)`. -/
def isFieldsPrefix : List (JsString × JsonValue ν) → List (JsString × JsonValue ν) → Bool
  | [], _ => true
  | (key, value) :: snapshot, current =>
    (match findEntry key current with
      | some w => isJsonPrefix value w
      | none => false) && isFieldsPrefix snapshot current

end

mutual

/-- **`isJsonPrefix` decides extension.** -/
theorem isJsonPrefix_iff : ∀ v w : JsonValue ν, isJsonPrefix v w = true ↔ Extends v w
  | .null, w => by
    constructor
    · intro h
      cases w <;> first | exact .null | cases h
    · intro h
      cases h
      rfl
  | .bool b, w => by
    constructor
    · intro h
      cases w with
      | bool b' =>
        obtain rfl : b = b' := of_decide_eq_true h
        exact .bool b
      | _ => cases h
    · intro h
      cases h
      exact decide_eq_true rfl
  | .num n, w => by
    constructor
    · intro h
      cases w with
      | num n' =>
        obtain rfl : n = n' := of_decide_eq_true h
        exact .num n
      | _ => cases h
    · intro h
      cases h
      exact decide_eq_true rfl
  | .str s, w => by
    constructor
    · intro h
      cases w with
      | str s' => exact .str (List.isPrefixOf_iff_prefix.mp h)
      | _ => cases h
    · intro h
      cases h with
      | str h => exact List.isPrefixOf_iff_prefix.mpr h
  | .arr vs, w => by
    constructor
    · intro h
      cases w with
      | arr ws =>
        rw [isJsonPrefix, Bool.and_eq_true, decide_eq_true_eq, isItemsPrefix_iff] at h
        exact .arr h.1 h.2
      | _ => cases h
    · intro h
      cases h with
      | arr hlength hitems =>
        rw [isJsonPrefix, Bool.and_eq_true, decide_eq_true_eq, isItemsPrefix_iff]
        exact ⟨hlength, hitems⟩
  | .obj fs, w => by
    constructor
    · intro h
      cases w with
      | obj gs =>
        rw [isJsonPrefix, isFieldsPrefix_iff] at h
        exact .obj (fun p hp => (h p hp).1) fun p hp => (h p hp).2
      | _ => cases h
    · intro h
      cases h with
      | obj hkeys hfields =>
        rw [isJsonPrefix, isFieldsPrefix_iff]
        exact fun p hp => ⟨hkeys p hp, hfields p hp⟩

theorem isItemsPrefix_iff : ∀ vs ws : List (JsonValue ν),
    isItemsPrefix vs ws = true ↔ ∀ (i : Nat) v w, vs[i]? = some v → ws[i]? = some w → Extends v w
  | [], ws => by simp [isItemsPrefix]
  | v :: vs, [] => by simp [isItemsPrefix]
  | v :: vs, w :: ws => by
    rw [isItemsPrefix, Bool.and_eq_true, isJsonPrefix_iff v w, isItemsPrefix_iff vs ws]
    constructor
    · rintro ⟨hhead, htail⟩ i a b ha hb
      cases i with
      | zero =>
        cases ha
        cases hb
        exact hhead
      | succ i => exact htail i a b ha hb
    · intro h
      exact ⟨h 0 v w rfl rfl, fun i a b ha hb => h (i + 1) a b ha hb⟩

theorem isFieldsPrefix_iff : ∀ fs gs : List (JsString × JsonValue ν),
    isFieldsPrefix fs gs = true ↔ ∀ p ∈ fs, (findEntry p.1 gs).isSome = true ∧
        ∀ w, findEntry p.1 gs = some w → Extends p.2 w
  | [], gs => by simp [isFieldsPrefix]
  | (key, value) :: fs, gs => by
    rw [isFieldsPrefix, Bool.and_eq_true, isFieldsPrefix_iff fs gs, List.forall_mem_cons]
    refine and_congr_left fun _ => ?_
    cases hfind : findEntry key gs with
    | none => simp
    | some w => simp [isJsonPrefix_iff value w]

end

omit [DecidableEq ν] in
theorem extends_emptyObject {v : JsonValue ν} (h : Extends v emptyObject) : v = emptyObject := by
  generalize hw : (emptyObject : JsonValue ν) = w at h
  cases h with
  | @obj snapshot current hkeys _ =>
    cases hw
    cases snapshot with
    | nil => rfl
    | cons p rest => cases hkeys p (by simp)
  | _ => cases hw

end

end ReflectivePi.Frames
