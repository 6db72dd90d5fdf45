import ReflectivePi.Requests.CallIds
import Mathlib.Algebra.Ring.Nat

/-!
# Requests — CallIdFormats

How the Anthropic, Chat Completions and Mistral converters rewrite the id of
another model's call, and when the rewritten ids stay apart. Only Mistral's
rule looks at the ids it gave before.
-/

namespace ReflectivePi.Requests.Ids

open List
open Delta (JsString natString)

/-- `[a-zA-Z0-9]`. -/
def isAlphanumeric (u : UInt16) : Bool :=
  (0x30 ≤ u && u ≤ 0x39) || (0x41 ≤ u && u ≤ 0x5A) || (0x61 ≤ u && u ≤ 0x7A)

/-- `[a-zA-Z0-9_-]`. -/
def isIdUnit (u : UInt16) : Bool := isAlphanumeric u || u == 0x5F || u == 0x2D

/-- `id.replace(/[^a-zA-Z0-9_-]/g, "_")`. -/
def sanitize (id : JsString) : JsString := id.map fun u => if isIdUnit u then u else 0x5F

/-- `id.replace(/[^a-zA-Z0-9]/g, "")`. -/
def alphanumeric (id : JsString) : JsString := id.filter isAlphanumeric

/-- `(n >>> 0).toString(36)`, for at most `fuel` digits. -/
def toBase36 : Nat → Nat → JsString → JsString
  | 0, _, digits => digits
  | fuel + 1, n, digits =>
    let digit : UInt16 := UInt16.ofNat (if n % 36 < 10 then 0x30 + n % 36 else 0x57 + n % 36)
    if n / 36 = 0 then digit :: digits else toBase36 fuel (n / 36) (digit :: digits)

/-- `toBase36` of 32 bits, which have at most seven digits. -/
def base36 (n : UInt32) : JsString := toBase36 7 n.toNat []

/-- `Math.imul`. -/
def imul (a b : UInt32) : UInt32 := a * b

def shortHash (str : JsString) : JsString :=
  let (h1, h2) := str.foldl (fun (h1, h2) ch =>
      (imul (h1 ^^^ ch.toUInt32) 2654435761, imul (h2 ^^^ ch.toUInt32) 1597334677))
    (0xdeadbeef, 0x41c6ce57)
  let h1 := imul (h1 ^^^ (h1 >>> 16)) 2246822507 ^^^ imul (h2 ^^^ (h2 >>> 13)) 3266489909
  let h2 := imul (h2 ^^^ (h2 >>> 16)) 2246822507 ^^^ imul (h1 ^^^ (h1 >>> 13)) 3266489909
  base36 h2 ++ base36 h1

/-! ## The rules -/

/-- Anthropic's `normalizeToolCallId`. -/
def anthropicId (id : JsString) : JsString := (sanitize id).take 64

/-- `|`, between the two parts of a Responses API id. -/
def pipe : UInt16 := 0x7C

/-- The id for one with a `|` in it. -/
def splitId (id : JsString) : JsString :=
  let separatorIndex := id.idxOf pipe
  let callId := sanitize (id.take separatorIndex)
  let itemId := sanitize (id.drop (separatorIndex + 1))
  let combinedId := if 0 < itemId.length then callId ++ 0x5F :: itemId else callId
  if combinedId.length ≤ 40 then combinedId
  else
    let hash := (shortHash id).take 8
    let pre := callId.take (max 1 (40 - hash.length - 1))
    pre ++ 0x5F :: hash

/-- Chat Completions' `normalizeToolCallId`, for the provider `openai`. -/
def completionsId (id : JsString) : JsString :=
  if pipe ∈ id then splitId id
  else if 40 < id.length then id.take 40 else id

def mistralToolCallIdLength : Nat := 9

def deriveMistralToolCallId (id : JsString) (attempt : Nat) : JsString :=
  let normalized := alphanumeric id
  if attempt = 0 ∧ normalized.length = mistralToolCallIdLength then normalized
  else
    let seedBase := if normalized ≠ [] then normalized else id
    let seed := if attempt = 0 then seedBase else seedBase ++ 0x3A :: natString attempt
    (alphanumeric (shortHash seed)).take mistralToolCallIdLength

/-! ## The normalizers -/

/-- A rule that keeps nothing. -/
def stateless (rule : JsString → JsString) : Normalizer Unit := fun _ id => some ((), rule id)

/-- What `createMistralToolCallIdNormalizer` closes over. -/
structure MistralIds where
  idMap : InsertionMap JsString JsString := .empty
  reverseMap : InsertionMap JsString JsString := .empty

/-- The first candidate from `attempt` on without another owner; `none` when the
fuel is short. -/
def findCandidate (reverseMap : InsertionMap JsString JsString) (id : JsString) :
    Nat → Nat → Option JsString
  | 0, _ => none
  | fuel + 1, attempt =>
    let candidate := deriveMistralToolCallId id attempt
    match reverseMap.get? candidate with
    | none => some candidate
    | some owner =>
      if owner = [] ∨ owner = id then some candidate
      else findCandidate reverseMap id fuel (attempt + 1)

def createMistralToolCallIdNormalizer (fuel : Nat) : Normalizer MistralIds := fun ids id =>
  match ids.idMap.get? id with
  | some (u :: existing) => some (ids, u :: existing)
  | _ =>
    (findCandidate ids.reverseMap id fuel 0).map fun candidate =>
      (⟨ids.idMap.set id candidate, ids.reverseMap.set candidate id⟩, candidate)

inductive Converter where
  | anthropicMessages
  | openaiCompletions
  | mistralConversations

namespace Converter

/-- The ids that the provider takes. -/
def Format : Converter → JsString → Prop
  | anthropicMessages, id => id.length ≤ 64 ∧ ∀ u ∈ id, isIdUnit u
  | openaiCompletions, id => id.length ≤ 40
  | mistralConversations, id => id.length = 9 ∧ ∀ u ∈ id, isAlphanumeric u

/-- The messages that go out; the fuel is for Mistral's search. -/
def transformMessages (converter : Converter) (fuel : Nat) (messages : List IdMessage) :
    Option (List IdMessage) :=
  match converter with
  | anthropicMessages => Ids.transformMessages (stateless anthropicId) () messages
  | openaiCompletions => Ids.transformMessages (stateless completionsId) () messages
  | mistralConversations =>
    Ids.transformMessages (createMistralToolCallIdNormalizer fuel) {} messages

end Converter

/-! ## The formats -/

theorem length_sanitize (id : JsString) : (sanitize id).length = id.length := length_map _

variable {id : JsString}

theorem isIdUnit_sanitize {u : UInt16} (h : u ∈ sanitize id) : isIdUnit u := by
  obtain ⟨v, -, rfl⟩ := List.mem_map.mp h
  split
  · assumption
  · rfl

theorem sanitize_eq_self (h : ∀ u ∈ id, isIdUnit u) : sanitize id = id := by
  rw [sanitize]
  conv_rhs => rw [← map_id id]
  exact map_congr_left fun u hu => if_pos (h u hu)

theorem anthropicId_format (id : JsString) : Converter.anthropicMessages.Format (anthropicId id) :=
  ⟨length_take_le _ _, fun _ hu => isIdUnit_sanitize (mem_of_mem_take hu)⟩

theorem anthropicId_eq_self (h : Converter.anthropicMessages.Format id) : anthropicId id = id := by
  rw [anthropicId, sanitize_eq_self h.2, take_of_length_le h.1]

theorem anthropicId_ne_nil (h : id ≠ []) : anthropicId id ≠ [] := by
  cases id with
  | nil => exact absurd rfl h
  | cons u rest => exact cons_ne_nil _ _

theorem splitId_format (id : JsString) : (splitId id).length ≤ 40 := by
  simp only [splitId]
  generalize (if 0 < (sanitize (id.drop (id.idxOf pipe + 1))).length then _ else _) = combinedId
  split
  · assumption
  · have hhash : ((shortHash id).take 8).length ≤ 8 := length_take_le _ _
    have hpre := length_take_le (max 1 (40 - ((shortHash id).take 8).length - 1))
      (sanitize (id.take (id.idxOf pipe)))
    rw [length_append, length_cons]
    omega

theorem completionsId_format (id : JsString) : (completionsId id).length ≤ 40 := by
  rw [completionsId]
  split
  · exact splitId_format id
  · split
    · exact length_take_le _ _
    · omega

theorem splitId_eq_nil (h : splitId id = []) :
    id.take (id.idxOf pipe) = [] ∧ id.drop (id.idxOf pipe + 1) = [] := by
  simp only [splitId, length_sanitize] at h
  by_cases hitem : 0 < (id.drop (id.idxOf pipe + 1)).length
  · rw [if_pos hitem] at h
    split at h <;> simp at h
  · rw [if_neg hitem] at h
    split at h
    · exact ⟨List.map_eq_nil_iff.mp h, List.length_eq_zero_iff.mp (by omega)⟩
    · simp at h

theorem completionsId_eq_nil_iff (h : id ≠ []) : completionsId id = [] ↔ id = [pipe] := by
  rw [completionsId]
  split
  · rename_i hmem
    constructor
    · intro hnil
      obtain ⟨hcall, hitem⟩ := splitId_eq_nil hnil
      have hfirst : id.idxOf pipe = 0 := (List.take_eq_nil_iff.mp hcall).resolve_right h
      rw [hfirst, drop_eq_nil_iff] at hitem
      cases id with
      | nil => exact absurd rfl h
      | cons u rest =>
        have hrest : rest = [] := List.length_eq_zero_iff.mp (by simpa using hitem)
        subst hrest
        rw [List.mem_singleton.mp hmem]
    · rintro rfl
      decide
  · rename_i hmem
    constructor
    · intro hnil
      split at hnil
      · rcases List.take_eq_nil_iff.mp hnil with hzero | hzero
        · omega
        · exact absurd hzero h
      · exact absurd hnil h
    · rintro rfl
      exact absurd (List.mem_singleton.mpr rfl) hmem

theorem isAlphanumeric_derive {attempt : Nat} {u : UInt16}
    (h : u ∈ deriveMistralToolCallId id attempt) : isAlphanumeric u := by
  simp only [deriveMistralToolCallId] at h
  split at h
  · exact (List.mem_filter.mp h).2
  · exact (List.mem_filter.mp (mem_of_mem_take h)).2

end ReflectivePi.Requests.Ids
