import ReflectivePi.Frames.Json

/-!
# Prompts — templates

A command `/name args` is replaced by the template of that name, with the
arguments in place of its placeholders. Texts are UTF-16 code units. The regex
of the placeholders is read alternative by alternative; none of its loops can
give anything back.
-/

namespace ReflectivePi.Prompts

open List Option
open Delta (JsString js)
open Frames (isWhitespace)

/-! ## Arguments -/

def doubleQuote : UInt16 := 0x22

def singleQuote : UInt16 := 0x27

def space : UInt16 := 0x20

def isQuote (char : UInt16) : Bool := char = doubleQuote || char = singleQuote

def dollar : UInt16 := 0x24

def openBrace : UInt16 := 0x7b

def closeBrace : UInt16 := 0x7d

def isDigit (char : UInt16) : Bool := 0x30 ≤ char && char ≤ 0x39

/-- `\d+|ARGUMENTS|@` -/
inductive Target where
  | index (digits : JsString)
  | arguments
  | at_

inductive Placeholder where
  | simple (target : Target)
  | default_ (target : Target) (value : JsString)
  | slice (start : JsString) (length : Option JsString)

def Target.source : Target → JsString
  | .index digits => digits
  | .arguments => js "ARGUMENTS"
  | .at_ => js "@"

def Placeholder.source : Placeholder → JsString
  | .simple target => dollar :: target.source
  | .default_ target value =>
    dollar :: openBrace :: (target.source ++ js ":-" ++ value ++ [closeBrace])
  | .slice start none => dollar :: openBrace :: (js "@:" ++ start ++ [closeBrace])
  | .slice start (some length) =>
    dollar :: openBrace :: (js "@:" ++ start ++ js ":" ++ length ++ [closeBrace])

/-- What follows a text that must come first. -/
def expect (word text : JsString) : Option JsString :=
  if word.isPrefixOf text then some (text.drop word.length) else none

def readDigits (text : JsString) : Option (JsString × JsString) :=
  if text.takeWhile isDigit = [] then none
  else some (text.takeWhile isDigit, text.dropWhile isDigit)

def readTarget (text : JsString) : Option (Target × JsString) :=
  match readDigits text with
  | some (digits, rest) => some (.index digits, rest)
  | none =>
    match expect (js "ARGUMENTS") text with
    | some rest => some (.arguments, rest)
    | none => (expect (js "@") text).map fun rest => (.at_, rest)

def readDefault (text : JsString) : Option (Placeholder × JsString) := do
  let (target, rest) ← readTarget text
  let rest ← expect (js ":-") rest
  let after ← expect [closeBrace] (rest.dropWhile (· ≠ closeBrace))
  return (.default_ target (rest.takeWhile (· ≠ closeBrace)), after)

def readSlice (text : JsString) : Option (Placeholder × JsString) := do
  let rest ← expect (js "@:") text
  let (start, rest) ← readDigits rest
  match expect [closeBrace] rest with
  | some after => return (.slice start none, after)
  | none =>
    let rest ← expect (js ":") rest
    let (length, rest) ← readDigits rest
    let after ← expect [closeBrace] rest
    return (.slice start (some length), after)

/-- The placeholder that starts here, and what is behind it. -/
def readPlaceholder (text : JsString) : Option (Placeholder × JsString) := do
  let rest ← expect [dollar] text
  match expect [openBrace] rest with
  | some inside => (readDefault inside).or (readSlice inside)
  | none => (readTarget rest).map fun (target, after) => (.simple target, after)

/-! ## Substitution -/

def parseInt (digits : JsString) : Nat :=
  digits.foldl (fun n digit => 10 * n + (digit.toNat - 0x30)) 0

def joinArgs (args : List JsString) : JsString := [space].intercalate args

/-- `args[parseInt(digits, 10) - 1]` -/
def argAt (args : List JsString) (digits : JsString) : Option JsString :=
  if parseInt digits = 0 then none else args[parseInt digits - 1]?

def Target.value (args : List JsString) : Target → Option JsString
  | .index digits => argAt args digits
  | .arguments | .at_ => some (joinArgs args)

def Placeholder.value (args : List JsString) : Placeholder → JsString
  | .simple target => (target.value args).getD []
  | .default_ target value =>
    match target.value args with
    | some (char :: text) => char :: text
    | _ => value
  | .slice start length =>
    let rest := args.drop (parseInt start - 1)
    joinArgs (match length with
      | some length => rest.take (parseInt length)
      | none => rest)

inductive Piece where
  | text (char : UInt16)
  | placeholder (p : Placeholder)

/-- The matches of the regex from left to right, and what is between them. -/
def scan : Nat → JsString → List Piece
  | 0, _ => []
  | fuel + 1, content =>
    match readPlaceholder content with
    | some (p, after) => .placeholder p :: scan fuel after
    | none =>
      match content with
      | [] => []
      | char :: rest => .text char :: scan fuel rest

def Piece.value (args : List JsString) : Piece → JsString
  | .text char => [char]
  | .placeholder p => p.value args

/-- A text between a quote that it does not contain. -/
structure Quoted where
  quote : UInt16
  text : JsString
  isQuote : isQuote quote = true
  free : quote ∉ text

def Quoted.source (arg : Quoted) : JsString := arg.quote :: (arg.text ++ [arg.quote])

variable {quote : UInt16} {text rest : JsString}

variable {name : JsString} {templates : List PromptTemplate} {template : PromptTemplate}

def AllDigits (digits : JsString) : Prop := digits ≠ [] ∧ ∀ digit ∈ digits, isDigit digit = true

/-- The text goes on with no digit. -/
def NoDigit (text : JsString) : Prop := ∀ char, text.head? = some char → isDigit char = false

def Target.WellFormed : Target → Prop
  | .index digits => AllDigits digits
  | _ => True

def Placeholder.WellFormed : Placeholder → Prop
  | .simple target => target.WellFormed
  | .default_ target value => target.WellFormed ∧ closeBrace ∉ value
  | .slice start length => AllDigits start ∧ ∀ digits ∈ length, AllDigits digits

/-- The digits of a position end where the placeholder ends. -/
def Target.Stops (after : JsString) : Target → Prop
  | .index _ => NoDigit after
  | _ => True

def Placeholder.Stops (after : JsString) : Placeholder → Prop
  | .simple target => target.Stops after
  | _ => True

variable {word after digits value : JsString} {target : Target} {p : Placeholder}

/-- The matches of the regex: a text that is kept starts no placeholder. -/
inductive Splits : JsString → List Piece → Prop
  | nil : Splits [] []
  | placeholder {p : Placeholder} {rest : JsString} {pieces : List Piece} :
    p.WellFormed → p.Stops rest → Splits rest pieces →
      Splits (p.source ++ rest) (.placeholder p :: pieces)
  | text {char : UInt16} {rest : JsString} {pieces : List Piece} :
    (∀ (p : Placeholder) (after : JsString), p.WellFormed → char :: rest ≠ p.source ++ after) →
      Splits rest pieces → Splits (char :: rest) (.text char :: pieces)

end ReflectivePi.Prompts
