import ReflectivePi.Frames.Json
import ReflectivePi.Lib.MapOption

/-!
# Frames — Repair

The string literals of a text as JSON finds them, and what `repairJson` makes
of them. A literal goes from a quote to the next one that no backslash
escapes; what a text is outside of its literals is a parameter. A repaired
literal is one of JSON unless a unicode escape in it lacks digits.
-/

namespace ReflectivePi.Frames

open List Option
open Delta (JsString js)

/-! ## String literals -/

inductive Piece where
  | outside (c : UInt16)
  | literal (body : JsString)
  | unclosed (body : JsString)

/-- The pieces of a text, inside the body of a literal or outside. -/
def scanPieces : Option JsString → JsString → List Piece
  | none, [] => []
  | none, c :: rest =>
    if c = quote then scanPieces (some []) rest else .outside c :: scanPieces none rest
  | some body, [] => [.unclosed body]
  | some body, c :: rest =>
    if c = quote then .literal body :: scanPieces none rest
    else if c = backslash then
      match rest with
      | [] => [.unclosed (body ++ [c])]
      | next :: rest => scanPieces (some (body ++ [c, next])) rest
    else scanPieces (some (body ++ [c])) rest

def pieces (text : JsString) : List Piece := scanPieces none text

/-- What JSON allows behind a backslash, but for `u`. -/
def simpleEscapes : List UInt16 := js "\"\\/bfnrt"

def isFourHexDigits : JsString → Bool
  | a :: b :: d :: e :: _ => isHexDigit a && isHexDigit b && isHexDigit d && isHexDigit e
  | _ => false

/-- The body of a string literal of JSON. -/
inductive ValidBody : JsString → Prop
  | nil : ValidBody []
  | char {c : UInt16} {rest : JsString} (hquote : c ≠ quote) (hbackslash : c ≠ backslash)
      (hcontrol : isControlCharacter c = false) (hrest : ValidBody rest) : ValidBody (c :: rest)
  | escape {c : UInt16} {rest : JsString} (hescape : c ∈ simpleEscapes)
      (hrest : ValidBody rest) : ValidBody (backslash :: c :: rest)
  | unicode {a b d e : UInt16} {rest : JsString} (hdigits : isFourHexDigits [a, b, d, e] = true)
      (hrest : ValidBody rest) : ValidBody (backslash :: 0x75 :: a :: b :: d :: e :: rest)

/-! ## Reading -/

def hexDigitValue (c : UInt16) : UInt16 :=
  if c ≤ 0x39 then c - 0x30 else if c ≤ 0x46 then c - 0x37 else c - 0x57

def unicodeValue (a b d e : UInt16) : UInt16 :=
  hexDigitValue a * 0x1000 + hexDigitValue b * 0x100 + hexDigitValue d * 0x10 + hexDigitValue e

/-- What a simple escape stands for. -/
def escapeValue (c : UInt16) : UInt16 :=
  if c = 0x62 then 0x08
  else if c = 0x66 then 0x0C
  else if c = 0x6E then 0x0A
  else if c = 0x72 then 0x0D
  else if c = 0x74 then 0x09
  else c

/-- The string that the body of a literal stands for. JSON has no raw control
characters in it and no backslash without an escape; a lenient reader takes
both as they are. -/
def readBody (lenient : Bool) : JsString → Option JsString
  | [] => some []
  | c :: rest =>
    if c = backslash then
      match rest with
      | [] => if lenient then some [c] else none
      | next :: a :: b :: d :: e :: rest =>
        if next = 0x75 && isFourHexDigits [a, b, d, e] then
          (readBody lenient rest).map (unicodeValue a b d e :: ·)
        else if next ∈ simpleEscapes then
          (readBody lenient (a :: b :: d :: e :: rest)).map (escapeValue next :: ·)
        else if lenient then
          (readBody lenient (next :: a :: b :: d :: e :: rest)).map (c :: ·)
        else none
      | next :: rest =>
        if next ∈ simpleEscapes then (readBody lenient rest).map (escapeValue next :: ·)
        else if lenient then (readBody lenient (next :: rest)).map (c :: ·)
        else none
    else if isControlCharacter c && !lenient then none
    else (readBody lenient rest).map (c :: ·)

/-- A character outside of the literals, or what a literal stands for. -/
inductive Symbol where
  | outside (c : UInt16)
  | string (value : JsString)

def readPiece (lenient : Bool) : Piece → Option Symbol
  | .outside c => some (.outside c)
  | .literal body => (readBody lenient body).map .string
  | .unclosed _ => none

section

variable {α : Type} (document : List Symbol → Option α)

/-- `JSON.parse`, where `document` reads what JSON has outside of literals. -/
def parseWith (lenient : Bool) (text : JsString) : Option α :=
  ((pieces text).mapM (readPiece lenient)).bind document

/-- `parseJsonWithRepair` for a reader of JSON. -/
def repairingParse (parse : JsString → Option α) (json : JsString) : Option α :=
  match parse json with
  | some v => some v
  | none =>
    let repairedJson := repairJson json
    if repairedJson ≠ json then parse repairedJson else none

end

/-- What repairing a text and reading it comes to. -/
structure Repairs {α : Type} (document : List Symbol → Option α) (text : JsString) : Prop where
  valid : ∀ body, .literal body ∈ pieces (repairJson text) → ValidBody body
  unchanged : ∀ v, parseWith document false text = some v → repairJson text = text
  idempotent : repairJson (repairJson text) = repairJson text
  lenient : ∀ v, parseWith document true text = some v →
    repairingParse (parseWith document false) text = some v

/-- Four hexadecimal digits follow each `\u`. -/
def unicodeComplete : JsString → Bool
  | [] => true
  | c :: rest =>
    if c = backslash then
      match rest with
      | [] => true
      | next :: rest => (decide (next ≠ 0x75) || isFourHexDigits rest) && unicodeComplete rest
    else unicodeComplete rest

def UnicodeComplete (text : JsString) : Prop :=
  ∀ body, .literal body ∈ pieces text → unicodeComplete body = true

/-! ## Inside a literal -/

theorem validJsonEscapes_eq : validJsonEscapes = simpleEscapes ++ [0x75] := by decide

variable {c : UInt16}

theorem mem_validJsonEscapes : c ∈ validJsonEscapes ↔ c ∈ simpleEscapes ∨ c = 0x75 := by
  rw [validJsonEscapes_eq, mem_append, mem_singleton]

theorem unit_notMem_simpleEscapes : (0x75 : UInt16) ∉ simpleEscapes := by decide

theorem backslash_ne_quote : backslash ≠ quote := by decide

theorem quote_mem_simpleEscapes : quote ∈ simpleEscapes := by decide

theorem backslash_mem_simpleEscapes : backslash ∈ simpleEscapes := by decide

/-- What may come next inside a literal, as the repair sees it. -/
theorem inside_induction {motive : JsString → Prop} (nil : motive [])
    (quote : ∀ rest, motive (quote :: rest)) (last : motive [backslash])
    (unicode : ∀ a b d e rest, isFourHexDigits [a, b, d, e] = true → motive rest →
      motive (backslash :: 0x75 :: a :: b :: d :: e :: rest))
    (short : ∀ rest, isFourHexDigits rest = false → motive rest →
      motive (backslash :: 0x75 :: rest))
    (escape : ∀ next rest, next ∈ simpleEscapes → motive rest → motive (backslash :: next :: rest))
    (stray : ∀ next rest, next ∉ validJsonEscapes → motive (next :: rest) →
      motive (backslash :: next :: rest))
    (control : ∀ c rest, c ≠ Frames.quote → c ≠ backslash → isControlCharacter c = true →
      motive rest → motive (c :: rest))
    (plain : ∀ c rest, c ≠ Frames.quote → c ≠ backslash → isControlCharacter c = false →
      motive rest → motive (c :: rest))
    (text : JsString) : motive text := by
  induction hlength : text.length using Nat.strongRecOn generalizing text with
  | ind n ih =>
    subst hlength
    have hmotive : ∀ rest : JsString, rest.length < text.length → motive rest :=
      fun rest hlt => ih _ hlt rest rfl
    match text, hmotive with
    | [], _ => exact nil
    | c :: rest, hmotive =>
      by_cases hquote : c = Frames.quote
      · exact hquote ▸ quote rest
      by_cases hbackslash : c = backslash
      · subst hbackslash
        match rest, hmotive with
        | [], _ => exact last
        | next :: rest, hmotive =>
          by_cases hescape : next ∈ simpleEscapes
          · exact escape next rest hescape (hmotive rest (Nat.lt_add_of_pos_right (by decide : 0 < 2)))
          by_cases hunicode : next = 0x75
          · subst hunicode
            cases hdigits : isFourHexDigits rest with
            | false =>
              exact short rest hdigits (hmotive rest (Nat.lt_add_of_pos_right (by decide : 0 < 2)))
            | true =>
              match rest, hmotive, hdigits with
              | a :: b :: d :: e :: rest, hmotive, hdigits =>
                exact unicode a b d e rest hdigits
                  (hmotive rest (Nat.lt_add_of_pos_right (by decide : 0 < 6)))
          · refine stray next rest ?_ (hmotive (next :: rest) (Nat.lt_succ_self _))
            rw [mem_validJsonEscapes, not_or]
            exact ⟨hescape, hunicode⟩
      · cases hcontrol : isControlCharacter c with
        | true => exact control c rest hquote hbackslash hcontrol (hmotive rest (Nat.lt_succ_self _))
        | false => exact plain c rest hquote hbackslash hcontrol (hmotive rest (Nat.lt_succ_self _))

/-! ## The repair, case by case -/

theorem repairLoop_outside (h : c ≠ quote) (rest : JsString) :
    repairLoop false (c :: rest) = c :: repairLoop false rest := by
  show c :: repairLoop (decide (c = quote)) rest = c :: repairLoop false rest
  rw [decide_eq_false h]

theorem repairLoop_open (rest : JsString) :
    repairLoop false (quote :: rest) = quote :: repairLoop true rest := rfl

theorem repairLoop_inside (hbackslash : c ≠ backslash) (rest : JsString) :
    repairLoop true (c :: rest) = if c = quote then c :: repairLoop false rest
        else if isControlCharacter c then escapeControlCharacter c ++ repairLoop true rest
        else c :: repairLoop true rest := by
  conv_lhs => rw [repairLoop.eq_def]
  dsimp only
  rw [if_neg hbackslash]

theorem repairLoop_quote (rest : JsString) :
    repairLoop true (quote :: rest) = quote :: repairLoop false rest := by
  rw [repairLoop_inside backslash_ne_quote.symm, if_pos rfl]

theorem repairLoop_last : repairLoop true [backslash] = [backslash, backslash] := rfl

variable {a b d e : UInt16}

theorem repairLoop_unicode (h : isFourHexDigits [a, b, d, e] = true) (rest : JsString) :
    repairLoop true (backslash :: 0x75 :: a :: b :: d :: e :: rest)
      = backslash :: 0x75 :: a :: b :: d :: e :: repairLoop true rest := by
  refine ((if_neg backslash_ne_quote).trans (if_pos rfl)).trans (if_pos ?_)
  rw [decide_eq_true rfl, Bool.true_and]
  exact h

variable {next : UInt16}

theorem repairLoop_backslash (rest : JsString)
    (hnot : next = 0x75 → isFourHexDigits rest = false) :
    repairLoop true (backslash :: next :: rest) = if next ∈ validJsonEscapes then
          backslash :: next :: repairLoop true rest
        else backslash :: backslash :: repairLoop true (next :: rest) := by
  conv_lhs => rw [repairLoop.eq_def]
  dsimp only
  rw [if_neg backslash_ne_quote, if_pos rfl]
  split
  · rename_i heq
    cases heq
  · rename_i next' a b d e rest' heq
    cases heq
    refine if_neg fun hunicode => ?_
    simp only [Bool.and_eq_true, decide_eq_true_eq] at hunicode
    have hfalse := hnot hunicode.1.1.1.1
    simp only [isFourHexDigits, hunicode, Bool.and_self] at hfalse
    cases hfalse
  · rename_i next' rest' _ heq
    cases heq
    rfl

theorem repairLoop_escape (h : next ∈ validJsonEscapes) (rest : JsString)
    (hnot : next = 0x75 → isFourHexDigits rest = false) :
    repairLoop true (backslash :: next :: rest) = backslash :: next :: repairLoop true rest := by
  rw [repairLoop_backslash rest hnot, if_pos h]

theorem escape_ne_unit (h : next ∈ simpleEscapes) : next ≠ 0x75 :=
  fun heq => unit_notMem_simpleEscapes (heq ▸ h)

theorem repairLoop_simple (h : next ∈ simpleEscapes) (rest : JsString) :
    repairLoop true (backslash :: next :: rest) = backslash :: next :: repairLoop true rest :=
  repairLoop_escape (mem_validJsonEscapes.mpr (.inl h)) rest fun heq =>
    absurd heq (escape_ne_unit h)

theorem repairLoop_short {rest : JsString} (h : isFourHexDigits rest = false) :
    repairLoop true (backslash :: 0x75 :: rest) = backslash :: 0x75 :: repairLoop true rest :=
  repairLoop_escape (mem_validJsonEscapes.mpr (.inr rfl)) rest fun _ => h

theorem stray_ne_unit (h : next ∉ validJsonEscapes) : next ≠ 0x75 :=
  fun heq => h (mem_validJsonEscapes.mpr (.inr heq))

theorem repairLoop_stray (h : next ∉ validJsonEscapes) (rest : JsString) :
    repairLoop true (backslash :: next :: rest)
      = backslash :: backslash :: repairLoop true (next :: rest) := by
  rw [repairLoop_backslash rest fun heq => absurd heq (stray_ne_unit h), if_neg h]

theorem repairLoop_control (hquote : c ≠ quote) (hbackslash : c ≠ backslash)
    (hcontrol : isControlCharacter c = true) (rest : JsString) :
    repairLoop true (c :: rest) = escapeControlCharacter c ++ repairLoop true rest := by
  rw [repairLoop_inside hbackslash, if_neg hquote, if_pos hcontrol]

theorem repairLoop_plain (hquote : c ≠ quote) (hbackslash : c ≠ backslash)
    (hcontrol : isControlCharacter c = false) (rest : JsString) :
    repairLoop true (c :: rest) = c :: repairLoop true rest := by
  rw [repairLoop_inside hbackslash, if_neg hquote, hcontrol, if_neg Bool.false_ne_true]

theorem isHexDigit_ne (h : isHexDigit c = true) : c ≠ quote ∧ c ≠ backslash := by
  constructor
  · rintro rfl
    exact absurd h (by decide)
  · rintro rfl
    exact absurd h (by decide)

variable {rest : JsString}

theorem isFourHexDigits_iff : isFourHexDigits (a :: b :: d :: e :: rest) = true ↔
      ((isHexDigit a = true ∧ isHexDigit b = true) ∧ isHexDigit d = true) ∧
        isHexDigit e = true := by
  rw [isFourHexDigits, Bool.and_eq_true, Bool.and_eq_true, Bool.and_eq_true]

/-- The escape of a control character is one of JSON, and stands for it. -/
def escapesControl (c : UInt16) : Bool :=
  match escapeControlCharacter c with
  | [first, next] =>
    decide (first = backslash) && decide (next ∈ simpleEscapes) && decide (escapeValue next = c)
  | [first, next, a, b, d, e] =>
    decide (first = backslash) && decide (next = 0x75) && isFourHexDigits [a, b, d, e]
      && decide (unicodeValue a b d e = c)
  | _ => false

theorem escapesControl_all : ∀ n : Fin 32, escapesControl (UInt16.ofNat n) = true := by decide

theorem escapeControlCharacter_cases (h : isControlCharacter c = true) :
    (∃ next ∈ simpleEscapes, escapeControlCharacter c = [backslash, next] ∧ escapeValue next = c) ∨
      ∃ a b d e, isFourHexDigits [a, b, d, e] = true ∧
        escapeControlCharacter c = [backslash, 0x75, a, b, d, e] ∧ unicodeValue a b d e = c := by
  have hle : c.toNat ≤ 31 := of_decide_eq_true h
  have hall := escapesControl_all ⟨c.toNat, by omega⟩
  rw [UInt16.ofNat_toNat, escapesControl] at hall
  split at hall
  · rename_i first next heq
    simp only [Bool.and_eq_true, decide_eq_true_eq] at hall
    obtain ⟨⟨rfl, hescape⟩, hvalue⟩ := hall
    exact .inl ⟨next, hescape, heq, hvalue⟩
  · rename_i first next a b d e heq
    simp only [Bool.and_eq_true, decide_eq_true_eq] at hall
    obtain ⟨⟨⟨rfl, rfl⟩, hdigits⟩, hvalue⟩ := hall
    exact .inr ⟨a, b, d, e, hdigits, heq, hvalue⟩
  · cases hall

/-! ## Bodies -/

/-- The body of a literal, and what is behind its closing quote. -/
def bodyOf : JsString → JsString × Option JsString
  | [] => ([], none)
  | c :: rest =>
    if c = quote then ([], some rest)
    else if c = backslash then
      match rest with
      | [] => ([c], none)
      | next :: rest => (c :: next :: (bodyOf rest).1, (bodyOf rest).2)
    else (c :: (bodyOf rest).1, (bodyOf rest).2)

theorem bodyOf_quote (rest : JsString) : bodyOf (quote :: rest) = ([], some rest) := by
  cases rest <;> exact if_pos rfl

theorem bodyOf_escape (next : UInt16) (rest : JsString) :
    bodyOf (backslash :: next :: rest)
      = (backslash :: next :: (bodyOf rest).1, (bodyOf rest).2) := by
  rfl

theorem bodyOf_char (hquote : c ≠ quote) (hbackslash : c ≠ backslash) (rest : JsString) :
    bodyOf (c :: rest) = (c :: (bodyOf rest).1, (bodyOf rest).2) := by
  cases rest <;> exact (if_neg hquote).trans (if_neg hbackslash)

theorem bodyOf_unicode (h : isFourHexDigits [a, b, d, e] = true) (rest : JsString) :
    bodyOf (backslash :: 0x75 :: a :: b :: d :: e :: rest)
      = (backslash :: 0x75 :: a :: b :: d :: e :: (bodyOf rest).1, (bodyOf rest).2) := by
  obtain ⟨⟨⟨ha, hb⟩, hd⟩, he⟩ := isFourHexDigits_iff.mp h
  rw [bodyOf_escape, bodyOf_char (isHexDigit_ne ha).1 (isHexDigit_ne ha).2,
    bodyOf_char (isHexDigit_ne hb).1 (isHexDigit_ne hb).2,
    bodyOf_char (isHexDigit_ne hd).1 (isHexDigit_ne hd).2,
    bodyOf_char (isHexDigit_ne he).1 (isHexDigit_ne he).2]

theorem body_induction {motive : JsString → Prop} (nil : motive [])
    (quote : ∀ rest, motive (quote :: rest)) (last : motive [backslash])
    (escape : ∀ next rest, motive rest → motive (backslash :: next :: rest))
    (char : ∀ c rest, c ≠ Frames.quote → c ≠ backslash → motive rest → motive (c :: rest))
    (text : JsString) : motive text := by
  induction text using bodyOf.induct with
  | case1 => exact nil
  | case2 rest => exact quote rest
  | case3 => exact last
  | case4 next rest _ ih => exact escape next rest ih
  | case5 c rest hquote hbackslash ih => exact char c rest hquote hbackslash ih

theorem stray_ne (h : next ∉ validJsonEscapes) : next ≠ quote ∧ next ≠ backslash := by
  constructor
  · rintro rfl
    exact h (mem_validJsonEscapes.mpr (.inl quote_mem_simpleEscapes))
  · rintro rfl
    exact h (mem_validJsonEscapes.mpr (.inl backslash_mem_simpleEscapes))

theorem bodyOf_stray (h : next ∉ validJsonEscapes) (rest : JsString) :
    bodyOf (backslash :: next :: rest)
      = (backslash :: (bodyOf (next :: rest)).1, (bodyOf (next :: rest)).2) := by
  rw [bodyOf_escape, bodyOf_char (stray_ne h).1 (stray_ne h).2]

theorem bodyOf_control (h : isControlCharacter c = true) (rest : JsString) :
    bodyOf (escapeControlCharacter c ++ rest)
      = (escapeControlCharacter c ++ (bodyOf rest).1, (bodyOf rest).2) := by
  rcases escapeControlCharacter_cases h with ⟨next, -, heq, -⟩ | ⟨a, b, d, e, hdigits, heq, -⟩
  · rw [heq]
    rfl
  · rw [heq]
    exact bodyOf_unicode hdigits rest

theorem bodyOf_prefix (text : JsString) : (bodyOf text).1 <+: text := by
  induction text using body_induction with
  | nil => exact prefix_refl _
  | quote rest =>
    rw [bodyOf_quote]
    exact nil_prefix
  | last => exact prefix_refl _
  | escape next rest ih => exact (prefix_append_right_inj [backslash, next]).mpr ih
  | char c rest hquote hbackslash ih =>
    rw [bodyOf_char hquote hbackslash]
    exact (prefix_append_right_inj [c]).mpr ih

theorem isFourHexDigits_append {a : JsString} (h : isFourHexDigits a = true) (b : JsString) :
    isFourHexDigits (a ++ b) = true := by
  match a, h with
  | _ :: _ :: _ :: _ :: _, h => exact h

theorem isFourHexDigits_bodyOf (h : isFourHexDigits rest = false) :
    isFourHexDigits (bodyOf rest).1 = false := by
  obtain ⟨after, hafter⟩ := bodyOf_prefix rest
  refine Bool.eq_false_iff.mpr fun hdigits => ?_
  have hdigits := isFourHexDigits_append hdigits after
  rw [hafter, h] at hdigits
  cases hdigits

theorem bodyOf_repairLoop (text : JsString) :
    bodyOf (repairLoop true text)
      = (repairLoop true (bodyOf text).1, (bodyOf text).2.map (repairLoop false)) := by
  induction text using inside_induction with
  | nil => rfl
  | quote rest =>
    rw [repairLoop_quote, bodyOf_quote, bodyOf_quote]
    rfl
  | last => rfl
  | unicode a b d e rest hdigits ih =>
    rw [repairLoop_unicode hdigits, bodyOf_unicode hdigits, bodyOf_unicode hdigits, ih,
      repairLoop_unicode hdigits]
  | short rest hshort ih =>
    rw [repairLoop_short hshort, bodyOf_escape, bodyOf_escape, ih,
      repairLoop_short (isFourHexDigits_bodyOf hshort)]
  | escape next rest hescape ih =>
    rw [repairLoop_simple hescape, bodyOf_escape, bodyOf_escape, ih, repairLoop_simple hescape]
  | stray next rest hstray ih =>
    rw [repairLoop_stray hstray, bodyOf_escape, bodyOf_stray hstray, ih,
      bodyOf_char (stray_ne hstray).1 (stray_ne hstray).2, repairLoop_stray hstray]
  | control c rest hquote hbackslash hcontrol ih =>
    rw [repairLoop_control hquote hbackslash hcontrol, bodyOf_control hcontrol,
      bodyOf_char hquote hbackslash, ih, repairLoop_control hquote hbackslash hcontrol]
  | plain c rest hquote hbackslash hcontrol ih =>
    rw [repairLoop_plain hquote hbackslash hcontrol, bodyOf_char hquote hbackslash,
      bodyOf_char hquote hbackslash, ih, repairLoop_plain hquote hbackslash hcontrol]

/-- A body has no quote that closes it. -/
def Interior (body : JsString) : Prop := (bodyOf body).2 = none

theorem interior_bodyOf (text : JsString) : Interior (bodyOf text).1 := by
  unfold Interior
  induction text using body_induction with
  | nil => rfl
  | quote rest =>
    rw [bodyOf_quote]
    rfl
  | last => rfl
  | escape next rest ih => exact ih
  | char c rest hquote hbackslash ih =>
    rw [bodyOf_char hquote hbackslash, bodyOf_char hquote hbackslash]
    exact ih

theorem not_interior_quote (rest : JsString) : ¬ Interior (quote :: rest) := by
  rw [Interior, bodyOf_quote]
  exact nofun

theorem repairLoop_escaped (h : isControlCharacter c = true) (rest : JsString) :
    repairLoop true (escapeControlCharacter c ++ rest)
      = escapeControlCharacter c ++ repairLoop true rest := by
  rcases escapeControlCharacter_cases h with ⟨next, hnext, heq, -⟩ | ⟨a, b, d, e, hdigits, heq, -⟩
  · rw [heq]
    exact repairLoop_simple hnext rest
  · rw [heq]
    exact repairLoop_unicode hdigits rest

theorem repairLoop_digit {text after : JsString} (hc : isHexDigit c = true)
    (h : repairLoop true text = c :: after) :
    ∃ rest, text = c :: rest ∧ after = repairLoop true rest := by
  have hne := isHexDigit_ne hc
  cases text using inside_induction with
  | nil => cases h
  | quote rest =>
    rw [repairLoop_quote] at h
    exact absurd (List.cons.inj h).1.symm hne.1
  | last => exact absurd (List.cons.inj h).1.symm hne.2
  | unicode a b d e rest hdigits _ =>
    rw [repairLoop_unicode hdigits] at h
    exact absurd (List.cons.inj h).1.symm hne.2
  | short rest hshort _ =>
    rw [repairLoop_short hshort] at h
    exact absurd (List.cons.inj h).1.symm hne.2
  | escape next rest hescape _ =>
    rw [repairLoop_simple hescape] at h
    exact absurd (List.cons.inj h).1.symm hne.2
  | stray next rest hstray _ =>
    rw [repairLoop_stray hstray] at h
    exact absurd (List.cons.inj h).1.symm hne.2
  | control c' rest hquote hbackslash hcontrol _ =>
    rw [repairLoop_control hquote hbackslash hcontrol] at h
    rcases escapeControlCharacter_cases hcontrol with ⟨_, -, heq, -⟩ | ⟨_, _, _, _, -, heq, -⟩
    · rw [heq] at h
      exact absurd (List.cons.inj h).1.symm hne.2
    · rw [heq] at h
      exact absurd (List.cons.inj h).1.symm hne.2
  | plain c' rest hquote hbackslash hcontrol _ =>
    rw [repairLoop_plain hquote hbackslash hcontrol] at h
    obtain ⟨rfl, rfl⟩ := List.cons.inj h
    exact ⟨rest, rfl, rfl⟩

theorem isFourHexDigits_repairLoop {text : JsString} (h : isFourHexDigits text = false) :
    isFourHexDigits (repairLoop true text) = false := by
  refine Bool.eq_false_iff.mpr fun hdigits => ?_
  match heq : repairLoop true text, hdigits with
  | a :: b :: d :: e :: after, hdigits =>
    obtain ⟨⟨⟨ha, hb⟩, hd⟩, he⟩ := isFourHexDigits_iff.mp hdigits
    obtain ⟨rest₁, rfl, h₁⟩ := repairLoop_digit ha heq
    obtain ⟨rest₂, rfl, h₂⟩ := repairLoop_digit hb h₁.symm
    obtain ⟨rest₃, rfl, h₃⟩ := repairLoop_digit hd h₂.symm
    obtain ⟨rest₄, rfl, -⟩ := repairLoop_digit he h₃.symm
    rw [isFourHexDigits_iff.mpr ⟨⟨⟨ha, hb⟩, hd⟩, he⟩] at h
    cases h

theorem repairLoop_idempotent {body : JsString} (hinterior : Interior body) :
    repairLoop true (repairLoop true body) = repairLoop true body := by
  induction body using inside_induction with
  | nil => rfl
  | quote rest => exact absurd hinterior (not_interior_quote rest)
  | last => rfl
  | unicode a b d e rest hdigits ih =>
    rw [Interior, bodyOf_unicode hdigits] at hinterior
    rw [repairLoop_unicode hdigits, repairLoop_unicode hdigits, ih hinterior]
  | short rest hshort ih =>
    rw [repairLoop_short hshort, repairLoop_short (isFourHexDigits_repairLoop hshort),
      ih hinterior]
  | escape next rest hescape ih =>
    rw [repairLoop_simple hescape, repairLoop_simple hescape, ih hinterior]
  | stray next rest hstray ih =>
    rw [Interior, bodyOf_stray hstray] at hinterior
    rw [repairLoop_stray hstray, repairLoop_simple backslash_mem_simpleEscapes, ih hinterior]
  | control c rest hquote hbackslash hcontrol ih =>
    rw [Interior, bodyOf_char hquote hbackslash] at hinterior
    rw [repairLoop_control hquote hbackslash hcontrol, repairLoop_escaped hcontrol, ih hinterior]
  | plain c rest hquote hbackslash hcontrol ih =>
    rw [Interior, bodyOf_char hquote hbackslash] at hinterior
    rw [repairLoop_plain hquote hbackslash hcontrol, repairLoop_plain hquote hbackslash hcontrol,
      ih hinterior]

/-! ## The pieces of the repaired text -/

theorem scanPieces_body (body text : JsString) :
    scanPieces (some body) text = match (bodyOf text).2 with
        | none => [.unclosed (body ++ (bodyOf text).1)]
        | some rest => .literal (body ++ (bodyOf text).1) :: scanPieces none rest := by
  induction text using body_induction generalizing body with
  | nil => exact congrArg (fun body => [Piece.unclosed body]) (append_nil body).symm
  | quote rest =>
    rw [bodyOf_quote, append_nil]
    cases rest <;> exact if_pos rfl
  | last => rfl
  | escape next rest ih =>
    have hstep : scanPieces (some body) (backslash :: next :: rest)
        = scanPieces (some (body ++ [backslash, next])) rest := by
      rfl
    rw [hstep, ih, bodyOf_escape]
    simp
  | char c rest hquote hbackslash ih =>
    have hstep : scanPieces (some body) (c :: rest) = scanPieces (some (body ++ [c])) rest := by
      cases rest <;> exact (if_neg hquote).trans (if_neg hbackslash)
    rw [hstep, ih, bodyOf_char hquote hbackslash]
    simp

def repairPiece : Piece → Piece
  | .outside c => .outside c
  | .literal body => .literal (repairLoop true body)
  | .unclosed body => .unclosed (repairLoop true body)

theorem bodyOf_rest_length {text rest : JsString} (h : (bodyOf text).2 = some rest) :
    rest.length < text.length := by
  induction text using body_induction with
  | nil => cases h
  | quote rest' =>
    rw [bodyOf_quote] at h
    cases h
    exact Nat.lt_succ_self _
  | last => cases h
  | escape next rest' ih =>
    exact Nat.lt_trans (ih h) (Nat.lt_add_of_pos_right (by decide : 0 < 2))
  | char c rest' hquote hbackslash ih =>
    rw [bodyOf_char hquote hbackslash] at h
    exact Nat.lt_trans (ih h) (Nat.lt_succ_self _)

/-- A text is characters outside of literals, then a literal that is closed or
goes on to the end, and so on. -/
theorem pieces_induction {motive : JsString → Prop} (nil : motive [])
    (outside : ∀ c rest, c ≠ quote → motive rest → motive (c :: rest))
    (unclosed : ∀ text, (bodyOf text).2 = none → motive (quote :: text))
    (literal : ∀ text rest, (bodyOf text).2 = some rest → motive rest → motive (quote :: text))
    (text : JsString) : motive text := by
  induction hlength : text.length using Nat.strongRecOn generalizing text with
  | ind n ih =>
    subst hlength
    cases text with
    | nil => exact nil
    | cons c rest =>
      by_cases hquote : c = quote
      · subst hquote
        cases hrest : (bodyOf rest).2 with
        | none => exact unclosed rest hrest
        | some after =>
          have hlt := bodyOf_rest_length hrest
          exact literal rest after hrest (ih _ (Nat.lt_trans hlt (Nat.lt_succ_self _)) after rfl)
      · exact outside c rest hquote (ih _ (Nat.lt_succ_self _) rest rfl)

theorem pieces_outside (h : c ≠ quote) (rest : JsString) :
    pieces (c :: rest) = .outside c :: pieces rest :=
  if_neg h

theorem pieces_quote (text : JsString) : pieces (quote :: text) = scanPieces (some []) text := by
  rw [pieces, scanPieces, if_pos rfl]

theorem pieces_unclosed {text : JsString} (h : (bodyOf text).2 = none) :
    pieces (quote :: text) = [.unclosed (bodyOf text).1] := by
  rw [pieces_quote, scanPieces_body, h, nil_append]

theorem pieces_literal {text rest : JsString} (h : (bodyOf text).2 = some rest) :
    pieces (quote :: text) = .literal (bodyOf text).1 :: pieces rest := by
  rw [pieces_quote, scanPieces_body, h, nil_append]
  rfl

/-- **The repair keeps the pieces of a text** and repairs each. -/
theorem pieces_repairJson (text : JsString) :
    pieces (repairJson text) = (pieces text).map repairPiece := by
  unfold repairJson
  induction text using pieces_induction with
  | nil => rfl
  | outside c rest hquote ih =>
    rw [repairLoop_outside hquote, pieces_outside hquote, pieces_outside hquote, ih]
    rfl
  | unclosed text hnone =>
    have hbody := bodyOf_repairLoop text
    rw [hnone] at hbody
    rw [repairLoop_open, pieces_unclosed (congrArg Prod.snd hbody), pieces_unclosed hnone, hbody]
    rfl
  | literal text rest hrest ih =>
    have hbody := bodyOf_repairLoop text
    rw [hrest] at hbody
    rw [repairLoop_open, pieces_literal (congrArg Prod.snd hbody), pieces_literal hrest, hbody, ih]
    rfl

def Piece.text : Piece → JsString
  | .outside c => [c]
  | .literal body => quote :: body ++ [quote]
  | .unclosed body => quote :: body

theorem bodyOf_text (text : JsString) :
    (bodyOf text).1 ++ ((bodyOf text).2.map (quote :: ·)).getD [] = text := by
  induction text using body_induction with
  | nil => rfl
  | quote rest =>
    rw [bodyOf_quote]
    rfl
  | last => rfl
  | escape next rest ih => exact congrArg (backslash :: next :: ·) ih
  | char c rest hquote hbackslash ih =>
    rw [bodyOf_char hquote hbackslash]
    exact congrArg (c :: ·) ih

theorem pieces_text (text : JsString) : (pieces text).flatMap Piece.text = text := by
  induction text using pieces_induction with
  | nil => rfl
  | outside c rest hquote ih =>
    rw [pieces_outside hquote, flatMap_cons, ih]
    rfl
  | unclosed text hnone =>
    have htext := bodyOf_text text
    rw [hnone, map_none, getD_none, append_nil] at htext
    rw [pieces_unclosed hnone, flatMap_singleton, Piece.text, htext]
  | literal text rest hrest ih =>
    have htext := bodyOf_text text
    rw [hrest, map_some, getD_some] at htext
    rw [pieces_literal hrest, flatMap_cons, ih, Piece.text, cons_append,
      cons_append, append_assoc, singleton_append, htext]

theorem interior_of_mem {text body : JsString}
    (h : .literal body ∈ pieces text ∨ .unclosed body ∈ pieces text) : Interior body := by
  induction text using pieces_induction with
  | nil => rcases h with h | h <;> cases h
  | outside c rest hquote ih =>
    rw [pieces_outside hquote] at h
    exact ih (by simpa using h)
  | unclosed text hnone =>
    rw [pieces_unclosed hnone] at h
    obtain rfl : body = (bodyOf text).1 := by simpa using h
    exact interior_bodyOf text
  | literal text rest hrest ih =>
    rw [pieces_literal hrest] at h
    by_cases hbody : body = (bodyOf text).1
    · exact hbody ▸ interior_bodyOf text
    · exact ih (by simpa [hbody] using h)

theorem repairJson_idempotent (text : JsString) :
    repairJson (repairJson text) = repairJson text := by
  rw [← pieces_text (repairJson (repairJson text)), pieces_repairJson, pieces_repairJson, List.map_map]
  conv_rhs => rw [← pieces_text (repairJson text), pieces_repairJson]
  refine congrArg (flatMap Piece.text) (map_congr_left fun piece hpiece => ?_)
  cases piece with
  | outside c => rfl
  | literal body =>
    exact congrArg Piece.literal (repairLoop_idempotent (interior_of_mem (.inl hpiece)))
  | unclosed body =>
    exact congrArg Piece.unclosed (repairLoop_idempotent (interior_of_mem (.inr hpiece)))

/-! ## Reading repaired bodies -/

theorem readBody_unicode (lenient : Bool) (h : isFourHexDigits [a, b, d, e] = true)
    (rest : JsString) :
    readBody lenient (backslash :: 0x75 :: a :: b :: d :: e :: rest)
      = (readBody lenient rest).map (unicodeValue a b d e :: ·) := by
  refine (if_pos rfl).trans (if_pos ?_)
  rw [decide_eq_true rfl, Bool.true_and, h]

theorem readBody_backslash (lenient : Bool) (hnot : next = 0x75 → isFourHexDigits rest = false) :
    readBody lenient (backslash :: next :: rest) = if next ∈ simpleEscapes then
          (readBody lenient rest).map (escapeValue next :: ·)
        else if lenient then (readBody lenient (next :: rest)).map (backslash :: ·) else none := by
  conv_lhs => rw [readBody.eq_def]
  dsimp only
  rw [if_pos rfl]
  split
  · rename_i heq
    cases heq
  · rename_i next' a b d e rest' heq
    cases heq
    refine if_neg fun hunicode => ?_
    rw [Bool.and_eq_true, decide_eq_true_eq] at hunicode
    have hfalse : isFourHexDigits [a, b, d, e] = false := hnot hunicode.1
    rw [hunicode.2] at hfalse
    cases hfalse
  · rename_i next' rest' _ heq
    cases heq
    rfl

theorem readBody_escape (lenient : Bool) (h : next ∈ simpleEscapes) (rest : JsString) :
    readBody lenient (backslash :: next :: rest)
      = (readBody lenient rest).map (escapeValue next :: ·) := by
  rw [readBody_backslash lenient fun heq => absurd heq (escape_ne_unit h), if_pos h]

theorem readBody_stray (lenient : Bool) (h : next ∉ simpleEscapes)
    (hnot : next = 0x75 → isFourHexDigits rest = false) :
    readBody lenient (backslash :: next :: rest)
      = if lenient then (readBody lenient (next :: rest)).map (backslash :: ·) else none := by
  rw [readBody_backslash lenient hnot, if_neg h]

theorem readBody_char (lenient : Bool) (h : c ≠ backslash) (rest : JsString) :
    readBody lenient (c :: rest) = if isControlCharacter c && !lenient then none
        else (readBody lenient rest).map (c :: ·) := by
  conv_lhs => rw [readBody.eq_def]
  dsimp only
  rw [if_neg h]

theorem unicodeComplete_escape (next : UInt16) (rest : JsString) :
    unicodeComplete (backslash :: next :: rest)
      = ((decide (next ≠ 0x75) || isFourHexDigits rest) && unicodeComplete rest) := by
  rfl

theorem unicodeComplete_char (h : c ≠ backslash) (rest : JsString) :
    unicodeComplete (c :: rest) = unicodeComplete rest := by
  cases rest <;> exact if_neg h

theorem unicodeComplete_unicode (h : isFourHexDigits [a, b, d, e] = true) (rest : JsString) :
    unicodeComplete (backslash :: 0x75 :: a :: b :: d :: e :: rest) = unicodeComplete rest := by
  obtain ⟨⟨⟨ha, hb⟩, hd⟩, he⟩ := isFourHexDigits_iff.mp h
  have hdigits : isFourHexDigits (a :: b :: d :: e :: rest) = true := h
  rw [unicodeComplete_escape, hdigits, Bool.or_true, Bool.true_and,
    unicodeComplete_char (isHexDigit_ne ha).2, unicodeComplete_char (isHexDigit_ne hb).2,
    unicodeComplete_char (isHexDigit_ne hd).2, unicodeComplete_char (isHexDigit_ne he).2]

theorem unicodeComplete_of_ne (h : next ≠ 0x75) (rest : JsString) :
    unicodeComplete (backslash :: next :: rest) = unicodeComplete rest := by
  rw [unicodeComplete_escape, decide_eq_true h, Bool.true_or, Bool.true_and]

theorem unicodeComplete_short (h : isFourHexDigits rest = false) :
    unicodeComplete (backslash :: 0x75 :: rest) = false := by
  rw [unicodeComplete_escape, h]
  rfl

theorem readBody_repairLoop {body : JsString} (hinterior : Interior body)
    (hcomplete : unicodeComplete body = true) :
    readBody false (repairLoop true body) = readBody true body := by
  induction body using inside_induction with
  | nil => rfl
  | quote rest => exact absurd hinterior (not_interior_quote rest)
  | last => rfl
  | unicode a b d e rest hdigits ih =>
    rw [Interior, bodyOf_unicode hdigits] at hinterior
    rw [unicodeComplete_unicode hdigits] at hcomplete
    rw [repairLoop_unicode hdigits, readBody_unicode _ hdigits, readBody_unicode _ hdigits,
      ih hinterior hcomplete]
  | short rest hshort _ =>
    rw [unicodeComplete_short hshort] at hcomplete
    cases hcomplete
  | escape next rest hescape ih =>
    rw [unicodeComplete_of_ne (escape_ne_unit hescape)] at hcomplete
    rw [repairLoop_simple hescape, readBody_escape _ hescape, readBody_escape _ hescape,
      ih hinterior hcomplete]
  | stray next rest hstray ih =>
    have hne := stray_ne_unit hstray
    have hsimple : next ∉ simpleEscapes := fun h => hstray (mem_validJsonEscapes.mpr (.inl h))
    rw [Interior, bodyOf_stray hstray] at hinterior
    rw [unicodeComplete_of_ne hne] at hcomplete
    rw [repairLoop_stray hstray, readBody_escape _ backslash_mem_simpleEscapes,
      readBody_stray _ hsimple fun heq => absurd heq hne, if_pos rfl,
      ih hinterior ((unicodeComplete_char (stray_ne hstray).2 rest).trans hcomplete)]
    rfl
  | control c rest hquote hbackslash hcontrol ih =>
    rw [Interior, bodyOf_char hquote hbackslash] at hinterior
    rw [unicodeComplete_char hbackslash] at hcomplete
    have hlenient : readBody true (c :: rest) = (readBody true rest).map (c :: ·) := by
      rw [readBody_char _ hbackslash, Bool.not_true, Bool.and_false, if_neg Bool.false_ne_true]
    rw [repairLoop_control hquote hbackslash hcontrol, hlenient, ← ih hinterior hcomplete]
    rcases escapeControlCharacter_cases hcontrol with
      ⟨next, hnext, heq, rfl⟩ | ⟨a, b, d, e, hdigits, heq, rfl⟩
    · rw [heq]
      exact readBody_escape false hnext _
    · rw [heq]
      exact readBody_unicode false hdigits _
  | plain c rest hquote hbackslash hcontrol ih =>
    rw [Interior, bodyOf_char hquote hbackslash] at hinterior
    rw [unicodeComplete_char hbackslash] at hcomplete
    rw [repairLoop_plain hquote hbackslash hcontrol, readBody_char _ hbackslash,
      readBody_char _ hbackslash, hcontrol, ih hinterior hcomplete]
    rfl

theorem repairLoop_of_readBody {body value : JsString} (hinterior : Interior body)
    (h : readBody false body = some value) : repairLoop true body = body := by
  induction body using inside_induction generalizing value with
  | nil => rfl
  | quote rest => exact absurd hinterior (not_interior_quote rest)
  | last => cases h
  | unicode a b d e rest hdigits ih =>
    rw [Interior, bodyOf_unicode hdigits] at hinterior
    rw [readBody_unicode _ hdigits] at h
    obtain ⟨value', hvalue, -⟩ := Option.map_eq_some_iff.mp h
    rw [repairLoop_unicode hdigits, ih hinterior hvalue]
  | short rest hshort _ =>
    rw [readBody_stray _ unit_notMem_simpleEscapes fun _ => hshort] at h
    cases h
  | escape next rest hescape ih =>
    rw [readBody_escape _ hescape] at h
    obtain ⟨value', hvalue, -⟩ := Option.map_eq_some_iff.mp h
    rw [repairLoop_simple hescape, ih hinterior hvalue]
  | stray next rest hstray _ =>
    have hsimple : next ∉ simpleEscapes := fun h => hstray (mem_validJsonEscapes.mpr (.inl h))
    rw [readBody_stray _ hsimple fun heq => absurd heq (stray_ne_unit hstray)] at h
    cases h
  | control c rest _ hbackslash hcontrol _ =>
    rw [readBody_char _ hbackslash, hcontrol] at h
    cases h
  | plain c rest hquote hbackslash hcontrol ih =>
    rw [Interior, bodyOf_char hquote hbackslash] at hinterior
    rw [readBody_char _ hbackslash, hcontrol] at h
    obtain ⟨value', hvalue, -⟩ := Option.map_eq_some_iff.mp h
    rw [repairLoop_plain hquote hbackslash hcontrol, ih hinterior hvalue]

theorem validBody_escape_iff (h : next ∈ simpleEscapes) (rest : JsString) :
    ValidBody (backslash :: next :: rest) ↔ ValidBody rest := by
  refine ⟨fun hvalid => ?_, .escape h⟩
  cases hvalid with
  | char _ hbackslash _ _ => exact absurd rfl hbackslash
  | escape _ hrest => exact hrest
  | unicode _ _ => exact absurd h unit_notMem_simpleEscapes

theorem validBody_unicode_iff (h : isFourHexDigits [a, b, d, e] = true) (rest : JsString) :
    ValidBody (backslash :: 0x75 :: a :: b :: d :: e :: rest) ↔ ValidBody rest := by
  refine ⟨fun hvalid => ?_, .unicode h⟩
  cases hvalid with
  | char _ hbackslash _ _ => exact absurd rfl hbackslash
  | escape hescape _ => exact absurd hescape unit_notMem_simpleEscapes
  | unicode _ hrest => exact hrest

theorem not_validBody_short (h : isFourHexDigits rest = false) :
    ¬ ValidBody (backslash :: 0x75 :: rest) := by
  intro hvalid
  cases hvalid with
  | char _ hbackslash _ _ => exact hbackslash rfl
  | escape hescape _ => exact unit_notMem_simpleEscapes hescape
  | unicode hdigits _ =>
    rw [isFourHexDigits] at h hdigits
    rw [hdigits] at h
    cases h

theorem validBody_char_iff (hquote : c ≠ quote) (hbackslash : c ≠ backslash)
    (hcontrol : isControlCharacter c = false) (rest : JsString) :
    ValidBody (c :: rest) ↔ ValidBody rest := by
  refine ⟨fun hvalid => ?_, .char hquote hbackslash hcontrol⟩
  cases hvalid with
  | char _ _ _ hrest => exact hrest
  | _ => exact absurd rfl hbackslash

/-- **What the repair leaves invalid**: a unicode escape without its digits. -/
theorem validBody_repairLoop {body : JsString} (hinterior : Interior body) :
    ValidBody (repairLoop true body) ↔ unicodeComplete body = true := by
  induction body using inside_induction with
  | nil => exact iff_of_true .nil rfl
  | quote rest => exact absurd hinterior (not_interior_quote rest)
  | last =>
    rw [repairLoop_last, validBody_escape_iff backslash_mem_simpleEscapes]
    exact iff_of_true .nil rfl
  | unicode a b d e rest hdigits ih =>
    rw [Interior, bodyOf_unicode hdigits] at hinterior
    rw [repairLoop_unicode hdigits, validBody_unicode_iff hdigits,
      unicodeComplete_unicode hdigits, ih hinterior]
  | short rest hshort _ =>
    rw [repairLoop_short hshort, unicodeComplete_short hshort]
    exact iff_of_false (not_validBody_short (isFourHexDigits_repairLoop hshort)) Bool.false_ne_true
  | escape next rest hescape ih =>
    rw [repairLoop_simple hescape, validBody_escape_iff hescape, unicodeComplete_of_ne (escape_ne_unit hescape), ih hinterior]
  | stray next rest hstray ih =>
    rw [Interior, bodyOf_stray hstray] at hinterior
    rw [repairLoop_stray hstray, validBody_escape_iff backslash_mem_simpleEscapes,
      unicodeComplete_of_ne (stray_ne_unit hstray), ih hinterior,
      unicodeComplete_char (stray_ne hstray).2]
  | control c rest hquote hbackslash hcontrol ih =>
    rw [Interior, bodyOf_char hquote hbackslash] at hinterior
    rw [repairLoop_control hquote hbackslash hcontrol, unicodeComplete_char hbackslash,
      ← ih hinterior]
    rcases escapeControlCharacter_cases hcontrol with
      ⟨next, hnext, heq, -⟩ | ⟨a, b, d, e, hdigits, heq, -⟩
    · rw [heq]
      exact validBody_escape_iff hnext _
    · rw [heq]
      exact validBody_unicode_iff hdigits _
  | plain c rest hquote hbackslash hcontrol ih =>
    rw [Interior, bodyOf_char hquote hbackslash] at hinterior
    rw [repairLoop_plain hquote hbackslash hcontrol,
      validBody_char_iff hquote hbackslash hcontrol, unicodeComplete_char hbackslash, ih hinterior]

/-! ## The text -/

variable {α : Type} {document : List Symbol → Option α} {text : JsString}

theorem repairJson_of_parse {v : α} (h : parseWith document false text = some v) :
    repairJson text = text := by
  obtain ⟨symbols, hsymbols, -⟩ := Option.bind_eq_some_iff.mp h
  have hkept : (pieces text).map repairPiece = (pieces text).map id := by
    refine map_congr_left fun piece hpiece => ?_
    obtain ⟨symbol, -, hsymbol⟩ := some_of_mapM hsymbols hpiece
    cases piece with
    | outside c => rfl
    | literal body =>
      obtain ⟨value, hvalue, -⟩ := Option.map_eq_some_iff.mp hsymbol
      exact congrArg Piece.literal (repairLoop_of_readBody (interior_of_mem (.inl hpiece)) hvalue)
    | unclosed body => cases hsymbol
  rw [← pieces_text (repairJson text), pieces_repairJson, hkept, List.map_id, pieces_text]

theorem parseWith_repairJson (h : UnicodeComplete text) :
    parseWith document false (repairJson text) = parseWith document true text := by
  unfold parseWith
  rw [pieces_repairJson, mapM_map]
  refine congrArg (·.bind document) (mapM_congr fun piece hpiece => ?_)
  cases piece with
  | outside c => rfl
  | literal body =>
    exact congrArg (·.map Symbol.string)
      (readBody_repairLoop (interior_of_mem (.inl hpiece)) (h body hpiece))
  | unclosed body => rfl

theorem valid_iff_unicodeComplete :
    (∀ body, .literal body ∈ pieces (repairJson text) → ValidBody body) ↔ UnicodeComplete text := by
  rw [pieces_repairJson]
  constructor
  · intro h body hbody
    exact (validBody_repairLoop (interior_of_mem (.inl hbody))).mp
      (h _ (@List.mem_map_of_mem _ _ _ _ repairPiece hbody))
  · intro h body hbody
    obtain ⟨piece, hpiece, heq⟩ := List.mem_map.mp hbody
    cases piece with
    | outside c => cases heq
    | literal body' =>
      obtain rfl := Piece.literal.inj heq
      exact (validBody_repairLoop (interior_of_mem (.inl hpiece))).mpr (h body' hpiece)
    | unclosed body' => cases heq

/-- **The repair does what it is for** where each closed literal has the digits
of its unicode escapes. -/
theorem repairs_iff (document : List Symbol → Option α) (text : JsString) :
    Repairs document text ↔ UnicodeComplete text := by
  refine ⟨fun h => valid_iff_unicodeComplete.mp h.valid, fun h => ?_⟩
  exact
    { valid := valid_iff_unicodeComplete.mpr h
      unchanged := fun v hv => repairJson_of_parse hv
      idempotent := repairJson_idempotent text
      lenient := by
        intro v hv
        have hrepaired := @parseWith_repairJson _ document _ h
        rw [hv] at hrepaired
        unfold repairingParse
        cases hparse : parseWith document false text with
        | some v' =>
          rw [repairJson_of_parse hparse, hparse] at hrepaired
          exact hrepaired
        | none =>
          rw [if_pos, hrepaired]
          intro hsame
          rw [hsame, hparse] at hrepaired
          cases hrepaired }

/-- `"\u12"`: a unicode escape that has two digits. -/
def shortEscape : JsString := [quote, backslash, 0x75, 0x31, 0x32, quote]

theorem not_repairs : ¬ Repairs (fun symbols => symbols.head?) shortEscape := by
  intro h
  have hliteral : Piece.literal [backslash, 0x75, 0x31, 0x32] ∈ pieces shortEscape :=
    mem_singleton_self _
  have hcomplete := valid_iff_unicodeComplete.mp h.valid _ hliteral
  exact absurd hcomplete (by decide)

end ReflectivePi.Frames
