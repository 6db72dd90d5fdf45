import ReflectivePi.Frames.Repair
import ReflectivePi.Session.Discovery

/-!
# Session — Separators

Node's `readline` ends lines at U+2028 and U+2029 as well, which JSON allows
inside string literals. A line of JSON that is cut there gives a start that is
not closed and pieces that begin inside a literal: what these are read as, if
anything, has no property that is named in letters.
-/

namespace ReflectivePi.Session.Discovery

open List
open Delta (Json JsString js)
open Frames (Symbol Piece pieces bodyOf parseWith readBody readPiece quote backslash)

/-! ## JSON lines -/

/-- The UTF-16 code units of a character. -/
def charUnits (c : Char) : JsString :=
  if c.toNat < 0x10000 then [c.toNat.toUInt16]
  else [(0xD800 + (c.toNat - 0x10000) / 0x400).toUInt16,
    (0xDC00 + (c.toNat - 0x10000) % 0x400).toUInt16]

def units (text : Text) : JsString := text.flatMap charUnits

/-- What JSON is outside of string literals: no backslash is there, and the
names of an object are literals. -/
structure JsonGrammar where
  document : List Symbol → Option Json
  noBackslash : ∀ symbols, .outside backslash ∈ symbols → document symbols = none
  names : ∀ symbols fields, document symbols = some (.obj fields) →
    ∀ field ∈ fields, .string field.1 ∈ symbols

/-- `JSON.parse`; a blank text is none. -/
def JsonGrammar.parser (G : JsonGrammar) : JsonParse where
  parse line := if line.all isWhitespace then none else parseWith G.document false (units line)
  blank _ h := if_pos h

/-- What `JSON.stringify` writes outside of string literals. -/
def plainUnits : List UInt16 := js "\x7b\x7d[]:,+-.0123456789aeflnrstu"

/-- A written line: its literals are whatever they are. -/
def Written (text : JsString) : Prop := ∀ c, .outside c ∈ pieces text → c ∈ plainUnits

/-- What follows the start of a literal in a written line. -/
def WrittenInside (text : JsString) : Prop :=
  ∀ rest, (bodyOf text).2 = some rest → Written rest

def lineSeparator : Char := Char.ofNat 0x2028

def paragraphSeparator : Char := Char.ofNat 0x2029

def isSeparator (c : Char) : Bool := c = lineSeparator || c = paragraphSeparator

/-! ## Cutting a literal -/

section

variable {text before after body rest : JsString} {c separator : UInt16}

theorem bodyOf_append (h : (bodyOf before).2 = some rest) (after : JsString) :
    (bodyOf (before ++ after)).2 = some (rest ++ after) := by
  fun_induction bodyOf before with
  | case1 => cases h
  | case2 tail =>
    obtain rfl := Option.some.inj h
    rw [cons_append, Frames.bodyOf_quote]
  | case3 => cases h
  | case4 next tail _ ih =>
    rw [cons_append, cons_append, Frames.bodyOf_escape]
    exact ih h
  | case5 c tail hquote hbackslash ih =>
    rw [cons_append, Frames.bodyOf_char hquote hbackslash]
    exact ih h

theorem bodyOf_cut (h : (bodyOf before).2 = none) (hquote : separator ≠ quote)
    (hbackslash : separator ≠ backslash) :
    (bodyOf (before ++ separator :: after)).2 = (bodyOf after).2 := by
  fun_induction bodyOf before with
  | case1 => rw [nil_append, Frames.bodyOf_char hquote hbackslash]
  | case2 tail => cases h
  | case3 => rfl
  | case4 next tail _ ih =>
    rw [cons_append, cons_append, Frames.bodyOf_escape]
    exact ih h
  | case5 c tail hc hc' ih =>
    rw [cons_append, Frames.bodyOf_char hc hc']
    exact ih h

theorem Written.of_outside (h : Written (c :: text)) (hc : c ≠ quote) :
    c ∈ plainUnits ∧ Written text := by
  rw [Written, Frames.pieces_outside hc] at h
  exact ⟨h c mem_cons_self, fun d hd => h d (mem_cons_of_mem _ hd)⟩

theorem Written.inside (h : Written (quote :: text)) : WrittenInside text := by
  intro rest hrest c hc
  rw [Written, Frames.pieces_literal hrest] at h
  exact h c (mem_cons_of_mem _ hc)

theorem WrittenInside.of_char (h : WrittenInside (c :: text)) (hquote : c ≠ quote)
    (hbackslash : c ≠ backslash) : WrittenInside text := by
  intro rest hrest
  refine h rest ?_
  rw [Frames.bodyOf_char hquote hbackslash]
  exact hrest

theorem WrittenInside.of_cut (hbody : (bodyOf before).2 = none)
    (h : WrittenInside (before ++ separator :: after)) (hquote : separator ≠ quote)
    (hbackslash : separator ≠ backslash) : WrittenInside after :=
  fun rest hrest => h rest (by rw [bodyOf_cut hbody hquote hbackslash, hrest])

theorem Written.cut (h : Written (before ++ separator :: after))
    (hseparator : separator ∉ plainUnits) (hquote : separator ≠ quote)
    (hbackslash : separator ≠ backslash) :
    (∃ body, Piece.unclosed body ∈ pieces before) ∧ WrittenInside after := by
  induction before using Frames.pieces_induction with
  | nil => exact absurd (h.of_outside hquote).1 hseparator
  | outside c rest hc ih =>
    obtain ⟨⟨body, hbody⟩, hafter⟩ := ih (h.of_outside hc).2
    rw [Frames.pieces_outside hc]
    exact ⟨⟨body, mem_cons_of_mem _ hbody⟩, hafter⟩
  | unclosed text hnone =>
    rw [Frames.pieces_unclosed hnone]
    exact ⟨⟨_, mem_singleton_self _⟩, .of_cut hnone h.inside hquote hbackslash⟩
  | literal text rest hrest ih =>
    obtain ⟨⟨body, hbody⟩, hafter⟩ := ih (h.inside _ (bodyOf_append hrest _))
    rw [Frames.pieces_literal hrest]
    exact ⟨⟨body, mem_cons_of_mem _ hbody⟩, hafter⟩

theorem WrittenInside.cut (h : WrittenInside (before ++ separator :: after))
    (hseparator : separator ∉ plainUnits) (hquote : separator ≠ quote)
    (hbackslash : separator ≠ backslash) : WrittenInside after := by
  cases hbody : (bodyOf before).2 with
  | none => exact .of_cut hbody h hquote hbackslash
  | some rest => exact ((h _ (bodyOf_append hbody _)).cut hseparator hquote hbackslash).2

theorem Written.bodyOf_plain (h : Written (text ++ after)) :
    (∀ c ∈ (bodyOf text).1, c ∈ plainUnits) ∧
      ∀ rest, (bodyOf text).2 = some rest → WrittenInside (rest ++ after) := by
  have hplain : backslash ∉ plainUnits := by decide
  fun_induction bodyOf text with
  | case1 => simp
  | case2 tail =>
    refine ⟨fun c hc => (nomatch hc), fun rest hrest => ?_⟩
    obtain rfl := Option.some.inj hrest
    exact h.inside
  | case5 c tail hquote hbackslash ih =>
    obtain ⟨hc, htail⟩ := h.of_outside hquote
    exact ⟨List.forall_mem_cons.mpr ⟨hc, (ih htail).1⟩, (ih htail).2⟩
  | _ => exact absurd (h.of_outside Frames.backslash_ne_quote).1 hplain

/-- A piece that begins inside a literal: a backslash is outside of literals in
it, or its literals are plain. -/
theorem WrittenInside.literals (h : WrittenInside (text ++ after)) :
    .outside backslash ∈ pieces text ∨
      ∀ body, Piece.literal body ∈ pieces text → ∀ c ∈ body, c ∈ plainUnits := by
  induction text using Frames.pieces_induction with
  | nil => exact .inr fun body hbody => nomatch hbody
  | outside c rest hquote ih =>
    rw [Frames.pieces_outside hquote]
    by_cases hbackslash : c = backslash
    · exact .inl (hbackslash ▸ mem_cons_self)
    · refine (ih (h.of_char hquote hbackslash)).imp (mem_cons_of_mem _) fun hplain => ?_
      exact fun body hbody => hplain body (by simpa using hbody)
  | unclosed text hnone =>
    rw [Frames.pieces_unclosed hnone]
    simp
  | literal text rest hrest ih =>
    have hwritten : Written (text ++ after) := h _ (Frames.bodyOf_quote _ ▸ rfl)
    obtain ⟨hbody, hinside⟩ := hwritten.bodyOf_plain
    rw [Frames.pieces_literal hrest]
    refine (ih (hinside rest hrest)).imp (mem_cons_of_mem _) fun hplain body hmem => ?_
    rcases List.mem_cons.mp hmem with heq | hmem
    · obtain rfl := Piece.literal.inj heq
      exact hbody
    · exact hplain body hmem

theorem readBody_plain {value : JsString} (h : backslash ∉ body)
    (hread : readBody false body = some value) : value = body := by
  induction body generalizing value with
  | nil => exact (Option.some.inj hread).symm
  | cons c rest ih =>
    rw [mem_cons, not_or] at h
    rw [Frames.readBody_char _ (Ne.symm h.1)] at hread
    split at hread
    · cases hread
    · obtain ⟨tail, htail, rfl⟩ := Option.map_eq_some_iff.mp hread
      rw [ih h.2 htail]

end

section

variable {G : JsonGrammar} {text before after : JsString} {v : Json}

theorem parseWith_unclosed (h : ∃ body, Piece.unclosed body ∈ pieces text) :
    parseWith G.document false text = none := by
  obtain ⟨body, hbody⟩ := h
  have hnone : (pieces text).mapM (readPiece false) = none := by
    cases hmap : (pieces text).mapM (readPiece false) with
    | none => rfl
    | some symbols =>
      obtain ⟨symbol, hsymbol⟩ := some_of_mapM hmap hbody
      cases hsymbol.2
  rw [parseWith, hnone, Option.bind_none]

theorem WrittenInside.typeless (h : WrittenInside (text ++ after))
    (hread : parseWith G.document false text = some v) : property "type" v = none := by
  obtain ⟨symbols, hmap, hdocument⟩ := Option.bind_eq_some_iff.mp hread
  rcases h.literals with hbackslash | hplain
  · obtain ⟨symbol, hmem, hsymbol⟩ := some_of_mapM hmap hbackslash
    obtain rfl := Option.some.inj hsymbol
    rw [G.noBackslash symbols hmem] at hdocument
    cases hdocument
  · cases v with
    | obj fields =>
      by_contra htype
      obtain ⟨value, hvalue⟩ := Option.ne_none_iff_exists'.mp htype
      have hname := G.names symbols fields hdocument _ (InsertionMap.mem_of_findEntry hvalue)
      obtain ⟨piece, hpiece, hread⟩ := mem_of_mapM hmap hname
      cases piece with
      | outside c => cases hread
      | unclosed body => cases hread
      | literal body =>
        obtain ⟨value, hvalue, heq⟩ := Option.map_eq_some_iff.mp hread
        obtain rfl := Symbol.string.inj heq
        have hbody := readBody_plain (fun hmem =>
          absurd (hplain body hpiece _ hmem) (by decide)) hvalue
        have hy : (0x79 : UInt16) ∈ body := hbody ▸ (by decide : (0x79 : UInt16) ∈ js "type")
        exact absurd (hplain body hpiece _ hy) (by decide)
    | _ => rfl

end

/-! ## Lines as `readline` ends them -/

/-- The lines of a text from a line at hand: a carriage return and a line feed
are one end, and there is no last line that is empty. -/
def readlineFrom : Text → Text → List Text
  | line, [] => if line = [] then [] else [line]
  | line, [c] =>
    if c = '\r' || c = '\n' || isSeparator c then [line] else [line ++ [c]]
  | line, c :: d :: rest =>
    if c = '\r' && d = '\n' then line :: readlineFrom [] rest
    else if c = '\r' || c = '\n' || isSeparator c then line :: readlineFrom [] (d :: rest)
    else readlineFrom (line ++ [c]) (d :: rest)

def readlineLines (text : Text) : List Text := readlineFrom [] text

section

variable {G : JsonGrammar} {J : JsonParse} {text line before after : Text} {v : Json}

def endsLine (c : Char) : Bool := c = '\n' || isSeparator c

theorem lineValue_nil : lineValue J [] = none := by
  rw [lineValue, J.blank [] rfl]
  rfl

theorem modifyHead_nil_append (pieces : List Text) : pieces.modifyHead ([] ++ ·) = pieces := by
  cases pieces <;> rfl

theorem modifyHead_cons_append (c : Char) (before : Text) (pieces : List Text) :
    (pieces.modifyHead (List.cons c)).modifyHead (before ++ ·)
      = pieces.modifyHead (before ++ [c] ++ ·) := by
  cases pieces <;> simp

/-- Without carriage returns, the lines that have a value are those between the
ends of lines. -/
theorem filterMap_readlineFrom (h : '\r' ∉ text) :
    (readlineFrom line text).filterMap (lineValue J)
      = ((text.splitOnP endsLine).modifyHead (line ++ ·)).filterMap (lineValue J) := by
  have hends (c : Char) (hc : c ≠ '\r') :
      (c = '\r' || c = '\n' || isSeparator c) = endsLine c := by simp [endsLine, hc]
  fun_induction readlineFrom line text with
  | case1 => simp [lineValue_nil]
  | case2 line hline => simp
  | case3 line c hc =>
    have hne : c ≠ '\r' := by simpa [eq_comm] using h
    rw [hends c hne] at hc
    simp [splitOnP_cons_eq_if_modifyHead, hc, filterMap_cons, lineValue_nil]
  | case4 line c hc =>
    have hne : c ≠ '\r' := by simpa [eq_comm] using h
    rw [hends c hne] at hc
    simp [splitOnP_cons_eq_if_modifyHead, hc]
  | case5 line c d rest hboth => simp_all
  | case6 line c d rest hboth hc ih =>
    rw [mem_cons, not_or] at h
    rw [hends c (Ne.symm h.1)] at hc
    rw [splitOnP_cons_eq_if_modifyHead c, if_pos hc, filterMap_cons, ih h.2,
      modifyHead_cons, filterMap_cons, append_nil, modifyHead_nil_append]
  | case7 line c d rest hboth hc ih =>
    rw [mem_cons, not_or] at h
    rw [hends c (Ne.symm h.1)] at hc
    rw [ih h.2, splitOnP_cons_eq_if_modifyHead c, if_neg hc, modifyHead_cons_append]

theorem textLines_eq (text : Text) : textLines text = text.splitOnP (· = '\n') := by
  induction text with
  | nil => rfl
  | cons c rest ih =>
    rw [splitOnP_cons_eq_if_modifyHead, ← ih]
    by_cases hc : c = '\n'
    · simp [textLines, Lines.split, hc]
    · cases hlines : (Lines.split '\n' rest).1 <;> simp [textLines, Lines.split, hc, hlines]

theorem mem_textLines {c : Char} (h : c ∈ text) (hc : c ≠ '\n') :
    ∃ line ∈ textLines text, c ∈ line := by
  rw [textLines_eq]
  induction text with
  | nil => cases h
  | cons d rest ih =>
    have hne := splitOnP_ne_nil (fun c => decide (c = '\n')) rest
    rw [splitOnP_cons_eq_if_modifyHead]
    cases hlines : rest.splitOnP (fun c => decide (c = '\n')) with
    | nil => exact absurd hlines hne
    | cons first lines =>
      rw [hlines] at ih
      rcases List.mem_cons.mp h with rfl | h
      · exact ⟨c :: first, by simp [hc], mem_cons_self⟩
      · obtain ⟨line, hline, hmem⟩ := ih h
        by_cases hd : d = '\n'
        · exact ⟨line, by simpa [hd] using .inr (List.mem_cons.mp hline), hmem⟩
        · rcases List.mem_cons.mp hline with rfl | hline
          · exact ⟨d :: line, by simp [hd], mem_cons_of_mem _ hmem⟩
          · exact ⟨line, by simp [hd, hline], hmem⟩

theorem splitOnP_endsLine (text : Text) :
    text.splitOnP endsLine = (textLines text).flatMap fun line => line.splitOnP isSeparator := by
  rw [textLines_eq]
  induction text with
  | nil => rfl
  | cons c rest ih =>
    have hne := splitOnP_ne_nil (fun c => decide (c = '\n')) rest
    rw [splitOnP_cons_eq_if_modifyHead, splitOnP_cons_eq_if_modifyHead, ih]
    cases hlines : rest.splitOnP (fun c => decide (c = '\n')) with
    | nil => exact absurd hlines hne
    | cons first lines =>
      have hfirst := splitOnP_ne_nil isSeparator first
      by_cases hc : c = '\n'
      · simp [endsLine, hc]
      · cases hpieces : first.splitOnP isSeparator with
        | nil => exact absurd hpieces hfirst
        | cons piece pieces =>
          by_cases hseparator : isSeparator c = true
          · simp [endsLine, hc, hseparator, splitOnP_cons_eq_if_modifyHead, hpieces]
          · simp [endsLine, hc, hseparator, splitOnP_cons_eq_if_modifyHead, hpieces]

theorem filterMap_readlineLines (h : '\r' ∉ text) :
    (readlineLines text).filterMap (lineValue J) = (textLines text).flatMap fun line =>
          (line.splitOnP isSeparator).filterMap (lineValue J) := by
  rw [readlineLines, filterMap_readlineFrom h, ← filterMap_flatMap, ← splitOnP_endsLine,
    modifyHead_nil_append]

/-! ## Values of a line in pieces -/

/-- A line that `JSON.stringify` may have written. -/
structure WrittenLine (line : Text) : Prop where
  noReturn : '\r' ∉ line
  written : Written (units line)

theorem parse_of_lineValue (h : lineValue G.parser line = some v) :
    parseWith G.document false (units line) = some v := by
  obtain ⟨hparse, -⟩ := Option.filter_eq_some_iff.mp h
  rw [JsonGrammar.parser] at hparse
  dsimp only at hparse
  split at hparse
  · cases hparse
  · exact hparse

theorem units_cut {c : Char} (h : isSeparator c = true) :
    ∃ separator, separator ∉ plainUnits ∧ separator ≠ quote ∧ separator ≠ backslash ∧
      ∀ before after, units (before ++ c :: after) = units before ++ separator :: units after := by
  have hunits (before after : Text) :
      units (before ++ c :: after) = units before ++ (charUnits c ++ units after) := by
    rw [units, flatMap_append, flatMap_cons]
    rfl
  rw [isSeparator, Bool.or_eq_true, decide_eq_true_eq, decide_eq_true_eq] at h
  rcases h with rfl | rfl
  · exact ⟨0x2028, by decide, by decide, by decide, hunits⟩
  · exact ⟨0x2029, by decide, by decide, by decide, hunits⟩

theorem units_append (before after : Text) :
    units (before ++ after) = units before ++ units after := flatMap_append

/-- No value with a `type` is read of the text. -/
def Typeless (G : JsonGrammar) (text : Text) : Prop :=
  ∀ v, lineValue G.parser text = some v → property "type" v = none

theorem typeless_inside (h : WrittenInside (units (before ++ text))) :
    ∀ piece ∈ (text.splitOnP isSeparator).modifyHead (before ++ ·), Typeless G piece := by
  induction text generalizing before with
  | nil =>
    rw [units_append] at h
    rw [splitOnP_nil, modifyHead_cons, append_nil, forall_mem_singleton]
    exact fun v hv => h.typeless (parse_of_lineValue hv)
  | cons c text ih =>
    rw [splitOnP_cons_eq_if_modifyHead]
    split
    · rename_i hc
      obtain ⟨separator, hplain, hquote, hbackslash, hunits⟩ := units_cut hc
      rw [hunits] at h
      rw [modifyHead_cons, append_nil, forall_mem_cons]
      have hrest := @ih [] (h.cut hplain hquote hbackslash)
      rw [modifyHead_nil_append] at hrest
      exact ⟨fun v hv => h.typeless (parse_of_lineValue hv), hrest⟩
    · rw [modifyHead_cons_append]
      exact ih (by rwa [append_assoc])

theorem typeless_written (h : Written (units (before ++ text)))
    (hseparated : text.any isSeparator = true) :
    ∀ piece ∈ (text.splitOnP isSeparator).modifyHead (before ++ ·), Typeless G piece := by
  induction text generalizing before with
  | nil => cases hseparated
  | cons c text ih =>
    rw [splitOnP_cons_eq_if_modifyHead]
    split
    · rename_i hc
      obtain ⟨separator, hplain, hquote, hbackslash, hunits⟩ := units_cut hc
      rw [hunits] at h
      obtain ⟨hunclosed, hinside⟩ := h.cut hplain hquote hbackslash
      rw [modifyHead_cons, append_nil, forall_mem_cons]
      have hrest := @typeless_inside G text [] hinside
      rw [modifyHead_nil_append] at hrest
      have hnone : parseWith G.document false (units before) = none := parseWith_unclosed hunclosed
      refine ⟨fun v hv => ?_, hrest⟩
      rw [parse_of_lineValue hv] at hnone
      cases hnone
    · rename_i hc
      rw [any_cons, Bool.eq_false_iff.mpr hc, Bool.false_or] at hseparated
      rw [modifyHead_cons_append]
      exact ih (by rwa [append_assoc]) hseparated

/-- **A line that is cut has no value with a `type`**, and one that is not cut
has its own. -/
theorem pieces_values (h : WrittenLine line) :
    if line.any isSeparator then
      ∀ v ∈ (line.splitOnP isSeparator).filterMap (lineValue G.parser), property "type" v = none
    else (line.splitOnP isSeparator).filterMap (lineValue G.parser)
      = (lineValue G.parser line).toList := by
  split
  · rename_i hseparated
    intro v hv
    obtain ⟨piece, hpiece, hvalue⟩ := List.mem_filterMap.mp hv
    have hpieces := @typeless_written G line [] h.written hseparated
    rw [modifyHead_nil_append] at hpieces
    exact hpieces piece hpiece v hvalue
  · rename_i hwhole
    rw [splitOnP_eq_singleton fun c hc => Bool.eq_false_iff.mpr fun hseparator =>
      hwhole (List.any_eq_true.mpr ⟨c, hc, hseparator⟩)]
    rfl

end

end ReflectivePi.Session.Discovery
