import ReflectivePi.Ai.Sse
import Mathlib.Data.List.DropRight

/-!
# Ai — server-sent events: lines

The line reader as a scan over the characters. A carriage return and a line
feed are one line end as long as they come in one chunk; cut apart they are
two, and the second one is a blank line.
-/

namespace ReflectivePi.Ai

open List Option

/-- The lines of a text, the last one unfinished. -/
def sseLines : Text → List Text
  | [] => [[]]
  | '\r' :: '\n' :: rest => [] :: sseLines rest
  | '\r' :: rest => [] :: sseLines rest
  | '\n' :: rest => [] :: sseLines rest
  | c :: rest => (sseLines rest).modifyHead (c :: ·)

def isBreak (c : Char) : Bool := c = '\r' || c = '\n'

/-- The lines after the last blank one. -/
def sseBlock (text : Text) : List Text := (sseLines text).rtakeWhile (· ≠ [])

/-- The block that a text ends in has no data, and its event has no name. -/
def isIdleAfter (text : Text) : Bool :=
  (sseBlock text).all (fun line => fieldName line ≠ "data".toList) &&
    ((sseBlock text).filter fun line => fieldName line = "event".toList).getLast?.all
      fun line => fieldValue line = []

/-- Each CR LF of the body is after a block without an event, or before a
line break or the end of the text. -/
def LineEndsHold (body : Text) (truncated : Bool) : Prop :=
  ∀ before after, body = before ++ '\r' :: '\n' :: after →
    isIdleAfter before ∨ (after ++ finalDecode truncated).head?.all isBreak

/-! ## The scan -/

def SseReader.endLine (reader : SseReader) : SseReader :=
  let (event, state) := decodeSseLine reader.buffer reader.state
  { buffer := [], state, events := reader.events ++ event.toList }

def SseReader.push (reader : SseReader) (c : Char) : SseReader :=
  { reader with buffer := reader.buffer ++ [c] }

/-- A reader, and whether the character before was a CR of this chunk. -/
structure Scan where
  afterCr : Bool := false
  reader : SseReader := {}

def scanChar (scan : Scan) (c : Char) : Scan :=
  if c = '\n' ∧ scan.afterCr then { scan with afterCr := false }
  else if isBreak c then { afterCr := c = '\r', reader := scan.reader.endLine }
  else { afterCr := false, reader := scan.reader.push c }

def scanText (scan : Scan) (text : Text) : Scan := text.foldl scanChar scan

def scanChunk (scan : Scan) (chunk : Text) : Scan := scanText { scan with afterCr := false } chunk

@[simp] theorem scanText_nil (scan : Scan) : scanText scan [] = scan := rfl

@[simp] theorem scanText_cons (scan : Scan) (c : Char) (rest : Text) :
    scanText scan (c :: rest) = scanText (scanChar scan c) rest := rfl

theorem scanText_append (scan : Scan) (a b : Text) :
    scanText scan (a ++ b) = scanText (scanText scan a) b := foldl_append

variable {scan : Scan}

theorem scanChar_skip (h : scan.afterCr = true) :
    scanChar scan '\n' = { scan with afterCr := false } := if_pos ⟨rfl, h⟩

theorem scanChar_cr (scan : Scan) :
    scanChar scan '\r' = { afterCr := true, reader := scan.reader.endLine } := rfl

theorem scanChar_lf (h : scan.afterCr = false) :
    scanChar scan '\n' = { afterCr := false, reader := scan.reader.endLine } := by
  unfold scanChar
  rw [if_neg (by simp [h]), if_pos (by decide)]
  rfl

variable {c : Char}

theorem scanChar_plain (h : isBreak c = false) :
    scanChar scan c = { afterCr := false, reader := scan.reader.push c } := by
  unfold scanChar
  have hc : c ≠ '\n' := by
    rintro rfl
    cases h
  rw [if_neg (fun hand => hc hand.1), if_neg (by simp [h])]

theorem scanChar_mark (h : c ≠ '\n') (afterCr : Bool) (reader : SseReader) :
    scanChar { afterCr, reader } c = scanChar { reader } c := by
  unfold scanChar
  rw [if_neg fun hand : c = '\n' ∧ _ => h hand.1]
  simp

variable {text rest before body : Text} {truncated : Bool} {size : Nat}

theorem scanText_mark (h : ∀ rest, text = '\n' :: rest → False) (afterCr : Bool)
    (reader : SseReader) :
    (scanText { afterCr, reader } text).reader = (scanText { reader } text).reader := by
  cases text with
  | nil => rfl
  | cons c rest =>
    have hc : c ≠ '\n' := by
      rintro rfl
      exact h rest rfl
    rw [scanText_cons, scanText_cons, scanChar_mark hc]

/-! ## The reader is the scan -/

def NoBreak (line : Text) : Prop := ∀ c ∈ line, isBreak c = false

theorem NoBreak.nil : NoBreak [] := by
  intro c hc
  cases hc

variable {line : Text}

theorem NoBreak.snoc (h : NoBreak line) (hc : isBreak c = false) : NoBreak (line ++ [c]) := by
  intro d hd
  rcases List.mem_append.mp hd with hd | hd
  · exact h d hd
  · rw [List.mem_singleton.mp hd]
    exact hc

theorem isBreak_eq_false : isBreak c = false ↔ c ≠ '\r' ∧ c ≠ '\n' := by
  simp [isBreak]

theorem consumeLine_cons (h : isBreak c = false) (text : Text) :
    consumeLine (c :: text) = (consumeLine text).map fun (line, rest) => (c :: line, rest) := by
  obtain ⟨hcr, hlf⟩ := isBreak_eq_false.mp h
  rw [consumeLine]
  · exact fun _ hc _ => hcr hc
  · exact hcr
  · exact hlf

theorem consumeLine_append (h : NoBreak line) (text : Text) : consumeLine (line ++ text)
      = (consumeLine text).map fun (line', rest) => (line ++ line', rest) := by
  induction line with
  | nil => simp
  | cons c line ih =>
    rw [cons_append, consumeLine_cons (h c mem_cons_self),
      ih fun d hd => h d (mem_cons_of_mem c hd), Option.map_map]
    rfl

variable {reader : SseReader}

theorem consumeLines_of_noBreak (fuel : Nat) (h : NoBreak reader.buffer) :
    consumeLines fuel reader = reader := by
  cases fuel with
  | zero => rfl
  | succ fuel =>
    have hnone : consumeLine reader.buffer = none := by
      have happend := consumeLine_append h []
      rw [append_nil] at happend
      exact happend
    rw [consumeLines, hnone]

theorem consumeLines_line {fuel : Nat} (h : NoBreak reader.buffer)
    (htext : consumeLine text = some ([], rest)) :
    consumeLines (fuel + 1) { reader with buffer := reader.buffer ++ text }
      = consumeLines fuel { reader.endLine with buffer := reader.endLine.buffer ++ rest } := by
  have hline : consumeLine (reader.buffer ++ text) = some (reader.buffer, rest) := by
    rw [consumeLine_append h, htext]
    simp
  rw [consumeLines]
  simp only [hline]
  rfl

theorem consumeLines_eq {fuel : Nat} (h : NoBreak reader.buffer) (hfuel : text.length ≤ fuel) :
    consumeLines fuel { reader with buffer := reader.buffer ++ text }
      = (scanText { reader } text).reader := by
  induction text using sseLines.induct generalizing reader fuel with
  | case1 =>
    rw [append_nil]
    exact consumeLines_of_noBreak fuel h
  | case2 rest ih =>
    obtain ⟨fuel, rfl⟩ := Nat.exists_eq_succ_of_ne_zero (by simp at hfuel; omega : fuel ≠ 0)
    rw [consumeLines_line h rfl, ih NoBreak.nil (by simp at hfuel; omega)]
    rfl
  | case3 rest hrest ih =>
    obtain ⟨fuel, rfl⟩ := Nat.exists_eq_succ_of_ne_zero (by simp at hfuel; omega : fuel ≠ 0)
    have hconsume : consumeLine ('\r' :: rest) = some ([], rest) := by
      rw [consumeLine]
      exact hrest
    rw [consumeLines_line h hconsume, ih NoBreak.nil (by simp at hfuel; omega),
      scanText_cons, scanChar_cr]
    exact (scanText_mark hrest true reader.endLine).symm
  | case4 rest ih =>
    obtain ⟨fuel, rfl⟩ := Nat.exists_eq_succ_of_ne_zero (by simp at hfuel; omega : fuel ≠ 0)
    rw [consumeLines_line h rfl, ih NoBreak.nil (by simp at hfuel; omega)]
    rfl
  | case5 c rest _ hcr hlf ih =>
    have hc : isBreak c = false := isBreak_eq_false.mpr ⟨hcr, hlf⟩
    have hsnoc : reader.buffer ++ c :: rest = (reader.buffer ++ [c]) ++ rest := by simp
    rw [hsnoc, scanText_cons, scanChar_plain hc]
    have hpush : NoBreak (reader.push c).buffer := h.snoc hc
    exact ih hpush (by simp at hfuel; omega)

theorem feed_eq (h : NoBreak reader.buffer) (chunk : Text) :
    reader.feed chunk = (scanText { reader } chunk).reader :=
  consumeLines_eq h (by simp)

theorem noBreak_scanChar (h : NoBreak scan.reader.buffer) (c : Char) :
    NoBreak (scanChar scan c).reader.buffer := by
  unfold scanChar
  split
  · exact h
  · split
    · nofun
    · rename_i hc
      exact h.snoc (by simpa using hc)

theorem noBreak_scanText (h : NoBreak scan.reader.buffer) (text : Text) :
    NoBreak (scanText scan text).reader.buffer := by
  induction text generalizing scan with
  | nil => exact h
  | cons c rest ih => exact ih (noBreak_scanChar h c)

theorem foldl_feed_eq (h : NoBreak scan.reader.buffer) (chunks : List Text) :
    chunks.foldl SseReader.feed scan.reader = (chunks.foldl scanChunk scan).reader := by
  induction chunks generalizing scan with
  | nil => rfl
  | cons chunk chunks ih =>
    rw [foldl_cons, foldl_cons, feed_eq h]
    have hunmarked : NoBreak ({ scan with afterCr := false } : Scan).reader.buffer := h
    have hchunk : NoBreak (scanChunk scan chunk).reader.buffer := noBreak_scanText hunmarked chunk
    exact ih hchunk

theorem iterateSseMessages_eq (chunks : List Text) (truncated : Bool) :
    iterateSseMessages chunks truncated
      = ((chunks ++ [finalDecode truncated]).foldl scanChunk {}).reader.finish := by
  rw [← foldl_feed_eq (NoBreak.nil), foldl_append]
  rfl

/-! ## The block that a text ends in -/

def decodeLines (state : SseDecoderState) (lines : List Text) : SseDecoderState :=
  lines.foldl (fun state line => (decodeSseLine line state).2) state

theorem endLine_state (reader : SseReader) :
    reader.endLine.state = (decodeSseLine reader.buffer reader.state).2 := rfl

theorem modifyHead_endLine (reader : SseReader) (lines : List Text) :
    lines.modifyHead (reader.endLine.buffer ++ ·) = lines := by cases lines <;> rfl

theorem scanText_endLine (reader : SseReader) (text : Text) :
    (scanText { reader } text).reader.endLine.state
      = decodeLines reader.state ((sseLines text).modifyHead (reader.buffer ++ ·)) := by
  induction text using sseLines.induct generalizing reader with
  | case1 => simp [sseLines, decodeLines, endLine_state]
  | case2 rest ih =>
    have hrest := ih reader.endLine
    rw [modifyHead_endLine] at hrest
    simp only [sseLines, modifyHead_cons, append_nil]
    exact hrest
  | case3 rest hnext ih =>
    have hrest := ih reader.endLine
    rw [modifyHead_endLine, ← scanText_mark hnext true] at hrest
    have hlines : sseLines ('\r' :: rest) = [] :: sseLines rest := by
      rw [sseLines]
      exact hnext
    simp only [hlines, modifyHead_cons, append_nil]
    exact hrest
  | case4 rest ih =>
    have hrest := ih reader.endLine
    rw [modifyHead_endLine] at hrest
    simp only [sseLines, modifyHead_cons, append_nil]
    exact hrest
  | case5 c rest _ hcr hlf ih =>
    have hlines : sseLines (c :: rest) = (sseLines rest).modifyHead (c :: ·) := by
      rw [sseLines]
      · exact fun _ hc _ => hcr hc
      · exact hcr
      · exact hlf
    have hbuffer (line : Text) : (reader.push c).buffer ++ line = reader.buffer ++ c :: line := by
      simp [SseReader.push]
    rw [scanText_cons, scanChar_plain (isBreak_eq_false.mpr ⟨hcr, hlf⟩), ih, hlines,
      modifyHead_modifyHead]
    simp only [hbuffer]
    rfl

theorem decodeLines_snoc (state : SseDecoderState) (lines : List Text) (line : Text) :
    decodeLines state (lines ++ [line]) = (decodeSseLine line (decodeLines state lines)).2 :=
  foldl_concat ..

theorem fieldName_comment (h : line.head? = some ':') : fieldName line = [] := by
  cases line with
  | nil => cases h
  | cons c rest =>
    rw [head?_cons, some_inj] at h
    simp [fieldName, h]

theorem decode_data (h : line ≠ []) (state : SseDecoderState) :
    (decodeSseLine line state).2.data.isEmpty
      = (state.data.isEmpty && fieldName line ≠ "data".toList) := by
  unfold decodeSseLine
  rw [if_neg h]
  split
  · rename_i hhead
    simp [fieldName_comment hhead]
  · split
    · rename_i hevent
      simp [hevent]
    · split
      · rename_i hdata
        simp [hdata]
      · rename_i hdata
        rw [decide_eq_true hdata, Bool.and_true]

theorem decode_event (h : line ≠ []) (state : SseDecoderState) :
    (decodeSseLine line state).2.event
      = if fieldName line = "event".toList then some (fieldValue line) else state.event := by
  unfold decodeSseLine
  rw [if_neg h]
  split
  · rename_i hhead
    simp [fieldName_comment hhead]
  · split
    · rfl
    · split <;> rfl

theorem decode_blank_isIdle (state : SseDecoderState) : (decodeSseLine [] state).2.isIdle := by
  unfold decodeSseLine flushSseEvent
  rw [if_pos rfl]
  split
  · assumption
  · rfl

/-- The decoder is idle exactly where the block so far asks for no event. -/
theorem decodeLines_isIdle (lines : List Text) :
    (decodeLines {} lines).data.isEmpty
        = (lines.rtakeWhile (· ≠ [])).all (fun line => fieldName line ≠ "data".toList) ∧
      ((decodeLines {} lines).event.all fun event => event.isEmpty)
        = (((lines.rtakeWhile (· ≠ [])).filter fun line =>
            fieldName line = "event".toList).getLast?.all fun line => fieldValue line = []) := by
  induction lines using List.reverseRecOn with
  | nil => exact ⟨rfl, rfl⟩
  | append_singleton lines line ih =>
    rw [decodeLines_snoc]
    by_cases hline : line = []
    · subst hline
      have hidle := decode_blank_isIdle (decodeLines {} lines)
      rw [SseDecoderState.isIdle, Bool.and_eq_true] at hidle
      rw [rtakeWhile_concat_neg _ _ _ (by simp)]
      exact ⟨hidle.2, hidle.1⟩
    · rw [rtakeWhile_concat_pos _ _ _ (by simpa using hline), decode_data hline,
        decode_event hline, ih.1]
      refine ⟨by simp, ?_⟩
      by_cases hevent : fieldName line = "event".toList
      · rw [if_pos hevent, List.filter_append,
          filter_cons_of_pos (by rw [decide_eq_true_eq]; exact hevent), filter_nil, getLast?_concat]
        simp only [all_some]
        cases fieldValue line <;> rfl
      · rw [if_neg hevent, ih.2, List.filter_append,
          filter_cons_of_neg (by rw [decide_eq_true_eq]; exact hevent), filter_nil, append_nil]

theorem isIdle_afterCr (text : Text) :
    (scanText {} (text ++ ['\r'])).reader.state.isIdle = isIdleAfter text := by
  obtain ⟨hdata, hevent⟩ := decodeLines_isIdle (sseLines text)
  have hlines : (sseLines text).modifyHead (({} : SseReader).buffer ++ ·) = sseLines text := by
    cases sseLines text <;> rfl
  have hstate := scanText_endLine {} text
  rw [hlines] at hstate
  rw [scanText_append, scanText_cons, scanText_nil, scanChar_cr, hstate,
    SseDecoderState.isIdle, hdata, hevent, Bool.and_comm]
  rfl

/-! ## Cut and uncut -/

theorem endLine_of_idle (hbuffer : reader.buffer = [])
    (hidle : reader.state.isIdle = true) : reader.endLine = reader := by
  obtain ⟨buffer, state, events⟩ := reader
  subst hbuffer
  simp [SseReader.endLine, decodeSseLine, flushSseEvent, hidle]

theorem endLine_isIdle (hbuffer : reader.buffer = []) : reader.endLine.state.isIdle = true := by
  rw [endLine_state, hbuffer]
  exact decode_blank_isIdle reader.state

theorem endLine_endLine (hbuffer : reader.buffer = []) : reader.endLine.endLine = reader.endLine :=
  endLine_of_idle rfl (endLine_isIdle hbuffer)

theorem finish_eq (reader : SseReader) :
    reader.finish = if reader.buffer = [] then reader.endLine.events
      else reader.endLine.endLine.events := by
  unfold SseReader.finish
  by_cases hbuffer : reader.buffer = []
  · rw [if_pos hbuffer, if_pos hbuffer]
    simp [SseReader.endLine, decodeSseLine, hbuffer]
  · rw [if_neg hbuffer, if_neg hbuffer]
    rfl

/-- A cut reader against the uncut one before `rest`: they agree, or the cut one
has already ended the event that the line break at hand ends. -/
inductive Held (rest : Text) (whole cut : Scan) : Prop where
  | same (hreader : cut.reader = whole.reader) (hmark : cut.afterCr = true → whole.afterCr = true)
      (hstart : whole.afterCr = true → whole.reader.buffer = [])
  | ahead (hreader : cut.reader = whole.reader.endLine) (hstart : whole.reader.buffer = [])
      (hcut : cut.afterCr = false) (hwhole : whole.afterCr = false)
      (hrest : rest.head?.all isBreak = true)

variable {whole cut : Scan}

theorem Held.unmark (h : Held rest whole cut) : Held rest whole { cut with afterCr := false } := by
  cases h with
  | same hreader _ hstart => exact .same hreader nofun hstart
  | ahead hreader hstart _ hwhole hrest => exact .ahead hreader hstart rfl hwhole hrest

theorem Held.finish (h : Held [] whole cut) : cut.reader.finish = whole.reader.finish := by
  cases h with
  | same hreader => rw [hreader]
  | ahead hreader hstart =>
    have hline : whole.reader.endLine.buffer = [] := rfl
    rw [finish_eq, finish_eq, hreader, if_pos hstart, if_pos hline, endLine_endLine hstart]

theorem Held.endLine (hbreak : isBreak c = true)
    (hreader : cut.reader.endLine = whole.reader.endLine)
    (hcut : ¬ (c = '\n' ∧ cut.afterCr)) (hwhole : ¬ (c = '\n' ∧ whole.afterCr)) :
    Held rest (scanChar whole c) (scanChar cut c) := by
  unfold scanChar
  rw [if_neg hcut, if_neg hwhole, if_pos hbreak, if_pos hbreak]
  exact .same hreader id fun _ => rfl

/-- One character further. The case to look at is a line feed that only the
uncut reader takes with the CR before it. -/
theorem Held.step (hends : c = '\n' → whole.afterCr = true →
      whole.reader.state.isIdle = true ∨ rest.head?.all isBreak = true)
    (h : Held (c :: rest) whole cut) : Held rest (scanChar whole c) (scanChar cut c) := by
  cases h with
  | same hreader hmark hstart =>
    by_cases hbreak : isBreak c = true
    · by_cases hskip : c = '\n' ∧ whole.afterCr = true
      · obtain ⟨rfl, hafter⟩ := hskip
        rw [scanChar_skip hafter]
        by_cases hcut : cut.afterCr = true
        · rw [scanChar_skip hcut]
          exact .same hreader id nofun
        · rw [scanChar_lf (by simpa using hcut), hreader]
          rcases hends rfl hafter with hidle | hrest
          · rw [endLine_of_idle (hstart hafter) hidle]
            exact .same rfl id nofun
          · exact .ahead rfl (hstart hafter) rfl rfl hrest
      · refine Held.endLine hbreak (by rw [hreader]) (fun hcut => hskip ⟨hcut.1, ?_⟩) hskip
        exact hmark hcut.2
    · have hplain : isBreak c = false := by simpa using hbreak
      rw [scanChar_plain hplain, scanChar_plain hplain, hreader]
      exact .same rfl id nofun
  | ahead hreader hstart hcut hwhole hrest =>
    refine Held.endLine hrest ?_ (fun hand => ?_) (fun hand => ?_)
    · rw [hreader, endLine_endLine hstart]
    · rw [hcut] at hand
      cases hand.2
    · rw [hwhole] at hand
      cases hand.2

theorem scanText_afterCr (h : (scanText {} before).afterCr = true) :
    ∃ line, before = line ++ ['\r'] := by
  rcases eq_nil_or_concat before with rfl | ⟨line, c, rfl⟩
  · cases h
  · refine ⟨line, ?_⟩
    rw [concat_eq_append, scanText_append, scanText_cons, scanText_nil] at h
    unfold scanChar at h
    split at h
    · cases h
    · split at h
      · rw [concat_eq_append, of_decide_eq_true h]
      · cases h

/-- What is asked of the CR LF of a text. -/
def EndsHold (text : Text) : Prop :=
  ∀ before after, text = before ++ '\r' :: '\n' :: after →
    isIdleAfter before ∨ after.head?.all isBreak

theorem Held.chunk {chunk : Text} (hends : EndsHold (before ++ (chunk ++ rest)))
    (h : Held (chunk ++ rest) (scanText {} before) cut) :
    Held rest (scanText {} (before ++ chunk)) (scanText cut chunk) := by
  induction chunk generalizing before cut with
  | nil => rwa [append_nil]
  | cons c chunk ih =>
    have hnext : Held (chunk ++ rest) (scanChar (scanText {} before) c) (scanChar cut c) := by
      refine h.step fun hc hafter => ?_
      obtain ⟨line, rfl⟩ := scanText_afterCr hafter
      have hsplit := hends line (chunk ++ rest) (by simp [hc])
      rwa [← isIdle_afterCr] at hsplit
    have happend : scanChar (scanText {} before) c = scanText {} (before ++ [c]) := by
      rw [scanText_append]
      rfl
    rw [happend] at hnext
    have htail := ih (by simpa using hends) hnext
    rwa [append_assoc] at htail

theorem Held.chunks {chunks : List Text} (hends : EndsHold (before ++ chunks.flatten))
    (h : Held chunks.flatten (scanText {} before) cut) :
    Held [] (scanText {} (before ++ chunks.flatten)) (chunks.foldl scanChunk cut) := by
  induction chunks generalizing before cut with
  | nil => simpa using h
  | cons chunk chunks ih =>
    rw [flatten_cons] at hends h ⊢
    have hchunk := Held.chunk hends h.unmark
    rw [← append_assoc] at hends ⊢
    exact ih hends hchunk

theorem endsHold_final (h : LineEndsHold body truncated) :
    EndsHold (body ++ finalDecode truncated) := by
  cases truncated with
  | false => simpa [EndsHold, LineEndsHold, finalDecode] using h
  | true =>
    intro before after hsplit
    rcases eq_nil_or_concat after with rfl | ⟨after, c, rfl⟩
    · simp
    · rw [concat_eq_append] at hsplit ⊢
      have hsnoc : body ++ finalDecode true
          = (before ++ '\r' :: '\n' :: after) ++ [c] := by simp [hsplit]
      obtain ⟨hbody, hc⟩ := append_inj' hsnoc rfl
      have hends := h before after hbody
      rwa [hc] at hends

/-- **Line ends that hold** make the events independent of the cuts. -/
theorem iterateSseMessages_of_lineEndsHold
    (h : LineEndsHold body truncated) {chunks : List Text} (hchunks : chunks.flatten = body) :
    iterateSseMessages chunks truncated
      = (scanText {} (body ++ finalDecode truncated)).reader.finish := by
  have hflatten : (chunks ++ [finalDecode truncated]).flatten = body ++ finalDecode truncated := by
    simp [hchunks]
  have hstart : Held (chunks ++ [finalDecode truncated]).flatten (scanText {} []) {} :=
    .same rfl id nofun
  have hends := endsHold_final h
  rw [← hflatten, ← nil_append (List.flatten _)] at hends
  rw [iterateSseMessages_eq, ← hflatten]
  exact (Held.chunks hends hstart).finish

/-! ## A cut that shows -/

/-- What is read after some lines: their event, if any yet, has them all. -/
inductive Grown (events : List ServerSentEvent) (size : Nat) (reader : SseReader) : Prop where
  | pending (hevents : reader.events = events) (hraw : size ≤ reader.state.raw.length)
      (hgrown : reader.buffer = [] → size < reader.state.raw.length)
  | ended (event : ServerSentEvent) (later : List ServerSentEvent)
      (hevents : reader.events = events ++ event :: later) (hraw : size < event.raw.length)

theorem raw_decode (h : line ≠ []) (state : SseDecoderState) :
    (decodeSseLine line state).1 = none ∧
      (decodeSseLine line state).2.raw = state.raw ++ [line] := by
  unfold decodeSseLine
  rw [if_neg h]
  split
  · exact ⟨rfl, rfl⟩
  · split
    · exact ⟨rfl, rfl⟩
    · split <;> exact ⟨rfl, rfl⟩

variable {events : List ServerSentEvent}

theorem Grown.endLine (h : Grown events size reader) : Grown events size reader.endLine := by
  cases h with
  | pending hevents hraw hgrown =>
    by_cases hbuffer : reader.buffer = []
    · by_cases hidle : reader.state.isIdle = true
      · rw [endLine_of_idle hbuffer hidle]
        exact .pending hevents hraw hgrown
      · refine .ended ⟨reader.state.event, ['\n'].intercalate reader.state.data,
          reader.state.raw⟩ [] ?_ (hgrown hbuffer)
        simp [SseReader.endLine, decodeSseLine, flushSseEvent, hbuffer, hidle, hevents]
    · obtain ⟨hnone, hline⟩ := raw_decode hbuffer reader.state
      refine .pending ?_ ?_ fun _ => ?_
      · simp [SseReader.endLine, hnone, hevents]
      · rw [endLine_state, hline, length_append]
        omega
      · rw [endLine_state, hline, length_append, length_singleton]
        omega
  | ended event later hevents hraw =>
    refine .ended event (later ++ (decodeSseLine reader.buffer reader.state).1.toList) ?_ hraw
    simp [SseReader.endLine, hevents]

theorem Grown.scanChar (h : Grown events size scan.reader) (c : Char) :
    Grown events size (scanChar scan c).reader := by
  unfold Ai.scanChar
  split
  · exact h
  · split
    · exact h.endLine
    · cases h with
      | pending hevents hraw =>
        exact .pending hevents hraw fun hbuffer => by simp [SseReader.push] at hbuffer
      | ended event later hevents hraw => exact .ended event later hevents hraw

theorem Grown.scanText (h : Grown events size scan.reader) (text : Text) :
    Grown events size (scanText scan text).reader := by
  induction text generalizing scan with
  | nil => exact h
  | cons c rest ih => exact ih (h.scanChar c)

theorem Grown.finish (h : Grown events size reader) : reader.finish = events ∨
      ∃ event later, reader.finish = events ++ event :: later ∧ size < event.raw.length := by
  have hended : ∃ last : SseReader, Grown events size last ∧ reader.finish = last.events := by
    rw [finish_eq]
    split
    · exact ⟨_, h.endLine, rfl⟩
    · exact ⟨_, h.endLine.endLine, rfl⟩
  obtain ⟨last, hlast, heq⟩ := hended
  rw [heq]
  cases hlast with
  | pending hevents => exact .inl hevents
  | ended event later hevents hraw => exact .inr ⟨event, later, hevents, hraw⟩

theorem events_scanText (scan : Scan) (text : Text) :
    scan.reader.events <+: (scanText scan text).reader.events := by
  induction text generalizing scan with
  | nil => exact prefix_rfl
  | cons c rest ih =>
    refine List.IsPrefix.trans ?_ (ih (scanChar scan c))
    unfold scanChar
    split
    · exact prefix_rfl
    · split
      · exact prefix_append ..
      · exact prefix_rfl

theorem events_finish (reader : SseReader) : reader.events <+: reader.finish := by
  have hline (reader : SseReader) : reader.events <+: reader.endLine.events := prefix_append ..
  rw [finish_eq]
  split
  · exact hline reader
  · exact (hline reader).trans (hline reader.endLine)

theorem cut_shows (hbuffer : reader.buffer = [])
    (hidle : reader.state.isIdle = false) (htext : text.head?.all isBreak = false) :
    (scanText { reader := reader.endLine } text).reader.finish
      ≠ (scanText { reader } text).reader.finish := by
  cases text with
  | nil => cases htext
  | cons c rest =>
    have hplain : isBreak c = false := by simpa using htext
    have hgrown : Grown reader.events reader.state.raw.length
        ({ reader := reader.push c } : Scan).reader :=
      .pending rfl (le_refl _) fun hpush => by simp [SseReader.push] at hpush
    have hwhole := (hgrown.scanText rest).finish
    have hearly : reader.endLine.events = reader.events ++
        [⟨reader.state.event, ['\n'].intercalate reader.state.data, reader.state.raw⟩] := by
      simp [SseReader.endLine, decodeSseLine, flushSseEvent, hbuffer, hidle]
    obtain ⟨later, hlater⟩ :=
      (events_scanText { reader := reader.endLine } (c :: rest)).trans (events_finish _)
    rw [hearly] at hlater
    intro heq
    rw [← hlater, scanText_cons, scanChar_plain hplain, append_assoc, singleton_append] at heq
    rcases hwhole with hnone | ⟨event, events, hsome, hraw⟩
    · rw [hnone] at heq
      exact absurd (congrArg List.length heq) (by simp)
    · rw [hsome] at heq
      have hevent := (List.cons.inj (append_cancel_left heq)).1
      rw [← hevent] at hraw
      exact absurd hraw (lt_irrefl _)

theorem scanChunk_final (scan : Scan) (truncated : Bool) :
    (scanChunk scan (finalDecode truncated)).reader
      = (scanText scan (finalDecode truncated)).reader := by
  have hfinal : ∀ rest, finalDecode truncated = '\n' :: rest → False := by
    intro rest hrest
    cases truncated <;> simp [finalDecode] at hrest
  exact (scanText_mark hfinal scan.afterCr scan.reader).symm

theorem iterateSseMessages_whole (body : Text) (truncated : Bool) :
    iterateSseMessages [body] truncated
      = (scanText {} (body ++ finalDecode truncated)).reader.finish := by
  rw [iterateSseMessages_eq, foldl_append, foldl_cons, foldl_cons, foldl_nil,
    foldl_nil, scanChunk_final, scanText_append]
  rfl

theorem lineEndsHold_of_same
    (h : ∀ chunks : List Text, chunks.flatten = body →
      iterateSseMessages chunks truncated = iterateSseMessages [body] truncated) :
    LineEndsHold body truncated := by
  intro before after hbody
  by_contra hnot
  rw [not_or, Bool.not_eq_true, Bool.not_eq_true] at hnot
  obtain ⟨hidle, hrest⟩ := hnot
  have hsame := h [before ++ ['\r'], '\n' :: after] (by simp [hbody])
  have hcr : scanText {} (before ++ ['\r'])
      = { afterCr := true, reader := (scanText {} before).reader.endLine } := by
    rw [scanText_append]
    rfl
  have hstate : (scanText {} before).reader.endLine.state.isIdle = false := by
    rw [← isIdle_afterCr, hcr] at hidle
    exact hidle
  have hbuffer : (scanText {} before).reader.endLine.buffer = [] := rfl
  refine cut_shows hbuffer hstate hrest ?_
  have hcut : iterateSseMessages [before ++ ['\r'], '\n' :: after] truncated
      = (scanText { reader := (scanText {} before).reader.endLine.endLine }
          (after ++ finalDecode truncated)).reader.finish := by
    rw [iterateSseMessages_eq, foldl_append, foldl_cons, foldl_cons,
      foldl_cons, foldl_nil, foldl_nil, scanChunk_final, scanText_append]
    have hfirst : scanChunk {} (before ++ ['\r']) = scanText {} (before ++ ['\r']) := rfl
    rw [hfirst, hcr]
    rfl
  have hwhole : iterateSseMessages [body] truncated
      = (scanText { reader := (scanText {} before).reader.endLine }
          (after ++ finalDecode truncated)).reader.finish := by
    have hbreak : body ++ finalDecode truncated
        = (before ++ ['\r']) ++ '\n' :: (after ++ finalDecode truncated) := by simp [hbody]
    rw [iterateSseMessages_whole, hbreak, scanText_append, hcr]
    rfl
  rw [← hcut, ← hwhole, hsame]

end ReflectivePi.Ai
