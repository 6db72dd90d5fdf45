import ReflectivePi.Ai.Sse

/-!
# Ai — server-sent events: frames

The readers that cut their buffer at blank lines. One of them leaves the
buffer as it came, and so reads the same however the text was cut. The other
takes a CR off every line end of its buffer with every chunk, so a line of
more than one CR is blank once enough chunks came after it.
-/

namespace ReflectivePi.Ai

open List

/-! ## Draining -/

variable {text frame rest : Text}

theorem splitFrame_append (h : splitFrame text = some (frame, rest)) (more : Text) :
    splitFrame (text ++ more) = some (frame, rest ++ more) := by
  induction text using splitFrame.induct generalizing frame with
  | case1 tail =>
    cases h
    rfl
  | case2 c tail hc ih =>
    rw [splitFrame] at h
    · obtain ⟨⟨frame', rest'⟩, htail, hframe⟩ := Option.map_eq_some_iff.mp h
      cases hframe
      rw [cons_append, splitFrame, ih htail]
      · rfl
      · intro rest'' hnl htail'
        cases tail with
        | nil => cases htail
        | cons d tail =>
          cases htail'
          exact hc _ hnl rfl
    · exact hc
  | case3 => cases h

theorem splitFrame_length (h : splitFrame text = some (frame, rest)) :
    rest.length < text.length := by
  induction text using splitFrame.induct generalizing frame with
  | case1 tail =>
    cases h
    exact Nat.lt_succ_of_lt (Nat.lt_succ_self _)
  | case2 c tail hc ih =>
    rw [splitFrame] at h
    · obtain ⟨⟨frame', rest'⟩, htail, hframe⟩ := Option.map_eq_some_iff.mp h
      cases hframe
      exact Nat.lt_succ_of_lt (ih htail)
    · exact hc
  | case3 => cases h

theorem drainFrames_eq {fuel : Nat} (h : text.length ≤ fuel) :
    drainFrames fuel text = drain text := by
  induction fuel using Nat.strongRecOn generalizing text with
  | ind fuel ih =>
    unfold drain
    cases fuel with
    | zero =>
      rw [Nat.le_zero.mp h]
    | succ fuel =>
      cases text with
      | nil => rfl
      | cons c tail =>
        rw [length_cons, drainFrames, drainFrames]
        cases hsplit : splitFrame (c :: tail) with
        | none => rfl
        | some found =>
          obtain ⟨frame, rest⟩ := found
          have hlength := splitFrame_length hsplit
          rw [length_cons] at hlength h
          dsimp only
          rw [ih fuel (by omega) (by omega), ih tail.length (by omega) (by omega)]

theorem drain_none (h : splitFrame text = none) : drain text = ([], text) := by
  unfold drain
  cases htext : text.length with
  | zero => rfl
  | succ fuel => rw [drainFrames, h]

theorem drain_some (h : splitFrame text = some (frame, rest)) :
    drain text = (frame :: (drain rest).1, (drain rest).2) := by
  have hlength := splitFrame_length h
  rw [drain]
  cases htext : text.length with
  | zero => omega
  | succ fuel =>
    rw [drainFrames, h]
    dsimp only
    rw [drainFrames_eq (by omega)]

theorem drain_append (text more : Text) :
    drain (text ++ more) = ((drain text).1 ++ (drain ((drain text).2 ++ more)).1,
      (drain ((drain text).2 ++ more)).2) := by
  induction htext : text.length using Nat.strongRecOn generalizing text with
  | ind size ih =>
    cases hsplit : splitFrame text with
    | none => rw [drain_none hsplit, nil_append]
    | some found =>
      obtain ⟨frame, rest⟩ := found
      have hlength := splitFrame_length hsplit
      rw [drain_some hsplit, drain_some (splitFrame_append hsplit more),
        ih rest.length (by omega) rest rfl]
      rfl

theorem foldl_feedSSE (chunks : List Text) :
    chunks.foldl feedSSE ([], [])
      = ((drain chunks.flatten).1.filterMap parseCodexFrame, (drain chunks.flatten).2) := by
  induction chunks using List.reverseRecOn with
  | nil => rfl
  | append_singleton chunks chunk ih =>
    have hflatten : (chunks ++ [chunk]).flatten = chunks.flatten ++ chunk := by simp
    rw [foldl_append, foldl_cons, foldl_nil, ih, hflatten, drain_append, feedSSE, filterMap_append]

/-- **However the body was cut**, the events are the same. -/
theorem parseSSE_same (chunks : List Text) (truncated : Bool) :
    parseSSE chunks truncated = parseSSE [chunks.flatten] truncated := by
  rw [parseSSE, parseSSE, foldl_feedSSE, foldl_feedSSE, flatten_singleton]

/-! ## The buffer by lines -/

/-- A CR off the end of the line. -/
def dropCr : Text → Text
  | [] => []
  | ['\r'] => []
  | c :: rest => c :: dropCr rest

theorem dropCr_cons {c : Char} {line : Text} (h : c = '\r' → line ≠ []) :
    dropCr (c :: line) = c :: dropCr line := by
  rw [dropCr]
  omega

variable {lines : List Text}

theorem split_starts (h : (Lines.split '\n' text).1 = [] :: lines) :
    ∃ rest, text = '\n' :: rest := by
  cases text with
  | nil => cases h
  | cons c rest =>
    by_cases hc : c = '\n'
    · exact ⟨rest, by rw [hc]⟩
    · simp only [Lines.split, if_neg hc] at h
      cases hlines : (Lines.split '\n' rest).1 with
      | _ =>
        rw [hlines] at h
        cases h

theorem split_replaceLineEnds (text : Text) :
    Lines.split '\n' (replaceLineEnds text)
      = ((Lines.split '\n' text).1.map dropCr, (Lines.split '\n' text).2) := by
  induction text using replaceLineEnds.induct with
  | case1 rest ih => simp [replaceLineEnds, Lines.split, ih, dropCr]
  | case2 c rest hc ih =>
    rw [replaceLineEnds]
    · by_cases hnl : c = '\n'
      · simp [Lines.split, ih, hnl, dropCr]
      · simp only [Lines.split, if_neg hnl, ih]
        cases hlines : (Lines.split '\n' rest).1 with
        | nil => rfl
        | cons line lines =>
          have hline : c = '\r' → line ≠ [] := by
            rintro hcr rfl
            obtain ⟨rest', hrest⟩ := split_starts hlines
            exact hc rest' hcr hrest
          simp only [map_cons, dropCr_cons hline]
    · exact hc
  | case3 => rfl

/-- The lines before the first blank one that is not at the start, and after it. -/
def cutFrame : List Text → Option (List Text × List Text)
  | line :: [] :: rest => some ([line], rest)
  | line :: rest => (cutFrame rest).map fun (front, rest) => (line :: front, rest)
  | [] => none

theorem cutFrame_head (f : Text → Text) (line : Text) (lines : List Text) :
    cutFrame (f line :: lines)
      = (cutFrame (line :: lines)).map fun (front, rest) => (front.modifyHead f, rest) := by
  cases lines with
  | nil => rfl
  | cons second lines =>
    cases second with
    | nil => rfl
    | cons c second =>
      simp only [cutFrame, Option.map_map]
      rfl

theorem splitLines_cons {c : Char} (hc : c ≠ '\n') (text : Text) :
    splitLines (c :: text) = (splitLines text).modifyHead (c :: ·) := by
  simp only [splitLines, Lines.split, if_neg hc]
  cases (Lines.split '\n' text).1 <;> rfl

theorem splitLines_newline (text : Text) : splitLines ('\n' :: text) = [] :: splitLines text := by
  rfl

theorem splitFrame_lines (text : Text) :
    (splitFrame text = none ∧ cutFrame (Lines.split '\n' text).1 = none) ∨
      ∃ frame rest, splitFrame text = some (frame, rest) ∧ cutFrame (Lines.split '\n' text).1
          = some (splitLines frame, (Lines.split '\n' rest).1) ∧
        (Lines.split '\n' rest).2 = (Lines.split '\n' text).2 := by
  induction text using splitFrame.induct with
  | case1 rest => exact .inr ⟨[], rest, rfl, by rfl, by
      simp [Lines.split]⟩
  | case2 c tail hc ih =>
    rw [splitFrame]
    · by_cases hnl : c = '\n'
      · have hlines : (Lines.split '\n' (c :: tail)).1 = [] :: (Lines.split '\n' tail).1 := by
          simp [Lines.split, hnl]
        have hpending : (Lines.split '\n' (c :: tail)).2 = (Lines.split '\n' tail).2 := by
          simp [Lines.split, hnl]
        have hcut : cutFrame ([] :: (Lines.split '\n' tail).1)
            = (cutFrame (Lines.split '\n' tail).1).map
                fun (front, rest) => ([] :: front, rest) := by
          cases htail : (Lines.split '\n' tail).1 with
          | nil => rfl
          | cons line lines =>
            cases line with
            | nil =>
              obtain ⟨rest, hrest⟩ := split_starts htail
              exact absurd hrest fun hrest => hc rest hnl hrest
            | cons d line => rfl
        rw [hlines, hpending, hcut]
        rcases ih with ⟨hsplit, hnone⟩ | ⟨frame, rest, hsplit, hsome, hrest⟩
        · exact .inl ⟨by rw [hsplit]; rfl, by rw [hnone]; rfl⟩
        · refine .inr ⟨'\n' :: frame, rest, by rw [hsplit, hnl]; rfl, ?_, hrest⟩
          rw [hsome, splitLines_newline]
          rfl
      · have hpending : (Lines.split '\n' (c :: tail)).1 = [] ∨
            (Lines.split '\n' (c :: tail)).2 = (Lines.split '\n' tail).2 := by
          simp only [Lines.split, if_neg hnl]
          cases (Lines.split '\n' tail).1 with
          | nil => exact .inl rfl
          | cons line lines => exact .inr rfl
        have hcut : cutFrame (Lines.split '\n' (c :: tail)).1
            = (cutFrame (Lines.split '\n' tail).1).map
                fun (front, rest) => (front.modifyHead (c :: ·), rest) := by
          simp only [Lines.split, if_neg hnl]
          cases (Lines.split '\n' tail).1 with
          | nil => rfl
          | cons line lines => exact cutFrame_head (c :: ·) line lines
        rw [hcut]
        rcases ih with ⟨hsplit, hnone⟩ | ⟨frame, rest, hsplit, hsome, hrest⟩
        · exact .inl ⟨by rw [hsplit]; rfl, by rw [hnone]; rfl⟩
        · refine .inr ⟨c :: frame, rest, by rw [hsplit]; rfl, ?_, ?_⟩
          · rw [hsome, splitLines_cons hnl]
            rfl
          · rcases hpending with hnil | hpending
            · rw [hnil, hsome] at hcut
              cases hcut
            · rw [hrest, hpending]
    · exact hc
  | case3 => exact .inl ⟨rfl, rfl⟩

theorem cutFrame_some {front rest : List Text} (h : cutFrame lines = some (front, rest)) :
    lines = front ++ [] :: rest ∧ ∀ line ∈ front.tail, line ≠ [] := by
  induction lines using cutFrame.induct generalizing front with
  | case1 line rest' =>
    cases h
    simp
  | case2 line tail hblank ih =>
    rw [cutFrame] at h
    · obtain ⟨⟨front', rest'⟩, htail, hfront⟩ := Option.map_eq_some_iff.mp h
      cases hfront
      obtain ⟨rfl, hnone⟩ := ih htail
      refine ⟨rfl, fun line' hline' => ?_⟩
      cases front' with
      | nil => cases hline'
      | cons second front' =>
        rcases List.mem_cons.mp hline' with rfl | hmem
        · rintro rfl
          exact hblank _ rfl
        · exact hnone line' hmem
    · exact hblank
  | case3 => cases h

theorem cutFrame_none (h : cutFrame lines = none) : ∀ line ∈ lines.tail, line ≠ [] := by
  induction lines using cutFrame.induct with
  | case1 line rest => cases h
  | case2 line tail hblank ih =>
    rw [cutFrame] at h
    · intro line' hline'
      cases tail with
      | nil => cases hline'
      | cons second tail =>
        rcases List.mem_cons.mp hline' with rfl | hmem
        · rintro rfl
          exact hblank _ rfl
        · exact ih (Option.map_eq_none_iff.mp h) line' hmem
    · exact hblank
  | case3 =>
    nofun

/-! ## The payloads of marked lines -/

/-- The payloads of some lines; a line with the mark ends its frame. -/
def readLines : Bool → List (Text × Bool) → List Text
  | _, [] => []
  | seen, (line, mark) :: rest =>
    if isDataLine line then
      (if seen then [] else (payload (dataOf line)).toList) ++ readLines true rest
    else readLines (seen && !mark) rest

/-- A line of the buffer, with the mark if it is blank. -/
def marked (line : Text) : Text × Bool := (line, line.isEmpty)

def framePayload (lines : List Text) : Option Text :=
  (lines.find? isDataLine).bind fun line => payload (dataOf line)

theorem marked_of_ne {line : Text} (h : line ≠ []) : marked line = (line, false) := by
  cases line with
  | nil => exact absurd rfl h
  | cons c rest => rfl

theorem readLines_seen (h : ∀ line ∈ lines, line ≠ []) (later : List (Text × Bool)) :
    readLines true (lines.map marked ++ later) = readLines true later := by
  induction lines with
  | nil => rfl
  | cons line lines ih =>
    have hrest := ih fun line' hline' => h line' (mem_cons_of_mem line hline')
    rw [map_cons, cons_append, marked_of_ne (h line mem_cons_self), readLines]
    split
    · exact hrest
    · exact hrest

theorem readLines_unseen (h : ∀ line ∈ lines, line ≠ []) (later : List (Text × Bool)) :
    readLines false (lines.map marked ++ later)
      = (framePayload lines).toList ++ readLines (lines.any isDataLine) later := by
  induction lines with
  | nil => rfl
  | cons line lines ih =>
    have hlines : ∀ line' ∈ lines, line' ≠ [] := fun line' hline' =>
      h line' (mem_cons_of_mem line hline')
    rw [map_cons, cons_append, marked_of_ne (h line mem_cons_self), readLines]
    split
    · rename_i hdata
      rw [readLines_seen hlines, framePayload, find?_cons_of_pos hdata]
      simp [hdata]
    · rename_i hdata
      rw [Bool.false_and, ih hlines, framePayload, framePayload, find?_cons_of_neg hdata]
      simp [hdata]

theorem readLines_front (h : ∀ line ∈ lines.tail, line ≠ []) (later : List (Text × Bool)) :
    readLines false (lines.map marked ++ later)
      = (framePayload lines).toList ++ readLines (lines.any isDataLine) later := by
  cases lines with
  | nil => rfl
  | cons line lines =>
    by_cases hline : line = []
    · subst hline
      exact readLines_unseen h later
    · refine readLines_unseen (fun line' hline' => ?_) later
      rcases List.mem_cons.mp hline' with rfl | hmem
      · exact hline
      · exact h line' hmem

theorem parsePiMessagesEvent_eq (frame : Text) :
    parsePiMessagesEvent frame = framePayload (splitLines frame) := rfl

theorem drain_lines (text : Text) :
    ∃ done kept, (Lines.split '\n' text).1 = done ++ kept ∧
      Lines.split '\n' (drain text).2 = (kept, (Lines.split '\n' text).2) ∧
      (∀ line ∈ kept.tail, line ≠ []) ∧ (∀ line ∈ done.getLast?, line = []) ∧
      ∀ later, readLines false (done.map marked ++ later)
        = (drain text).1.filterMap parsePiMessagesEvent ++ readLines false later := by
  induction htext : text.length using Nat.strongRecOn generalizing text with
  | ind size ih =>
    rcases splitFrame_lines text with ⟨hsplit, hcut⟩ | ⟨frame, rest, hsplit, hcut, hrest⟩
    · rw [drain_none hsplit]
      refine ⟨[], _, rfl, rfl, cutFrame_none hcut, ?_, fun later => rfl⟩
      nofun
    · have hlength := splitFrame_length hsplit
      obtain ⟨hlines, hfront⟩ := cutFrame_some hcut
      obtain ⟨done, kept, hdone, hkept, hopen, hended, hread⟩ := ih rest.length (by omega) rest rfl
      rw [drain_some hsplit]
      refine ⟨splitLines frame ++ [] :: done, kept, ?_, ?_, hopen, ?_, fun later => ?_⟩
      · rw [hlines, hdone]
        simp
      · rw [hkept, hrest]
      · intro line hline
        rw [getLast?_append, getLast?_cons] at hline
        cases hlast : done.getLast? with
        | none =>
          rw [hlast] at hline
          simpa using hline.symm
        | some last =>
          rw [hlast] at hline
          have heq : last = line := by simpa using hline
          rw [← heq]
          exact hended last hlast
      · rw [map_append, append_assoc, readLines_front hfront, map_cons,
          cons_append, filterMap_cons, parsePiMessagesEvent_eq]
        have hblank : readLines ((splitLines frame).any isDataLine)
            (marked [] :: (done.map marked ++ later))
              = readLines false (done.map marked ++ later) := by
          rw [marked, readLines, if_neg (by decide)]
          simp
        rw [hblank, hread]
        cases framePayload (splitLines frame) <;> rfl

end ReflectivePi.Ai
