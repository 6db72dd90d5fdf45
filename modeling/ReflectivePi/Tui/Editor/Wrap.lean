import ReflectivePi.Tui.Editor.Segments

/-!
# Tui — Editor wrap

`wordWrapLine` cuts a line into chunks that fit a width. A segment that is
wider than that is cut by a call of its own, which never ends when the segment
is one grapheme; the chunks of a call that ends are the line.
-/

namespace ReflectivePi.Tui

/-- What the editor takes from Unicode. -/
structure Unicode where
  graphemes : Segmenter
  words : Segmenter
  visibleWidth : Text → Nat
  /-- `cjkBreakRegex.test`. -/
  isCjk : Text → Bool

structure TextChunk where
  text : Text
  startIndex : Nat
  endIndex : Nat

/-- The variables of the loop of `wordWrapLine`. -/
structure WrapState where
  chunks : List TextChunk := []
  currentWidth : Nat := 0
  chunkStart : Nat := 0
  /-- `wrapOppIndex` and `wrapOppWidth`, when there is an opportunity. -/
  wrapOpp : Option (Nat × Nat) := none

namespace WrapState

/-- The chunk up to an index, and the rest of the line after it. -/
def cut (st : WrapState) (line : Text) (index width : Nat) : WrapState :=
  { chunks := st.chunks ++
      [{ text := (line.take index).drop st.chunkStart,
         startIndex := st.chunkStart, endIndex := index }]
    currentWidth := width
    chunkStart := index }

/-- The overflow check before a segment. -/
def overflow (st : WrapState) (line : Text) (maxWidth gWidth charIndex : Nat) : WrapState :=
  if st.currentWidth + gWidth > maxWidth then
    match st.wrapOpp with
    | some (index, width) =>
      if st.currentWidth - width + gWidth ≤ maxWidth then
        st.cut line index (st.currentWidth - width)
      else if st.chunkStart < charIndex then st.cut line charIndex 0
      else { st with wrapOpp := none }
    | none =>
      if st.chunkStart < charIndex then st.cut line charIndex 0
      else { st with wrapOpp := none }
  else st

/-- A break is allowed between the segment and the next one. -/
def breaksBefore (unicode : Unicode) (grapheme next : Text) : Bool :=
  if !isPasteMarker grapheme && isWhitespaceChar grapheme then
    isPasteMarker next || !isWhitespaceChar next
  else
    !isWhitespaceChar next && ((!isPasteMarker grapheme && unicode.isCjk grapheme)
        || (!isPasteMarker next && unicode.isCjk next))

/-- A segment that fits, and the opportunity behind it. -/
def advance (unicode : Unicode) (st : WrapState) (grapheme : Text) (gWidth : Nat)
    (next : Option Segment) : WrapState :=
  let st := { st with currentWidth := st.currentWidth + gWidth }
  match next with
  | some next =>
    if breaksBefore unicode grapheme next.text then
      { st with wrapOpp := some (next.index, st.currentWidth) }
    else st
  | none => st

end WrapState

def TextChunk.shift (chunk : TextChunk) (index : Nat) : TextChunk :=
  { chunk with startIndex := index + chunk.startIndex, endIndex := index + chunk.endIndex }

/-- The loop of `wordWrapLine`; `wrapSegment` cuts a segment that is too wide. -/
def wrapLoop (unicode : Unicode) (line : Text) (maxWidth : Nat)
    (wrapSegment : Text → Option (List TextChunk)) :
    WrapState → List Segment → Option (List TextChunk)
  | st, [] =>
    some (st.chunks ++
      [{ text := line.drop st.chunkStart, startIndex := st.chunkStart, endIndex := line.length }])
  | st, segment :: segments =>
    let gWidth := unicode.visibleWidth segment.text
    let st := st.overflow line maxWidth gWidth segment.index
    if gWidth > maxWidth then
      match wrapSegment segment.text with
      | none => none
      | some subChunks =>
        match subChunks.getLast? with
        | none => none
        | some last =>
          wrapLoop unicode line maxWidth wrapSegment
            { chunks := st.chunks ++ subChunks.dropLast.map (·.shift segment.index)
              currentWidth := unicode.visibleWidth last.text
              chunkStart := segment.index + last.startIndex } segments
    else
      wrapLoop unicode line maxWidth wrapSegment
        (st.advance unicode segment.text gWidth segments.head?) segments

/-- `wordWrapLine`, with a bound on how deep it calls itself. -/
def wordWrapLineWithin (unicode : Unicode) :
    Nat → Text → Nat → Option (List Segment) → Option (List TextChunk)
  | 0, _, _, _ => none
  | depth + 1, line, maxWidth, preSegmented =>
    if line = [] ∨ maxWidth = 0 then some [{ text := [], startIndex := 0, endIndex := 0 }]
    else if unicode.visibleWidth line ≤ maxWidth then
      some [{ text := line, startIndex := 0, endIndex := line.length }]
    else
      wrapLoop unicode line maxWidth
        (fun grapheme => wordWrapLineWithin unicode depth grapheme maxWidth none)
        {} (preSegmented.getD (unicode.graphemes.segment line))

/-- A deeper call is about a text that a call above it was about already, and
never ends: the stack overflows. -/
def wordWrapLine (unicode : Unicode) (line : Text) (maxWidth : Nat)
    (preSegmented : Option (List Segment)) : Option (List TextChunk) :=
  wordWrapLineWithin unicode (line.length + 2) line maxWidth preSegmented

/-! ## The chunks are the line -/

/-- Chunks that follow one another without a gap between two positions. -/
def Covers (low high : Nat) : List TextChunk → Prop
  | [] => low = high
  | chunk :: chunks =>
    chunk.startIndex = low ∧ low ≤ chunk.endIndex ∧ Covers chunk.endIndex high chunks

variable {low middle high : Nat} {chunks more : List TextChunk}

theorem Covers.append (h : Covers low middle chunks) (hmore : Covers middle high more) :
    Covers low high (chunks ++ more) := by
  induction chunks generalizing low with
  | nil =>
    rw [Covers] at h
    subst h
    exact hmore
  | cons chunk chunks ih => exact ⟨h.1, h.2.1, ih h.2.2⟩

theorem Covers.le (h : Covers low high chunks) : low ≤ high := by
  induction chunks generalizing low with
  | nil => exact Nat.le_of_eq h
  | cons chunk chunks ih => exact Nat.le_trans h.2.1 (ih h.2.2)

theorem Covers.shift (index : Nat) (h : Covers low high chunks) :
    Covers (index + low) (index + high) (chunks.map (·.shift index)) := by
  induction chunks generalizing low with
  | nil => exact congrArg (index + ·) h
  | cons chunk chunks ih =>
    exact ⟨congrArg (index + ·) h.1, Nat.add_le_add_left h.2.1 index, ih h.2.2⟩

theorem Covers.dropLast {last : TextChunk} (h : Covers low high chunks)
    (hlast : chunks.getLast? = some last) :
    Covers low last.startIndex chunks.dropLast ∧ last.startIndex ≤ high := by
  obtain ⟨before, rfl⟩ := List.getLast?_eq_some_iff.mp hlast
  rw [List.dropLast_concat]
  clear hlast
  induction before generalizing low with
  | nil => exact ⟨h.1.symm, h.1 ▸ Nat.le_trans h.2.1 (Covers.le h.2.2)⟩
  | cons chunk before ih =>
    obtain ⟨hbefore, hle⟩ := ih h.2.2
    exact ⟨⟨h.1, h.2.1, hbefore⟩, hle⟩

/-- The chunks so far end where the next one starts, which is not after
`position`, and an opportunity lies between the two. -/
structure WrapState.Sound (st : WrapState) (position : Nat) : Prop where
  covers : Covers 0 st.chunkStart st.chunks
  start_le : st.chunkStart ≤ position
  opp : ∀ index width, st.wrapOpp = some (index, width) → st.chunkStart ≤ index ∧ index ≤ position

variable {unicode : Unicode} {line : Text} {st : WrapState} {maxWidth gWidth position index : Nat}

theorem WrapState.Sound.cut {width : Nat} (h : st.Sound position)
    (hstart : st.chunkStart ≤ index) (hle : index ≤ position) :
    (st.cut line index width).Sound position where
  covers := h.covers.append ⟨rfl, hstart, rfl⟩
  start_le := hle
  opp := fun _ _ hnone => nomatch hnone

theorem WrapState.Sound.overflow (h : st.Sound index) :
    (st.overflow line maxWidth gWidth index).Sound index := by
  have hkeep : ({ st with wrapOpp := none } : WrapState).Sound index :=
    ⟨h.covers, h.start_le, fun _ _ hnone => nomatch hnone⟩
  have hforce : (if st.chunkStart < index then st.cut line index 0
      else { st with wrapOpp := none }).Sound index := by
    split
    · exact h.cut h.start_le (Nat.le_refl _)
    · exact hkeep
  unfold WrapState.overflow
  split
  · split
    · rename_i opp width hopp
      split
      · exact h.cut (h.opp _ _ hopp).1 (h.opp _ _ hopp).2
      · exact hforce
    · exact hforce
  · exact h

theorem WrapState.overflow_start (h : st.Sound index) (hwide : gWidth > maxWidth) :
    (st.overflow line maxWidth gWidth index).chunkStart = index := by
  have hforce : (if st.chunkStart < index then st.cut line index 0
      else { st with wrapOpp := none }).chunkStart = index := by
    split
    · rfl
    · rename_i hstart
      exact Nat.le_antisymm h.start_le (Nat.not_lt.mp hstart)
  unfold WrapState.overflow
  rw [if_pos (Nat.lt_of_lt_of_le hwide (Nat.le_add_left _ _))]
  split
  · rw [if_neg]
    · exact hforce
    · omega
  · exact hforce

theorem WrapState.Sound.advance {grapheme : Text} {segments : List Segment}
    (h : st.Sound index) (hsegments : InOrder index line.length segments) :
    (st.advance unicode grapheme gWidth segments.head?).Sound
      (segments.head?.elim line.length (·.index)) := by
  cases segments with
  | nil =>
    refine ⟨h.covers, Nat.le_trans h.start_le hsegments, fun i width hopp => ?_⟩
    exact ⟨(h.opp i width hopp).1, Nat.le_trans (h.opp i width hopp).2 hsegments⟩
  | cons next segments =>
    have hle := hsegments.1
    unfold WrapState.advance
    dsimp only [List.head?_cons, Option.elim]
    split
    · refine ⟨h.covers, Nat.le_trans h.start_le hle, fun i width hopp => ?_⟩
      cases hopp
      exact ⟨Nat.le_trans h.start_le hle, Nat.le_refl _⟩
    · refine ⟨h.covers, Nat.le_trans h.start_le hle, fun i width hopp => ?_⟩
      exact ⟨(h.opp i width hopp).1, Nat.le_trans (h.opp i width hopp).2 hle⟩

theorem WrapState.Sound.mono {position' : Nat} (h : st.Sound position)
    (hle : position ≤ position') : st.Sound position' where
  covers := h.covers
  start_le := Nat.le_trans h.start_le hle
  opp := fun i width hopp => ⟨(h.opp i width hopp).1, Nat.le_trans (h.opp i width hopp).2 hle⟩

theorem wrapLoop_covers {wrapSegment : Text → Option (List TextChunk)} {segments : List Segment}
    (hwrap : ∀ text chunks, wrapSegment text = some chunks → Covers 0 text.length chunks)
    (hst : st.Sound position) (hsegments : InOrder position line.length segments)
    (h : wrapLoop unicode line maxWidth wrapSegment st segments = some chunks) :
    Covers 0 line.length chunks := by
  induction segments generalizing st position with
  | nil =>
    rw [wrapLoop] at h
    cases h
    exact hst.covers.append ⟨rfl, Nat.le_trans hst.start_le hsegments, rfl⟩
  | cons segment segments ih =>
    obtain ⟨hposition, hne, hrest⟩ := hsegments
    have hover : (st.overflow line maxWidth (unicode.visibleWidth segment.text)
        segment.index).Sound segment.index := (hst.mono hposition).overflow
    rw [wrapLoop] at h
    split at h
    · rename_i hwide
      have hstart := @WrapState.overflow_start line _ _ _ _ (hst.mono hposition) hwide
      split at h
      · cases h
      · rename_i subChunks hsub
        split at h
        · cases h
        · rename_i last hlast
          obtain ⟨hbefore, hle⟩ := (hwrap _ _ hsub).dropLast hlast
          refine ih ⟨?_, ?_, ?_⟩ hrest h
          · refine hover.covers.append ?_
            rw [hstart]
            exact hbefore.shift segment.index
          · exact Nat.add_le_add_left hle _
          nofun
    · have hstop : segment.index ≤ segment.stop := Nat.le_add_right _ _
      refine ih ((hover.mono hstop).advance hrest) ?_ h
      cases segments with
      | nil => exact Nat.le_refl _
      | cons next segments => exact ⟨Nat.le_refl _, hrest.2⟩

theorem wordWrapLineWithin_covers {depth : Nat} {preSegmented : Option (List Segment)}
    (hwidth : 0 < maxWidth)
    (hsegments : ∀ segments, preSegmented = some segments → InOrder 0 line.length segments)
    (h : wordWrapLineWithin unicode depth line maxWidth preSegmented = some chunks) :
    Covers 0 line.length chunks := by
  induction depth generalizing line preSegmented chunks with
  | zero => cases h
  | succ depth ih =>
    rw [wordWrapLineWithin] at h
    split at h
    · rename_i hempty
      cases h
      rcases hempty with rfl | hzero
      · exact ⟨rfl, Nat.le_refl _, rfl⟩
      · omega
    · split at h
      · cases h
        exact ⟨rfl, Nat.zero_le _, rfl⟩
      · have hst : ({} : WrapState).Sound 0 :=
          ⟨rfl, Nat.le_refl 0, fun _ _ hnone => nomatch hnone⟩
        refine wrapLoop_covers (fun text chunks hsub => ?_) hst ?_ h
        · have hbase : ∀ segments, (none : Option (List Segment)) = some segments →
              InOrder 0 text.length segments := fun _ hnone => nomatch hnone
          exact ih hbase hsub
        · cases preSegmented with
          | none => exact segment_inOrder _ _
          | some segments => exact hsegments segments rfl

end ReflectivePi.Tui
