import ReflectivePi.Tui.Editor.Wrap

/-!
# Tui — Editor wraps

When `wordWrapLine` ends, and what its chunks are then. It ends where no
grapheme of a segment that has to be cut is itself wider than the width; the
chunks carry the text between their bounds, and they keep to the width where
that is additive over the graphemes.
-/

namespace ReflectivePi.Tui

open List

variable {unicode : Unicode} {line : Text} {maxWidth : Nat}

/-! ## What is asked -/

/-- Segments that cut a line into consecutive texts that are not empty. -/
def Segmentation (line : Text) (segments : List Segment) : Prop :=
  ∃ pieces, segments = indexed 0 pieces ∧ (pieces.map Prod.fst).flatten = line ∧
    ∀ piece ∈ pieces, piece.1 ≠ []

/-- A grapheme is segmented as itself. -/
def Segmenter.Atomic (segmenter : Segmenter) : Prop :=
  ∀ text, ∀ piece ∈ segmenter.run text, (segmenter.run piece.1).map Prod.fst = [piece.1]

def Unicode.graphemesOf (unicode : Unicode) (text : Text) : List Text :=
  (unicode.graphemes.run text).map Prod.fst

def Unicode.sumWidth (unicode : Unicode) (texts : List Text) : Nat :=
  (texts.map unicode.visibleWidth).sum

/-- The width of consecutive graphemes is the sum of theirs. -/
def Unicode.Additive (unicode : Unicode) (graphemes : List Text) : Prop :=
  ∀ run, run <:+: graphemes → unicode.visibleWidth run.flatten = unicode.sumWidth run

/-- No grapheme of the text is wider than the width. -/
def GraphemesFit (unicode : Unicode) (maxWidth : Nat) (text : Text) : Prop :=
  ∀ grapheme ∈ unicode.graphemesOf text, unicode.visibleWidth grapheme ≤ maxWidth

/-- The chunks follow one another from the start of the line to its end, each
with the text between its bounds. -/
structure Tile (line : Text) (chunks : List TextChunk) : Prop where
  covers : Covers 0 line.length chunks
  carries : ∀ chunk ∈ chunks, chunk.text = (line.take chunk.endIndex).drop chunk.startIndex

/-- The call ends, for a bound on how deep it calls itself; with chunks that
tile the line, and that are not too wide where no grapheme is. -/
def Wraps (unicode : Unicode) (line : Text) (maxWidth : Nat) (segments : List Segment) : Prop :=
  ∃ depth chunks, wordWrapLineWithin unicode depth line maxWidth (some segments) = some chunks ∧
    Tile line chunks ∧
    (unicode.Additive (segments.flatMap fun segment => unicode.graphemesOf segment.text) →
      (∀ segment ∈ segments, GraphemesFit unicode maxWidth segment.text) →
      ∀ chunk ∈ chunks, unicode.visibleWidth chunk.text ≤ maxWidth)

/-- The line fits, or the graphemes of each segment that does not. -/
def Wrappable (unicode : Unicode) (line : Text) (maxWidth : Nat) (segments : List Segment) : Prop :=
  unicode.visibleWidth line ≤ maxWidth ∨
    ∀ segment ∈ segments, maxWidth < unicode.visibleWidth segment.text →
      GraphemesFit unicode maxWidth segment.text

/-! ## Ending -/

variable {wrapSegment : Text → Option (List TextChunk)} {st : WrapState}

theorem wrapLoop_ends (segments : List Segment)
    (h : ∀ segment ∈ segments, maxWidth < unicode.visibleWidth segment.text →
      ∃ chunks, wrapSegment segment.text = some chunks ∧ chunks ≠ []) :
    ∃ chunks, wrapLoop unicode line maxWidth wrapSegment st segments = some chunks := by
  induction segments generalizing st with
  | nil => exact ⟨_, rfl⟩
  | cons segment segments ih =>
    have hrest := fun s (hs : s ∈ segments) => h s (mem_cons_of_mem _ hs)
    rw [wrapLoop]
    split
    · rename_i hwide
      obtain ⟨subChunks, hsub, hne⟩ := h segment mem_cons_self hwide
      rw [hsub]
      dsimp only
      rw [getLast?_eq_some_getLast hne]
      exact ih hrest
    · exact ih hrest

variable {segment : Segment} {depth : Nat} {grapheme : Text}

theorem wrapLoop_none (segments : List Segment) (hmem : segment ∈ segments)
    (hwide : maxWidth < unicode.visibleWidth segment.text)
    (hnone : wrapSegment segment.text = none) :
    wrapLoop unicode line maxWidth wrapSegment st segments = none := by
  induction segments generalizing st with
  | nil => cases hmem
  | cons first segments ih =>
    rw [wrapLoop]
    rcases List.mem_cons.mp hmem with rfl | hmem
    · rw [if_pos hwide, hnone]
    · split
      · split
        · rfl
        · split
          · rfl
          · exact ih hmem
      · exact ih hmem

theorem wordWrapLineWithin_loop {preSegmented : Option (List Segment)}
    (hwidth : 0 < maxWidth) (hne : line ≠ []) (hwide : maxWidth < unicode.visibleWidth line) :
    wordWrapLineWithin unicode (depth + 1) line maxWidth preSegmented
      = wrapLoop unicode line maxWidth
          (fun grapheme => wordWrapLineWithin unicode depth grapheme maxWidth none)
          {} (preSegmented.getD (unicode.graphemes.segment line)) := by
  rw [wordWrapLineWithin, if_neg, if_neg (Nat.not_le.mpr hwide)]
  rintro (h | h)
  · exact hne h
  omega

theorem indexed_texts (index : Nat) (pieces : List (Text × Bool)) :
    (indexed index pieces).map Segment.text = pieces.map Prod.fst := by
  induction pieces generalizing index with
  | nil => rfl
  | cons piece pieces ih =>
    rw [indexed, map_cons, map_cons, ih]

theorem segment_texts (text : Text) :
    (unicode.graphemes.segment text).map Segment.text = unicode.graphemesOf text :=
  indexed_texts 0 _

theorem mem_graphemesOf {text : Text} (h : grapheme ∈ unicode.graphemesOf text) :
    ∃ segment ∈ unicode.graphemes.segment text, segment.text = grapheme := by
  rw [← segment_texts] at h
  exact List.mem_map.mp h

theorem graphemesOf_ne_nil {text : Text} (h : grapheme ∈ unicode.graphemesOf text) :
    grapheme ≠ [] := by
  obtain ⟨piece, hpiece, rfl⟩ := List.mem_map.mp h
  exact unicode.graphemes.nonempty text piece hpiece

theorem wordWrapLineWithin_graphemes {text : Text} (hwidth : 0 < maxWidth)
    (h : GraphemesFit unicode maxWidth text) (depth : Nat) :
    ∃ chunks, wordWrapLineWithin unicode (depth + 1) text maxWidth none = some chunks := by
  by_cases hne : text = []
  · refine ⟨[{ text := [], startIndex := 0, endIndex := 0 }], ?_⟩
    rw [wordWrapLineWithin, if_pos (.inl hne)]
  by_cases hwide : maxWidth < unicode.visibleWidth text
  · rw [wordWrapLineWithin_loop hwidth hne hwide]
    refine wrapLoop_ends _ fun segment hsegment hover => ?_
    have hmem : segment.text ∈ unicode.graphemesOf text := by
      rw [← segment_texts]
      exact mem_map_of_mem hsegment
    exact absurd hover (Nat.not_lt.mpr (h _ hmem))
  · refine ⟨[{ text, startIndex := 0, endIndex := text.length }], ?_⟩
    rw [wordWrapLineWithin, if_neg, if_pos (Nat.not_lt.mp hwide)]
    rintro (h | h)
    · exact hne h
    omega

theorem wordWrapLineWithin_never {text : Text} (hatomic : unicode.graphemes.Atomic)
    (hwidth : 0 < maxWidth) (hmem : grapheme ∈ unicode.graphemesOf text)
    (hwide : maxWidth < unicode.visibleWidth grapheme) (depth : Nat) :
    wordWrapLineWithin unicode depth grapheme maxWidth none = none := by
  have hself : grapheme ∈ unicode.graphemesOf grapheme := by
    obtain ⟨piece, hpiece, rfl⟩ := List.mem_map.mp hmem
    rw [Unicode.graphemesOf, hatomic text piece hpiece]
    exact mem_singleton_self _
  obtain ⟨segment, hsegment, htext⟩ := mem_graphemesOf hself
  induction depth with
  | zero => rfl
  | succ depth ih =>
    rw [wordWrapLineWithin_loop hwidth (graphemesOf_ne_nil hmem) hwide]
    exact wrapLoop_none _ hsegment (by rwa [htext]) (by rwa [htext])

theorem wordWrapLineWithin_none {text : Text} {segments : List Segment}
    {preSegmented : Option (List Segment)}
    (hsegments : preSegmented.getD (unicode.graphemes.segment text) = segments)
    (hwidth : 0 < maxWidth) (hne : text ≠ []) (hwide : maxWidth < unicode.visibleWidth text)
    (hmem : segment ∈ segments) (hover : maxWidth < unicode.visibleWidth segment.text)
    (hnone : ∀ depth, wordWrapLineWithin unicode depth segment.text maxWidth none = none)
    (depth : Nat) : wordWrapLineWithin unicode depth text maxWidth preSegmented = none := by
  cases depth with
  | zero => rfl
  | succ depth =>
    rw [wordWrapLineWithin_loop hwidth hne hwide, hsegments]
    exact wrapLoop_none _ hmem hover (hnone depth)

/-! ## The text of the chunks -/

def TextChunk.Carries (line : Text) (chunk : TextChunk) : Prop :=
  chunk.text = (line.take chunk.endIndex).drop chunk.startIndex

theorem Covers.stop_le {low high : Nat} {chunks : List TextChunk} (h : Covers low high chunks)
    {chunk : TextChunk} (hmem : chunk ∈ chunks) : chunk.endIndex ≤ high := by
  induction chunks generalizing low with
  | nil => cases hmem
  | cons first chunks ih =>
    rcases List.mem_cons.mp hmem with rfl | hmem
    · exact h.2.2.le
    · exact ih h.2.2 hmem

theorem TextChunk.Carries.shift {before text after : Text} {chunk : TextChunk}
    (h : chunk.Carries text) (hle : chunk.endIndex ≤ text.length) :
    (chunk.shift before.length).Carries (before ++ (text ++ after)) := by
  rw [TextChunk.Carries, TextChunk.shift, h]
  rw [take_length_add_append, take_append_of_le_length hle, drop_length_add_append]

theorem WrapState.overflow_chunks {gWidth index : Nat}
    (h : ∀ chunk ∈ st.chunks, chunk.Carries line) :
    ∀ chunk ∈ (st.overflow line maxWidth gWidth index).chunks, chunk.Carries line := by
  have hcut : ∀ stop width, ∀ chunk ∈ (st.cut line stop width).chunks, chunk.Carries line := by
    intro stop width chunk hmem
    rcases List.mem_append.mp hmem with hmem | hmem
    · exact h chunk hmem
    · rw [List.mem_singleton.mp hmem]
      rfl
  unfold WrapState.overflow
  split
  · split
    · split
      · exact hcut _ _
      · split
        · exact hcut _ _
        · exact h
    · split
      · exact hcut _ _
      · exact h
  · exact h

theorem WrapState.advance_chunks (grapheme : Text) (gWidth : Nat) (next : Option Segment) :
    (st.advance unicode grapheme gWidth next).chunks = st.chunks := by
  unfold WrapState.advance
  cases next with
  | none => rfl
  | some next =>
    dsimp only
    split
    · rfl
    · rfl

theorem wrapLoop_carries {before : Text} {pieces : List (Text × Bool)} {chunks : List TextChunk}
    (hsub : ∀ text chunks, wrapSegment text = some chunks → Tile text chunks)
    (hline : line = before ++ (pieces.map Prod.fst).flatten)
    (hst : ∀ chunk ∈ st.chunks, chunk.Carries line)
    (h : wrapLoop unicode line maxWidth wrapSegment st (indexed before.length pieces)
      = some chunks) : ∀ chunk ∈ chunks, chunk.Carries line := by
  induction pieces generalizing st before with
  | nil =>
    cases h
    intro chunk hmem
    rcases List.mem_append.mp hmem with hmem | hmem
    · exact hst chunk hmem
    · rw [List.mem_singleton.mp hmem, TextChunk.Carries, take_length]
  | cons piece pieces ih =>
    obtain ⟨text, isWordLike⟩ := piece
    have hline' : line = (before ++ text) ++ (pieces.map Prod.fst).flatten := by
      rw [hline, map_cons, flatten_cons, append_assoc]
    have hlength : before.length + text.length = (before ++ text).length := by
      rw [length_append]
    rw [indexed, wrapLoop, hlength] at h
    have hover := @WrapState.overflow_chunks line maxWidth st
      (unicode.visibleWidth text) before.length hst
    split at h
    · split at h
      · cases h
      · rename_i subChunks hwrap
        split at h
        · cases h
        · rename_i last hlast
          refine ih hline' ?_ h
          intro chunk hmem
          rcases List.mem_append.mp hmem with hmem | hmem
          · exact hover chunk hmem
          · obtain ⟨chunk', hchunk', rfl⟩ := List.mem_map.mp hmem
            have hmem' := dropLast_subset _ hchunk'
            have htile := hsub _ _ hwrap
            rw [hline, map_cons, flatten_cons]
            exact TextChunk.Carries.shift (htile.carries chunk' hmem') (htile.covers.stop_le hmem')
    · refine ih hline' ?_ h
      rw [WrapState.advance_chunks]
      exact hover

theorem wordWrapLineWithin_tile {preSegmented : Option (List Segment)}
    {chunks : List TextChunk} (hwidth : 0 < maxWidth)
    (hsegments : ∀ segments, preSegmented = some segments → Segmentation line segments)
    (h : wordWrapLineWithin unicode depth line maxWidth preSegmented = some chunks) :
    Tile line chunks := by
  induction depth generalizing line preSegmented chunks with
  | zero => cases h
  | succ depth ih =>
    refine ⟨wordWrapLineWithin_covers hwidth ?_ h, ?_⟩
    · intro segments hsome
      obtain ⟨pieces, rfl, rfl, hne⟩ := hsegments segments hsome
      have horder := indexed_inOrder 0 pieces hne
      rwa [Nat.zero_add] at horder
    · obtain ⟨pieces, hpieces, hflatten⟩ : ∃ pieces,
          preSegmented.getD (unicode.graphemes.segment line) = indexed 0 pieces ∧
            (pieces.map Prod.fst).flatten = line := by
        cases preSegmented with
        | none => exact ⟨_, rfl, unicode.graphemes.partition line⟩
        | some segments =>
          obtain ⟨pieces, hpieces, hflatten, _⟩ := hsegments segments rfl
          exact ⟨pieces, hpieces, hflatten⟩
      rw [wordWrapLineWithin, hpieces] at h
      split at h
      · rename_i hempty
        cases h
        simp
      · split at h
        · cases h
          simp
        · refine @wrapLoop_carries _ _ _ _ {} [] pieces chunks (fun text chunks hsub => ?_)
            hflatten.symm (fun _ hmem => absurd hmem not_mem_nil) h
          have hnone : ∀ segments, (none : Option (List Segment)) = some segments →
              Segmentation text segments := fun _ hnone => by cases hnone
          exact ih hnone hsub

/-! ## The width of the chunks -/

@[simp] theorem Unicode.sumWidth_append (a b : List Text) :
    unicode.sumWidth (a ++ b) = unicode.sumWidth a + unicode.sumWidth b := by
  simp only [Unicode.sumWidth, map_append, sum_append]

theorem Unicode.Additive.of_part {units part : List Text} (h : unicode.Additive units)
    (hpart : part <:+: units) : unicode.Additive part := fun run hrun => h run (hrun.trans hpart)

/-- The chunks so far are not too wide, and the graphemes `pending` since then
fit; an opportunity lies between two of them. -/
structure WrapState.Pending (unicode : Unicode) (maxWidth : Nat) (st : WrapState)
    (before pending : List Text) : Prop where
  start : st.chunkStart = before.flatten.length
  width : st.currentWidth = unicode.sumWidth pending
  fits : unicode.sumWidth pending ≤ maxWidth
  opp : ∀ index width, st.wrapOpp = some (index, width) →
    ∃ kept rest, pending = kept ++ rest ∧ index = (before ++ kept).flatten.length ∧
      width = unicode.sumWidth kept
  chunks : ∀ chunk ∈ st.chunks, unicode.visibleWidth chunk.text ≤ maxWidth

variable {units before pending rest : List Text}

theorem slice_units (before kept rest : List Text) :
    ((before ++ kept ++ rest).flatten.take (before ++ kept).flatten.length).drop
      before.flatten.length = kept.flatten := by
  rw [@flatten_append _ (before ++ kept) rest, take_left, flatten_append, drop_left]

/-- A cut behind some of the graphemes since the last one. -/
theorem WrapState.Pending.cut {kept left : List Text} {index width : Nat}
    (h : st.Pending unicode maxWidth before (kept ++ left))
    (hadd : unicode.Additive (before ++ (kept ++ left) ++ rest))
    (hindex : index = (before ++ kept).flatten.length) (hwidth : width = unicode.sumWidth left) :
    (st.cut (before ++ (kept ++ left) ++ rest).flatten index width).Pending unicode maxWidth
      (before ++ kept) left where
  start := hindex
  width := hwidth
  fits := by
    have hfits := h.fits
    rw [Unicode.sumWidth_append] at hfits
    omega
  opp := fun _ _ hnone => nomatch hnone
  chunks := by
    intro chunk hmem
    rcases List.mem_append.mp hmem with hmem | hmem
    · exact h.chunks chunk hmem
    · have htext : chunk.text = kept.flatten := by
        rw [List.mem_singleton.mp hmem]
        rw [hindex, h.start, ← slice_units before kept (left ++ rest)]
        simp only [append_assoc]
      have hfits := h.fits
      rw [Unicode.sumWidth_append] at hfits
      rw [htext, hadd kept ⟨before, left ++ rest, by simp only [append_assoc]⟩]
      omega

/-- After the overflow check a grapheme that is not too wide fits, and in front
of one that is nothing is pending. -/
theorem WrapState.Pending.overflow {gWidth : Nat} (h : st.Pending unicode maxWidth before pending)
    (hadd : unicode.Additive (before ++ pending ++ rest)) :
    ∃ before' pending', before' ++ pending' = before ++ pending ∧
      (st.overflow (before ++ pending ++ rest).flatten maxWidth gWidth
        (before ++ pending).flatten.length).Pending unicode maxWidth before' pending' ∧
      (gWidth ≤ maxWidth → unicode.sumWidth pending' + gWidth ≤ maxWidth) ∧
      (maxWidth < gWidth → pending' = []) := by
  have hforce : (if st.chunkStart < (before ++ pending).flatten.length
      then st.cut (before ++ pending ++ rest).flatten (before ++ pending).flatten.length 0
      else { st with wrapOpp := none }).Pending unicode maxWidth (before ++ pending) [] := by
    split
    · have hcut := @WrapState.Pending.cut _ _ _ _ rest pending []
        (before ++ pending).flatten.length 0 (by rwa [append_nil])
        (by rwa [append_nil]) rfl rfl
      rwa [append_nil] at hcut
    · rename_i hstart
      rw [h.start, flatten_append, length_append] at hstart
      have hempty : pending.flatten = [] := List.length_eq_zero_iff.mp (by omega)
      have hzero : unicode.sumWidth pending = 0 := by
        rw [← hadd pending ⟨before, rest, rfl⟩, hempty, ← flatten_nil,
          hadd [] ( nil_infix)]
        rfl
      exact
        { start := by
            rw [h.start, flatten_append, hempty, append_nil]
          width := h.width.trans hzero
          fits := Nat.zero_le _
          opp := fun _ _ hnone => nomatch hnone
          chunks := h.chunks }
  unfold WrapState.overflow
  split
  · split
    · rename_i index width hopp
      split
      · rename_i hfit
        obtain ⟨kept, left, rfl, hindex, hkept⟩ := h.opp index width hopp
        have hleft : st.currentWidth - width = unicode.sumWidth left := by
          rw [h.width, hkept, Unicode.sumWidth_append, Nat.add_sub_cancel_left]
        refine ⟨before ++ kept, left, by rw [append_assoc], h.cut hadd hindex hleft,
          fun _ => hleft ▸ hfit, fun hwide => ?_⟩
        omega
      · exact ⟨_, [], append_nil _, hforce, fun hle => by simpa [Unicode.sumWidth] using hle,
          fun _ => rfl⟩
    · exact ⟨_, [], append_nil _, hforce, fun hle => by simpa [Unicode.sumWidth] using hle,
        fun _ => rfl⟩
  · rename_i hfit
    rw [h.width] at hfit
    exact ⟨before, pending, rfl, h, fun _ => Nat.not_lt.mp hfit, fun hwide => by omega⟩

theorem WrapState.Pending.advance {graphemes : List Text} {text : Text} {gWidth : Nat}
    {next : Option Segment} (h : st.Pending unicode maxWidth before pending)
    (hwidth : gWidth = unicode.sumWidth graphemes)
    (hfits : unicode.sumWidth pending + gWidth ≤ maxWidth)
    (hnext : ∀ segment, next = some segment →
      segment.index = (before ++ (pending ++ graphemes)).flatten.length) :
    (st.advance unicode text gWidth next).Pending unicode maxWidth before
      (pending ++ graphemes) := by
  have hsum : st.currentWidth + gWidth = unicode.sumWidth (pending ++ graphemes) := by
    rw [Unicode.sumWidth_append, h.width, hwidth]
  have hkeep : ({ st with currentWidth := st.currentWidth + gWidth } : WrapState).Pending unicode
      maxWidth before (pending ++ graphemes) :=
    { start := h.start
      width := hsum
      fits := by rwa [Unicode.sumWidth_append, ← hwidth]
      opp := by
        intro index width hopp
        obtain ⟨kept, left, hpending, hindex, hkept⟩ := h.opp index width hopp
        exact ⟨kept, left ++ graphemes, by rw [hpending, append_assoc], hindex, hkept⟩
      chunks := h.chunks }
  unfold WrapState.advance
  cases next with
  | none => exact hkeep
  | some segment =>
    dsimp only
    split
    · exact { hkeep with
        opp := by
          intro index width hopp
          cases hopp
          exact ⟨pending ++ graphemes, [], (append_nil _).symm, hnext segment rfl, hsum⟩ }
    · exact hkeep

/-- The chunks are not too wide, and the last one is the graphemes from one of
them on. -/
structure Narrow (unicode : Unicode) (maxWidth : Nat) (units : List Text)
    (chunks : List TextChunk) : Prop where
  fits : ∀ chunk ∈ chunks, unicode.visibleWidth chunk.text ≤ maxWidth
  endsWith : ∀ last, chunks.getLast? = some last → ∃ before kept, units = before ++ kept ∧
    last.startIndex = before.flatten.length ∧ last.text = kept.flatten

theorem graphemesOf_flatten (text : Text) : (unicode.graphemesOf text).flatten = text :=
  unicode.graphemes.partition text

/-- Behind a segment that was cut on its own, its last chunk is pending. -/
theorem WrapState.Pending.wide {text : Text} {subChunks : List TextChunk} {last : TextChunk}
    (h : st.Pending unicode maxWidth before []) (hadd : unicode.Additive (unicode.graphemesOf text))
    (hsub : Narrow unicode maxWidth (unicode.graphemesOf text) subChunks)
    (hlast : subChunks.getLast? = some last) :
    ∃ before' pending', before' ++ pending' = before ++ unicode.graphemesOf text ∧
      ({ chunks := st.chunks ++ subChunks.dropLast.map (·.shift before.flatten.length)
         currentWidth := unicode.visibleWidth last.text
         chunkStart := before.flatten.length + last.startIndex } : WrapState).Pending unicode
        maxWidth before' pending' := by
  obtain ⟨front, kept, hunits, hstart, htext⟩ := hsub.endsWith last hlast
  have hwidth : unicode.visibleWidth last.text = unicode.sumWidth kept := by
    rw [htext]
    exact hadd kept ⟨front, [], by rw [append_nil, hunits]⟩
  refine ⟨before ++ front, kept, by rw [hunits, append_assoc], ?_⟩
  exact
    { start := by rw [hstart, flatten_append, length_append]
      width := hwidth
      fits := hwidth ▸ hsub.fits last (mem_of_getLast? hlast)
      opp := fun _ _ hnone => nomatch hnone
      chunks := by
        intro chunk hmem
        rcases List.mem_append.mp hmem with hmem | hmem
        · exact h.chunks chunk hmem
        · obtain ⟨chunk', hchunk', rfl⟩ := List.mem_map.mp hmem
          exact hsub.fits chunk' (dropLast_subset _ hchunk') }

theorem wrapLoop_narrow {pieces : List (Text × Bool)} {chunks : List TextChunk}
    (hadd : unicode.Additive units)
    (hunits : units = before ++ pending ++ pieces.flatMap fun piece => unicode.graphemesOf piece.1)
    (hfit : ∀ piece ∈ pieces, GraphemesFit unicode maxWidth piece.1)
    (hsub : ∀ text subChunks, wrapSegment text = some subChunks →
      GraphemesFit unicode maxWidth text → unicode.Additive (unicode.graphemesOf text) →
      Narrow unicode maxWidth (unicode.graphemesOf text) subChunks)
    (hst : st.Pending unicode maxWidth before pending)
    (h : wrapLoop unicode units.flatten maxWidth wrapSegment st
      (indexed (before ++ pending).flatten.length pieces) = some chunks) :
    Narrow unicode maxWidth units chunks := by
  induction pieces generalizing st before pending with
  | nil =>
    rw [flatMap_nil, append_nil] at hunits
    cases h
    have htext : units.flatten.drop st.chunkStart = pending.flatten := by
      rw [hst.start, hunits, flatten_append, drop_left]
    constructor
    · intro chunk hmem
      rcases List.mem_append.mp hmem with hmem | hmem
      · exact hst.chunks chunk hmem
      · rw [List.mem_singleton.mp hmem]
        rw [htext, hadd pending ⟨before, [], by rw [append_nil, hunits]⟩]
        exact hst.fits
    · intro last hlast
      rw [getLast?_concat] at hlast
      cases hlast
      exact ⟨before, pending, hunits, hst.start, htext⟩
  | cons piece pieces ih =>
    obtain ⟨text, isWordLike⟩ := piece
    rw [flatMap_cons] at hunits
    have hfitText := hfit _ mem_cons_self
    have hrest := fun p (hp : p ∈ pieces) => hfit p (mem_cons_of_mem _ hp)
    have haddText : unicode.Additive (unicode.graphemesOf text) :=
      hadd.of_part ⟨before ++ pending, _, by rw [hunits, append_assoc]⟩
    have hwidth : unicode.visibleWidth text = unicode.sumWidth (unicode.graphemesOf text) := by
      have hall := haddText _ (infix_refl _)
      rwa [graphemesOf_flatten] at hall
    have hstop : (before ++ pending).flatten.length + text.length
        = (before ++ pending ++ unicode.graphemesOf text).flatten.length := by
      rw [@flatten_append _ (before ++ pending), graphemesOf_flatten, length_append]
    have hcons : units = before ++ pending ++ unicode.graphemesOf text
        ++ pieces.flatMap fun piece => unicode.graphemesOf piece.1 := by
      rw [hunits, append_assoc (before ++ pending)]
    rw [indexed, wrapLoop, hstop] at h
    obtain ⟨before', pending', hdone, hover, hfits, hempty⟩ :=
      @WrapState.Pending.overflow unicode maxWidth st before pending _
        (unicode.visibleWidth text) hst (hunits ▸ hadd)
    rw [← hunits] at hover
    rw [← hdone] at hcons h hover
    split at h
    · rename_i hwide
      obtain rfl := hempty hwide
      rw [append_nil] at hcons h hover
      split at h
      · cases h
      · rename_i subChunks hwrap
        split at h
        · cases h
        · rename_i last hlast
          obtain ⟨before'', pending'', hdone', hst'⟩ :=
            hover.wide haddText (hsub _ _ hwrap hfitText haddText) hlast
          rw [← hdone'] at hcons h
          exact ih hcons hrest hst' h
    · rename_i hnarrow
      have hadvance := @WrapState.Pending.advance unicode maxWidth _ before' pending'
        (unicode.graphemesOf text) text _
        (indexed (before' ++ pending' ++ unicode.graphemesOf text).flatten.length pieces).head?
        hover hwidth (hfits (Nat.not_lt.mp hnarrow)) (by
          intro segment hsegment
          cases pieces with
          | nil => cases hsegment
          | cons piece pieces =>
            cases hsegment
            rw [append_assoc])
      rw [append_assoc before' pending'] at hcons h hadvance
      exact ih hcons hrest hadvance h

/-! ## The call -/

theorem segment_segmentation (text : Text) : Segmentation text (unicode.graphemes.segment text) :=
  ⟨_, rfl, unicode.graphemes.partition text, unicode.graphemes.nonempty text⟩

theorem indexed_flatMap (index : Nat) (pieces : List (Text × Bool)) :
    (indexed index pieces).flatMap (fun segment => unicode.graphemesOf segment.text)
      = pieces.flatMap fun piece => unicode.graphemesOf piece.1 := by
  rw [← flatMap_map (f := Segment.text) (g := unicode.graphemesOf), indexed_texts, flatMap_map]

theorem flatMap_graphemesOf_flatten (pieces : List (Text × Bool)) :
    (pieces.flatMap fun piece => unicode.graphemesOf piece.1).flatten
      = (pieces.map Prod.fst).flatten := by
  induction pieces with
  | nil => rfl
  | cons piece pieces ih =>
    rw [flatMap_cons, flatten_append, graphemesOf_flatten, ih, map_cons, flatten_cons]

theorem flatMap_segment (hatomic : unicode.graphemes.Atomic) (text : Text) :
    (unicode.graphemes.segment text).flatMap (fun segment => unicode.graphemesOf segment.text)
      = unicode.graphemesOf text := by
  rw [Segmenter.segment, indexed_flatMap]
  have hself : ∀ piece ∈ unicode.graphemes.run text, unicode.graphemesOf piece.1 = [piece.1] :=
    fun piece hpiece => hatomic text piece hpiece
  rw [flatMap_congr hself, Unicode.graphemesOf]
  exact (map_eq_flatMap).symm

theorem wordWrapLineWithin_narrow (hatomic : unicode.graphemes.Atomic)
    {preSegmented : Option (List Segment)} {segments : List Segment} {chunks : List TextChunk}
    (hwidth : 0 < maxWidth)
    (hsegments : preSegmented.getD (unicode.graphemes.segment line) = segments)
    (hcut : Segmentation line segments)
    (hadd : unicode.Additive (segments.flatMap fun segment => unicode.graphemesOf segment.text))
    (hfit : ∀ segment ∈ segments, GraphemesFit unicode maxWidth segment.text)
    (h : wordWrapLineWithin unicode depth line maxWidth preSegmented = some chunks) :
    Narrow unicode maxWidth (segments.flatMap fun segment => unicode.graphemesOf segment.text)
      chunks := by
  induction depth generalizing line preSegmented segments chunks with
  | zero => cases h
  | succ depth ih =>
    obtain ⟨pieces, rfl, hline, hne⟩ := hcut
    rw [indexed_flatMap] at hadd ⊢
    have hflatten := @flatMap_graphemesOf_flatten unicode pieces
    rw [hline] at hflatten
    have hnil : unicode.visibleWidth [] = 0 := by
      have hzero := hadd [] nil_infix
      rwa [flatten_nil] at hzero
    rw [wordWrapLineWithin, hsegments] at h
    split at h
    · rename_i hempty
      cases h
      constructor
      · intro chunk hmem
        rw [List.mem_singleton.mp hmem]
        rw [hnil]
        exact Nat.zero_le _
      · intro last hlast
        cases hlast
        refine ⟨[], pieces.flatMap fun piece => unicode.graphemesOf piece.1, rfl, rfl, ?_⟩
        rcases hempty with hempty | hzero
        · exact (hflatten.trans hempty).symm
        omega
    · split at h
      · rename_i hfits
        cases h
        constructor
        · intro chunk hmem
          rw [List.mem_singleton.mp hmem]
          exact hfits
        · intro last hlast
          cases hlast
          exact ⟨[], _, rfl, rfl, hflatten.symm⟩
      · have hst : WrapState.Pending unicode maxWidth {} [] [] :=
          { start := rfl
            width := rfl
            fits := Nat.zero_le _
            opp := fun _ _ hnone => by cases hnone
            chunks := fun _ hmem => absurd hmem not_mem_nil }
        rw [← hflatten] at h
        refine @wrapLoop_narrow _ _ _ {} _ [] [] pieces chunks hadd rfl ?_ ?_ hst h
        · intro piece hpiece
          have htext : piece.1 ∈ (indexed 0 pieces).map Segment.text := by
            rw [indexed_texts]
            exact mem_map_of_mem hpiece
          obtain ⟨segment, hsegment, hpiece'⟩ := List.mem_map.mp htext
          exact hpiece' ▸ hfit segment hsegment
        · intro text subChunks hsub hfitText haddText
          have hgraphemes := @flatMap_segment unicode hatomic text
          have hnarrow := @ih text none (unicode.graphemes.segment text) subChunks rfl
            (segment_segmentation text)
            (by rwa [hgraphemes]) (fun segment hsegment => ?_) hsub
          · rwa [hgraphemes] at hnarrow
          · have hmem : segment.text ∈ unicode.graphemesOf text := by
              rw [← segment_texts]
              exact mem_map_of_mem hsegment
            obtain ⟨piece, hpiece, heq⟩ := List.mem_map.mp hmem
            intro grapheme hgrapheme
            rw [← heq, Unicode.graphemesOf, hatomic text piece hpiece,
              mem_singleton] at hgrapheme
            rw [hgrapheme, heq]
            exact hfitText _ hmem

theorem segmentation_ne_nil {segments : List Segment}
    (hcut : Segmentation line segments) (hmem : segment ∈ segments) :
    segment.text ≠ [] ∧ line ≠ [] := by
  obtain ⟨pieces, rfl, rfl, hne⟩ := hcut
  have htext : segment.text ∈ pieces.map Prod.fst := by
    rw [← indexed_texts 0]
    exact mem_map_of_mem hmem
  obtain ⟨piece, hpiece, heq⟩ := List.mem_map.mp htext
  have hsegment : segment.text ≠ [] := heq ▸ hne piece hpiece
  exact ⟨hsegment, fun hnil => hsegment (List.flatten_eq_nil_iff.mp hnil _ htext)⟩

theorem Covers.ne_nil {text : Text} {chunks : List TextChunk} (h : Covers 0 text.length chunks)
    (hne : text ≠ []) : chunks ≠ [] := by
  rintro rfl
  exact hne (List.length_eq_zero_iff.mp h.symm)

/-- Two calls deep are enough. -/
theorem wordWrapLineWithin_ends {segments : List Segment} (hwidth : 0 < maxWidth)
    (hcut : Segmentation line segments) (h : Wrappable unicode line maxWidth segments) :
    ∃ chunks, wordWrapLineWithin unicode 2 line maxWidth (some segments) = some chunks := by
  by_cases hne : line = []
  · refine ⟨[{ text := [], startIndex := 0, endIndex := 0 }], ?_⟩
    rw [wordWrapLineWithin, if_pos (.inl hne)]
  by_cases hwide : maxWidth < unicode.visibleWidth line
  · rw [wordWrapLineWithin_loop hwidth hne hwide]
    refine wrapLoop_ends _ fun segment hsegment hover => ?_
    have hfit := (h.resolve_left (Nat.not_le.mpr hwide)) segment hsegment hover
    obtain ⟨chunks, hsome⟩ := wordWrapLineWithin_graphemes hwidth hfit 0
    have hnone : ∀ segments, (none : Option (List Segment)) = some segments →
        Segmentation segment.text segments := fun _ hnone => by cases hnone
    exact ⟨chunks, hsome, (wordWrapLineWithin_tile hwidth hnone hsome).covers.ne_nil
      (segmentation_ne_nil hcut hsegment).1⟩
  · refine ⟨[{ text := line, startIndex := 0, endIndex := line.length }], ?_⟩
    rw [wordWrapLineWithin, if_neg, if_pos (Nat.not_lt.mp hwide)]
    rintro (h | h)
    · exact hne h
    omega

/-- **Where the call ends**: where the line fits, or each grapheme of every
segment that has to be cut. -/
theorem wraps_iff {segments : List Segment} (hatomic : unicode.graphemes.Atomic)
    (hwidth : 0 < maxWidth) (hcut : Segmentation line segments) :
    Wraps unicode line maxWidth segments ↔ Wrappable unicode line maxWidth segments := by
  constructor
  · rintro ⟨depth, chunks, hsome, -, -⟩
    by_contra hnot
    obtain ⟨hwide, hsegments⟩ := not_or.mp hnot
    obtain ⟨segment, hsegments⟩ := not_forall.mp hsegments
    obtain ⟨hsegment, hsegments⟩ := Classical.not_imp.mp hsegments
    obtain ⟨hover, hgraphemes⟩ := Classical.not_imp.mp hsegments
    obtain ⟨grapheme, hgraphemes⟩ := not_forall.mp hgraphemes
    obtain ⟨hgrapheme, hlong⟩ := Classical.not_imp.mp hgraphemes
    have hnever := fun depth =>
      wordWrapLineWithin_never hatomic hwidth hgrapheme (Nat.not_le.mp hlong) depth
    obtain ⟨grapheme', hmem', rfl⟩ := mem_graphemesOf hgrapheme
    have hsegmentNever := @wordWrapLineWithin_none _ _ _ _ _ none rfl hwidth
      (segmentation_ne_nil hcut hsegment).1 hover hmem' (Nat.not_le.mp hlong) hnever
    rw [@wordWrapLineWithin_none _ _ _ _ _ (some segments) rfl hwidth
      (segmentation_ne_nil hcut hsegment).2 (Nat.not_le.mp hwide) hsegment hover
      hsegmentNever] at hsome
    cases hsome
  · intro hwrappable
    obtain ⟨chunks, hsome⟩ := wordWrapLineWithin_ends hwidth hcut hwrappable
    refine ⟨2, chunks, hsome, wordWrapLineWithin_tile hwidth ?_ hsome, fun hadd hfit => ?_⟩
    · rintro _ ⟨⟩
      exact hcut
    · have hsegments : (some segments).getD (unicode.graphemes.segment line) = segments := rfl
      exact (wordWrapLineWithin_narrow hatomic hwidth hsegments hcut hadd hfit hsome).fits

/-- Each code unit is a grapheme. -/
def unitSegmenter : Segmenter where
  run := fun text => text.map fun c => ([c], false)
  partition := by
    intro text
    induction text with
    | nil => rfl
    | cons c text ih => exact congrArg (c :: ·) ih
  nonempty := by
    intro text piece hmem
    obtain ⟨c, -, rfl⟩ := List.mem_map.mp hmem
    exact cons_ne_nil _ _

theorem unitSegmenter_atomic : unitSegmenter.Atomic := by
  intro text piece hmem
  obtain ⟨c, -, rfl⟩ := List.mem_map.mp hmem
  rfl

/-- A code unit from U+1100 on takes two columns. -/
def wideUnicode : Unicode where
  graphemes := unitSegmenter
  words := unitSegmenter
  visibleWidth := fun text => (text.map fun c => if 0x1100 ≤ c then 2 else 1).sum
  isCjk := fun text => text.any fun c => decide (0x1100 ≤ c)

theorem wraps_iff_sample :
    Wraps wideUnicode (ascii "ab") 1 (unitSegmenter.segment (ascii "ab"))
      ↔ Wrappable wideUnicode (ascii "ab") 1 (unitSegmenter.segment (ascii "ab")) :=
  wraps_iff unitSegmenter_atomic Nat.one_pos ⟨_, rfl, unitSegmenter.partition _,
    unitSegmenter.nonempty _⟩

/-- A wide character in a window of one column. -/
theorem not_wraps : ¬ Wraps wideUnicode [0x4f60] 1 (unitSegmenter.segment [0x4f60]) := by
  rintro ⟨depth, chunks, hsome, -, -⟩
  have hgrapheme : [0x4f60] ∈ wideUnicode.graphemesOf [0x4f60] := mem_singleton_self _
  have hself : ∀ depth, wordWrapLineWithin wideUnicode depth [0x4f60] 1 none = none :=
    wordWrapLineWithin_never unitSegmenter_atomic Nat.one_pos hgrapheme (by decide)
  have hcut : (some (unitSegmenter.segment [0x4f60])).getD
      (wideUnicode.graphemes.segment [0x4f60]) = unitSegmenter.segment [0x4f60] := rfl
  rw [wordWrapLineWithin_none hcut Nat.one_pos (cons_ne_nil _ _) (by decide)
    mem_cons_self (by decide) hself] at hsome
  cases hsome

end ReflectivePi.Tui
