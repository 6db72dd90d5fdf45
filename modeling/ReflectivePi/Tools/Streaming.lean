import ReflectivePi.Tools.OutputAccumulator

/-!
# Tools — Streaming

When the snapshot of an accumulated output is that of the whole output. The
tail is cut inside a line when the output is long; its first newline then
decides what the snapshot is made of.
-/

namespace ReflectivePi.Tools

open List

variable {σ : Type} {D : TextDecoder σ} {s s' : OutputAccumulator σ}
  {output dropped text : List Char} {data : List UInt8} {maxLines maxBytes : Nat}

theorem endsWithNewline_append (a : List Char) {b : List Char} (h : b ≠ []) :
    endsWithNewline (a ++ b) = endsWithNewline b := by
  rw [endsWithNewline, endsWithNewline, getLast?_append, getLast?_eq_some_getLast h, Option.some_or]

theorem TailOf.trim (h : TailOf s output dropped)
    (hlong : s.maxRollingBytes < byteLength s.tailText) :
    ∃ dropped', TailOf s.trimTail output dropped' := by
  obtain ⟨hstart, hbound, hnewline⟩ := @splitAtByte_bytes
    (byteLength s.tailText - s.maxRollingBytes) s.tailText (Nat.sub_le _ _)
  have happend := splitAtByte_append (byteLength s.tailText - s.maxRollingBytes) s.tailText
  have hbytes := congrArg byteLength happend
  rw [byteLength_append] at hbytes
  have hbefore : (splitAtByte (byteLength s.tailText - s.maxRollingBytes) s.tailText).1 ≠ [] := by
    intro hnil
    rw [hnil, byteLength_nil] at hstart
    omega
  refine ⟨dropped ++ (splitAtByte (byteLength s.tailText - s.maxRollingBytes) s.tailText).1, ?_⟩
  rw [OutputAccumulator.trimTail]
  dsimp only
  rw [if_neg (Nat.not_le.mpr hlong)]
  refine ⟨?_, rfl, ?_, fun _ => ?_, fun _ hboundary => ?_⟩
  · rw [append_assoc, happend, h.output_eq]
  · simp only [hbefore, if_false]
    rw [endsWithNewline_append _ hbefore, append_eq_nil_iff]
    simp [hbefore]
  · show s.maxRollingBytes ≤ byteLength (splitAtByte _ s.tailText).2 + 3
    omega
  · simp only [hbefore, if_false] at hboundary
    have hexact := hnewline (by simpa [endsWithNewline] using hboundary)
    show s.maxRollingBytes ≤ byteLength (splitAtByte _ s.tailText).2
    omega

theorem TailOf.extend (h : TailOf s output dropped) (text : List Char) :
    ∃ dropped', TailOf (s.extendTail text) (output ++ text) dropped' := by
  have hadded : TailOf { s with
      totalDecodedBytes := s.totalDecodedBytes + byteLength text
      tailText := s.tailText ++ text
      tailBytes := s.tailBytes + byteLength text } (output ++ text) dropped := by
    refine ⟨?_, ?_, h.boundary, fun hne => ?_, fun hne hboundary => ?_⟩
    · show output ++ text = dropped ++ (s.tailText ++ text)
      rw [h.output_eq, append_assoc]
    · show s.tailBytes + _ = byteLength (s.tailText ++ text)
      rw [h.bytes, byteLength_append]
    · show s.maxRollingBytes ≤ byteLength (s.tailText ++ text) + 3
      have hlong := h.long hne
      rw [byteLength_append]
      omega
    · show s.maxRollingBytes ≤ byteLength (s.tailText ++ text)
      have hfull := h.full hne hboundary
      rw [byteLength_append]
      omega
  rw [OutputAccumulator.extendTail]
  split
  · rename_i htrim
    refine hadded.trim ?_
    rw [← hadded.bytes]
    omega
  · exact ⟨dropped, hadded⟩

/-- What a trim and the count of lines leave alone. -/
theorem extendTail_fields (s : OutputAccumulator σ) (text : List Char) :
    (s.extendTail text).maxBytes = s.maxBytes ∧ (s.extendTail text).maxLines = s.maxLines ∧
      (s.extendTail text).totalDecodedBytes = s.totalDecodedBytes + byteLength text ∧
      (s.extendTail text).completedLines = s.completedLines ∧
      (s.extendTail text).currentLineBytes = s.currentLineBytes ∧
      (s.extendTail text).hasOpenLine = s.hasOpenLine ∧
      (s.extendTail text).totalRawBytes = s.totalRawBytes ∧
      (s.extendTail text).decoder = s.decoder ∧
      (s.extendTail text).finished = s.finished ∧
      (s.extendTail text).rawChunks = s.rawChunks ∧
      (s.extendTail text).tempFile = s.tempFile := by
  rw [OutputAccumulator.extendTail]
  split
  · rw [OutputAccumulator.trimTail]
    split <;> exact ⟨rfl, rfl, rfl, rfl, rfl, rfl, rfl, rfl, rfl, rfl, rfl⟩
  simp

theorem countLines_fields (s : OutputAccumulator σ) (text : List Char) :
    (s.countLines text).maxBytes = s.maxBytes ∧ (s.countLines text).maxLines = s.maxLines ∧
      (s.countLines text).totalDecodedBytes = s.totalDecodedBytes ∧
      (s.countLines text).tailText = s.tailText ∧
      (s.countLines text).tailBytes = s.tailBytes ∧
      (s.countLines text).tailStartsAtLineBoundary = s.tailStartsAtLineBoundary ∧
      (s.countLines text).decoder = s.decoder ∧
      (s.countLines text).finished = s.finished ∧
      (s.countLines text).rawChunks = s.rawChunks ∧
      (s.countLines text).tempFile = s.tempFile := by
  rw [OutputAccumulator.countLines]
  dsimp only
  split <;> exact ⟨rfl, rfl, rfl, rfl, rfl, rfl, rfl, rfl, rfl, rfl⟩

theorem length_splitLines (output : List Char) :
    (splitLinesForCounting output).length = (Lines.split '\n' output).1.length
        + if (Lines.split '\n' output).2 = [] then 0 else 1 := by
  rw [splitLines_eq, length_append]
  split <;> rfl

theorem Counted.countLines (h : Counted s output) (hne : text ≠ [])
    (hbytes : s'.totalDecodedBytes = s.totalDecodedBytes + byteLength text)
    (hcompleted : s'.completedLines = s.completedLines)
    (hcurrent : s'.currentLineBytes = s.currentLineBytes) :
    Counted (s'.countLines text) (output ++ text) := by
  have hpending := Lines.newline_notMem_pending '\n' output
  obtain ⟨hlength, hrest⟩ := Lines.split_prepend '\n' hpending text
  have hlines : (Lines.split '\n' (output ++ text)).1.length
      = (Lines.split '\n' output).1.length + (Lines.split '\n' text).1.length := by
    rw [Lines.split_append, Lines.feed, length_append, hlength]
  have hpending' : (Lines.split '\n' (output ++ text)).2
      = if (Lines.split '\n' text).1 = [] then (Lines.split '\n' output).2 ++ text
        else (Lines.split '\n' text).2 := by
    rw [Lines.split_append, Lines.feed]
    exact hrest
  have htotal := (countLines_fields s' text).2.2.1
  rw [hbytes, h.totalDecodedBytes] at htotal
  rw [OutputAccumulator.countLines] at htotal ⊢
  dsimp only at htotal ⊢
  by_cases hnone : (Lines.split '\n' text).1 = []
  · rw [if_pos hnone] at htotal hpending' ⊢
    rw [hnone, length_nil, Nat.add_zero] at hlines
    have hopen : (Lines.split '\n' (output ++ text)).2 ≠ [] := by
      rw [hpending']
      exact fun hnil => hne (List.append_eq_nil_iff.mp hnil).2
    refine ⟨htotal.trans (byteLength_append _ _).symm, ?_, ?_, iff_of_true rfl hopen, ?_⟩
    · exact (hcompleted.trans h.completedLines).trans hlines.symm
    · rw [hpending', byteLength_append]
      exact congrArg (· + _) (hcurrent.trans h.currentLineBytes)
    · rw [length_splitLines, hlines, if_neg hopen]
      exact congrArg (· + 1) (hcompleted.trans h.completedLines)
  · rw [if_neg hnone] at htotal hpending' ⊢
    refine ⟨htotal.trans (byteLength_append _ _).symm, ?_, ?_, ?_, ?_⟩
    · rw [hlines]
      exact congrArg (· + _) (hcompleted.trans h.completedLines)
    · rw [hpending']
    · rw [hpending']
      exact decide_eq_true_iff
    · rw [length_splitLines, hlines, hpending']
      show s'.completedLines + _ + _ = _
      rw [hcompleted, h.completedLines]
      simp

/-! ## A run -/

theorem TailOf.congr (h : TailOf s output dropped) (htext : s'.tailText = s.tailText)
    (hbytes : s'.tailBytes = s.tailBytes)
    (hboundary : s'.tailStartsAtLineBoundary = s.tailStartsAtLineBoundary)
    (hmax : s'.maxBytes = s.maxBytes) : TailOf s' output dropped := by
  have hrolling : s'.maxRollingBytes = s.maxRollingBytes := by
    rw [OutputAccumulator.maxRollingBytes, hmax]
    rfl
  refine ⟨?_, ?_, ?_, ?_, ?_⟩
  · rw [htext, h.output_eq]
  · rw [hbytes, htext, h.bytes]
  · rw [hboundary, h.boundary]
  · rw [hrolling, htext]
    exact h.long
  · rw [hrolling, htext, hboundary]
    exact h.full

/-- A state after an output, with the bytes that it came in. -/
structure Accumulated (s : OutputAccumulator σ) (maxLines maxBytes : Nat)
    (output : List Char) (data : List UInt8) : Prop where
  tail : ∃ dropped, TailOf s output dropped
  counted : Counted s output
  stored : Stored s data
  maxLines : s.maxLines = maxLines
  maxBytes : s.maxBytes = maxBytes

section

variable (h : Accumulated s maxLines maxBytes output data)

include h

theorem Accumulated.congr
    (decoder : σ) (totalRawBytes : Nat) (finished : Bool) :
    Accumulated { s with decoder, totalRawBytes, finished } maxLines maxBytes output data := by
  obtain ⟨dropped, htail⟩ := h.tail
  exact ⟨⟨dropped, htail.congr rfl rfl rfl rfl⟩,
    ⟨h.counted.1, h.counted.2, h.counted.3, h.counted.4, h.counted.5⟩, h.stored,
    h.maxLines, h.maxBytes⟩

theorem Accumulated.appendDecodedText
    (text : List Char) :
    Accumulated (s.appendDecodedText text) maxLines maxBytes (output ++ text) data := by
  rw [OutputAccumulator.appendDecodedText]
  split
  · rename_i hempty
    rw [hempty, append_nil]
    exact h
  · rename_i hne
    obtain ⟨dropped, htail⟩ := h.tail
    obtain ⟨dropped', hextended⟩ := htail.extend text
    obtain ⟨hmaxBytes, hmaxLines, htotal, hcompleted, hcurrent, -, -, -, -, hraw, hfile⟩ :=
      extendTail_fields s text
    obtain ⟨hmaxBytes', hmaxLines', -, htext, hbytes, hboundary, -, -, hraw', hfile'⟩ :=
      countLines_fields (s.extendTail text) text
    refine ⟨⟨dropped', hextended.congr htext hbytes hboundary hmaxBytes'⟩,
      h.counted.countLines hne htotal hcompleted hcurrent, ?_, ?_, ?_⟩
    · rw [Stored, hfile', hfile, hraw', hraw]
      exact h.stored
    · rw [hmaxLines', hmaxLines, h.maxLines]
    · rw [hmaxBytes', hmaxBytes, h.maxBytes]

theorem Accumulated.ensureTempFile :
    Accumulated s.ensureTempFile maxLines maxBytes output data := by
  rw [OutputAccumulator.ensureTempFile]
  split
  · exact h
  · rename_i hnone
    obtain ⟨dropped, htail⟩ := h.tail
    refine ⟨⟨dropped, htail.congr rfl rfl rfl rfl⟩,
      ⟨h.counted.1, h.counted.2, h.counted.3, h.counted.4, h.counted.5⟩, ?_, h.maxLines, h.maxBytes⟩
    have hstored := h.stored
    rw [Stored, hnone] at hstored
    exact hstored

theorem Accumulated.store (chunk : List UInt8) :
    Accumulated (s.store chunk) maxLines maxBytes output (data ++ chunk) := by
  rw [OutputAccumulator.store]
  split
  · have hfile := h.ensureTempFile
    obtain ⟨dropped, htail⟩ := hfile.tail
    have hstored := hfile.stored
    have hsome : ∃ file, s.ensureTempFile.tempFile = some file := by
      rw [OutputAccumulator.ensureTempFile]
      split
      · rename_i file hsome
        exact ⟨file, hsome⟩
      · exact ⟨_, rfl⟩
    obtain ⟨file, hsome⟩ := hsome
    refine ⟨⟨dropped, htail.congr rfl rfl rfl rfl⟩,
      ⟨hfile.counted.1, hfile.counted.2, hfile.counted.3, hfile.counted.4, hfile.counted.5⟩,
      ?_, hfile.maxLines, hfile.maxBytes⟩
    rw [Stored, hsome] at hstored
    show (s.ensureTempFile.tempFile.map (· ++ chunk)).getD _ = data ++ chunk
    rw [hsome]
    exact congrArg (· ++ chunk) hstored
  · rename_i hnone
    rw [Bool.or_eq_true, not_or] at hnone
    have hfile : s.tempFile = none := Option.not_isSome_iff_eq_none.mp hnone.1
    have hstored := h.stored
    rw [Stored, hfile] at hstored
    split
    · obtain ⟨dropped, htail⟩ := h.tail
      refine ⟨⟨dropped, htail.congr rfl rfl rfl rfl⟩,
        ⟨h.counted.1, h.counted.2, h.counted.3, h.counted.4, h.counted.5⟩, ?_,
        h.maxLines, h.maxBytes⟩
      rw [Stored, hfile, ← hstored]
      exact List.flatten_concat
    · rename_i hempty
      rw [not_not.mp hempty, append_nil]
      exact h

end

theorem store_fields (s : OutputAccumulator σ) (chunk : List UInt8) :
    (s.store chunk).decoder = s.decoder ∧ (s.store chunk).finished = s.finished := by
  rw [OutputAccumulator.store]
  split
  · rw [OutputAccumulator.ensureTempFile]
    split <;> exact ⟨rfl, rfl⟩
  · split <;> exact ⟨rfl, rfl⟩

theorem appendDecodedText_fields (s : OutputAccumulator σ) (text : List Char) :
    (s.appendDecodedText text).decoder = s.decoder ∧
      (s.appendDecodedText text).finished = s.finished := by
  rw [OutputAccumulator.appendDecodedText]
  split
  · exact ⟨rfl, rfl⟩
  · obtain ⟨-, -, -, -, -, -, -, hdecoder, hfinished, -⟩ := extendTail_fields s text
    obtain ⟨-, -, -, -, -, -, hdecoder', hfinished', -⟩ :=
      countLines_fields (s.extendTail text) text
    exact ⟨hdecoder'.trans hdecoder, hfinished'.trans hfinished⟩

theorem Accumulated.append (h : Accumulated s maxLines maxBytes output data)
    (hopen : s.finished = false) (chunk : List UInt8) :
    ∃ s', s.append D chunk = .ok s' ∧ s'.finished = false ∧
      s'.decoder = (D.decode s.decoder chunk).2 ∧
      Accumulated s' maxLines maxBytes (output ++ (D.decode s.decoder chunk).1)
        (data ++ chunk) := by
  refine ⟨_, by rw [OutputAccumulator.append, hopen, if_neg Bool.false_ne_true], ?_, ?_, ?_⟩
  · rw [(store_fields _ _).2, (appendDecodedText_fields _ _).2]
  · rw [(store_fields _ _).1, (appendDecodedText_fields _ _).1]
  · exact ((h.congr _ _ _).appendDecodedText _).store chunk

/-- **All chunks, and the end.** -/
theorem Accumulated.foldlM (h : Accumulated s maxLines maxBytes output data)
    (hopen : s.finished = false) (chunks : List (List UInt8)) :
    ∃ s', chunks.foldlM (OutputAccumulator.append D) s = .ok s' ∧
      Accumulated (s'.finish D) maxLines maxBytes (output ++ D.stream s.decoder chunks)
        (data ++ chunks.flatten) := by
  induction chunks generalizing s output data with
  | nil =>
    refine ⟨s, rfl, ?_⟩
    rw [flatten_nil, append_nil, OutputAccumulator.finish, hopen, if_neg Bool.false_ne_true]
    have hend := (h.congr s.decoder s.totalRawBytes true).appendDecodedText (D.flush s.decoder)
    dsimp only
    split
    · exact hend.ensureTempFile
    · exact hend
  | cons chunk chunks ih =>
    obtain ⟨s₁, happend, hopen₁, hdecoder, h₁⟩ := h.append (D := D) hopen chunk
    obtain ⟨s', hrun, hend⟩ := ih h₁ hopen₁
    refine ⟨s', ?_, ?_⟩
    · rw [foldlM_cons, happend]
      exact hrun
    · rw [hdecoder, append_assoc, append_assoc] at hend
      rw [flatten_cons]
      exact hend

end ReflectivePi.Tools
