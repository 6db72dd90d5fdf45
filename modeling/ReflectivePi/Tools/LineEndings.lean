import ReflectivePi.Tools.Edits

/-!
# Tools — Line endings

The edit of a file: the byte order mark and the line endings are taken away
before the edits and put back after them. One kind of line ending is put back,
that of the first line feed, so the lines that no edit touches are those of the
file only where they end with it.
-/

namespace ReflectivePi.Tools

open List
open Delta (JsString js)
open Search

/-! ## The file -/

def byteOrderMark : UInt16 := 0xFEFF

/-- Split a leading UTF-8 byte order mark from decoded text. -/
def splitBom : JsString → JsString × JsString
  | [] => ([], [])
  | c :: rest => if c = byteOrderMark then ([byteOrderMark], rest) else ([], c :: rest)

inductive LineEnding where
  | crlf
  | lf

def LineEnding.text : LineEnding → JsString
  | .crlf => [carriageReturn, newline]
  | .lf => [newline]

def detectLineEnding (content : JsString) : LineEnding :=
  match indexOf [carriageReturn, newline] content, indexOf [newline] content with
  | _, none => .lf
  | none, some _ => .lf
  | some crlfIdx, some lfIdx => if crlfIdx < lfIdx then .crlf else .lf

/-- `text.replace(/\n/g, ending)`. -/
def withEnding (ending text : JsString) : JsString :=
  text.flatMap fun c => if c = newline then ending else [c]

def restoreLineEndings (text : JsString) : LineEnding → JsString
  | .crlf => withEnding LineEnding.crlf.text text
  | .lf => text

def emptyEditsError : String :=
  "Edit tool input is invalid. edits must contain at least one replacement."

/-- What `execute` writes to the file whose text is `rawContent`. -/
def editFile (nfkc : JsString → JsString) (rawContent : JsString) (edits : List Edit)
    (path : String) : Except String JsString :=
  if edits = [] then .error emptyEditsError
  else
    let (bom, content) := splitBom rawContent
    let originalEnding := detectLineEnding content
    let normalizedContent := normalizeToLF content
    match applyEditsToNormalizedContent nfkc normalizedContent edits path with
    | .error error => .error error
    | .ok newContent => .ok (bom ++ restoreLineEndings newContent originalEnding)

/-! ## Lines -/

/-- A line, and what ends it: a line feed, a carriage return, both, or nothing
at the end of the file. -/
structure FileLine where
  text : JsString
  ending : JsString
  deriving DecidableEq

def fileLinesFrom : JsString → JsString → List FileLine
  | line, [] => if line = [] then [] else [⟨line, []⟩]
  | line, [c] =>
    if c = carriageReturn then [⟨line, [carriageReturn]⟩]
    else if c = newline then [⟨line, [newline]⟩]
    else [⟨line ++ [c], []⟩]
  | line, c :: d :: rest =>
    if c = carriageReturn then
      if d = newline then ⟨line, [carriageReturn, newline]⟩ :: fileLinesFrom [] rest
      else ⟨line, [carriageReturn]⟩ :: fileLinesFrom [] (d :: rest)
    else if c = newline then ⟨line, [newline]⟩ :: fileLinesFrom [] (d :: rest)
    else fileLinesFrom (line ++ [c]) (d :: rest)

def fileLines (content : JsString) : List FileLine := fileLinesFrom [] content

def FileLine.bytes (line : FileLine) : JsString := line.text ++ line.ending

/-- The line as the edits see it. -/
def FileLine.normalized (line : FileLine) : JsString :=
  line.text ++ if line.ending = [] then [] else [newline]

/-- The lines with their bounds in the normalized content. -/
def boundedLines : Nat → List FileLine → List (FileLine × LineSpan)
  | _, [] => []
  | offset, line :: rest =>
    let stop := offset + line.normalized.length
    (line, ⟨offset, stop⟩) :: boundedLines stop rest

/-- No region intersects the line. -/
def Untouched (regions : List MatchedEdit) (span : LineSpan) : Prop :=
  ∀ m ∈ regions, m.matchIndex + m.matchLength ≤ span.start ∨ span.stop ≤ m.matchIndex

/-- `piece` is written where the content from `start` to `stop` was, between
what becomes of the content before it and after it. -/
def WrittenBetween (ending : LineEnding) (content : JsString) (before after : List MatchedEdit)
    (start stop : Nat) (output piece : JsString) : Prop :=
  ∃ front back, ReplacedAt (content.take start) 0 before front ∧
    ReplacedAt content stop after back ∧
    output = restoreLineEndings front ending ++ (piece ++ restoreLineEndings back ending)

/-- All lines that end do so with the same ending, and there is one. -/
structure UniformEnding (ending content : JsString) : Prop where
  some : ∃ line ∈ fileLines content, line.ending ≠ []
  all : ∀ line ∈ fileLines content, line.ending = [] ∨ line.ending = ending

/-- What is written for a content whose regions are replaced keeps the lines
that no region intersects, and the line ending of the file. -/
structure KeepsRest (content : JsString) (regions : List MatchedEdit) (output : JsString) :
    Prop where
  kept : ∀ line span, (line, span) ∈ boundedLines 0 (fileLines content) → Untouched regions span →
    WrittenBetween (detectLineEnding content) (normalizeToLF content)
      (regions.filter fun m => decide (m.matchIndex < span.start))
      (regions.filter fun m => decide (span.start ≤ m.matchIndex))
      span.start span.stop output line.bytes
  ending : ∀ ending, UniformEnding ending content →
    ∀ before m after, regions = before ++ m :: after →
      WrittenBetween (detectLineEnding content) (normalizeToLF content) before after
        m.matchIndex (m.matchIndex + m.matchLength) output (withEnding ending m.newText)

/-- The untouched lines end as the first line feed does, and a file that has
carriage returns only gets no new line. -/
structure EndingsAgree (content : JsString) (regions : List MatchedEdit) : Prop where
  untouched : ∀ line span, (line, span) ∈ boundedLines 0 (fileLines content) →
    Untouched regions span →
    line.ending = [] ∨ line.ending = (detectLineEnding content).text
  uniform : UniformEnding [carriageReturn] content → ∀ m ∈ regions, newline ∉ m.newText

/-! ## Lines and the normalized content -/

section

variable {content line text ending : JsString} {l : FileLine} {e : LineEnding}

theorem normalizeToLF_not_mem (text : JsString) : carriageReturn ∉ normalizeToLF text := by
  have hnewline : carriageReturn ≠ newline := by decide
  fun_induction normalizeToLF text <;> grind

theorem normalizeEdit_normalizeEdit (edit : Edit) :
    normalizeEdit (normalizeEdit edit) = normalizeEdit edit := by
  rw [normalizeEdit, normalizeEdit, normalizeToLF_of_not_mem (normalizeToLF_not_mem _),
    normalizeToLF_of_not_mem (normalizeToLF_not_mem _)]

/-- A line has no line ending inside, and one of four at its end. -/
structure FileLine.Regular (l : FileLine) : Prop where
  noReturn : carriageReturn ∉ l.text
  noNewline : newline ∉ l.text
  ending : l.ending ∈ [[], [newline], [carriageReturn], [carriageReturn, newline]]

theorem fileLinesFrom_regular (hreturn : carriageReturn ∉ line) (hnewline : newline ∉ line) :
    ∀ l ∈ fileLinesFrom line content, l.Regular := by
  fun_induction fileLinesFrom line content with
  | case1 => nofun
  | case5 line c hc hc' =>
    intro l hl
    obtain rfl := List.mem_singleton.mp hl
    exact ⟨by grind, by grind, by simp⟩
  | case6 line rest ih =>
    exact List.forall_mem_cons.mpr
      ⟨⟨hreturn, hnewline, by simp⟩, ih not_mem_nil not_mem_nil⟩
  | case7 line d rest hd ih =>
    exact List.forall_mem_cons.mpr
      ⟨⟨hreturn, hnewline, by simp⟩, ih not_mem_nil not_mem_nil⟩
  | case8 line d rest hc ih =>
    exact List.forall_mem_cons.mpr
      ⟨⟨hreturn, hnewline, by simp⟩, ih not_mem_nil not_mem_nil⟩
  | case9 line c d rest hc hc' ih => exact ih (by grind) (by grind)
  | _ =>
    intro l hl
    obtain rfl := List.mem_singleton.mp hl
    exact ⟨hreturn, hnewline, by simp⟩

theorem fileLines_regular (h : l ∈ fileLines content) : l.Regular :=
  fileLinesFrom_regular not_mem_nil not_mem_nil l h

theorem fileLines_bytes (content : JsString) :
    (fileLines content).flatMap FileLine.bytes = content := by
  suffices h : ∀ line, (fileLinesFrom line content).flatMap FileLine.bytes = line ++ content from
    h []
  intro line
  fun_induction fileLinesFrom line content <;> simp_all [FileLine.bytes]

theorem fileLines_normalized (content : JsString) :
    (fileLines content).flatMap FileLine.normalized = normalizeToLF content := by
  suffices h : ∀ line, (fileLinesFrom line content).flatMap FileLine.normalized
      = line ++ normalizeToLF content from h []
  intro line
  fun_induction fileLinesFrom line content <;>
    simp_all [FileLine.normalized, normalizeToLF]

theorem mem_boundedLines {lines : List FileLine} {offset : Nat} {span : LineSpan}
    (h : (l, span) ∈ boundedLines offset lines) :
    l ∈ lines ∧ ∃ front back, lines.flatMap FileLine.normalized = front ++ (l.normalized ++ back) ∧
      span.start = offset + front.length ∧ span.stop = span.start + l.normalized.length := by
  induction lines generalizing offset with
  | nil => cases h
  | cons line rest ih =>
    rcases List.mem_cons.mp h with h | h
    · obtain ⟨rfl, rfl⟩ := Prod.mk.inj h
      simp
    · obtain ⟨hmem, front, back, heq, hstart, hstop⟩ := ih h
      refine ⟨mem_cons_of_mem _ hmem, line.normalized ++ front, back, ?_, ?_, hstop⟩
      · rw [flatMap_cons, heq, append_assoc]
      · rw [hstart, length_append, Nat.add_assoc]

/-! ## Putting line endings back -/

theorem withEnding_append (ending text text' : JsString) :
    withEnding ending (text ++ text') = withEnding ending text ++ withEnding ending text' :=
  flatMap_append

theorem withEnding_of_not_mem (ending : JsString) (h : newline ∉ text) :
    withEnding ending text = text := by
  induction text with
  | nil => rfl
  | cons c text ih =>
    rw [mem_cons, not_or] at h
    rw [withEnding, flatMap_cons, if_neg (Ne.symm h.1)]
    exact congrArg (c :: ·) (ih h.2)

theorem newline_mem_withEnding :
    newline ∈ withEnding ending text ↔ newline ∈ text ∧ newline ∈ ending := by
  rw [withEnding, mem_flatMap]
  constructor
  · rintro ⟨c, hc, hmem⟩
    split at hmem
    · rename_i heq
      exact ⟨heq ▸ hc, hmem⟩
    · rename_i hne
      exact absurd (List.mem_singleton.mp hmem).symm hne
  · exact fun ⟨htext, hending⟩ => ⟨newline, htext, by rwa [if_pos rfl]⟩

theorem restoreLineEndings_eq (text : JsString) (e : LineEnding) :
    restoreLineEndings text e = withEnding e.text text := by
  cases e with
  | crlf => rfl
  | lf =>
    have hsame : (fun c => if c = newline then LineEnding.lf.text else [c]) = List.singleton := by
      funext c
      split
      · rename_i heq
        exact heq ▸ rfl
      · rfl
    rw [withEnding, hsame]
    exact (flatMap_singleton' text).symm

theorem restoreLineEndings_append (text text' : JsString) (e : LineEnding) :
    restoreLineEndings (text ++ text') e
      = restoreLineEndings text e ++ restoreLineEndings text' e := by
  simp only [restoreLineEndings_eq, withEnding_append]

theorem restored_with_return :
    restoreLineEndings text e = withEnding [carriageReturn] text ↔ newline ∉ text := by
  constructor
  · intro h hmem
    have hrestored : newline ∈ restoreLineEndings text e := by
      rw [restoreLineEndings_eq, newline_mem_withEnding]
      exact ⟨hmem, by cases e <;> decide⟩
    rw [h, newline_mem_withEnding] at hrestored
    exact absurd hrestored.2 (by decide)
  · intro h
    rw [restoreLineEndings_eq, withEnding_of_not_mem _ h, withEnding_of_not_mem _ h]

theorem FileLine.Regular.restored (h : l.Regular) :
    restoreLineEndings l.normalized e = l.bytes ↔ l.ending = [] ∨ l.ending = e.text := by
  have hnewline : withEnding e.text [newline] = e.text := by cases e <;> rfl
  rw [restoreLineEndings_eq, FileLine.normalized, withEnding_append,
    withEnding_of_not_mem _ h.noNewline, FileLine.bytes, append_cancel_left_eq]
  split
  · rename_i hnone
    exact iff_of_true hnone.symm (.inl hnone)
  · rename_i hsome
    rw [hnewline, or_iff_right hsome, eq_comm]

theorem detectLineEnding_crlf {front back : JsString} (h : newline ∉ front) :
    detectLineEnding (front ++ ([carriageReturn, newline] ++ back)) = .crlf := by
  have hat : OccursAt [carriageReturn, newline]
      (front ++ ([carriageReturn, newline] ++ back)) front.length := occursAt_append front back
  obtain ⟨crlfIdx, hcrlf⟩ := Option.isSome_iff_exists.mp (indexOf_isSome hat)
  have hfirst := (indexOf_some hcrlf).2 _ hat
  obtain ⟨lfIdx, hlf⟩ : ∃ lfIdx, indexOf [newline]
      (front ++ ([carriageReturn, newline] ++ back)) = some lfIdx := by
    have hlf : OccursAt [newline] ((front ++ [carriageReturn]) ++ ([newline] ++ back)) _ :=
      occursAt_append _ back
    rw [append_assoc] at hlf
    exact Option.isSome_iff_exists.mp (indexOf_isSome hlf)
  have hbehind : front.length < lfIdx := by
    by_contra hle
    have hoccurs := (indexOf_some hlf).1.drop_eq
    rcases Nat.lt_or_eq_of_le (Nat.not_lt.mp hle) with hlt | rfl
    · rw [drop_append_of_le_length hlt.le, drop_eq_getElem_cons hlt] at hoccurs
      have hget := (List.cons.inj hoccurs).1
      exact h (hget ▸ getElem_mem hlt)
    · rw [drop_left] at hoccurs
      exact absurd (List.cons.inj hoccurs).1 (by decide)
  rw [detectLineEnding, hcrlf, hlf]
  exact if_pos (Nat.lt_of_le_of_lt hfirst hbehind)

theorem UniformEnding.detected (h : UniformEnding ending content) :
    ending = [carriageReturn] ∨ ending = (detectLineEnding content).text := by
  obtain ⟨line, hline, hsome⟩ := h.some
  have hending : ending = line.ending := ((h.all line hline).resolve_left hsome).symm
  have hregular := (fileLines_regular hline).ending
  rw [← hending] at hregular hsome
  simp only [mem_cons, not_mem_nil, or_false] at hregular
  rcases hregular with rfl | rfl | rfl | rfl
  · exact absurd rfl hsome
  · -- without carriage returns there is no CRLF
    right
    have hno : carriageReturn ∉ content := by
      rw [← fileLines_bytes content, mem_flatMap]
      rintro ⟨l, hl, hmem⟩
      rcases List.mem_append.mp hmem with hmem | hmem
      · exact (fileLines_regular hl).noReturn hmem
      · rcases h.all l hl with heq | heq <;> rw [heq] at hmem <;> exact absurd hmem (by decide)
    have hnone : indexOf [carriageReturn, newline] content = none :=
      indexOf_eq_none.mpr fun hoccurs => hno (hoccurs.subset mem_cons_self)
    rw [detectLineEnding, hnone]
    split <;> first | rfl | contradiction
  · exact .inl rfl
  · right
    obtain ⟨before, first, after, hlines, hfirst, hbefore⟩ :
        ∃ before first after, fileLines content = before ++ first :: after ∧
          first.ending ≠ [] ∧ ∀ l ∈ before, l.ending = [] := by
      have hfound : ((fileLines content).find? fun l => decide (l.ending ≠ [])).isSome :=
        List.find?_isSome.mpr ⟨line, hline, decide_eq_true (hending ▸ hsome)⟩
      obtain ⟨first, hfound⟩ := Option.isSome_iff_exists.mp hfound
      obtain ⟨hp, before, after, heq, hbefore⟩ := List.find?_eq_some_iff_append.mp hfound
      exact ⟨before, first, after, heq, of_decide_eq_true hp, fun l hl => by
        simpa using hbefore l hl⟩
    have hmem (l : FileLine) (hl : l ∈ before ++ [first]) : l ∈ fileLines content := by
      grind
    have hcontent := fileLines_bytes content
    rw [hlines, flatMap_append, flatMap_cons, FileLine.bytes,
      (h.all first (hmem first (by simp))).resolve_left hfirst] at hcontent
    have hno : newline ∉ before.flatMap FileLine.bytes ++ first.text := by
      rw [mem_append, mem_flatMap]
      rintro (⟨l, hl, hin⟩ | hin)
      · rw [FileLine.bytes, hbefore l hl, append_nil] at hin
        exact (fileLines_regular (hmem l (mem_append_left _ hl))).noNewline hin
      · exact (fileLines_regular (hmem first (by simp))).noNewline hin
    rw [← hcontent]
    simp only [← append_assoc]
    simp only [append_assoc _ [carriageReturn, newline]]
    rw [detectLineEnding_crlf hno]
    rfl

end

/-! ## What is written -/

section

variable {nfkc : JsString → JsString} {content output piece piece' : JsString}
  {before after regions : List MatchedEdit} {start stop : Nat} {e : LineEnding}

theorem WrittenBetween.unique (h : WrittenBetween e content before after start stop output piece)
    (h' : WrittenBetween e content before after start stop output piece') : piece = piece' := by
  obtain ⟨front, back, hfront, hback, rfl⟩ := h
  obtain ⟨front', back', hfront', hback', heq⟩ := h'
  rw [hfront.unique hfront', hback.unique hback', append_cancel_left_eq,
    append_cancel_right_eq] at heq
  exact heq

variable {new : JsString}

theorem ReplacedAt.writtenBetween
    (h : ReplacedAt content 0 (before ++ after) new) (hspan : start ≤ stop)
    (hbefore : ∀ m ∈ before, m.matchIndex + m.matchLength ≤ start)
    (hafter : ∀ m ∈ after, stop ≤ m.matchIndex) :
    WrittenBetween e content before after start stop (restoreLineEndings new e)
      (restoreLineEndings ((content.take stop).drop start) e) := by
  obtain ⟨front, back, hfront, hback, rfl⟩ := h.split (Nat.zero_le start) hbefore
    fun m hm => Nat.le_trans hspan (hafter m hm)
  obtain ⟨back, hrest, rfl⟩ := hback.advance hspan hafter
  exact ⟨front, back, hfront, hrest, by simp only [restoreLineEndings_append]⟩

theorem ReplacedAt.writtenAt {m : MatchedEdit}
    (h : ReplacedAt content 0 (before ++ m :: after) new) :
    WrittenBetween e content before after m.matchIndex (m.matchIndex + m.matchLength)
      (restoreLineEndings new e) (restoreLineEndings m.newText e) := by
  have hapart := List.pairwise_append.mp h.pairwise.2
  obtain ⟨front, back, hfront, hback, rfl⟩ := h.split (Nat.zero_le m.matchIndex)
    (fun m' hm' => hapart.2.2 m' hm' m mem_cons_self) fun m' hm' => by
      rcases List.mem_cons.mp hm' with rfl | hm'
      · exact Nat.le_refl _
      · exact Nat.le_trans (Nat.le_add_right _ _) ((List.pairwise_cons.mp hapart.2.1).1 m' hm')
  cases hback with
  | @cons _ _ _ back _ hback =>
    have hnone : (content.take m.matchIndex).drop m.matchIndex = [] :=
      drop_eq_nil_of_le (length_take_le _ _)
    refine ⟨front, back, hfront, hback, ?_⟩
    rw [hnone, nil_append]
    simp only [restoreLineEndings_append]

theorem ReplacedAt.filter_append {b : Nat} (h : ReplacedAt content b regions new) (s : Nat) :
    (regions.filter fun m => decide (m.matchIndex < s))
      ++ (regions.filter fun m => decide (s ≤ m.matchIndex)) = regions := by
  induction h with
  | nil => rfl
  | @cons b m rest new hb h ih =>
    by_cases hlt : m.matchIndex < s
    · rw [filter_cons, if_pos (decide_eq_true hlt), filter_cons,
        if_neg (by simpa using hlt), cons_append, ih]
    · have hle := Nat.not_lt.mp hlt
      have hrest (m' : MatchedEdit) (hm' : m' ∈ m :: rest) : s ≤ m'.matchIndex := by
        rcases List.mem_cons.mp hm' with rfl | hm'
        · exact hle
        · exact Nat.le_trans hle (Nat.le_trans (Nat.le_add_right _ _) (h.pairwise.1 m' hm'))
      rw [List.filter_eq_nil_iff.mpr fun m' hm' => by simpa using hrest m' hm',
        List.filter_eq_self.mpr fun m' hm' => decide_eq_true (hrest m' hm'), nil_append]

theorem keepsRest_iff (hnew : ReplacedAt (normalizeToLF content) 0 regions new)
    (hlength : ∀ m ∈ regions, 0 < m.matchLength) :
    KeepsRest content regions (restoreLineEndings new (detectLineEnding content))
      ↔ EndingsAgree content regions := by
  have hline (line : FileLine) (span : LineSpan)
      (hmem : (line, span) ∈ boundedLines 0 (fileLines content)) (hfree : Untouched regions span) :
      WrittenBetween (detectLineEnding content) (normalizeToLF content)
        (regions.filter fun m => decide (m.matchIndex < span.start))
        (regions.filter fun m => decide (span.start ≤ m.matchIndex)) span.start span.stop
        (restoreLineEndings new (detectLineEnding content))
        (restoreLineEndings line.normalized (detectLineEnding content)) := by
    obtain ⟨-, front, back, hcontent, hstart, hstop⟩ := mem_boundedLines hmem
    rw [fileLines_normalized] at hcontent
    have hpiece : ((normalizeToLF content).take span.stop).drop span.start = line.normalized := by
      rw [Nat.zero_add] at hstart
      rw [hcontent, hstop, hstart, take_length_add_append, drop_left, take_left]
    have hwritten := @ReplacedAt.writtenBetween _ _ _ span.start span.stop
      (detectLineEnding content) _ ((hnew.filter_append span.start).symm ▸ hnew) (by omega)
      (fun m hm => by
        simp only [mem_filter, decide_eq_true_eq] at hm
        rcases hfree m hm.1 with h | h <;> omega)
      fun m hm => by
        simp only [mem_filter, decide_eq_true_eq] at hm
        have hpos := hlength m hm.1
        rcases hfree m hm.1 with h | h <;> omega
    rwa [hpiece] at hwritten
  have hregular (line : FileLine) (span : LineSpan)
      (hmem : (line, span) ∈ boundedLines 0 (fileLines content)) : line.Regular :=
    fileLines_regular (mem_boundedLines hmem).1
  constructor
  · intro h
    refine ⟨fun line span hmem hfree => ?_, fun huniform m hm => ?_⟩
    · refine (hregular line span hmem).restored.mp ?_
      exact (hline line span hmem hfree).unique (h.kept line span hmem hfree)
    · obtain ⟨before, after, rfl⟩ := append_of_mem hm
      exact restored_with_return.mp (hnew.writtenAt.unique (h.ending _ huniform before m after rfl))
  · intro h
    refine ⟨fun line span hmem hfree => ?_, fun ending huniform before m after heq => ?_⟩
    · rw [← (hregular line span hmem).restored.mpr (h.untouched line span hmem hfree)]
      exact hline line span hmem hfree
    · subst heq
      have hsame : withEnding ending m.newText
          = restoreLineEndings m.newText (detectLineEnding content) := by
        rcases huniform.detected with rfl | rfl
        · exact (restored_with_return.mpr (h.uniform huniform m (by simp))).symm
        · exact (restoreLineEndings_eq _ _).symm
      rw [hsame]
      exact hnew.writtenAt

/-- A call that succeeds, with texts that are in the content. -/
theorem editFile_ok {rawContent : JsString} {edits : List Edit} {path : String}
    (h : editFile nfkc rawContent edits path = .ok output)
    (hliteral : ∀ edit ∈ edits, Occurs (normalizeToLF edit.oldText)
      (normalizeToLF (splitBom rawContent).2)) :
    ∃ new, ReplacedAt (normalizeToLF (splitBom rawContent).2) 0
        (inOrder (normalizeToLF (splitBom rawContent).2) edits) new ∧
      (∀ m ∈ inOrder (normalizeToLF (splitBom rawContent).2) edits, 0 < m.matchLength) ∧
      output = (splitBom rawContent).1
        ++ restoreLineEndings new (detectLineEnding (splitBom rawContent).2) := by
  have hedits : (edits.map normalizeEdit).map normalizeEdit = edits.map normalizeEdit := by
    rw [map_map]
    exact map_congr_left fun edit _ => normalizeEdit_normalizeEdit edit
  have hinOrder : inOrder (normalizeToLF (splitBom rawContent).2) (edits.map normalizeEdit)
      = inOrder (normalizeToLF (splitBom rawContent).2) edits := by
    rw [inOrder, hedits, inOrder]
  rw [editFile] at h
  split at h
  · cases h
  · dsimp only at h
    cases hnew : applyEditsToNormalizedContent nfkc (normalizeToLF (splitBom rawContent).2)
        edits path with
    | error error =>
      rw [hnew] at h
      cases h
    | ok new =>
      rw [hnew] at h
      obtain rfl := Except.ok.inj h
      have hempty : ∀ edit ∈ edits.map normalizeEdit, edit.oldText ≠ [] := by
        intro edit hedit hnone
        rw [applyEditsToNormalizedContent] at hnew
        cases hfound : (edits.map normalizeEdit).findIdx?
            fun edit => decide (edit.oldText = []) with
        | none =>
          exact of_decide_eq_false (List.findIdx?_eq_none_iff.mp hfound edit hedit) hnone
        | some i =>
          rw [hfound] at hnew
          cases hnew
      have hlit : Literal (normalizeToLF (splitBom rawContent).2) (edits.map normalizeEdit) :=
        ⟨normalizeToLF_not_mem _, hempty, fun edit hedit => by
          obtain ⟨e, he, rfl⟩ := List.mem_map.mp hedit
          exact hliteral e he⟩
      have happlied : applyEditsToNormalizedContent nfkc
          (normalizeToLF (splitBom rawContent).2) (edits.map normalizeEdit) path = .ok new := by
        rw [applyEditsToNormalizedContent] at hnew ⊢
        rwa [hedits]
      have hreplaced := ((applyEdits_ok_iff hlit).mp happlied).2.1
      rw [hinOrder] at hreplaced
      refine ⟨new, hreplaced, fun m hm => ?_, rfl⟩
      obtain ⟨edit, hedit, hlength, -⟩ := mem_inOrder hlit (hinOrder ▸ hm)
      exact hlength ▸ length_pos_of_ne_nil (hempty edit hedit)

/-- **Editing a file keeps the rest of the file** if and only if the lines that
are not touched end as the file is written. -/
theorem editFile_keeps_iff {rawContent : JsString} {edits : List Edit} {path : String}
    (h : editFile nfkc rawContent edits path = .ok output)
    (hliteral : ∀ edit ∈ edits, Occurs (normalizeToLF edit.oldText)
      (normalizeToLF (splitBom rawContent).2)) :
    (∃ text, output = (splitBom rawContent).1 ++ text ∧ KeepsRest (splitBom rawContent).2
        (inOrder (normalizeToLF (splitBom rawContent).2) edits) text)
      ↔ EndingsAgree (splitBom rawContent).2
          (inOrder (normalizeToLF (splitBom rawContent).2) edits) := by
  obtain ⟨new, hnew, hlength, rfl⟩ := editFile_ok h hliteral
  rw [← keepsRest_iff hnew hlength]
  simp

end

/-- `a`, `b` and `c` in three lines; the second one ends with a line feed. -/
def mixedFile : JsString := [0x61, 0x0D, 0x0A, 0x62, 0x0A, 0x63]

def sampleFile : JsString := [0x61, 0x0D, 0x0A, 0x62, 0x0D, 0x0A, 0x63]

def firstLine : Edit := ⟨[0x61], [0x78]⟩

theorem editFile_keeps_iff_sample :
    ∃ text, [0x78, 0x0D, 0x0A, 0x62, 0x0D, 0x0A, 0x63] = (splitBom sampleFile).1 ++ text ∧
      KeepsRest (splitBom sampleFile).2
        (inOrder (normalizeToLF (splitBom sampleFile).2) [firstLine]) text := by
  have hends : ∀ bounded ∈ boundedLines 0 (fileLines sampleFile),
      bounded.1.ending = [] ∨ bounded.1.ending = LineEnding.crlf.text := by decide
  have hok : editFile id sampleFile [firstLine] "notes.md"
      = .ok [0x78, 0x0D, 0x0A, 0x62, 0x0D, 0x0A, 0x63] := by decide
  refine (editFile_keeps_iff hok fun edit hedit => ?_).mpr
    ⟨fun line span hmem _ => hends (line, span) hmem, fun huniform => ?_⟩
  · obtain rfl := List.mem_singleton.mp hedit
    exact occurs_of_indexOf (i := 0) (by decide)
  · have hreturn := huniform.all ⟨[0x61], [0x0D, 0x0A]⟩ (by decide)
    exact absurd hreturn (by decide)

/-- In a file with both line endings the lines that no edit touches are written
with the first one. -/
theorem not_editFile_keeps :
    editFile id mixedFile [firstLine] "notes.md" = .ok [0x78, 0x0D, 0x0A, 0x62, 0x0D, 0x0A, 0x63] ∧
      ¬ ∃ text, [0x78, 0x0D, 0x0A, 0x62, 0x0D, 0x0A, 0x63] = (splitBom mixedFile).1 ++ text ∧
        KeepsRest (splitBom mixedFile).2
          (inOrder (normalizeToLF (splitBom mixedFile).2) [firstLine]) text := by
  have hok : editFile id mixedFile [firstLine] "notes.md"
      = .ok [0x78, 0x0D, 0x0A, 0x62, 0x0D, 0x0A, 0x63] := by decide
  refine ⟨hok, fun ⟨text, htext, hkeeps⟩ => ?_⟩
  obtain ⟨new, hnew, hlength, hout⟩ := editFile_ok hok fun edit hedit => by
    obtain rfl := List.mem_singleton.mp hedit
    exact occurs_of_indexOf (i := 0) (by decide)
  obtain rfl := append_cancel_left (htext.symm.trans hout)
  have hagree := (keepsRest_iff hnew hlength).mp hkeeps
  exact absurd (hagree.untouched ⟨[0x62], [0x0A]⟩ ⟨2, 4⟩ (by decide) (by unfold Untouched; decide))
    (by decide)

end ReflectivePi.Tools
