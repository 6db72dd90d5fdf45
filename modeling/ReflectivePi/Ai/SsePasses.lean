import ReflectivePi.Ai.SseFrames
import Mathlib.Data.List.TakeWhile
import Mathlib.Logic.Function.Iterate

/-!
# Ai — server-sent events: passes

How often the pi-messages reader went over each line before the line's frame
ended. Every cut gives each line one pass, and the last call one more; more
chunks can only give more. What the passes leave of a line of CRs decides
whether it is blank.
-/

namespace ReflectivePi.Ai

open List

/-! ## What a pass leaves -/

/-- A line and the passes over it. -/
abbrev PassedLine := Text × Nat

def PassedLine.left (entry : PassedLine) : Text := dropCr^[entry.2] entry.1

def PassedLine.mark (entry : PassedLine) : Text × Bool := (entry.1, entry.left.isEmpty)

def PassedLine.pass (entry : PassedLine) : PassedLine := (entry.1, entry.2 + 1)

theorem left_pass (entry : PassedLine) : entry.pass.left = dropCr entry.left :=
  Function.iterate_succ_apply' dropCr entry.2 entry.1

theorem dropCr_spec (line : Text) : dropCr line = line ∨ line = dropCr line ++ ['\r'] := by
  induction line using dropCr.induct with
  | case1 => exact .inl rfl
  | case2 => exact .inr rfl
  | case3 c rest hrest ih =>
    rw [dropCr_cons fun hc hnil => hrest hc hnil]
    rcases ih with heq | heq
    · exact .inl (by rw [heq])
    · exact .inr (by rw [cons_append, ← heq])

theorem trim_cr (text : Text) : trim (text ++ ['\r']) = trim text := by
  unfold trim
  rw [dropWhile_append]
  split
  · rename_i hspaces
    rw [List.isEmpty_iff] at hspaces
    rw [hspaces]
    rfl
  · rw [reverse_append, reverse_singleton, singleton_append, dropWhile_cons_of_pos (by decide)]

theorem isDataLine_cr (line : Text) : isDataLine (line ++ ['\r']) = isDataLine line := by
  rw [Bool.eq_iff_iff, isDataLine, isDataLine, isPrefixOf_iff_prefix,
    isPrefixOf_iff_prefix, prefix_concat_iff]
  refine or_iff_right fun heq => ?_
  have hlast := congrArg List.getLast? heq
  simp at hlast

variable {line : Text}

theorem dataOf_cr (h : isDataLine line = true) : dataOf (line ++ ['\r']) = dataOf line := by
  rw [isDataLine, isPrefixOf_iff_prefix] at h
  have hlength : 5 ≤ line.length := h.length_le
  rw [dataOf, dataOf, drop_append_of_le_length hlength, trim_cr]

theorem isDataLine_dropCr (line : Text) : isDataLine (dropCr line) = isDataLine line := by
  rcases dropCr_spec line with heq | heq
  · rw [heq]
  · conv_rhs => rw [heq]
    exact (isDataLine_cr _).symm

theorem dataOf_dropCr (h : isDataLine line = true) : dataOf (dropCr line) = dataOf line := by
  rcases dropCr_spec line with heq | heq
  · rw [heq]
  · conv_rhs => rw [heq]
    refine (dataOf_cr ?_).symm
    rwa [isDataLine_dropCr]

theorem isDataLine_left (entry : PassedLine) : isDataLine entry.left = isDataLine entry.1 := by
  obtain ⟨line, passes⟩ := entry
  induction passes with
  | zero => rfl
  | succ passes ih =>
    have hpass := left_pass (line, passes)
    rw [PassedLine.pass] at hpass
    rw [hpass, isDataLine_dropCr, ih]

variable {entry : PassedLine}

theorem dataOf_left (h : isDataLine entry.1 = true) : dataOf entry.left = dataOf entry.1 := by
  obtain ⟨line, passes⟩ := entry
  induction passes with
  | zero => rfl
  | succ passes ih =>
    have hpass := left_pass (line, passes)
    have hdata := isDataLine_left (line, passes)
    rw [PassedLine.pass] at hpass
    rw [hpass, dataOf_dropCr (hdata.trans h), ih h]

theorem readLines_left (seen : Bool) (entries : List PassedLine) (later : List (Text × Bool)) :
    readLines seen ((entries.map PassedLine.left).map marked ++ later)
      = readLines seen (entries.map PassedLine.mark ++ later) := by
  induction entries generalizing seen with
  | nil => rfl
  | cons entry entries ih =>
    rw [map_cons, map_cons, cons_append, map_cons, cons_append, marked,
      PassedLine.mark, readLines, readLines, isDataLine_left, ih, ih]
    split
    · rename_i hdata
      rw [dataOf_left hdata]
    · rfl

/-- A line of CRs. -/
def isBlank (line : Text) : Bool := line.all (· = '\r')

theorem isBlank_dropCr (h : isBlank line = true) : dropCr line = line.drop 1 := by
  induction line using dropCr.induct with
  | case1 => rfl
  | case2 => rfl
  | case3 c rest hrest ih =>
    rw [isBlank, all_cons, Bool.and_eq_true, decide_eq_true_eq] at h
    obtain ⟨rfl, hblank⟩ := h
    rw [dropCr_cons fun hc hnil => hrest hc hnil, ih hblank, drop_succ_cons, drop_zero]
    cases rest with
    | nil => exact (hrest rfl rfl).elim
    | cons d rest =>
      rw [all_cons, Bool.and_eq_true, decide_eq_true_eq] at hblank
      rw [hblank.1, drop_succ_cons, drop_zero]

theorem isBlank_left (h : isBlank entry.1 = true) : entry.left = entry.1.drop entry.2 := by
  obtain ⟨line, passes⟩ := entry
  induction passes with
  | zero => rfl
  | succ passes ih =>
    have hpass := left_pass (line, passes)
    have hblank : isBlank (line.drop passes) = true := by
      rw [isBlank, all_eq_true] at h ⊢
      exact fun c hc => h c (mem_of_mem_drop hc)
    rw [PassedLine.pass] at hpass
    rw [hpass, ih h, isBlank_dropCr hblank, drop_drop]

theorem isBlank_of_left (h : entry.left = []) : isBlank entry.1 = true := by
  obtain ⟨line, passes⟩ := entry
  induction passes generalizing line with
  | zero =>
    have hline : line = [] := h
    rw [hline]
    rfl
  | succ passes ih =>
    have hdrop := ih (dropCr line) h
    rcases dropCr_spec line with heq | heq
    · rwa [heq] at hdrop
    · rw [heq]
      rw [isBlank] at hdrop ⊢
      rw [all_append, hdrop]
      rfl

theorem left_eq_nil : entry.left = [] ↔ isBlank entry.1 = true ∧ entry.1.length ≤ entry.2 := by
  constructor
  · intro h
    have hblank := isBlank_of_left h
    rw [isBlank_left hblank, drop_eq_nil_iff] at h
    exact ⟨hblank, h⟩
  · rintro ⟨hblank, hlength⟩
    rw [isBlank_left hblank, drop_eq_nil_iff]
    exact hlength

/-! ## The reader and its passes -/

/-- A reader that has read `text`: the lines of the frames it has ended, and
those of its buffer. -/
structure PiRead (text : Text) (reader : List Text × Text) (done kept : List PassedLine) :
    Prop where
  lines : (Lines.split '\n' text).1 = (done ++ kept).map Prod.fst
  buffer : Lines.split '\n' reader.2 = (kept.map PassedLine.left, (Lines.split '\n' text).2)
  events : ∀ later, readLines false (done.map PassedLine.mark ++ later)
    = reader.1 ++ readLines false later
  ended : ∀ entry ∈ done.getLast?, entry.left = []
  whole : ∀ entry ∈ kept.tail, entry.left ≠ []

theorem PiRead.start : PiRead [] ([], []) [] [] where
  lines := rfl
  buffer := rfl
  events _ := rfl
  ended entry hentry := by cases hentry
  whole entry hentry := by cases hentry

/-- The lines that a chunk ends. -/
def newLines (text chunk : Text) : List PassedLine :=
  (Lines.split '\n' ((Lines.split '\n' text).2 ++ chunk)).1.map (·, 1)

theorem map_left_pass (kept : List PassedLine) (lines : List Text) :
    (kept.map PassedLine.left ++ lines).map dropCr
      = (kept.map PassedLine.pass ++ lines.map (·, 1)).map PassedLine.left := by
  rw [map_append, map_append, map_map, map_map, map_map]
  congr 1
  exact map_congr_left fun entry _ => (left_pass entry).symm

variable {done kept : List PassedLine} {reader : List Text × Text} {text : Text}

theorem PiRead.feed (h : PiRead text reader done kept) (chunk : Text) :
    ∃ more kept', kept.map PassedLine.pass ++ newLines text chunk = more ++ kept' ∧
      PiRead (text ++ chunk) (feedPiMessages reader chunk) (done ++ more) kept' := by
  have hbuffer : Lines.split '\n' (replaceLineEnds (reader.2 ++ chunk))
      = ((kept.map PassedLine.pass ++ newLines text chunk).map PassedLine.left,
        (Lines.split '\n' (text ++ chunk)).2) := by
    rw [split_replaceLineEnds, Lines.split_append, Lines.split_append _ text, Lines.feed,
      Lines.feed, h.buffer, map_left_pass, newLines]
  obtain ⟨front, rest, hlines, hrest, hwhole, hended, hread⟩ :=
    drain_lines (replaceLineEnds (reader.2 ++ chunk))
  rw [hbuffer] at hlines hrest
  obtain ⟨more, kept', hparts, rfl, rfl⟩ := List.map_eq_append_iff.mp hlines
  refine ⟨more, kept', hparts, ?_, ?_, fun later => ?_, fun entry hentry => ?_, ?_⟩
  · have hnew : (newLines text chunk).map Prod.fst
        = (Lines.split '\n' ((Lines.split '\n' text).2 ++ chunk)).1 := by
      rw [newLines, map_map]
      exact map_id _
    have hpass : (kept.map PassedLine.pass).map Prod.fst = kept.map Prod.fst := by
      rw [map_map]
      rfl
    rw [Lines.split_append, Lines.feed, append_assoc, ← hparts, map_append,
      map_append, hpass, hnew, h.lines, map_append]
    exact append_assoc ..
  · exact hrest
  · rw [map_append, append_assoc, h.events, ← readLines_left, hread, feedPiMessages, append_assoc]
  · rw [getLast?_append] at hentry
    cases hlast : more.getLast? with
    | none =>
      rw [hlast] at hentry
      exact h.ended entry hentry
    | some last =>
      rw [hlast] at hentry
      have heq : last = entry := by simpa using hentry
      refine hended _ ?_
      rw [getLast?_map, hlast, heq]
      rfl
  · intro entry hentry
    refine hwhole _ ?_
    rw [← map_tail]
    exact mem_map_of_mem hentry

theorem split_append_cons {α : Type} {first second front back : List α} {entry : α}
    (h : first ++ second = front ++ entry :: back) :
    (∃ between, front = first ++ between ∧ second = between ++ entry :: back) ∨
      ∃ between, first = front ++ entry :: between ∧ back = between ++ second := by
  rcases List.append_eq_append_iff.mp h with hsecond | ⟨between, hfirst, hback⟩
  · exact .inl hsecond
  · cases between with
    | nil => exact .inl ⟨[], by simpa using hfirst.symm, hback.symm⟩
    | cons head between =>
      cases hback
      exact .inr ⟨between, hfirst, rfl⟩

/-- What the passes come to, for any way to cut the text. -/
structure Passes (done kept : List PassedLine) : Prop where
  some : ∀ entry ∈ done ++ kept, 1 ≤ entry.2
  sorted : kept.Pairwise fun first second => second.2 ≤ first.2
  later : ∀ front entry back, done = front ++ entry :: back → entry.left ≠ [] →
    ∃ last ∈ back, last.left = [] ∧ last.2 ≤ entry.2

theorem Passes.start : Passes [] [] where
  some entry hentry := by cases hentry
  sorted := .nil
  later front entry back hsplit := by simp at hsplit

theorem Passes.feed {more kept' new : List PassedLine} (h : Passes done kept)
    (hparts : kept.map PassedLine.pass ++ new = more ++ kept') (hnew : ∀ entry ∈ new, entry.2 = 1)
    (hended : ∀ entry ∈ (done ++ more).getLast?, entry.left = []) :
    Passes (done ++ more) kept' := by
  have hsorted : (more ++ kept').Pairwise fun first second => second.2 ≤ first.2 := by
    rw [← hparts, pairwise_append]
    refine ⟨?_, ?_, ?_⟩
    · rw [pairwise_map]
      exact h.sorted.imp fun hle => Nat.succ_le_succ hle
    · exact List.Pairwise.imp_of_mem
        (fun ha hb _ => Nat.le_of_eq ((hnew _ hb).trans (hnew _ ha).symm)) (pairwise_of_forall fun _ _ => trivial)
    · intro first hfirst second hsecond
      obtain ⟨entry, -, rfl⟩ := List.mem_map.mp hfirst
      rw [hnew second hsecond, PassedLine.pass]
      omega
  constructor
  · intro entry hentry
    rw [append_assoc, ← hparts, mem_append, mem_append] at hentry
    rcases hentry with hdone | hpass | hentry
    · exact h.some entry (mem_append_left _ hdone)
    · obtain ⟨before, -, rfl⟩ := List.mem_map.mp hpass
      exact Nat.le_add_left 1 before.2
    · exact Nat.le_of_eq (hnew entry hentry).symm
  · exact (List.pairwise_append.mp hsorted).2.1
  · intro front entry back hsplit hleft
    rcases split_append_cons hsplit with ⟨between, -, hmore⟩ | ⟨between, hdone, hback⟩
    · have hlast : ∀ last ∈ (entry :: back).getLast?, last.left = [] := by
        intro last hlast
        refine hended last ?_
        rw [hmore, ← append_assoc, getLast?_append]
        rw [hlast]
        rfl
      rcases eq_nil_or_concat back with rfl | ⟨init, last, rfl⟩
      · exact absurd (hlast entry rfl) hleft
      · have hpairs := (List.pairwise_append.mp hsorted).1
        rw [hmore, pairwise_append] at hpairs
        refine ⟨last, by simp, hlast last ?_, ?_⟩
        · rw [← concat_cons, concat_eq_append, getLast?_concat]
          rfl
        · exact (List.pairwise_cons.mp hpairs.2.1).1 last (by simp)
    · obtain ⟨last, hlast, hblank, hle⟩ := h.later front entry between hdone hleft
      refine ⟨last, ?_, hblank, hle⟩
      rw [hback]
      exact mem_append_left _ hlast

/-! ## The end of the body -/

theorem mem_of_splitLines {c : Char} (hline : line ∈ splitLines text)
    (hc : c ∈ line) : c ∈ text := by
  induction text generalizing line with
  | nil =>
    rw [splitLines, Lines.split, nil_append, mem_singleton] at hline
    rwa [hline] at hc
  | cons d text ih =>
    by_cases hd : d = '\n'
    · subst hd
      rw [splitLines_newline, mem_cons] at hline
      rcases hline with rfl | hline
      · cases hc
      · exact mem_cons_of_mem _ (ih hline hc)
    · rw [splitLines_cons hd] at hline
      cases hlines : splitLines text with
      | nil =>
        rw [hlines] at hline
        cases hline
      | cons first lines =>
        rw [hlines, modifyHead_cons, mem_cons] at hline
        rcases hline with rfl | hline
        · rcases List.mem_cons.mp hc with rfl | hc
          · exact mem_cons_self
          · exact mem_cons_of_mem _ (ih (by rw [hlines]; exact mem_cons_self) hc)
        · refine mem_cons_of_mem _ (ih ?_ hc)
          rw [hlines]
          exact mem_cons_of_mem _ hline

theorem isSpace_of_trim (h : trim text = []) {c : Char} (hc : c ∈ text) : isSpace c = true := by
  rw [trim, reverse_eq_nil_iff, dropWhile_eq_nil_iff] at h
  rw [← takeWhile_append_dropWhile (p := isSpace) (l := text), mem_append] at hc
  rcases hc with hfront | hback
  · exact mem_takeWhile_imp hfront
  · exact h c (List.mem_reverse.mpr hback)

theorem parsePiMessagesEvent_of_trim (h : trim text = []) : parsePiMessagesEvent text = none := by
  have hnone : (splitLines text).find? isDataLine = none := by
    rw [find?_eq_none]
    intro line hline hdata
    rw [isDataLine, isPrefixOf_iff_prefix] at hdata
    have hd : 'd' ∈ text := mem_of_splitLines hline (hdata.subset (by decide))
    exact absurd (isSpace_of_trim h hd) (by decide)
  rw [parsePiMessagesEvent, hnone]
  rfl

theorem framePayload_snoc (lines : List Text) (last : Text) :
    (framePayload (lines ++ [last])).toList
      = (framePayload lines).toList ++ readLines (lines.any isDataLine) [(last, false)] := by
  rw [framePayload, framePayload, find?_append]
  cases hfind : lines.find? isDataLine with
  | none =>
    have hany : lines.any isDataLine = false := by
      rw [any_eq_false]
      exact fun line hline => List.find?_eq_none.mp hfind line hline
    rw [hany, readLines, Option.none_or]
    by_cases hdata : isDataLine last = true
    · simp [hdata, readLines]
    · simp [hdata, readLines]
  | some line =>
    have hany : lines.any isDataLine = true :=
      List.any_eq_true.mpr ⟨line, mem_of_find?_eq_some hfind, find?_some hfind⟩
    rw [hany, readLines]
    simp [readLines]

theorem PiRead.finish (h : PiRead text reader done kept) :
    (if trim reader.2 = [] then reader.1
      else reader.1 ++ (parsePiMessagesEvent reader.2).toList)
        = readLines false ((done ++ kept).map PassedLine.mark
          ++ [((Lines.split '\n' text).2, false)]) := by
  have hlast : readLines false (kept.map PassedLine.mark ++ [((Lines.split '\n' text).2, false)])
      = (parsePiMessagesEvent reader.2).toList := by
    have hwhole : ∀ line ∈ (kept.map PassedLine.left).tail, line ≠ [] := by
      intro line hline
      rw [← map_tail] at hline
      obtain ⟨entry, hentry, rfl⟩ := List.mem_map.mp hline
      exact h.whole entry hentry
    rw [← readLines_left, readLines_front hwhole, parsePiMessagesEvent_eq, splitLines, h.buffer]
    exact (framePayload_snoc _ _).symm
  rw [map_append, append_assoc, h.events, hlast]
  split
  · rename_i htrim
    rw [parsePiMessagesEvent_of_trim htrim]
    simp
  · rfl

theorem PiRead.feed_passes (h : PiRead text reader done kept) (hpasses : Passes done kept)
    (chunk : Text) :
    ∃ more kept', kept.map PassedLine.pass ++ newLines text chunk = more ++ kept' ∧
      PiRead (text ++ chunk) (feedPiMessages reader chunk) (done ++ more) kept' ∧
      Passes (done ++ more) kept' := by
  obtain ⟨more, kept', hparts, hnext⟩ := h.feed chunk
  refine ⟨more, kept', hparts, hnext, hpasses.feed hparts (fun entry hentry => ?_) hnext.ended⟩
  obtain ⟨line, -, rfl⟩ := List.mem_map.mp hentry
  rfl

theorem PiRead.chunks (chunks : List Text) :
    ∃ done kept, PiRead chunks.flatten (chunks.foldl feedPiMessages ([], [])) done kept ∧
      Passes done kept := by
  induction chunks using List.reverseRecOn with
  | nil => exact ⟨[], [], .start, .start⟩
  | append_singleton chunks chunk ih =>
    obtain ⟨done, kept, hread, hpasses⟩ := ih
    obtain ⟨more, kept', -, hnext⟩ := hread.feed_passes hpasses chunk
    have hflatten : (chunks ++ [chunk]).flatten = chunks.flatten ++ chunk := by simp
    rw [foldl_append, foldl_cons, foldl_nil, hflatten]
    exact ⟨done ++ more, kept', hnext⟩

theorem newline_notMem_final (truncated : Bool) : '\n' ∉ finalDecode truncated := by
  cases truncated <;> decide

theorem newLines_of_notMem (text : Text) {chunk : Text} (h : '\n' ∉ chunk) :
    newLines text chunk = [] := by
  have hnone : '\n' ∉ (Lines.split '\n' text).2 ++ chunk := by
    rw [mem_append, not_or]
    exact ⟨Lines.newline_notMem_pending '\n' text, h⟩
  rw [newLines, Lines.split_of_notMem '\n' hnone]
  rfl

theorem PiRead.final (h : PiRead text reader done kept) (truncated : Bool) :
    ∃ more kept', kept.map PassedLine.pass = more ++ kept' ∧
      PiRead (text ++ finalDecode truncated) (feedPiMessages reader (finalDecode truncated))
        (done ++ more) kept' := by
  obtain ⟨more, kept', hparts, hnext⟩ := h.feed (finalDecode truncated)
  rw [newLines_of_notMem text (newline_notMem_final truncated), append_nil] at hparts
  exact ⟨more, kept', hparts, hnext⟩

/-- The events of a body by the passes over its lines. -/
structure PiEntries (chunks : List Text) (truncated : Bool) (entries : List PassedLine) :
    Prop where
  lines : (Lines.split '\n' (chunks.flatten ++ finalDecode truncated)).1 = entries.map Prod.fst
  events : readPiMessagesEvents chunks truncated = readLines false (entries.map PassedLine.mark
        ++ [((Lines.split '\n' (chunks.flatten ++ finalDecode truncated)).2, false)])

theorem PiRead.entries {chunks : List Text}
    (h : PiRead chunks.flatten (chunks.foldl feedPiMessages ([], [])) done kept)
    (truncated : Bool) : PiEntries chunks truncated (done ++ kept.map PassedLine.pass) := by
  obtain ⟨more, kept', hparts, hlast⟩ := h.final truncated
  have hfinish := hlast.finish
  rw [hparts, ← append_assoc]
  exact ⟨hlast.lines, hfinish⟩

/-- A line of one CR at most, or of two where no such line comes after it: the
last call goes over that one again. -/
def endsFrame (line : Text) (later : List Text) : Bool :=
  isBlank line && (line.length ≤ 1 ||
    (line.length = 2 && !later.any fun line => isBlank line && line.length ≤ 1))

theorem endsFrame_iff {later : List Text} :
    endsFrame line later = true ↔ isBlank line = true ∧ (line.length ≤ 1 ∨ line.length = 2 ∧
        ∀ line ∈ later, isBlank line = true → 1 < line.length) := by
  simp [endsFrame]

/-- However it is cut, such a line gets the passes that it needs. -/
theorem Passes.left_of_endsFrame {front back : List PassedLine} (h : Passes done kept)
    (hsplit : done ++ kept.map PassedLine.pass = front ++ entry :: back)
    (hends : endsFrame entry.1 (back.map Prod.fst) = true) : entry.left = [] := by
  obtain ⟨hblank, hlength⟩ := endsFrame_iff.mp hends
  rcases split_append_cons hsplit with ⟨between, -, hkept⟩ | ⟨between, hdone, hback⟩
  · have hmem : entry ∈ kept.map PassedLine.pass := by
      rw [hkept]
      simp
    obtain ⟨before, hbefore, rfl⟩ := List.mem_map.mp hmem
    have hsome := h.some before (mem_append_right _ hbefore)
    refine left_eq_nil.mpr ⟨hblank, ?_⟩
    have hpasses : before.pass.2 = before.2 + 1 := rfl
    omega
  · by_contra hleft
    obtain ⟨last, hlast, hend, hle⟩ := h.later front entry between hdone hleft
    have hsome := h.some entry (mem_append_left _ (by rw [hdone]; simp))
    have hmore : ¬ entry.1.length ≤ entry.2 := fun hle => hleft (left_eq_nil.mpr ⟨hblank, hle⟩)
    obtain ⟨hlastBlank, hlastLength⟩ := left_eq_nil.mp hend
    rcases hlength with hshort | ⟨htwo, hlater⟩
    · omega
    · have hlong := hlater last.1 (by
        rw [hback]
        exact mem_map_of_mem (mem_append_left _ hlast)) hlastBlank
      omega

/-- Read as a whole, only such lines end frames. -/
theorem endsFrame_of_whole {front back : List PassedLine}
    (hone : ∀ entry ∈ done ++ kept, entry.2 = 1) (hwhole : ∀ entry ∈ kept.tail, entry.left ≠ [])
    (hsplit : done ++ kept.map PassedLine.pass = front ++ entry :: back)
    (hleft : entry.left = []) : endsFrame entry.1 (back.map Prod.fst) = true := by
  obtain ⟨hblank, hlength⟩ := left_eq_nil.mp hleft
  rw [endsFrame_iff]
  refine ⟨hblank, ?_⟩
  rcases split_append_cons hsplit with ⟨between, -, hkept⟩ | ⟨between, hdone, -⟩
  · obtain ⟨first, second, rfl, -, hsecond⟩ := List.map_eq_append_iff.mp hkept
    obtain ⟨before, rest, rfl, rfl, rfl⟩ := List.map_eq_cons_iff.mp hsecond
    have hbefore : before.2 = 1 := hone before (by simp)
    have hpasses : before.pass.2 = before.2 + 1 := rfl
    by_cases hshort : before.pass.1.length ≤ 1
    · exact .inl hshort
    · refine .inr ⟨by omega, fun line hline hlineBlank => ?_⟩
      rw [map_map] at hline
      obtain ⟨later, hlater, rfl⟩ := List.mem_map.mp hline
      have htail : later ∈ (first ++ before :: rest).tail := by
        cases first with
        | nil => exact hlater
        | cons head first => exact mem_append_right _ (mem_cons_of_mem _ hlater)
      have hlaterOne : later.2 = 1 := hone later (by simp [hlater])
      by_contra hlong
      refine hwhole later htail (left_eq_nil.mpr ⟨hlineBlank, ?_⟩)
      rw [hlaterOne]
      exact Nat.le_of_not_lt hlong
  · have hentry : entry.2 = 1 := hone entry (by simp [hdone])
    exact .inl (by omega)

end ReflectivePi.Ai
