import ReflectivePi.Ai.SseLines
import ReflectivePi.Ai.SsePasses
import Mathlib.Data.List.Forall2

/-!
# Ai — server-sent events: cuts

When the events of a body do not depend on how it was cut. For the
pi-messages reader more blank lines can only bring more events: a data line
that was a second one in its frame becomes a first one.
-/

namespace ReflectivePi.Ai

open List

/-! ## More marks, more payloads -/

/-- Whether a data line is open after some lines. -/
def seenAfter (seen : Bool) (lines : List (Text × Bool)) : Bool :=
  lines.foldl (fun seen (line, mark) => isDataLine line || (seen && !mark)) seen

theorem seenAfter_cons (seen : Bool) (line : Text × Bool) (lines : List (Text × Bool)) :
    seenAfter seen (line :: lines) = seenAfter (isDataLine line.1 || (seen && !line.2)) lines := rfl

theorem seenAfter_append (seen : Bool) (front back : List (Text × Bool)) :
    seenAfter seen (front ++ back) = seenAfter (seenAfter seen front) back :=
  foldl_append

/-- The second reading has the marks of the first. -/
def Marks (first second : Text × Bool) : Prop :=
  first.1 = second.1 ∧ (first.2 = true → second.2 = true)

variable {seen' truncated : Bool} {line : Text × Bool} {last body text : Text}
  {front back : List Text}

theorem Marks.seen {first second : Text × Bool} (h : Marks first second) {seen : Bool}
    (hseen : seen' = true → seen = true)
    (hnext : (isDataLine second.1 || (seen' && !second.2)) = true) :
    (isDataLine first.1 || (seen && !first.2)) = true := by
  rw [h.1]
  cases hdata : isDataLine second.1 with
  | true => rfl
  | false =>
    rw [hdata, Bool.false_or, Bool.and_eq_true, Bool.not_eq_true'] at hnext
    rw [Bool.false_or, hseen hnext.1, Bool.true_and, Bool.not_eq_true']
    by_contra hmark
    rw [Bool.not_eq_false] at hmark
    rw [h.2 hmark] at hnext
    cases hnext.2

theorem readLines_cons (seen : Bool) (line : Text × Bool) (lines : List (Text × Bool)) :
    readLines seen (line :: lines)
      = (if isDataLine line.1 && !seen then (payload (dataOf line.1)).toList else [])
          ++ readLines (isDataLine line.1 || (seen && !line.2)) lines := by
  rw [readLines]
  cases isDataLine line.1 with
  | true => cases seen <;> rfl
  | false => rfl

variable {first second : List (Text × Bool)}

theorem readLines_length (h : List.Forall₂ Marks first second) {seen : Bool}
    (hseen : seen' = true → seen = true) :
    (readLines seen first).length ≤ (readLines seen' second).length := by
  induction h generalizing seen seen' with
  | nil => exact le_refl _
  | cons hmarks htail ih =>
    rw [readLines_cons, readLines_cons, length_append, length_append, ← hmarks.1]
    refine Nat.add_le_add ?_ (ih ?_)
    · cases seen with
      | true => simp
      | false =>
        have hseen' : seen' = false := by simpa using hseen
        rw [hseen']
    · rw [hmarks.1]
      intro hnext
      rw [← hmarks.1]
      exact hmarks.seen hseen hnext

/-- A data line with a payload that is a second one only in the first reading. -/
def LateAt (seen seen' : Bool) (first second : List (Text × Bool)) : Prop :=
  ∃ front line back front' line' back', first = front ++ line :: back ∧
    second = front' ++ line' :: back' ∧ front.length = front'.length ∧
    isDataLine line.1 = true ∧ (payload (dataOf line.1)).isSome = true ∧
    seenAfter seen front = true ∧ seenAfter seen' front' = false

theorem readLines_lt (h : List.Forall₂ Marks first second) {seen : Bool}
    (hseen : seen' = true → seen = true) (hlate : LateAt seen seen' first second) :
    (readLines seen first).length < (readLines seen' second).length := by
  obtain ⟨front, line, back, front', line', back', hfirst, hsecond, hlength, hdata, hpayload,
    hopen, hclosed⟩ := hlate
  induction h generalizing seen seen' front front' with
  | nil => simp at hfirst
  | cons hmarks htail ih =>
    rename_i a b first second
    cases front with
    | nil =>
      have hfront' : front' = [] := List.length_eq_zero_iff.mp hlength.symm
      subst hfront'
      obtain ⟨rfl, rfl⟩ := List.cons.inj hfirst
      obtain ⟨rfl, rfl⟩ := List.cons.inj hsecond
      have hle : (readLines true first).length ≤ (readLines true second).length :=
        readLines_length htail id
      obtain ⟨text, htext⟩ := Option.isSome_iff_exists.mp hpayload
      rw [readLines_cons, readLines_cons, ← hmarks.1, hdata,
        show seen = true from hopen, show seen' = false from hclosed, htext]
      simp only [Bool.true_or, Bool.not_true, Bool.and_false, Bool.not_false, Bool.and_true,
        if_true, length_append, Option.toList_some, length_singleton]
      simp only [Bool.false_eq_true, if_false, length_nil]
      omega
    | cons head front =>
      cases front' with
      | nil => simp at hlength
      | cons head' front' =>
        obtain ⟨rfl, htailFirst⟩ := List.cons.inj hfirst
        obtain ⟨rfl, htailSecond⟩ := List.cons.inj hsecond
        have hlt := ih (hmarks.seen hseen) front front' htailFirst htailSecond
          (Nat.succ.inj hlength) hopen hclosed
        rw [readLines_cons, readLines_cons, length_append, length_append]
        refine Nat.add_lt_add_of_le_of_lt ?_ hlt
        rw [← hmarks.1]
        cases seen with
        | true => simp
        | false =>
          have hseen' : seen' = false := by simpa using hseen
          rw [hseen']

theorem readLines_eq (h : List.Forall₂ Marks first second) {seen : Bool}
    (hseen : seen' = true → seen = true) (hlate : ¬ LateAt seen seen' first second) :
    readLines seen' second = readLines seen first := by
  induction h generalizing seen seen' with
  | nil => rfl
  | cons hmarks htail ih =>
    rename_i a b first second
    have htail' : readLines (isDataLine b.1 || (seen' && !b.2)) second
        = readLines (isDataLine a.1 || (seen && !a.2)) first := by
      refine ih (hmarks.seen hseen) fun hlater => hlate ?_
      obtain ⟨front, line, back, front', line', back', hfirst, hsecond, hlength, hrest⟩ := hlater
      refine ⟨a :: front, line, back, b :: front', line', back', ?_, ?_, ?_, hrest⟩
      · rw [hfirst, cons_append]
      · rw [hsecond, cons_append]
      · rw [length_cons, length_cons, hlength]
    rw [readLines_cons, readLines_cons, htail', ← hmarks.1]
    cases seen with
    | false =>
      have hseen' : seen' = false := by simpa using hseen
      rw [hseen']
    | true =>
      cases seen' with
      | true => rfl
      | false =>
        by_cases hdata : isDataLine a.1 = true
        · have hnone : payload (dataOf a.1) = none := by
            rw [← Option.not_isSome_iff_eq_none]
            intro hsome
            exact hlate ⟨[], a, first, [], b, second, rfl, rfl, rfl, hdata, hsome, rfl, rfl⟩
          rw [hnone]
          simp
        · rw [Bool.not_eq_true] at hdata
          rw [hdata]
          rfl

theorem seenAfter_iff (lines : List (Text × Bool)) :
    seenAfter false lines = true ↔ ∃ front line back, lines = front ++ line :: back ∧
      isDataLine line.1 = true ∧ ∀ later ∈ back, isDataLine later.1 = false ∧ later.2 = false := by
  induction lines using List.reverseRecOn with
  | nil =>
    refine ⟨nofun, ?_⟩
    simp
  | append_singleton lines last ih =>
    rw [seenAfter_append, seenAfter_cons]
    constructor
    · intro h
      by_cases hdata : isDataLine last.1 = true
      · exact ⟨lines, last, [], rfl, hdata, fun later hlater => by cases hlater⟩
      · rw [Bool.not_eq_true] at hdata
        rw [hdata, Bool.false_or] at h
        have hand : (seenAfter false lines && !last.2) = true := h
        rw [Bool.and_eq_true, Bool.not_eq_true'] at hand
        obtain ⟨front, line, back, rfl, hline, hback⟩ := ih.mp hand.1
        refine ⟨front, line, back ++ [last], by simp, hline, fun later hlater => ?_⟩
        rcases List.mem_append.mp hlater with hmem | hmem
        · exact hback later hmem
        · rw [List.mem_singleton.mp hmem]
          exact ⟨hdata, hand.2⟩
    · rintro ⟨front, line, back, hsplit, hline, hback⟩
      show (isDataLine last.1 || (seenAfter false lines && !last.2)) = true
      rcases eq_nil_or_concat back with rfl | ⟨init, final, rfl⟩
      · obtain ⟨-, hlast⟩ := append_inj' hsplit rfl
        rw [(List.cons.inj hlast).1, hline]
        rfl
      · rw [concat_eq_append, ← cons_append, ← append_assoc] at hsplit
        obtain ⟨hlines, hlast⟩ := append_inj' hsplit rfl
        obtain ⟨hfinal, hmark⟩ := hback final (by simp)
        have hopen := ih.mpr ⟨front, line, init, hlines, hline, fun later hlater =>
          hback later (by simp [hlater])⟩
        rw [(List.cons.inj hlast).1, hfinal, hmark, hopen]
        rfl

theorem seenAfter_closed {front back : List (Text × Bool)} (seen : Bool)
    (hline : isDataLine line.1 = false) (hmark : line.2 = true)
    (hback : ∀ later ∈ back, isDataLine later.1 = false) :
    seenAfter seen (front ++ line :: back) = false := by
  rw [seenAfter_append, seenAfter_cons, hline, hmark, Bool.false_or, Bool.not_true, Bool.and_false]
  induction back with
  | nil => rfl
  | cons later back ih =>
    rw [seenAfter_cons, hback later mem_cons_self]
    exact ih fun later' hlater' => hback later' (mem_cons_of_mem later hlater')

/-- The marks that the lines have however the body is cut. -/
def firstMarks : List Text → List (Text × Bool)
  | [] => []
  | line :: later => (line, endsFrame line later) :: firstMarks later

theorem map_fst_firstMarks (lines : List Text) : (firstMarks lines).map Prod.fst = lines := by
  induction lines with
  | nil => rfl
  | cons line later ih => rw [firstMarks, map_cons, ih]

theorem firstMarks_mark {lines : List Text} {front back : List (Text × Bool)} (hback : back ≠ [])
    (h : firstMarks lines ++ [(last, false)] = front ++ line :: back) :
    line.2 = endsFrame line.1 (back.map Prod.fst).dropLast := by
  induction lines generalizing front with
  | nil =>
    cases front with
    | nil =>
      obtain ⟨-, hnil⟩ := List.cons.inj h
      exact absurd hnil.symm hback
    | cons head front =>
      obtain ⟨-, hnil⟩ := List.cons.inj h
      simp at hnil
  | cons first later ih =>
    rw [firstMarks, cons_append] at h
    cases front with
    | nil =>
      obtain ⟨rfl, rfl⟩ := List.cons.inj h
      rw [map_append, map_fst_firstMarks]
      simp
    | cons head front =>
      obtain ⟨-, htail⟩ := List.cons.inj h
      exact ih htail

variable {entries : List PassedLine}

theorem forall₂_firstMarks
    (h : ∀ (front : List PassedLine) (entry : PassedLine) back, entries = front ++ entry :: back →
      endsFrame entry.1 (back.map Prod.fst) = true → entry.left = []) :
    List.Forall₂ Marks (firstMarks (entries.map Prod.fst) ++ [(last, false)])
      (entries.map PassedLine.mark ++ [(last, false)]) := by
  induction entries with
  | nil => exact .cons ⟨rfl, id⟩ .nil
  | cons entry entries ih =>
    refine .cons ⟨rfl, fun hends => ?_⟩ (ih fun front entry' back hsplit => ?_)
    · rw [PassedLine.mark, List.isEmpty_iff]
      exact h [] entry entries rfl hends
    · exact h (entry :: front) entry' back (by rw [hsplit, cons_append])

theorem firstMarks_eq
    (h : ∀ (front : List PassedLine) (entry : PassedLine) back, entries = front ++ entry :: back →
      (endsFrame entry.1 (back.map Prod.fst) = true ↔ entry.left = [])) :
    entries.map PassedLine.mark = firstMarks (entries.map Prod.fst) := by
  induction entries with
  | nil => rfl
  | cons entry entries ih =>
    rw [map_cons, map_cons, firstMarks, ih fun front entry' back hsplit =>
      h (entry :: front) entry' back (by rw [hsplit, cons_append])]
    congr 1
    refine Prod.ext rfl ?_
    rw [Bool.eq_iff_iff, h [] entry entries rfl]
    exact List.isEmpty_iff

/-! ## The condition -/

/-- Where a blank line parts two data lines and the second one has a payload,
one of the blank lines between them ends its frame however the body is cut. -/
def FramesHold (body : Text) (truncated : Bool) : Prop :=
  ∀ before first middle second after, splitLines (body ++ finalDecode truncated)
      = before ++ first :: (middle ++ second :: after) →
    isDataLine first = true → isDataLine second = true →
    (payload (dataOf second)).isSome = true →
    (∀ line ∈ middle, isDataLine line = false) → (∃ line ∈ middle, isBlank line = true) →
    ∃ front line back, middle = front ++ line :: back ∧
      endsFrame line (back ++ second :: after).dropLast = true

/-- The entries of a reading have the marks that every reading has. -/
def Passed (entries : List PassedLine) : Prop :=
  ∀ (front : List PassedLine) (entry : PassedLine) back, entries = front ++ entry :: back →
    endsFrame entry.1 (back.map Prod.fst) = true → entry.left = []

theorem piEntries (chunks : List Text) (truncated : Bool) :
    ∃ entries, PiEntries chunks truncated entries ∧ Passed entries := by
  obtain ⟨done, kept, hread, hpasses⟩ := PiRead.chunks chunks
  exact ⟨_, hread.entries truncated, fun front entry back hsplit hends =>
    hpasses.left_of_endsFrame hsplit hends⟩

theorem isBlank_of_mark
    (h : line ∈ entries.map PassedLine.mark ++ [(last, false)]) (hmark : line.2 = true) :
    isBlank line.1 = true := by
  rcases List.mem_append.mp h with hmem | hmem
  · obtain ⟨entry, -, rfl⟩ := List.mem_map.mp hmem
    exact isBlank_of_left (List.isEmpty_iff.mp hmark)
  · rw [List.mem_singleton.mp hmem] at hmark
    cases hmark

theorem map_fst_mark (entries : List PassedLine) (last : Text) :
    (entries.map PassedLine.mark ++ [(last, false)]).map Prod.fst
      = entries.map Prod.fst ++ [last] := by
  rw [map_append, map_map]
  rfl

theorem map_fst_first (lines : List Text) (last : Text) :
    (firstMarks lines ++ [(last, false)]).map Prod.fst = lines ++ [last] := by
  rw [map_append, map_fst_firstMarks]
  rfl

theorem FramesHold.not_late (h : FramesHold body truncated)
    (hlines : splitLines (body ++ finalDecode truncated) = entries.map Prod.fst ++ [last]) :
    ¬ LateAt false false (firstMarks (entries.map Prod.fst) ++ [(last, false)])
        (entries.map PassedLine.mark ++ [(last, false)]) := by
  rintro ⟨front, line, back, front', line', back', hfirst, hsecond, hlength, hdata, hpayload,
    hopen, hclosed⟩
  obtain ⟨before, first, middle, rfl, hfirstData, hmiddle⟩ := (seenAfter_iff front).mp hopen
  have htexts : (before ++ first :: middle).map Prod.fst = front'.map Prod.fst := by
    have hsame := (map_fst_first (entries.map Prod.fst) last).trans (map_fst_mark entries last).symm
    have hfront : ((before ++ first :: middle) ++ line :: back).map Prod.fst
        = (front' ++ line' :: back').map Prod.fst := by
      rw [← hfirst, ← hsecond]
      exact hsame
    have hparts := List.map_append.symm.trans (hfront.trans map_append)
    exact (append_inj hparts (by rw [length_map, length_map, hlength])).1
  rw [← Bool.not_eq_true] at hclosed
  refine hclosed ?_
  rw [map_append, map_cons] at htexts
  obtain ⟨before', rest', rfl, -, hrest'⟩ := List.map_eq_append_iff.mp htexts.symm
  obtain ⟨first', middle', rfl, hfirst', hmiddle'⟩ := List.map_eq_cons_iff.mp hrest'
  refine (seenAfter_iff _).mpr ⟨before', first', middle', rfl, by rw [hfirst', hfirstData], ?_⟩
  have hplain : ∀ text ∈ middle.map Prod.fst, isDataLine text = false := by
    intro text htext
    obtain ⟨later, hlater, rfl⟩ := List.mem_map.mp htext
    exact (hmiddle later hlater).1
  intro later hlater
  have hmem : later.1 ∈ middle.map Prod.fst := hmiddle' ▸ mem_map_of_mem hlater
  refine ⟨hplain later.1 hmem, ?_⟩
  by_contra hmark
  rw [Bool.not_eq_false] at hmark
  have hblank : isBlank later.1 = true := by
    have hmemMarks : later ∈ entries.map PassedLine.mark ++ [(last, false)] := by
      rw [hsecond]
      simp [hlater]
    exact isBlank_of_mark hmemMarks hmark
  have hwhole : splitLines (body ++ finalDecode truncated)
      = before.map Prod.fst ++ first.1 :: (middle.map Prod.fst ++ line.1 :: back.map Prod.fst) := by
    rw [hlines, ← map_fst_first, hfirst]
    simp
  obtain ⟨x, ending, y, hsplit, hends⟩ := h _ _ _ _ _ hwhole hfirstData hdata hpayload hplain
    ⟨later.1, hmem, hblank⟩
  obtain ⟨mx, rest, rfl, -, hrest⟩ := List.map_eq_append_iff.mp hsplit
  obtain ⟨found, my, rfl, rfl, rfl⟩ := List.map_eq_cons_iff.mp hrest
  have hparts : firstMarks (entries.map Prod.fst) ++ [(last, false)]
      = (before ++ first :: mx) ++ found :: (my ++ line :: back) := by
    rw [hfirst]
    simp
  have hfound := firstMarks_mark (by simp) hparts
  rw [map_append, map_cons, hends] at hfound
  rw [(hmiddle found (by simp)).2] at hfound
  cases hfound

/-! ## A cut that shows -/

/-- The entry at a position is blank. -/
def BlankAt (position : Nat) (entries : List PassedLine) : Prop :=
  ∃ entry, entries[position]? = some entry ∧ entry.left = []

theorem left_pass_of_nil {entry : PassedLine} (h : entry.left = []) : entry.pass.left = [] := by
  rw [left_pass, h]
  rfl

variable {done kept : List PassedLine}

theorem BlankAt.pass {position : Nat} (h : BlankAt position (done ++ kept))
    (new : List PassedLine) : BlankAt position (done ++ (kept.map PassedLine.pass ++ new)) := by
  obtain ⟨entry, hentry, hleft⟩ := h
  rw [getElem?_append] at hentry
  split at hentry
  · rename_i hlt
    refine ⟨entry, ?_, hleft⟩
    rw [getElem?_append, if_pos hlt]
    exact hentry
  · rename_i hge
    have hlt : position - done.length < (kept.map PassedLine.pass).length := by
      rw [length_map]
      exact (List.getElem?_eq_some_iff.mp hentry).1
    refine ⟨entry.pass, ?_, left_pass_of_nil hleft⟩
    rw [getElem?_append, if_neg hge, getElem?_append, if_pos hlt, getElem?_map, hentry]
    rfl

theorem PiRead.feed_blank {reader : List Text × Text} {position : Nat}
    (h : PiRead text reader done kept) (hpasses : Passes done kept)
    (hblank : BlankAt position (done ++ kept)) (chunk : Text) :
    ∃ done' kept', PiRead (text ++ chunk) (feedPiMessages reader chunk) done' kept' ∧
      Passes done' kept' ∧ BlankAt position (done' ++ kept') := by
  obtain ⟨more, kept', hparts, hnext, hpassesNext⟩ := h.feed_passes hpasses chunk
  refine ⟨done ++ more, kept', hnext, hpassesNext, ?_⟩
  rw [append_assoc, ← hparts]
  exact hblank.pass (newLines text chunk)

theorem PiRead.wait {reader : List Text × Text}
    (h : PiRead text reader done kept) (hpasses : Passes done kept) (times : Nat) :
    ∃ done' kept', PiRead text ((List.replicate times []).foldl feedPiMessages reader)
        done' kept' ∧ Passes done' kept' ∧
      ∀ entry ∈ (done' ++ kept').getLast?, entry.left = [] ∨ times < entry.2 := by
  induction times with
  | zero => exact ⟨done, kept, h, hpasses, fun entry hentry =>
    .inr (hpasses.some entry (mem_of_getLast? hentry))⟩
  | succ times ih =>
    obtain ⟨done', kept', hread, hpassesRead, hlast⟩ := ih
    obtain ⟨more, kept'', hparts, hnext, hpassesNext⟩ := hread.feed_passes hpassesRead []
    rw [newLines_of_notMem text (by simp), append_nil] at hparts
    rw [append_nil] at hnext
    rw [replicate_succ', foldl_append]
    refine ⟨done' ++ more, kept'', hnext, hpassesNext, ?_⟩
    rw [append_assoc, ← hparts]
    rcases eq_nil_or_concat kept' with rfl | ⟨init, last, rfl⟩
    · rw [map_nil, append_nil]
      exact fun entry hentry => .inl (hread.ended entry hentry)
    · rw [concat_eq_append, ← append_assoc, getLast?_concat] at hlast
      rw [concat_eq_append, map_append, map_cons, map_nil, ← append_assoc, getLast?_concat]
      intro entry hentry
      obtain rfl := Option.mem_some_iff.mp hentry
      rcases hlast last rfl with hnil | hlt
      · exact .inl (left_pass_of_nil hnil)
      · exact .inr (Nat.succ_lt_succ hlt)

theorem split_before (h : (Lines.split '\n' text).1 = front ++ back) :
    ∃ before after, text = before ++ after ∧ Lines.split '\n' before = (front, []) := by
  induction text generalizing front with
  | nil =>
    have hnil : front = [] := (List.append_eq_nil_iff.mp h.symm).1
    exact ⟨[], [], rfl, by rw [hnil]; rfl⟩
  | cons c text ih =>
    cases front with
    | nil => exact ⟨[], c :: text, rfl, rfl⟩
    | cons line front =>
      by_cases hc : c = '\n'
      · simp only [Lines.split, if_pos hc] at h
        obtain ⟨rfl, htail⟩ := List.cons.inj h
        obtain ⟨before, after, rfl, hbefore⟩ := ih htail
        refine ⟨c :: before, after, rfl, ?_⟩
        simp only [Lines.split, if_pos hc, hbefore]
      · simp only [Lines.split, if_neg hc] at h
        cases hlines : (Lines.split '\n' text).1 with
        | nil =>
          rw [hlines] at h
          cases h
        | cons first lines =>
          rw [hlines] at h
          obtain ⟨rfl, htail⟩ := List.cons.inj h
          have hstart : (Lines.split '\n' text).1 = (first :: front) ++ back := by
            rw [hlines, htail]
            rfl
          obtain ⟨before, after, rfl, hbefore⟩ := ih hstart
          refine ⟨c :: before, after, rfl, ?_⟩
          simp only [Lines.split, if_neg hc, hbefore]

theorem blank_after_cut {line : Text}
    (h : (Lines.split '\n' body).1 = (front ++ [line]) ++ back) (hblank : isBlank line = true)
    (truncated : Bool) :
    ∃ chunks entries, chunks.flatten = body ∧ PiEntries chunks truncated entries ∧
      Passed entries ∧ BlankAt front.length entries := by
  obtain ⟨before, after, rfl, hbefore⟩ := split_before h
  have hflatten : ((before :: List.replicate line.length []) ++ [after]).flatten
      = before ++ after := by simp
  obtain ⟨more, kept, -, hfirst, hpassesFirst⟩ := PiRead.start.feed_passes .start before
  obtain ⟨done', kept', hwait, hpassesWait, hlast⟩ := hfirst.wait hpassesFirst line.length
  have hlines : (done' ++ kept').map Prod.fst = front ++ [line] := by
    rw [← hwait.lines, nil_append, hbefore]
  have hposition : BlankAt front.length (done' ++ kept') := by
    obtain ⟨entries, rest, hentries, hfront, hrest⟩ := List.map_eq_append_iff.mp hlines
    obtain ⟨entry, none, rfl, hentry, hnone⟩ := List.map_eq_cons_iff.mp hrest
    rw [map_eq_nil_iff] at hnone
    subst hnone
    have hlength : front.length = entries.length := by rw [← hfront, length_map]
    refine ⟨entry, ?_, ?_⟩
    · rw [hentries, hlength]
      simp
    · rw [hentries] at hlast
      rcases hlast entry (by simp) with hleft | hlt
      · exact hleft
      · refine left_eq_nil.mpr ⟨by rw [hentry, hblank], ?_⟩
        rw [hentry]
        omega
  obtain ⟨done, kept'', hread, hpasses, hat⟩ := hwait.feed_blank hpassesWait hposition after
  have hchunks : PiRead ((before :: List.replicate line.length []) ++ [after]).flatten
      (((before :: List.replicate line.length []) ++ [after]).foldl feedPiMessages ([], []))
      done kept'' := by
    rw [hflatten, foldl_append]
    exact hread
  refine ⟨_, _, hflatten, hchunks.entries truncated, fun front entry back hsplit hends =>
    hpasses.left_of_endsFrame hsplit hends, ?_⟩
  have hlast := hat.pass []
  rwa [append_nil] at hlast

/-! ## The exact condition -/

theorem readPiMessagesEvents_whole (body : Text) (truncated : Bool) :
    readPiMessagesEvents [body] truncated
      = readLines false (firstMarks (Lines.split '\n' (body ++ finalDecode truncated)).1
          ++ [((Lines.split '\n' (body ++ finalDecode truncated)).2, false)]) := by
  obtain ⟨more, kept, hparts, hread, hpasses⟩ := PiRead.start.feed_passes .start body
  have hone : ∀ entry ∈ more ++ kept, entry.2 = 1 := by
    intro entry hentry
    rw [← hparts, map_nil, nil_append] at hentry
    obtain ⟨text, -, rfl⟩ := List.mem_map.mp hentry
    rfl
  have hflatten : [body].flatten = body := flatten_singleton
  have hbody : PiRead [body].flatten ([body].foldl feedPiMessages ([], [])) more kept := by
    rw [hflatten]
    exact hread
  have hentries := hbody.entries truncated
  have hmarks : (more ++ kept.map PassedLine.pass).map PassedLine.mark
      = firstMarks ((more ++ kept.map PassedLine.pass).map Prod.fst) :=
    firstMarks_eq fun front entry back hsplit =>
      ⟨hpasses.left_of_endsFrame hsplit, endsFrame_of_whole hone hread.whole hsplit⟩
  rw [hentries.events, hmarks, ← hentries.lines, hflatten]

theorem readPiMessagesEvents_of_framesHold
    (h : FramesHold body truncated) {chunks : List Text} (hchunks : chunks.flatten = body) :
    readPiMessagesEvents chunks truncated = readPiMessagesEvents [body] truncated := by
  obtain ⟨entries, hentries, hpassed⟩ := piEntries chunks truncated
  obtain ⟨hlines, hevents⟩ := hentries
  rw [hchunks] at hlines hevents
  rw [readPiMessagesEvents_whole, hevents, hlines]
  refine readLines_eq (forall₂_firstMarks hpassed) id (h.not_late ?_)
  rw [splitLines, hlines]

theorem split_final (body : Text) (truncated : Bool) :
    (Lines.split '\n' (body ++ finalDecode truncated)).1 = (Lines.split '\n' body).1 := by
  have hnone : '\n' ∉ (Lines.split '\n' body).2 ++ finalDecode truncated := by
    rw [mem_append, not_or]
    exact ⟨Lines.newline_notMem_pending '\n' body, newline_notMem_final truncated⟩
  rw [Lines.split_append, Lines.feed, Lines.split_of_notMem '\n' hnone]
  exact append_nil _

/-- A blank line that only a late reading has: the payload after it is late. -/
theorem lateAt_of_blank {first line second : Text}
    {before after : List Text} (hlines : entries.map Prod.fst ++ [last]
      = before ++ first :: ((front ++ line :: back) ++ second :: after))
    (hfirst : isDataLine first = true) (hsecond : isDataLine second = true)
    (hpayload : (payload (dataOf second)).isSome = true)
    (hmiddle : ∀ text ∈ front ++ line :: back, isDataLine text = false)
    (hnone : ∀ front' text back', front ++ line :: back = front' ++ text :: back' →
      endsFrame text (back' ++ second :: after).dropLast = false)
    (hblank : BlankAt (before ++ first :: front).length entries) :
    LateAt false false (firstMarks (entries.map Prod.fst) ++ [(last, false)])
      (entries.map PassedLine.mark ++ [(last, false)]) := by
  have hwhole := map_fst_first (entries.map Prod.fst) last
  have hcut := map_fst_mark entries last
  rw [hlines] at hwhole hcut
  obtain ⟨before₁, rest, hone, rfl, hfrom⟩ := List.map_eq_append_iff.mp hwhole
  obtain ⟨first₁, rest, rfl, rfl, hbetween⟩ := List.map_eq_cons_iff.mp hfrom
  obtain ⟨middle₁, rest, rfl, hmiddle₁, hto⟩ := List.map_eq_append_iff.mp hbetween
  obtain ⟨second₁, after₁, rfl, rfl, rfl⟩ := List.map_eq_cons_iff.mp hto
  obtain ⟨before₂, rest, htwo, hbefore₂, hfrom'⟩ := List.map_eq_append_iff.mp hcut
  obtain ⟨first₂, rest, rfl, hfirst₂, hbetween'⟩ := List.map_eq_cons_iff.mp hfrom'
  obtain ⟨middle₂, rest, rfl, hmiddle₂, hto'⟩ := List.map_eq_append_iff.mp hbetween'
  obtain ⟨second₂, after₂, rfl, hsecond₂, hafter₂⟩ := List.map_eq_cons_iff.mp hto'
  obtain ⟨front₂, rest, rfl, rfl, hat⟩ := List.map_eq_append_iff.mp hmiddle₂
  obtain ⟨line₂, back₂, rfl, rfl, rfl⟩ := List.map_eq_cons_iff.mp hat
  refine ⟨before₁ ++ first₁ :: middle₁, second₁, after₁,
    (before₂ ++ first₂ :: front₂) ++ line₂ :: back₂, second₂, after₂, ?_, ?_, ?_, hsecond,
    hpayload, ?_, ?_⟩
  · rw [hone]
    simp
  · rw [htwo]
    simp
  · have hbefore := congrArg List.length hbefore₂
    have hmid := congrArg List.length hmiddle₁
    simp only [length_append, length_cons, length_map] at hbefore hmid ⊢
    omega
  · refine (seenAfter_iff _).mpr ⟨before₁, first₁, middle₁, rfl, hfirst, fun later hlater => ?_⟩
    have hmem : later.1 ∈ middle₁.map Prod.fst := mem_map_of_mem hlater
    refine ⟨hmiddle later.1 (hmiddle₁ ▸ hmem), ?_⟩
    obtain ⟨front', back', rfl⟩ := append_of_mem hlater
    have hparts : firstMarks (entries.map Prod.fst) ++ [(last, false)]
        = (before₁ ++ first₁ :: front') ++ later :: (back' ++ second₁ :: after₁) := by
      rw [hone]
      simp
    rw [firstMarks_mark (by simp) hparts, map_append, map_cons]
    refine hnone (front'.map Prod.fst) later.1 (back'.map Prod.fst) ?_
    rw [← hmiddle₁]
    simp
  · refine seenAfter_closed false (hmiddle line₂.1 (by simp)) ?_ fun later hlater =>
      hmiddle later.1 (by simp [mem_map_of_mem hlater])
    obtain ⟨entry, hentry, hleft⟩ := hblank
    have hlength : (before₁.map Prod.fst ++ first₁.1 :: front₂.map Prod.fst).length
        = (before₂ ++ first₂ :: front₂).length := by
      have hbefore := congrArg List.length hbefore₂
      simp only [length_append, length_cons, length_map] at hbefore ⊢
      omega
    have hline : (entries.map PassedLine.mark ++ [(last, false)])[
        (before₂ ++ first₂ :: front₂).length]? = some line₂ := by
      have hparts : before₂ ++ first₂ :: (front₂ ++ line₂ :: back₂ ++ second₂ :: after₂)
          = (before₂ ++ first₂ :: front₂) ++ line₂ :: (back₂ ++ second₂ :: after₂) := by simp
      rw [htwo, hparts, getElem?_append_right (Nat.le_refl _), Nat.sub_self, getElem?_cons_zero]
    have hmark : (entries.map PassedLine.mark ++ [(last, false)])[
        (before₂ ++ first₂ :: front₂).length]? = some entry.mark := by
      rw [hlength] at hentry
      rw [getElem?_append_left, getElem?_map, hentry]
      · rfl
      · rw [length_map]
        exact (List.getElem?_eq_some_iff.mp hentry).1
    rw [hline, Option.some_inj] at hmark
    rw [hmark, PassedLine.mark, List.isEmpty_iff]
    exact hleft

theorem framesHold_of_same
    (h : ∀ chunks : List Text, chunks.flatten = body →
      readPiMessagesEvents chunks truncated = readPiMessagesEvents [body] truncated) :
    FramesHold body truncated := by
  intro before first middle second after hsplit hfirst hsecond hpayload hmiddle hblank
  by_contra hnone
  obtain ⟨line, hline, hlineBlank⟩ := hblank
  obtain ⟨front, back, rfl⟩ := append_of_mem hline
  have hbody : (Lines.split '\n' body).1
      = ((before ++ first :: front) ++ [line]) ++ (back ++ second :: after).dropLast := by
    have hdrop := congrArg List.dropLast hsplit
    rw [splitLines, dropLast_concat, split_final] at hdrop
    rw [hdrop, ← dropLast_append_of_ne_nil (by simp)]
    simp
  obtain ⟨chunks, entries, hflatten, hentries, hpassed, hat⟩ :=
    blank_after_cut hbody hlineBlank truncated
  obtain ⟨hlines, hevents⟩ := hentries
  rw [hflatten] at hlines hevents
  have hsame := h chunks hflatten
  rw [hevents, readPiMessagesEvents_whole, hlines] at hsame
  rw [splitLines, hlines] at hsplit
  have hlate := lateAt_of_blank hsplit hfirst hsecond hpayload hmiddle
    (fun front' text back' hparts => by
      rw [← Bool.not_eq_true]
      exact fun hends => hnone ⟨front', text, back', hparts, hends⟩) hat
  have hlt := readLines_lt (forall₂_firstMarks hpassed) id hlate
  rw [hsame] at hlt
  exact lt_irrefl _ hlt

/-- **Cuts make no difference exactly where** every CR LF of the body holds for
the line reader and its frames hold for the pi-messages reader; the third
reader asks for nothing. -/
theorem readers_same_iff (body : Text) (truncated : Bool) :
    (∀ one other : List Text, one.flatten = body → other.flatten = body →
        iterateSseMessages one truncated = iterateSseMessages other truncated ∧
          readPiMessagesEvents one truncated = readPiMessagesEvents other truncated ∧
          parseSSE one truncated = parseSSE other truncated)
      ↔ LineEndsHold body truncated ∧ FramesHold body truncated := by
  constructor
  · intro h
    refine ⟨lineEndsHold_of_same fun chunks hchunks => ?_,
      framesHold_of_same fun chunks hchunks => ?_⟩
    · exact (h chunks [body] hchunks flatten_singleton).1
    · exact (h chunks [body] hchunks flatten_singleton).2.1
  · rintro ⟨hends, hframes⟩ one other hone hother
    refine ⟨?_, ?_, ?_⟩
    · rw [iterateSseMessages_of_lineEndsHold hends hone,
        iterateSseMessages_of_lineEndsHold hends hother]
    · rw [readPiMessagesEvents_of_framesHold hframes hone,
        readPiMessagesEvents_of_framesHold hframes hother]
    · rw [parseSSE_same one, parseSSE_same other, hone, hother]

/-- An event that a cut between CR and LF ends before its data. -/
theorem readers_differ : ¬ ∀ (body : Text) (truncated : Bool) (one other : List Text),
    one.flatten = body → other.flatten = body →
      iterateSseMessages one truncated = iterateSseMessages other truncated ∧
        readPiMessagesEvents one truncated = readPiMessagesEvents other truncated ∧
        parseSSE one truncated = parseSSE other truncated := by
  intro h
  have hsame := (h "event: a\r\ndata: x\r\n\r\n".toList false ["event: a\r\ndata: x\r\n\r\n".toList]
    ["event: a\r".toList, "\ndata: x\r\n\r\n".toList] rfl rfl).1
  exact absurd hsame (by decide +kernel)

end ReflectivePi.Ai
