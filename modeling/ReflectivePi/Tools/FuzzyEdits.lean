import ReflectivePi.Tools.Edits

/-!
# Tools — Fuzzy edits

Edits that match after normalization only. The lines that no match touches are
those of the content, and a block of touched lines is normalized text with the
matches replaced; the normalization is a parameter that works line by line.
-/

namespace ReflectivePi.Tools

open List
open Delta (JsString js)
open Search

/-! ## Line-wise normalization -/

/-- Every line is normalized by itself and stays one line, and an empty line
stays empty. -/
structure LineWise (f normalize : JsString → JsString) : Prop where
  lines : ∀ text, normalize text = [newline].intercalate ((split text [newline]).map f)
  oneLine : ∀ line, newline ∉ line → newline ∉ f line
  idempotent : ∀ text, normalize (normalize text) = normalize text
  blank : f [] = []

/-- The pieces between line feeds as lines. -/
def endLines : List JsString → List JsString
  | [] => []
  | [last] => if last = [] then [] else [last]
  | piece :: next :: rest => (piece ++ [newline]) :: endLines (next :: rest)

section

variable {f normalize : JsString → JsString} {pieces : List JsString}
  {content line piece : JsString}

theorem splitLoop_newline (piece text : JsString) :
    splitLoop [newline] 0 piece text = (text.splitOn newline).modifyHead (piece ++ ·) := by
  induction text generalizing piece with
  | nil => simp [splitLoop]
  | cons c text ih =>
    have hne := splitOn_ne_nil newline text
    rw [splitLoop, splitOn_cons_eq_if_modifyHead]
    by_cases hc : c = newline
    · subst hc
      rw [if_pos (by rfl), if_pos (beq_self_eq_true _), modifyHead_cons, append_nil]
      refine congrArg (piece :: ·) ((ih []).trans ?_)
      cases text.splitOn newline <;> rfl
    · have hno : [newline].isPrefixOf (c :: text) = false := by
        rw [List.isPrefixOf, beq_eq_false_iff_ne.mpr (Ne.symm hc)]
        rfl
      rw [hno, if_neg Bool.false_ne_true, if_neg (by simpa using hc), ih]
      cases hpieces : text.splitOn newline with
      | nil => exact absurd hpieces hne
      | cons p pieces => simp

theorem split_newline (text : JsString) : split text [newline] = text.splitOn newline := by
  rw [split, if_neg (cons_ne_nil _ _), splitLoop_newline]
  cases text.splitOn newline <;> rfl

theorem newline_notMem_splitOn (text : JsString) : ∀ p ∈ text.splitOn newline, newline ∉ p := by
  induction text with
  | nil => simp
  | cons c text ih =>
    rw [splitOn_cons_eq_if_modifyHead]
    split
    · simpa using ih
    · rename_i hc
      cases hpieces : text.splitOn newline with
      | nil => simp
      | cons p pieces =>
        rw [hpieces, forall_mem_cons] at ih
        rw [modifyHead_cons, forall_mem_cons, mem_cons, not_or]
        exact ⟨⟨fun h => hc (by simp [h]), ih.1⟩, ih.2⟩

theorem splitOn_joined (h : ∀ line, newline ∉ line → newline ∉ f line) (content : JsString) :
    ([newline].intercalate ((split content [newline]).map f)).splitOn newline
      = (content.splitOn newline).map f := by
  rw [split_newline]
  refine splitOn_intercalate newline (fun p hp => ?_) ?_
  · obtain ⟨line, hline, rfl⟩ := List.mem_map.mp hp
    exact h line (newline_notMem_splitOn content line hline)
  simp

theorem LineWise.split (hf : LineWise f normalize) (content : JsString) :
    (normalize content).splitOn newline = (content.splitOn newline).map f := by
  rw [hf.lines, splitOn_joined hf.oneLine]

theorem LineWise.nil (hf : LineWise f normalize) : normalize [] = [] := by
  rw [hf.lines, split_newline, splitOn_nil, map_singleton, hf.blank]
  rfl

theorem splitLinesLoop_eq (line content : JsString) :
    splitLinesLoop line content = endLines ((content.splitOn newline).modifyHead (line ++ ·)) := by
  induction content generalizing line with
  | nil => simp [splitLinesLoop, endLines]
  | cons c rest ih =>
    have hne := splitOn_ne_nil newline rest
    rw [splitLinesLoop, splitOn_cons_eq_if_modifyHead]
    cases hpieces : rest.splitOn newline with
    | nil => exact absurd hpieces hne
    | cons p pieces =>
      by_cases hc : c = newline
      · subst hc
        simp [ih, hpieces, endLines]
      · simp [ih, hpieces, hc]

theorem splitLinesWithEndings_eq (content : JsString) :
    splitLinesWithEndings content = endLines (content.splitOn newline) := by
  rw [splitLinesWithEndings, splitLinesLoop_eq]
  cases content.splitOn newline <;> rfl

theorem splitLinesWithEndings_flatten (content : JsString) :
    (splitLinesWithEndings content).flatten = content := by
  suffices h : ∀ line, (splitLinesLoop line content).flatten = line ++ content from h []
  intro line
  fun_induction splitLinesLoop line content <;> simp_all

theorem length_endLines_map (hblank : f [] = [])
    (hlast : ∀ last ∈ pieces.getLast?, f last = [] → last = []) :
    (endLines (pieces.map f)).length = (endLines pieces).length := by
  fun_induction endLines pieces with
  | case1 => rfl
  | case2 => simp [endLines, hblank]
  | case3 last hne =>
    have hkept : f last ≠ [] := fun h => hne (hlast last rfl h)
    simp [endLines, hkept]
  | case4 piece next rest ih =>
    have hrest := ih (by simpa [getLast?_cons_cons] using hlast)
    simp only [map_cons, endLines, length_cons] at hrest ⊢
    rw [hrest]

theorem LineWise.length_lines (hf : LineWise f normalize)
    (hlast : ∀ last ∈ (content.splitOn newline).getLast?, f last = [] → last = []) :
    (splitLinesWithEndings (normalize content)).length
      = (splitLinesWithEndings content).length := by
  rw [splitLinesWithEndings_eq, splitLinesWithEndings_eq, hf.split, length_endLines_map hf.blank hlast]

end

/-! ## Rewritten lines -/

def lineStart (lines : List JsString) (i : Nat) : Nat := (lines.take i).flatten.length

def MatchedEdit.matchEnd (m : MatchedEdit) : Nat := m.matchIndex + m.matchLength

/-- A region that intersects a line. -/
def TouchesLine (lines : List JsString) (i : Nat) (m : MatchedEdit) : Prop :=
  lineStart lines i < m.matchEnd ∧ m.matchIndex < lineStart lines (i + 1)

/-- What is written from line `i` on: a line that no region intersects as it is
in the original, and a maximal block of lines that are intersected as they are
in the base, with the regions replaced. -/
inductive RewrittenFrom (originalLines baseLines : List JsString) :
    Nat → List MatchedEdit → JsString → Prop where
  | done {i : Nat} (h : originalLines.length ≤ i) : RewrittenFrom originalLines baseLines i [] []
  | keep {i : Nat} {line new : JsString} {regions : List MatchedEdit}
      (hline : originalLines[i]? = some line)
      (hfree : ∀ m ∈ regions, lineStart baseLines (i + 1) ≤ m.matchIndex)
      (h : RewrittenFrom originalLines baseLines (i + 1) regions new) :
      RewrittenFrom originalLines baseLines i regions (line ++ new)
  | block {i j : Nat} {before after : List MatchedEdit} {new new' : JsString}
      (hlt : i < j) (hle : j ≤ originalLines.length)
      (htouched : ∀ k, i ≤ k → k < j → ∃ m ∈ before, TouchesLine baseLines k m)
      (hwithin : ∀ m ∈ before, m.matchEnd ≤ lineStart baseLines j)
      (hreplaced : ReplacedAt (baseLines.take j).flatten (lineStart baseLines i) before new)
      (hmax : j < originalLines.length → ∀ m ∈ after, ¬ TouchesLine baseLines j m)
      (h : RewrittenFrom originalLines baseLines j after new') :
      RewrittenFrom originalLines baseLines i (before ++ after) (new ++ new')

section

variable {original lines : List JsString} {base new new' : JsString} {m : MatchedEdit}
  {before after regions : List MatchedEdit} {i j k : Nat}

theorem lineStart_mono (lines : List JsString) (h : i ≤ j) : lineStart lines i ≤ lineStart lines j := by
  rw [lineStart, lineStart, ← Nat.add_sub_cancel' h, take_add, flatten_append, length_append]
  exact Nat.le_add_right _ _

theorem take_lineStart (lines : List JsString) (h : i ≤ j) :
    (lines.take j).flatten.take (lineStart lines i) = (lines.take i).flatten := by
  rw [lineStart, ← Nat.add_sub_cancel' h, take_add, flatten_append, take_left]

theorem getElem?_lineSpans (offset : Nat) (h : i < lines.length) :
    (lineSpans offset lines)[i]?
      = some ⟨offset + lineStart lines i, offset + lineStart lines (i + 1)⟩ := by
  induction lines generalizing offset i with
  | nil => cases h
  | cons line rest ih =>
    cases i with
    | zero => simp [lineSpans, lineStart]
    | succ i =>
      rw [lineSpans, getElem?_cons_succ, ih _ (Nat.lt_of_succ_lt_succ h)]
      simp [lineStart, Nat.add_assoc]

theorem length_lineSpans (offset : Nat) (lines : List JsString) :
    (lineSpans offset lines).length = lines.length := by
  induction lines generalizing offset with
  | nil => rfl
  | cons line rest ih => rw [lineSpans, length_cons, ih, length_cons]

theorem getElem_spans (h : i < (lineSpans 0 lines).length) :
    (lineSpans 0 lines)[i] = ⟨lineStart lines i, lineStart lines (i + 1)⟩ := by
  have hget := getElem?_lineSpans 0 (length_lineSpans 0 lines ▸ h)
  rw [Nat.zero_add, Nat.zero_add] at hget
  exact (List.getElem?_eq_some_iff.mp hget).2

variable {content : JsString} {groups : List Group}

theorem ReplacedAt.join {b s : Nat} (h : ReplacedAt (content.take s) b before new) (hs : b ≤ s)
    (hwithin : ∀ m ∈ before, m.matchEnd ≤ s) (h' : ReplacedAt content s after new') :
    ReplacedAt content b (before ++ after) (new ++ new') := by
  induction before generalizing b new with
  | nil =>
    cases h
    cases h' with
    | nil =>
      rw [← drop_eq_append content hs]
      exact .nil b
    | @cons _ m _ _ hb h' =>
      have hfirst := drop_eq_append (content.take m.matchIndex) hs
      rw [take_take, Nat.min_eq_left hb] at hfirst
      rw [← append_assoc, ← hfirst]
      exact .cons (Nat.le_trans hs hb) h'
  | cons m before ih =>
    rw [forall_mem_cons] at hwithin
    cases h with
    | cons hb h =>
      have hle : m.matchIndex ≤ s := Nat.le_of_add_right_le hwithin.1
      rw [take_take, Nat.min_eq_left hle, append_assoc, append_assoc]
      exact .cons hb (ih h hwithin.1 hwithin.2)

/-- A block before what is written, joined with the block that follows. -/
theorem RewrittenFrom.block_append (hlt : i < j) (hle : j ≤ original.length)
    (htouched : ∀ k, i ≤ k → k < j → ∃ m ∈ before, TouchesLine lines k m)
    (hwithin : ∀ m ∈ before, m.matchEnd ≤ lineStart lines j)
    (hreplaced : ReplacedAt (lines.take j).flatten (lineStart lines i) before new)
    (h : RewrittenFrom original lines j after new') :
    RewrittenFrom original lines i (before ++ after) (new ++ new') := by
  cases h with
  | done hdone =>
    exact .block hlt hle htouched hwithin hreplaced (fun h => absurd hdone (Nat.not_le.mpr h))
      (.done hdone)
  | keep hline hfree h =>
    exact .block hlt hle htouched hwithin hreplaced
      (fun _ m hm htouch => absurd htouch.2 (Nat.not_lt.mpr (hfree m hm))) (.keep hline hfree h)
  | @block _ j' before' after' new₁ new₂ hlt' hle' htouched' hwithin' hreplaced' hmax' h' =>
    rw [← append_assoc, ← append_assoc]
    refine .block (Nat.lt_trans hlt hlt') hle' (fun k hik hkj => ?_) (fun m hm => ?_) ?_ hmax' h'
    · rcases Nat.lt_or_ge k j with hkj' | hkj'
      · obtain ⟨m, hm, htouch⟩ := htouched k hik hkj'
        exact ⟨m, mem_append_left _ hm, htouch⟩
      · obtain ⟨m, hm, htouch⟩ := htouched' k hkj' hkj
        exact ⟨m, mem_append_right _ hm, htouch⟩
    · rcases List.mem_append.mp hm with hm | hm
      · exact Nat.le_trans (hwithin m hm) (lineStart_mono lines hlt'.le)
      · exact hwithin' m hm
    · rw [← take_lineStart lines hlt'.le] at hreplaced
      exact hreplaced.join (lineStart_mono lines hlt.le) hwithin hreplaced'

theorem RewrittenFrom.keep_lines (h : RewrittenFrom original lines j regions new)
    (hij : i ≤ j) (hj : j ≤ original.length)
    (hfree : ∀ m ∈ regions, lineStart lines j ≤ m.matchIndex) :
    RewrittenFrom original lines i regions (((original.take j).drop i).flatten ++ new) := by
  induction hij using Nat.decreasingInduction with
  | self => rwa [drop_eq_nil_of_le (length_take_le _ _)]
  | of_succ i hij ih =>
    have hi : i < (original.take j).length := by
      rw [length_take]
      omega
    rw [drop_eq_getElem_cons hi, flatten_cons, append_assoc]
    refine .keep ?_ (fun m hm => Nat.le_trans (lineStart_mono lines hij) (hfree m hm)) ih
    simp

/-! ## Groups -/

structure LinesOf (lines : List JsString) (m : MatchedEdit) (startLine endLine : Nat) : Prop where
  nonempty : startLine < endLine
  inside : endLine ≤ lines.length
  start : lineStart lines startLine ≤ m.matchIndex ∧ m.matchIndex < lineStart lines (startLine + 1)
  stop : lineStart lines (endLine - 1) < m.matchEnd ∧ m.matchEnd ≤ lineStart lines endLine

theorem LinesOf.touches (h : LinesOf lines m i j) (hik : i ≤ k) (hkj : k < j) :
    TouchesLine lines k m :=
  ⟨Nat.lt_of_le_of_lt (lineStart_mono lines (Nat.le_sub_one_of_lt hkj)) h.stop.1,
    Nat.lt_of_lt_of_le h.start.2 (lineStart_mono lines (Nat.succ_le_succ hik))⟩

theorem findEndLine_some {stop : Nat} (hk : k < lines.length) (hstart : lineStart lines k < stop)
    (hstop : stop ≤ lineStart lines lines.length) :
    ∃ e, findEndLine stop k ((lineSpans 0 lines).drop k) = some e ∧ k ≤ e ∧ e < lines.length ∧
      lineStart lines e < stop ∧ stop ≤ lineStart lines (e + 1) := by
  induction hn : lines.length - k generalizing k with
  | zero => omega
  | succ n ih =>
    have hspan : k < (lineSpans 0 lines).length := by rwa [length_lineSpans]
    rw [drop_eq_getElem_cons hspan, getElem_spans, findEndLine]
    split
    · rename_i hlt
      have hnext : k + 1 < lines.length := by
        by_contra hge
        have hlast : lines.length = k + 1 := by omega
        rw [hlast] at hstop
        exact Nat.not_lt.mpr hstop hlt
      obtain ⟨e, hfound, hke, hrest⟩ := ih hnext hlt (by omega)
      exact ⟨e, hfound, Nat.le_of_succ_le hke, hrest⟩
    · rename_i hge
      exact ⟨k, rfl, Nat.le_refl k, hk, hstart, Nat.not_lt.mp hge⟩

theorem exists_line {x : Nat} (h : x < lineStart lines lines.length) :
    ∃ i < lines.length, lineStart lines i ≤ x ∧ x < lineStart lines (i + 1) := by
  have hfind : ∃ i, x < lineStart lines i := ⟨_, h⟩
  have hlt := Nat.find_spec hfind
  have hle := Nat.find_min' hfind h
  cases hi : Nat.find hfind with
  | zero =>
    rw [hi] at hlt
    cases hlt
  | succ i =>
    rw [hi] at hlt hle
    exact ⟨i, hle, Nat.not_lt.mp (Nat.find_min hfind (hi ▸ Nat.lt_succ_self i)), hlt⟩

theorem getReplacementLineRange_ok (hpos : 0 < m.matchLength)
    (hend : m.matchEnd ≤ lineStart lines lines.length) :
    ∃ s e, getReplacementLineRange (lineSpans 0 lines) m = .ok (s, e) ∧ LinesOf lines m s e := by
  have hlt : m.matchIndex < m.matchEnd := Nat.lt_add_of_pos_right hpos
  obtain ⟨i, hi, hle, hin⟩ := exists_line (Nat.lt_of_lt_of_le hlt hend)
  have hspan : i < (lineSpans 0 lines).length := by rwa [length_lineSpans]
  rw [getReplacementLineRange]
  cases hfound : (lineSpans 0 lines).findIdx? fun line =>
      decide (line.start ≤ m.matchIndex) && decide (m.matchIndex < line.stop) with
  | none =>
    have hno := List.findIdx?_eq_none_iff.mp hfound _ (getElem_mem hspan)
    rw [getElem_spans] at hno
    simp only [Bool.and_eq_false_iff, decide_eq_false_iff_not] at hno
    omega
  | some s =>
    obtain ⟨hs, hp, -⟩ := List.findIdx?_eq_some_iff_getElem.mp hfound
    rw [getElem_spans, Bool.and_eq_true, decide_eq_true_eq, decide_eq_true_eq] at hp
    rw [length_lineSpans] at hs
    obtain ⟨e, he, hse, hen, hstart, hstop⟩ :=
      findEndLine_some hs (Nat.lt_of_le_of_lt hp.1 hlt) hend
    have hend' : findEndLine (m.matchIndex + m.matchLength) s ((lineSpans 0 lines).drop s)
        = some e := he
    dsimp only
    rw [hend']
    exact ⟨s, e + 1, rfl, Nat.lt_succ_of_le hse, hen, hp, hstart, hstop⟩

/-- A group's lines are those that its regions touch. -/
structure Group.Covers (lines : List JsString) (group : Group) : Prop where
  nonempty : group.startLine < group.endLine
  inside : group.endLine ≤ lines.length
  touched : ∀ k, group.startLine ≤ k → k < group.endLine →
    ∃ m ∈ group.replacements, TouchesLine lines k m
  within : ∀ m ∈ group.replacements, lineStart lines group.startLine ≤ m.matchIndex ∧
    m.matchEnd ≤ lineStart lines group.endLine

/-- Groups in order, from a line on. -/
def Grouped (lines : List JsString) : Nat → List Group → Prop
  | _, [] => True
  | k, group :: rest =>
    k ≤ group.startLine ∧ group.Covers lines ∧ Grouped lines group.endLine rest

theorem Grouped.of_le (h : Grouped lines j groups) (hij : i ≤ j) : Grouped lines i groups := by
  cases groups with
  | nil => trivial
  | cons group rest => exact ⟨Nat.le_trans hij h.1, h.2⟩

theorem LinesOf.covers (h : LinesOf lines m i j) : (Group.mk i j [m]).Covers lines where
  nonempty := h.nonempty
  inside := h.inside
  touched _ hik hkj := ⟨m, mem_singleton_self m, h.touches hik hkj⟩
  within := List.forall_mem_singleton.mpr ⟨h.start.1, h.stop.2⟩

theorem Group.Covers.extend {group : Group} (h : group.Covers lines) (hm : LinesOf lines m i j)
    (hi : i + 1 = group.endLine) :
    ({ group with
      endLine := max group.endLine j
      replacements := group.replacements ++ [m] } : Group).Covers lines := by
  have hmax : max group.endLine j = j := Nat.max_eq_right (hi ▸ hm.nonempty)
  have hstart : group.startLine ≤ i := by
    have hlt := h.nonempty
    omega
  have hj : group.endLine ≤ j := hi ▸ hm.nonempty
  refine ⟨?_, ?_, fun k hk hkj => ?_, fun m' hm' => ?_⟩
  · exact Nat.lt_of_lt_of_le h.nonempty (Nat.le_max_left _ _)
  · rw [hmax]
    exact hm.inside
  · rw [hmax] at hkj
    rcases Nat.lt_or_ge k i with hki | hki
    · obtain ⟨m', hm', htouch⟩ := h.touched k hk (by omega)
      exact ⟨m', mem_append_left _ hm', htouch⟩
    · exact ⟨m, mem_append_right _ (mem_singleton_self m), hm.touches hki hkj⟩
  · rw [hmax]
    rcases List.mem_append.mp hm' with hm' | hm'
    · exact ⟨(h.within m' hm').1, Nat.le_trans (h.within m' hm').2 (lineStart_mono lines hj)⟩
    · obtain rfl := List.mem_singleton.mp hm'
      exact ⟨Nat.le_trans (lineStart_mono lines hstart) hm.start.1, hm.stop.2⟩

/-- Regions in order and apart, none of them empty, inside the lines. -/
structure Regions (lines : List JsString) (regions : List MatchedEdit) : Prop where
  apart : regions.Pairwise fun m m' => m.matchEnd ≤ m'.matchIndex
  nonempty : ∀ m ∈ regions, 0 < m.matchLength
  inside : ∀ m ∈ regions, m.matchEnd ≤ lineStart lines lines.length

theorem Regions.of_cons (h : Regions lines (m :: regions)) : Regions lines regions :=
  ⟨h.apart.of_cons, fun m' hm' => h.nonempty m' (mem_cons_of_mem _ hm'),
    fun m' hm' => h.inside m' (mem_cons_of_mem _ hm')⟩

/-- What becomes of the current group and the regions that follow it; the last
line of the group is touched up to `p`. -/
theorem groupReplacements_from {current : Group} (earlier : List Group) {p : Nat}
    (hcurrent : current.Covers lines) (hp : lineStart lines (current.endLine - 1) < p)
    (hregions : Regions lines regions) (hle : ∀ m ∈ regions, p ≤ m.matchIndex) :
    ∃ groups, groupReplacements (lineSpans 0 lines) (current :: earlier) regions
        = .ok (earlier.reverse ++ groups) ∧
      Grouped lines current.startLine groups ∧
      groups.flatMap Group.replacements = current.replacements ++ regions := by
  induction regions generalizing current earlier p with
  | nil =>
    refine ⟨[current], ?_, ⟨Nat.le_refl _, hcurrent, trivial⟩, by simp⟩
    rw [groupReplacements, reverse_cons]
  | cons m rest ih =>
    have hrest := hregions.of_cons
    obtain ⟨s, e, hrange, hlines⟩ := getReplacementLineRange_ok
      (hregions.nonempty m mem_cons_self) (hregions.inside m mem_cons_self)
    have hafter := (List.pairwise_cons.mp hregions.apart).1
    rw [groupReplacements, hrange]
    dsimp only [bind, Except.bind]
    split
    · rename_i hshared
      -- the region starts where the group has been touched already
      have hs : s + 1 = current.endLine := by
        by_contra hne
        have hbefore := lineStart_mono lines (show s + 1 ≤ current.endLine - 1 by omega)
        have hpm := hle m mem_cons_self
        have hstart := hlines.start.2
        omega
      have hmax : max current.endLine e = e := Nat.max_eq_right (hs ▸ hlines.nonempty)
      obtain ⟨groups, hok, hgrouped, hflat⟩ := ih earlier
        (hcurrent.extend hlines hs) (by simpa only [hmax] using hlines.stop.1) hrest hafter
      exact ⟨groups, hok, hgrouped, by simpa using hflat⟩
    · rename_i hapart
      obtain ⟨groups, hok, hgrouped, hflat⟩ := ih (current :: earlier) hlines.covers
        hlines.stop.1 hrest hafter
      refine ⟨current :: groups, ?_, ⟨Nat.le_refl _, hcurrent,
        hgrouped.of_le (Nat.not_lt.mp hapart)⟩, ?_⟩
      · rw [hok, reverse_cons, append_assoc, singleton_append]
      · rw [flatMap_cons, hflat, singleton_append]

theorem groupReplacements_ok (hregions : Regions lines regions) :
    ∃ groups, groupReplacements (lineSpans 0 lines) [] regions = .ok groups ∧
      Grouped lines 0 groups ∧ groups.flatMap Group.replacements = regions := by
  cases regions with
  | nil => exact ⟨[], rfl, trivial, rfl⟩
  | cons m rest =>
    obtain ⟨s, e, hrange, hlines⟩ := getReplacementLineRange_ok
      (hregions.nonempty m mem_cons_self) (hregions.inside m mem_cons_self)
    obtain ⟨groups, hok, hgrouped, hflat⟩ := groupReplacements_from []
      hlines.covers hlines.stop.1 hregions.of_cons (List.pairwise_cons.mp hregions.apart).1
    refine ⟨groups, ?_, hgrouped.of_le (Nat.zero_le _), hflat⟩
    rw [groupReplacements, hrange]
    exact hok

theorem exists_replacedAt {b : Nat}
    (hapart : regions.Pairwise fun m m' => m.matchEnd ≤ m'.matchIndex)
    (hb : ∀ m ∈ regions, b ≤ m.matchIndex) : ∃ new, ReplacedAt content b regions new := by
  induction regions generalizing b with
  | nil => exact ⟨_, .nil b⟩
  | cons m rest ih =>
    obtain ⟨hafter, hrest⟩ := List.pairwise_cons.mp hapart
    obtain ⟨new, hnew⟩ := ih hrest hafter
    exact ⟨_, .cons (hb m mem_cons_self) hnew⟩

theorem Grouped.start_le (h : Grouped lines k groups) :
    ∀ m ∈ groups.flatMap Group.replacements, lineStart lines k ≤ m.matchIndex := by
  induction groups generalizing k with
  | nil => simp
  | cons group rest ih =>
    obtain ⟨hk, hcovers, hrest⟩ := h
    intro m hm
    rcases List.mem_append.mp (flatMap_cons ▸ hm) with hm | hm
    · exact Nat.le_trans (lineStart_mono lines hk) (hcovers.within m hm).1
    · exact Nat.le_trans (lineStart_mono lines (Nat.le_trans hk hcovers.nonempty.le))
        (ih hrest m hm)

theorem rewriteGroups_rewritten (hlength : original.length = lines.length)
    (hk : k ≤ original.length) (h : Grouped lines k groups)
    (hapart : (groups.flatMap Group.replacements).Pairwise fun m m' => m.matchEnd ≤ m'.matchIndex) :
    RewrittenFrom original lines k (groups.flatMap Group.replacements)
      (rewriteGroups original (lineSpans 0 lines) lines.flatten k groups) := by
  induction groups generalizing k with
  | nil =>
    have htail : RewrittenFrom original lines k [] _ :=
      (RewrittenFrom.done (Nat.le_refl original.length)).keep_lines hk (Nat.le_refl _)
        fun _ hm => nomatch hm
    rwa [take_length, append_nil] at htail
  | cons group rest ih =>
    obtain ⟨hstart, hcovers, hrest⟩ := h
    have hend : group.endLine ≤ original.length := hlength ▸ hcovers.inside
    obtain ⟨hgroup, hafter, -⟩ := List.pairwise_append.mp hapart
    obtain ⟨new, hnew⟩ : ∃ new, ReplacedAt (lines.take group.endLine).flatten
        (lineStart lines group.startLine) group.replacements new :=
      exists_replacedAt hgroup fun m hm => (hcovers.within m hm).1
    have happlied := hnew.applyReplacements (Nat.le_refl _)
      (lineStart_mono lines hcovers.nonempty.le) fun m hm => (hcovers.within m hm).2
    rw [drop_eq_nil_of_le (length_take_le _ _), nil_append] at happlied
    have hfirst := getElem?_lineSpans 0 (Nat.lt_of_lt_of_le hcovers.nonempty hcovers.inside)
    have hone : group.endLine - 1 + 1 = group.endLine :=
      Nat.sub_add_cancel (Nat.one_le_of_lt hcovers.nonempty)
    have hlast := getElem?_lineSpans 0 (Nat.lt_of_lt_of_le (Nat.lt_succ_self _)
      (hone.symm ▸ hcovers.inside : group.endLine - 1 + 1 ≤ lines.length))
    have hcontent : lines.flatten.take (lineStart lines group.endLine)
        = (lines.take group.endLine).flatten := by
      have htake := take_lineStart lines hcovers.inside
      rwa [take_length] at htake
    rw [rewriteGroups, hfirst, hlast]
    simp only [Option.map_some, Option.getD_some, Nat.zero_add]
    rw [hone, hcontent, happlied, append_assoc]
    refine RewrittenFrom.keep_lines ?_ hstart (Nat.le_trans hcovers.nonempty.le hend) ?_
    · exact RewrittenFrom.block_append hcovers.nonempty hend hcovers.touched
        (fun m hm => (hcovers.within m hm).2) hnew (ih hend hrest hafter)
    · intro m hm
      rcases List.mem_append.mp hm with hm | hm
      · exact (hcovers.within m hm).1
      · exact Nat.le_trans (lineStart_mono lines hcovers.nonempty.le) (hrest.start_le m hm)

theorem insertionSort_regions (hapart : regions.Pairwise fun m m' => m.matchEnd ≤ m'.matchIndex) :
    regions.insertionSort byIndex = regions :=
  (hapart.imp fun h => Nat.le_trans (Nat.le_add_right _ _) h).insertionSort_eq

theorem applyReplacementsPreservingUnchangedLines_ok
    (hlength : (splitLinesWithEndings content).length = (splitLinesWithEndings base).length)
    (hregions : Regions (splitLinesWithEndings base) regions) :
    ∃ new, applyReplacementsPreservingUnchangedLines content base regions = .ok new ∧
      RewrittenFrom (splitLinesWithEndings content) (splitLinesWithEndings base) 0 regions new := by
  obtain ⟨groups, hok, hgrouped, hflat⟩ := groupReplacements_ok hregions
  have hrewritten := rewriteGroups_rewritten hlength (Nat.zero_le _) hgrouped
    (hflat.symm ▸ hregions.apart)
  rw [splitLinesWithEndings_flatten, hflat] at hrewritten
  refine ⟨_, ?_, hrewritten⟩
  rw [applyReplacementsPreservingUnchangedLines, getLineSpans, length_lineSpans]
  rw [if_neg (not_not.mpr hlength), insertionSort_regions hregions.apart, hok]
  rfl

end

/-! ## Matching in normalized text -/

/-- Where an edit is found in the base. -/
def regionOf (nfkc : JsString → JsString) (base : JsString) (i : Nat) (edit : Edit) : MatchedEdit :=
  match fuzzyFindText nfkc base edit.oldText with
  | some matchResult => ⟨i, matchResult.index, matchResult.matchLength, edit.newText⟩
  | none => ⟨i, 0, 0, edit.newText⟩

def regionsOf (nfkc : JsString → JsString) (base : JsString) : Nat → List Edit → List MatchedEdit
  | _, [] => []
  | i, edit :: rest => regionOf nfkc base i edit :: regionsOf nfkc base (i + 1) rest

/-- The matched regions in order of position in the normalized content. -/
def matchedRegions (nfkc : JsString → JsString) (content : JsString) (edits : List Edit) :
    List MatchedEdit :=
  (regionsOf nfkc (normalizeForFuzzyMatch nfkc content) 0
    (edits.map normalizeEdit)).insertionSort byIndex

/-- An edit that matches only after normalization. -/
def FuzzyOnly (nfkc : JsString → JsString) (content : JsString) (edit : Edit) : Prop :=
  ¬ Occurs (normalizeToLF edit.oldText) content ∧
    Occurs (normalizeForFuzzyMatch nfkc (normalizeToLF edit.oldText))
      (normalizeForFuzzyMatch nfkc content)

/-- The normalized text of an edit is there once. -/
def FoundOnce (nfkc : JsString → JsString) (content : JsString) (edit : Edit) : Prop :=
  normalizeForFuzzyMatch nfkc (normalizeToLF edit.oldText) ≠ [] ∧
    Once (normalizeForFuzzyMatch nfkc (normalizeToLF edit.oldText))
      (normalizeForFuzzyMatch nfkc content)

section

variable {nfkc f : JsString → JsString} {content base : JsString} {edits : List Edit}
  {edit : Edit} {path : String} {i : Nat}

theorem fuzzyFindText_inside (hbase : normalizeForFuzzyMatch nfkc base = base)
    (hold : edit.oldText ≠ []) (hfuzzy : normalizeForFuzzyMatch nfkc edit.oldText ≠ [])
    (honce : Once (normalizeForFuzzyMatch nfkc edit.oldText) base) :
    ∃ r, fuzzyFindText nfkc base edit.oldText = some r ∧ 0 < r.matchLength ∧
      r.index + r.matchLength ≤ base.length := by
  rw [fuzzyFindText]
  cases hexact : indexOf edit.oldText base with
  | some j =>
    exact ⟨_, rfl, length_pos_of_ne_nil hold, (indexOf_some hexact).1.bound⟩
  | none =>
    obtain ⟨j, hj, -⟩ := honce
    obtain ⟨first, hfirst⟩ := Option.isSome_iff_exists.mp (indexOf_isSome hj)
    dsimp only
    rw [hbase, hfirst]
    exact ⟨_, rfl, length_pos_of_ne_nil hfuzzy, (indexOf_some hfirst).1.bound⟩

theorem matchEdits_regions {total : Nat}
    (h : ∀ edit ∈ edits, (fuzzyFindText nfkc base edit.oldText).isSome ∧
      countOccurrences nfkc base edit.oldText ≤ 1) :
    matchEdits nfkc base path total i edits = .ok (regionsOf nfkc base i edits) := by
  induction edits generalizing i with
  | nil => rfl
  | cons edit rest ih =>
    obtain ⟨hfound, hcount⟩ := h edit mem_cons_self
    obtain ⟨r, hr⟩ := Option.isSome_iff_exists.mp hfound
    rw [matchEdits, hr, regionsOf, regionOf, hr]
    dsimp only
    rw [if_neg (Int.not_lt.mpr hcount), ih fun e he => h e (mem_cons_of_mem _ he)]
    rfl

theorem mem_regionsOf {m : MatchedEdit} (h : m ∈ regionsOf nfkc base i edits) :
    ∃ edit ∈ edits, ∃ j, m = regionOf nfkc base j edit := by
  induction edits generalizing i with
  | nil => cases h
  | cons edit rest ih =>
    rcases List.mem_cons.mp h with rfl | h
    · exact ⟨edit, mem_cons_self, i, rfl⟩
    · obtain ⟨e, he, hm⟩ := ih h
      exact ⟨e, mem_cons_of_mem _ he, hm⟩

theorem lineStart_length (text : JsString) :
    lineStart (splitLinesWithEndings text) (splitLinesWithEndings text).length = text.length := by
  rw [lineStart, take_length, splitLinesWithEndings_flatten]

/-- **A fuzzy edit touches only the lines it matches**: where the last line of
the content does not normalize to nothing, the lines are rewritten, and the
result is rejected only if it is the content. -/
theorem applyEdits_fuzzy (hf : LineWise f (normalizeForFuzzyMatch nfkc))
    (hfuzzy : ∃ edit ∈ edits, FuzzyOnly nfkc content edit)
    (honce : ∀ edit ∈ edits, FoundOnce nfkc content edit)
    (hapart : (matchedRegions nfkc content edits).Pairwise MatchedEdit.Apart)
    (hlast : ∀ last ∈ (split content [newline]).getLast?, f last = [] → last = []) :
    ∃ new, RewrittenFrom (splitLinesWithEndings content)
        (splitLinesWithEndings (normalizeForFuzzyMatch nfkc content)) 0
        (matchedRegions nfkc content edits) new ∧
      applyEditsToNormalizedContent nfkc content edits path =
        if content = new then .error (getNoChangeError path edits.length) else .ok new := by
  have hbase := hf.idempotent content
  have hedits : ∀ edit ∈ edits.map normalizeEdit, edit.oldText ≠ [] ∧
      normalizeForFuzzyMatch nfkc edit.oldText ≠ [] ∧
      Once (normalizeForFuzzyMatch nfkc edit.oldText) (normalizeForFuzzyMatch nfkc content) := by
    intro e he
    obtain ⟨edit, hedit, rfl⟩ := List.mem_map.mp he
    obtain ⟨hne, hunique⟩ := honce edit hedit
    exact ⟨fun hnil => hne ((congrArg _ hnil).trans hf.nil), hne, hunique⟩
  have hfound := fun edit hedit => fuzzyFindText_inside hbase (hedits edit hedit).1
    (hedits edit hedit).2.1 (hedits edit hedit).2.2
  have hmatch := @matchEdits_regions nfkc (normalizeForFuzzyMatch nfkc content)
    (edits.map normalizeEdit) path 0 (edits.map normalizeEdit).length fun edit hedit => by
      obtain ⟨r, hr, -⟩ := hfound edit hedit
      refine ⟨hr ▸ rfl, ?_⟩
      have hpieces := split_length_le_of_once (hedits edit hedit).2.2
      rw [countOccurrences, hbase]
      omega
  have hinside : ∀ m ∈ matchedRegions nfkc content edits, 0 < m.matchLength ∧
      m.matchEnd ≤ (normalizeForFuzzyMatch nfkc content).length := by
    intro m hm
    obtain ⟨edit, hedit, j, rfl⟩ := mem_regionsOf ((mem_insertionSort byIndex).mp hm)
    obtain ⟨r, hr, hpos, hbound⟩ := hfound edit hedit
    rw [regionOf, hr]
    exact ⟨hpos, hbound⟩
  have hoverlap : findOverlap (matchedRegions nfkc content edits) = none :=
    findOverlap_of_apart (pairwise_insertionSort byIndex _) hapart fun m hm => (hinside m hm).1
  obtain ⟨spliced, hspliced⟩ : ∃ new, ReplacedAt (normalizeForFuzzyMatch nfkc content) 0
      (matchedRegions nfkc content edits) new :=
    replacedAt_of_findOverlap hoverlap fun m _ => Nat.zero_le _
  obtain ⟨new, hok, hnew⟩ := applyReplacementsPreservingUnchangedLines_ok
    (hf.length_lines (split_newline content ▸ hlast)).symm
    ⟨hspliced.pairwise.2, fun m hm => (hinside m hm).1, fun m hm => by
      rw [lineStart_length]
      exact (hinside m hm).2⟩
  refine ⟨new, hnew, ?_⟩
  have hnonempty : (edits.map normalizeEdit).findIdx?
      (fun edit => decide (edit.oldText = [])) = none := by
    rw [findIdx?_eq_none_iff]
    exact fun e he => decide_eq_false (hedits e he).1
  have hused : ((edits.map normalizeEdit).any fun edit =>
      (fuzzyFindText nfkc content edit.oldText).any FuzzyMatchResult.usedFuzzyMatch) = true := by
    obtain ⟨edit, hedit, hnot, j, hj⟩ := hfuzzy
    obtain ⟨first, hfirst⟩ := Option.isSome_iff_exists.mp (indexOf_isSome hj)
    refine List.any_eq_true.mpr ⟨normalizeEdit edit, mem_map_of_mem hedit, ?_⟩
    rw [fuzzyFindText, normalizeEdit, indexOf_eq_none.mpr hnot]
    dsimp only
    rw [hfirst]
    rfl
  have hregions : (regionsOf nfkc (normalizeForFuzzyMatch nfkc content) 0
      (edits.map normalizeEdit)).insertionSort byIndex = matchedRegions nfkc content edits := rfl
  rw [applyEditsToNormalizedContent, hnonempty]
  dsimp only
  rw [hused, if_pos rfl, hmatch]
  dsimp only [bind, Except.bind]
  rw [hregions, hoverlap]
  rw [if_pos rfl, hok, length_map]

end

/-! ## Text without compatibility characters -/

def plainUnit (c : UInt16) : UInt16 :=
  let c := if c ∈ smartSingleQuotes then 0x27 else c
  let c := if c ∈ smartDoubleQuotes then 0x22 else c
  let c := if c ∈ dashes then 0x2D else c
  if c ∈ specialSpaces then 0x20 else c

def plainLine (line : JsString) : JsString := (trimEnd line).map plainUnit

theorem plainUnit_cases (c : UInt16) :
    plainUnit c ∈ [0x27, 0x22, 0x2D] ∨ plainUnit c = c ∨ c ∈ specialSpaces := by
  have hquote : ∀ d ∈ [(0x27 : UInt16), 0x22, 0x2D], d ∉ smartDoubleQuotes ∧ d ∉ dashes ∧
      d ∉ specialSpaces := List.forall_iff_forall_mem.mp (by decide)
  unfold plainUnit
  dsimp only
  split_ifs <;> simp_all

theorem plainUnit_newline (c : UInt16) : plainUnit c = newline ↔ c = newline := by
  constructor
  · intro h
    rcases plainUnit_cases c with hc | hc | hc
    · rw [h] at hc
      exact absurd hc (by decide)
    · rw [← hc, h]
    · have hspaces : ∀ d ∈ specialSpaces, plainUnit d ≠ newline := List.forall_iff_forall_mem.mp (by decide)
      exact absurd h (hspaces c hc)
  · rintro rfl
    decide

theorem plainUnit_visible (c : UInt16) (h : Frames.isWhitespace c = false) :
    Frames.isWhitespace (plainUnit c) = false := by
  rcases plainUnit_cases c with hc | hc | hc
  · have hvisible : ∀ d ∈ [(0x27 : UInt16), 0x22, 0x2D], Frames.isWhitespace d = false := List.forall_iff_forall_mem.mp (by decide)
    exact hvisible _ hc
  · rwa [hc]
  · have hspaces : ∀ d ∈ specialSpaces, Frames.isWhitespace d = true := List.forall_iff_forall_mem.mp (by decide)
    rw [hspaces c hc] at h
    cases h

theorem plainUnit_plainUnit (c : UInt16) : plainUnit (plainUnit c) = plainUnit c := by
  rcases plainUnit_cases c with hc | hc | hc
  · have hfixed : ∀ d ∈ [(0x27 : UInt16), 0x22, 0x2D], plainUnit d = d := List.forall_iff_forall_mem.mp (by decide)
    exact hfixed _ hc
  · rw [hc, hc]
  · have hspaces : ∀ d ∈ specialSpaces, plainUnit (plainUnit d) = plainUnit d := List.forall_iff_forall_mem.mp (by decide)
    exact hspaces c hc

theorem plainLine_plainLine (line : JsString) : plainLine (plainLine line) = plainLine line := by
  have hvisible (text : JsString) :
      ((text.dropWhile Frames.isWhitespace).map plainUnit).dropWhile Frames.isWhitespace
        = (text.dropWhile Frames.isWhitespace).map plainUnit := by
    induction text with
    | nil => rfl
    | cons c text ih =>
      rw [dropWhile_cons]
      split
      · exact ih
      · rename_i hc
        rw [map_cons, dropWhile_cons, plainUnit_visible c (by simpa using hc)]
        rfl
  simp [plainLine, trimEnd, ← map_reverse, hvisible, plainUnit_plainUnit, Function.comp_def]

theorem normalizeForFuzzyMatch_id (text : JsString) : normalizeForFuzzyMatch id text
    = [newline].intercalate ((split text [newline]).map plainLine) := by
  have hmap (lines : List JsString) : ([newline].intercalate lines).map plainUnit
      = [newline].intercalate (lines.map (List.map plainUnit)) := by
    induction lines with
    | nil => rfl
    | cons line rest ih =>
      cases rest with
      | nil => simp
      | cons next rest =>
        rw [intercalate_cons_cons, map_append, map_append, ih]
        exact List.intercalate_cons_cons.symm
  simp only [normalizeForFuzzyMatch, replaceClass, map_map, id]
  refine (hmap _).trans ?_
  rw [map_map]
  rfl

theorem lineWise_plainLine : LineWise plainLine (normalizeForFuzzyMatch id) := by
  have honeLine (line : JsString) (h : newline ∉ line) : newline ∉ plainLine line := by
    intro hmem
    obtain ⟨c, hc, hnewline⟩ := List.mem_map.mp hmem
    rw [plainUnit_newline] at hnewline
    rw [trimEnd, mem_reverse] at hc
    exact h (List.mem_reverse.mp (hnewline ▸ (dropWhile_sublist _).mem hc))
  refine ⟨normalizeForFuzzyMatch_id, honeLine, fun text => ?_, rfl⟩
  rw [normalizeForFuzzyMatch_id, split_newline, normalizeForFuzzyMatch_id, splitOn_joined honeLine,
    map_map, split_newline]
  exact congrArg _ (map_congr_left fun line _ => plainLine_plainLine line)

/-- An en dash and a blank, and a second line. -/
def dashFile : JsString := [0x2013, 0x20, 0x0A, 0x62]

def dashEdit : Edit := ⟨[0x2D], [0x63]⟩

theorem once_of_first {c : UInt16} {rest : JsString} (h : c ∉ rest) : Once [c] (c :: rest) := by
  refine ⟨0, ⟨Nat.zero_le _, prefix_append [c] rest⟩, fun i hi => ?_⟩
  cases i with
  | zero => rfl
  | succ i => exact absurd ((Occurs.subset ⟨i, occursAt_succ.mp hi⟩) mem_cons_self) h

theorem applyEdits_fuzzy_sample :
    ∃ new, RewrittenFrom (splitLinesWithEndings dashFile)
        (splitLinesWithEndings (normalizeForFuzzyMatch id dashFile)) 0
        (matchedRegions id dashFile [dashEdit]) new ∧
      applyEditsToNormalizedContent id dashFile [dashEdit] "notes.md" =
        if dashFile = new then .error (getNoChangeError "notes.md" 1) else .ok new := by
  refine applyEdits_fuzzy lineWise_plainLine ⟨dashEdit, mem_cons_self, ?_, ?_⟩ ?_
    (pairwise_singleton _ _) (by decide)
  · exact indexOf_eq_none.mp (by decide)
  · exact occurs_of_indexOf (i := 0) (by decide)
  · intro edit hedit
    obtain rfl := List.mem_singleton.mp hedit
    exact ⟨by decide, @once_of_first 0x2D [0x0A, 0x62] (by decide)⟩

/-- `a` and a blank, and a last line of one blank. -/
def blankFile : JsString := [0x61, 0x20, 0x0A, 0x20]

def lineEdit : Edit := ⟨[0x61, 0x0A], [0x62, 0x0A]⟩

def backEdit : Edit := ⟨[0x2D], [0x2013]⟩

/-- No result where the last line normalizes to nothing, nor where the new text
is what the normalization took away. -/
theorem not_applyEdits_returns :
    LineWise plainLine (normalizeForFuzzyMatch id) ∧
    (FuzzyOnly id blankFile lineEdit ∧ FoundOnce id blankFile lineEdit ∧
      (matchedRegions id blankFile [lineEdit]).Pairwise MatchedEdit.Apart ∧
      ∀ new, applyEditsToNormalizedContent id blankFile [lineEdit] "notes.md" ≠ .ok new) ∧
    FuzzyOnly id [0x2013] backEdit ∧ FoundOnce id [0x2013] backEdit ∧
      (matchedRegions id [0x2013] [backEdit]).Pairwise MatchedEdit.Apart ∧
      ∀ new, applyEditsToNormalizedContent id [0x2013] [backEdit] "notes.md" ≠ .ok new := by
  refine ⟨lineWise_plainLine, ⟨⟨?_, ?_⟩, ⟨by decide, ?_⟩, pairwise_singleton _ _, ?_⟩,
    ⟨?_, ?_⟩, ⟨by decide, @once_of_first 0x2D [] (by decide)⟩, pairwise_singleton _ _, ?_⟩
  · exact indexOf_eq_none.mp (by decide)
  · exact occurs_of_indexOf (i := 0) (by decide)
  · refine ⟨0, ⟨by decide, by decide⟩, fun i hi => ?_⟩
    have hbound : i + 2 ≤ 2 := hi.bound
    omega
  · have hresult : applyEditsToNormalizedContent id blankFile [lineEdit] "notes.md" = .error _ := rfl
    exact fun new h => nomatch h
  · exact indexOf_eq_none.mp (by decide)
  · exact occurs_of_indexOf (i := 0) (by decide)
  · have hresult : applyEditsToNormalizedContent id [0x2013] [backEdit] "notes.md" = .error _ := rfl
    exact fun new h => nomatch h

end ReflectivePi.Tools
