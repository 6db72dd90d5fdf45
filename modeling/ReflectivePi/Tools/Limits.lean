import ReflectivePi.Tools.TruncateHead

/-!
# Tools — Limits

What `truncateHead` and `truncateTail` return is the largest part that fits, and
they name the limit that cut it but for two kinds of text: one whose lines all
fit and whose last newline does not, and a single line of which the end is
returned where one line is asked for.
-/

namespace ReflectivePi.Tools

open List
open Longest (LongestPrefix LongestSuffix)

variable {maxLines maxBytes : Nat} {content : List Char}

/-! ## What is asked -/

/-- The limit is one that left no more than the lines that are kept; `isPart`
says which lines could be kept. -/
def Names (maxLines maxBytes : Nat) (lines kept : List (List Char))
    (isPart : List (List Char) → Prop) : Limit → Prop
  | .lines => maxLines < lines.length
  | .bytes => ∃ more, isPart more ∧ more.length = kept.length + 1 ∧
      maxBytes < byteLength (joinLines more)

/-- The lines joined; a text of which all lines are kept may keep its last
newline. -/
def Joined (content : List Char) (kept : List (List Char)) (output : List Char) : Prop :=
  output = joinLines kept ∨ (kept = splitLinesForCounting content ∧ output = content)

structure KeepsHead (content : List Char) (maxLines maxBytes : Nat)
    (kept : List (List Char)) (r : TruncationResult) : Prop where
  longest : LongestPrefix (Fits maxLines maxBytes) kept (splitLinesForCounting content)
  joined : Joined content kept r.content
  outputBytes : r.outputBytes = byteLength r.content ∧ r.outputBytes ≤ maxBytes
  whole : r.truncated = false ↔ r.content = content
  names : r.truncated = true → ∃ limit, r.truncatedBy = some limit ∧
    Names maxLines maxBytes (splitLinesForCounting content) kept
      (· <+: splitLinesForCounting content) limit

/-- Where not even the last line fits, the end of it is returned. -/
structure KeepsTail (content : List Char) (maxLines maxBytes : Nat)
    (kept : List (List Char)) (r : TruncationResult) : Prop where
  longest : LongestSuffix (Fits maxLines maxBytes) kept (splitLinesForCounting content)
  joined : byteLength ((splitLinesForCounting content).getLastD []) ≤ maxBytes →
    Joined content kept r.content
  endOfLine : maxBytes < byteLength ((splitLinesForCounting content).getLastD []) →
    LongestSuffix (fun text => byteLength text ≤ maxBytes) r.content
      ((splitLinesForCounting content).getLastD [])
  outputBytes : r.outputBytes = byteLength r.content ∧ r.outputBytes ≤ maxBytes
  whole : r.truncated = false ↔ r.content = content
  names : r.truncated = true → ∃ limit, r.truncatedBy = some limit ∧
    Names maxLines maxBytes (splitLinesForCounting content) kept
      (· <:+ splitLinesForCounting content) limit

/-- All lines fit, and the last newline is one byte too many. -/
structure NewlineOver (content : List Char) (maxLines maxBytes : Nat) : Prop where
  ends : endsWithNewline content = true
  length_le : (splitLinesForCounting content).length ≤ maxLines
  bytes : byteLength content = maxBytes + 1

/-- One line is asked for, and there is only one, which is too long. -/
def OneLongLine (content : List Char) (maxLines maxBytes : Nat) : Prop :=
  maxLines = 1 ∧ (splitLinesForCounting content).length = 1 ∧
    maxBytes < byteLength ((splitLinesForCounting content).getLastD [])

variable {kept rest : List (List Char)} {limit : Limit} {total : Nat}

theorem StopsAt.lt (h : StopsAt maxLines maxBytes kept rest limit) (hmax : 0 < maxLines)
    (hcut : ¬ ((kept ++ rest).length ≤ maxLines ∧ total ≤ maxBytes))
    (hle : byteLength (joinLines (kept ++ rest)) ≤ total) :
    byteLength (joinLines kept) < total := by
  have hall : rest = [] → byteLength (joinLines kept) < total := by
    rintro rfl
    rw [append_nil] at hcut
    have hfits := h.fits
    have hover : ¬ total ≤ maxBytes := fun hle => hcut ⟨hfits.1, hle⟩
    have hbytes := hfits.2
    omega
  cases h with
  | done _ => exact hall rfl
  | lines hkept hlength =>
    cases rest with
    | nil => exact hall rfl
    | cons line rest =>
      have hne : kept ≠ [] := by
        rintro rfl
        exact Nat.ne_of_lt hmax hlength
      have hnext := byteLength_joinLines_le_append (kept ++ [line]) rest
      rw [append_assoc, singleton_append, byteLength_joinLines_concat, if_pos hne] at hnext
      omega
  | @bytes line rest hkept _ hbytes =>
    have hnext := byteLength_joinLines_le_append (kept ++ [line]) rest
    rw [append_assoc, singleton_append] at hnext
    have := hkept.2
    omega

/-- The limit that stopped the loop cut the text, unless it came to the end. -/
theorem StopsAt.names_iff (h : StopsAt maxLines maxBytes kept rest limit) :
    Names maxLines maxBytes (kept ++ rest) kept (· <+: kept ++ rest) limit ↔ rest ≠ [] := by
  cases h with
  | done hkept =>
    rw [append_nil]
    exact ⟨fun h => absurd hkept.1 (Nat.not_le.mpr h), fun h => absurd rfl h⟩
  | lines hkept hlength =>
    rw [Names, length_append, hlength]
    exact Nat.lt_add_right_iff_pos.trans length_pos_iff
  | @bytes line rest hkept _ hbytes =>
    refine ⟨fun _ => cons_ne_nil _ _, fun _ => ⟨kept ++ [line], ?_, ?_, hbytes⟩⟩
    · simp
    simp

theorem byteLength_joinLines_splitLines_le (content : List Char) :
    byteLength (joinLines (splitLinesForCounting content)) ≤ byteLength content := by
  by_cases hempty : content = []
  · subst hempty
    exact Nat.le_refl 0
  · rw [← byteLength_joinLines hempty]
    exact Nat.le_add_right _ _

/-- Of a text that is cut, all lines are kept only where its last newline is too
much. -/
theorem StopsAt.newlineOver_iff (h : StopsAt maxLines maxBytes kept rest limit)
    (hcut : ¬ ((splitLinesForCounting content).length ≤ maxLines ∧ byteLength content ≤ maxBytes))
    (hlength : (splitLinesForCounting content).length = (kept ++ rest).length)
    (hbytes : byteLength (joinLines (splitLinesForCounting content))
      = byteLength (joinLines (kept ++ rest))) :
    rest = [] ↔ NewlineOver content maxLines maxBytes := by
  have hne : content ≠ [] := by
    rintro rfl
    exact hcut ⟨Nat.zero_le _, Nat.zero_le _⟩
  have hsize := byteLength_joinLines hne
  constructor
  · rintro rfl
    rw [append_nil] at hlength hbytes
    have hfits := h.fits
    have hover : ¬ byteLength content ≤ maxBytes := fun hle =>
      hcut ⟨hlength ▸ hfits.1, hle⟩
    have hkept := hfits.2
    cases hends : endsWithNewline content with
    | true =>
      rw [hends, if_pos rfl] at hsize
      exact ⟨hends, hlength ▸ hfits.1, by omega⟩
    | false =>
      rw [hends, if_neg Bool.false_ne_true] at hsize
      omega
  · intro hover
    rw [hover.ends, if_pos rfl] at hsize
    have hfits : Fits maxLines maxBytes (kept ++ rest) := by
      refine ⟨hlength ▸ hover.length_le, ?_⟩
      have := hover.bytes
      omega
    obtain ⟨more, hmore⟩ := h.longest.longest _ (prefix_refl _) hfits
    have := congrArg List.length hmore
    simp only [length_append] at this
    exact List.length_eq_zero_iff.mp (by omega)

/-! ## The head -/

theorem fits_of_whole
    (h : (splitLinesForCounting content).length ≤ maxLines ∧ byteLength content ≤ maxBytes) :
    Fits maxLines maxBytes (splitLinesForCounting content) :=
  ⟨h.1, Nat.le_trans (byteLength_joinLines_splitLines_le content) h.2⟩

theorem NewlineOver.not_whole (h : NewlineOver content maxLines maxBytes) :
    ¬ ((splitLinesForCounting content).length ≤ maxLines ∧ byteLength content ≤ maxBytes) := by
  intro hwhole
  have hle := hwhole.2
  rw [h.bytes] at hle
  omega

theorem keepsHead_iff (hmax : 0 < maxLines) :
    (∃ kept, KeepsHead content maxLines maxBytes kept (truncateHead content maxLines maxBytes))
      ↔ ¬ NewlineOver content maxLines maxBytes := by
  by_cases hwhole : (splitLinesForCounting content).length ≤ maxLines ∧
      byteLength content ≤ maxBytes
  · refine iff_of_true ⟨splitLinesForCounting content, ?_⟩ fun h => h.not_whole hwhole
    rw [truncateHead_whole hwhole]
    exact
      { longest := ⟨prefix_refl _, fits_of_whole hwhole, fun _ h _ => h⟩
        joined := .inr ⟨rfl, rfl⟩
        outputBytes := ⟨rfl, hwhole.2⟩
        whole := iff_of_true rfl rfl
        names := fun h => absurd h Bool.false_ne_true }
  · obtain ⟨kept, rest, limit, hlines, hstop, hresult⟩ := truncateHead_cut hwhole hmax
    have hover := hstop.newlineOver_iff hwhole (congrArg List.length hlines)
      (congrArg (fun l => byteLength (joinLines l)) hlines)
    rw [← not_congr hover, hresult]
    have hnames := hstop.names_iff
    rw [← hlines] at hnames
    constructor
    · rintro ⟨kept', h⟩
      obtain ⟨_, hlimit, hnamed⟩ := h.names rfl
      cases hlimit
      have hkept : kept' = kept := by
        have hlongest := hstop.longest
        rw [← hlines] at hlongest
        exact (hlongest.longest _ h.longest.isPrefix h.longest.holds).eq_of_length_le
          (h.longest.longest _ hlongest.isPrefix hlongest.holds).length_le
      subst hkept
      exact hnames.mp hnamed
    · intro hrest
      have hlt : byteLength (joinLines kept) < byteLength content := by
        refine hstop.lt hmax ?_ ?_
        · rwa [← hlines]
        · rw [← hlines]
          exact byteLength_joinLines_splitLines_le content
      refine ⟨kept, ?_⟩
      exact
        { longest := hlines ▸ hstop.longest
          joined := .inl rfl
          outputBytes := ⟨rfl, hstop.fits.2⟩
          whole := by
            refine iff_of_false (fun h => Bool.false_ne_true h.symm) fun h => ?_
            rw [← h] at hlt
            exact Nat.lt_irrefl _ hlt
          names := fun _ => ⟨limit, rfl, hnames.mpr hrest⟩ }

/-! ## The loop from the end

It keeps what the loop from the start keeps of the lines in reverse, but for a
last line that is too long.
-/

theorem byteLength_joinLines_reverse (lines : List (List Char)) :
    byteLength (joinLines lines.reverse) = byteLength (joinLines lines) := by
  induction lines with
  | nil => rfl
  | cons line lines ih =>
    rw [reverse_cons, byteLength_joinLines_concat, ih, byteLength_joinLines_cons]
    simp

variable {lines : List (List Char)}

theorem fits_reverse : Fits maxLines maxBytes lines.reverse ↔ Fits maxLines maxBytes lines := by
  rw [Fits, Fits, length_reverse, byteLength_joinLines_reverse]

theorem takeLines_of_taken {taken : List (List Char)} (htaken : taken ≠ [])
    (lines : List (List Char)) (count : Nat) {last : Bool}
    (h : takeLeading maxLines maxBytes lines taken.reverse count = ⟨kept, total, limit, last⟩) :
    takeLines maxLines maxBytes lines taken count = ⟨kept.reverse, total, limit, last⟩ := by
  induction lines generalizing taken count with
  | nil =>
    cases h
    rw [reverse_reverse]
    rfl
  | cons line lines ih =>
    rw [takeLeading] at h
    rw [takeLines]
    simp only [length_reverse, ne_eq, reverse_eq_nil_iff, htaken, not_false_eq_true,
      if_true, if_false] at h ⊢
    split at h
    · rename_i hlength
      rw [if_pos hlength]
      split at h
      · rename_i hbytes
        cases h
        rw [if_pos hbytes, reverse_reverse]
      · rename_i hbytes
        rw [if_neg hbytes]
        refine ih (cons_ne_nil _ _) _ ?_
        rwa [reverse_cons]
    · rename_i hlength
      cases h
      rw [if_neg hlength, reverse_reverse]

theorem takeLines_stops (lines : List (List Char))
    (hlast : byteLength (lines.getLastD []) ≤ maxBytes) :
    ∃ kept rest limit, lines = rest ++ kept ∧
      StopsAt maxLines maxBytes kept.reverse rest.reverse limit ∧
      takeLines maxLines maxBytes lines.reverse [] 0
        = ⟨kept, byteLength (joinLines kept), limit, false⟩ := by
  obtain ⟨kept, rest, limit, htext, hstop, htaken⟩ :=
    takeLeading_stops lines.reverse [] (@fits_nil maxLines maxBytes)
  have hlines : lines = rest.reverse ++ kept.reverse := by
    rw [← reverse_append, ← reverse_eq_iff]
    exact htext
  refine ⟨kept.reverse, rest.reverse, limit, hlines, ?_, ?_⟩
  · rwa [reverse_reverse, reverse_reverse]
  rw [byteLength_joinLines_reverse]
  cases lines using List.reverseRecOn with
  | nil =>
    cases htaken
    rfl
  | append_singleton lines line =>
    rw [getLastD_concat] at hlast
    rw [reverse_append, reverse_singleton, singleton_append] at htaken ⊢
    rw [takeLeading] at htaken
    rw [takeLines]
    simp only [length_nil, ne_eq, not_true_eq_false, if_false, joinLines, byteLength_nil,
      Nat.zero_add, Nat.add_zero, if_neg (Nat.not_lt.mpr hlast), nil_append] at htaken ⊢
    split at htaken
    · rename_i hmax
      rw [if_pos hmax]
      exact takeLines_of_taken (cons_ne_nil _ _) _ _ htaken
    · rename_i hmax
      cases htaken
      rw [if_neg hmax]
      rfl

theorem takeLines_endOfLine (lines : List (List Char)) (hmax : 0 < maxLines)
    (hlast : maxBytes < byteLength (lines.getLastD [])) :
    takeLines maxLines maxBytes lines.reverse [] 0
      = ⟨[truncateStringToBytesFromEnd (lines.getLastD []) maxBytes],
        byteLength (truncateStringToBytesFromEnd (lines.getLastD []) maxBytes), .bytes, true⟩ := by
  cases lines using List.reverseRecOn with
  | nil => exact absurd hlast (Nat.not_lt_zero _)
  | append_singleton lines line =>
    rw [getLastD_concat] at hlast ⊢
    rw [reverse_append, reverse_singleton, singleton_append, takeLines]
    simp [hmax, hlast]

theorem splitAtByte_last {start : Nat} {text before : List Char} {c : Char}
    (h : (splitAtByte start text).1 = before ++ [c]) : byteLength before < start := by
  induction text generalizing start before with
  | nil =>
    rw [splitAtByte] at h
    exact absurd h (by simp)
  | cons d text ih =>
    by_cases hstart : start = 0
    · rw [splitAtByte, if_pos hstart] at h
      exact absurd h (by simp)
    · rw [splitAtByte, if_neg hstart] at h
      cases before with
      | nil => exact Nat.pos_of_ne_zero hstart
      | cons d' before =>
        obtain ⟨rfl, hrest⟩ := List.cons.inj h
        have := ih hrest
        rw [byteLength_cons]
        omega

theorem truncateString_longest {line : List Char} (hlong : maxBytes < byteLength line) :
    LongestSuffix (fun text => byteLength text ≤ maxBytes)
      (truncateStringToBytesFromEnd line maxBytes) line := by
  have hparts := splitAtByte_append (byteLength line - maxBytes) line
  have hsize := congrArg byteLength hparts
  rw [byteLength_append] at hsize
  have hbefore := (splitAtByte_bytes (Nat.sub_le (byteLength line) maxBytes)).1
  rw [truncateStringToBytesFromEnd, if_neg (Nat.not_le.mpr hlong)]
  conv => arg 3; rw [← hparts]
  refine .of_next ?_ (by omega) ?_
  · intro before after h
    rw [byteLength_append] at h
    omega
  · intro more c hmore
    have hlast := splitAtByte_last hmore
    rw [hmore, byteLength_append, byteLength_cons, byteLength_nil] at hsize
    rw [byteLength_cons]
    omega

/-! ## The tail -/

theorem truncateTail_whole
    (h : (splitLinesForCounting content).length ≤ maxLines ∧ byteLength content ≤ maxBytes) :
    (truncateTail content maxLines maxBytes).content = content ∧
      (truncateTail content maxLines maxBytes).truncated = false ∧
      (truncateTail content maxLines maxBytes).outputBytes = byteLength content := by
  unfold truncateTail
  rw [if_pos h]
  exact ⟨rfl, rfl, rfl⟩

/-- What a text that is cut gives, from what the loop does. -/
theorem truncateTail_cut {taken : Taken}
    (h : ¬ ((splitLinesForCounting content).length ≤ maxLines ∧ byteLength content ≤ maxBytes))
    (htaken : takeLines maxLines maxBytes (splitLinesForCounting content).reverse [] 0 = taken) :
    (truncateTail content maxLines maxBytes).content = joinLines taken.outputLines ∧
      (truncateTail content maxLines maxBytes).truncated = true ∧
      (truncateTail content maxLines maxBytes).truncatedBy
        = some (if taken.outputLines.length ≥ maxLines ∧ taken.outputBytesCount ≤ maxBytes
            then .lines else taken.truncatedBy) ∧
      (truncateTail content maxLines maxBytes).outputBytes
        = byteLength (joinLines taken.outputLines) := by
  unfold truncateTail
  rw [if_neg h, htaken]
  simp

theorem byteLength_getLastD_le (content : List Char) :
    byteLength ((splitLinesForCounting content).getLastD []) ≤ byteLength content := by
  refine Nat.le_trans ?_ (byteLength_joinLines_splitLines_le content)
  cases splitLinesForCounting content using List.reverseRecOn with
  | nil => exact Nat.le_refl 0
  | append_singleton lines line =>
    rw [getLastD_concat, byteLength_joinLines_concat]
    omega

theorem longestSuffix_nil (hlast : maxBytes < byteLength (lines.getLastD [])) :
    LongestSuffix (Fits maxLines maxBytes) [] lines where
  isSuffix := nil_suffix
  holds := fits_nil
  longest := by
    intro other hother hfits
    cases other using List.reverseRecOn with
    | nil => exact suffix_refl _
    | append_singleton other line =>
      obtain ⟨before, rfl⟩ := hother
      rw [← append_assoc, getLastD_concat] at hlast
      have hbytes := hfits.2
      rw [byteLength_joinLines_concat] at hbytes
      omega

/-- The end of a last line that is too long is what is returned; that the bytes
cut it is not said where one line is asked for. -/
theorem keepsTail_endOfLine (hmax : 0 < maxLines)
    (hlast : maxBytes < byteLength ((splitLinesForCounting content).getLastD [])) :
    (∃ kept, KeepsTail content maxLines maxBytes kept (truncateTail content maxLines maxBytes))
      ↔ ¬ OneLongLine content maxLines maxBytes := by
  have hcut : ¬ ((splitLinesForCounting content).length ≤ maxLines ∧
      byteLength content ≤ maxBytes) := fun h =>
    Nat.not_lt.mpr (Nat.le_trans (byteLength_getLastD_le content) h.2) hlast
  have hsuffix := truncateString_longest hlast
  obtain ⟨hcontent, htruncated, hlimit, hbytes⟩ :=
    truncateTail_cut hcut (takeLines_endOfLine _ hmax hlast)
  have hnonempty : splitLinesForCounting content ≠ [] := by
    intro hnil
    rw [hnil] at hlast
    exact Nat.not_lt_zero _ hlast
  have hpos := List.length_pos_iff.mpr hnonempty
  generalize hend : truncateStringToBytesFromEnd _ maxBytes = endOfLine at *
  simp only [length_singleton, hsuffix.holds, and_true, ge_iff_le] at hlimit
  have hone : joinLines [endOfLine] = endOfLine := rfl
  rw [hone] at hcontent hbytes
  constructor
  · rintro ⟨kept, h⟩ ⟨hmaxLines, hlength, _⟩
    obtain ⟨limit, hnamed, hnames⟩ := h.names htruncated
    rw [hlimit, if_pos (Nat.le_of_eq hmaxLines)] at hnamed
    cases hnamed
    have hmore : maxLines < (splitLinesForCounting content).length := hnames
    omega
  · intro hmany
    refine ⟨[], ?_⟩
    exact
      { longest := longestSuffix_nil hlast
        joined := fun h => absurd hlast (Nat.not_lt.mpr h)
        endOfLine := fun _ => hcontent ▸ hsuffix
        outputBytes := by rw [hbytes, hcontent]; exact ⟨rfl, hsuffix.holds⟩
        whole := by
          refine iff_of_false (fun h => Bool.false_ne_true (h.symm.trans htruncated)) fun h => ?_
          have hle := Nat.le_trans (byteLength_getLastD_le content)
            (Nat.le_of_eq (congrArg byteLength (h.symm.trans hcontent)))
          have := hsuffix.holds
          omega
        names := by
          intro _
          refine ⟨_, hlimit, ?_⟩
          split
          · rename_i hone
            have : ¬ (splitLinesForCounting content).length = 1 := fun hlength =>
              hmany ⟨by omega, hlength, hlast⟩
            exact show maxLines < _ by omega
          · refine ⟨[(splitLinesForCounting content).getLastD []], ?_, rfl, hlast⟩
            rw [getLastD_eq_getLast?, getLast?_eq_getLast_of_ne_nil hnonempty]
            exact ⟨_, dropLast_append_getLast hnonempty⟩ }

theorem names_reverse :
    Names maxLines maxBytes lines.reverse kept.reverse (· <+: lines.reverse) limit
      ↔ Names maxLines maxBytes lines kept (· <:+ lines) limit := by
  cases limit with
  | lines => rw [Names, Names, length_reverse]
  | bytes =>
    constructor
    · rintro ⟨more, hpart, hlength, hbytes⟩
      refine ⟨more.reverse, ?_, ?_, ?_⟩
      · refine List.reverse_prefix.mp ?_
        rwa [reverse_reverse]
      · rw [length_reverse, hlength, length_reverse]
      · rwa [byteLength_joinLines_reverse]
    · rintro ⟨more, hpart, hlength, hbytes⟩
      refine ⟨more.reverse, List.reverse_prefix.mpr hpart, ?_, ?_⟩
      · rw [length_reverse, hlength, length_reverse]
      · rwa [byteLength_joinLines_reverse]

theorem NewlineOver.fits (h : NewlineOver content maxLines maxBytes) :
    Fits maxLines maxBytes (splitLinesForCounting content) := by
  have hne : content ≠ [] := by
    rintro rfl
    exact Bool.false_ne_true h.ends
  have hsize := byteLength_joinLines hne
  rw [h.ends, if_pos rfl, h.bytes] at hsize
  exact ⟨h.length_le, by omega⟩

theorem keepsTail_iff (hmax : 0 < maxLines) :
    (∃ kept, KeepsTail content maxLines maxBytes kept (truncateTail content maxLines maxBytes))
      ↔ ¬ NewlineOver content maxLines maxBytes ∧ ¬ OneLongLine content maxLines maxBytes := by
  by_cases hlast : maxBytes < byteLength ((splitLinesForCounting content).getLastD [])
  · rw [keepsTail_endOfLine hmax hlast]
    refine (and_iff_right fun hover => ?_).symm
    have hnil := List.suffix_nil.mp
      ((longestSuffix_nil hlast).longest _ (suffix_refl _) hover.fits)
    rw [hnil] at hlast
    exact Nat.not_lt_zero _ hlast
  rw [and_iff_left fun hone : OneLongLine content maxLines maxBytes => hlast hone.2.2]
  have hshort := Nat.not_lt.mp hlast
  by_cases hwhole : (splitLinesForCounting content).length ≤ maxLines ∧
      byteLength content ≤ maxBytes
  · obtain ⟨hcontent, htruncated, hbytes⟩ := truncateTail_whole hwhole
    refine iff_of_true ⟨splitLinesForCounting content, ?_⟩ fun h => h.not_whole hwhole
    exact
      { longest := ⟨suffix_refl _, fits_of_whole hwhole, fun _ h _ => h⟩
        joined := fun _ => .inr ⟨rfl, hcontent⟩
        endOfLine := fun h => absurd h hlast
        outputBytes := by rw [hbytes, hcontent]; exact ⟨rfl, hwhole.2⟩
        whole := iff_of_true htruncated hcontent
        names := fun h => absurd (htruncated.symm.trans h) Bool.false_ne_true }
  · obtain ⟨kept, rest, limit, hlines, hstop, htaken⟩ := takeLines_stops _ hshort
    obtain ⟨hcontent, htruncated, hlimit, hbytes⟩ := truncateTail_cut hwhole htaken
    have hreverse : (kept.reverse ++ rest.reverse) = (splitLinesForCounting content).reverse := by
      rw [hlines, reverse_append]
    have hover := hstop.newlineOver_iff hwhole
      (by rw [hreverse, length_reverse]) (by rw [hreverse, byteLength_joinLines_reverse])
    have hnamed := hstop.named
    rw [length_reverse, byteLength_joinLines_reverse] at hnamed
    simp only [hnamed] at hlimit
    have hnames := hstop.names_iff
    have hsuffix := hstop.longest
    rw [hreverse] at hnames hsuffix
    have hlongest : LongestSuffix (Fits maxLines maxBytes) kept (splitLinesForCounting content) :=
      .of_reverse ⟨hsuffix.isPrefix, fits_reverse.mpr hsuffix.holds,
        fun other hother hfits => hsuffix.longest other hother (fits_reverse.mp hfits)⟩
    rw [names_reverse] at hnames
    rw [← not_congr hover]
    constructor
    · rintro ⟨kept', h⟩
      obtain ⟨limit', hlimit', hnamed'⟩ := h.names htruncated
      rw [hlimit] at hlimit'
      cases hlimit'
      have hkept : kept' = kept :=
        (hlongest.longest _ h.longest.isSuffix h.longest.holds).eq_of_length_le
          (h.longest.longest _ hlongest.isSuffix hlongest.holds).length_le
      subst hkept
      exact hnames.mp hnamed'
    · intro hrest
      have hlt : byteLength (joinLines kept) < byteLength content := by
        rw [← byteLength_joinLines_reverse]
        refine hstop.lt hmax ?_ ?_
        · rwa [hreverse, length_reverse]
        · rw [hreverse, byteLength_joinLines_reverse]
          exact byteLength_joinLines_splitLines_le content
      refine ⟨kept, ?_⟩
      exact
        { longest := hlongest
          joined := fun _ => .inl hcontent
          endOfLine := fun h => absurd h hlast
          outputBytes := by rw [hbytes, hcontent]; exact ⟨rfl, hlongest.holds.2⟩
          whole := by
            refine iff_of_false (fun h => Bool.false_ne_true (h.symm.trans htruncated)) fun h => ?_
            rw [← hcontent, h] at hlt
            exact Nat.lt_irrefl _ hlt
          names := fun _ => ⟨limit, hlimit, hnames.mpr hrest⟩ }

/-- Both keep the largest part that fits and name the limit that cut it. -/
structure Keeps (content : List Char) (maxLines maxBytes : Nat) : Prop where
  head : ∃ kept, KeepsHead content maxLines maxBytes kept (truncateHead content maxLines maxBytes)
  tail : ∃ kept, KeepsTail content maxLines maxBytes kept (truncateTail content maxLines maxBytes)

theorem keeps_iff (content : List Char) (maxBytes : Nat) (hmax : 0 < maxLines) :
    Keeps content maxLines maxBytes
      ↔ ¬ NewlineOver content maxLines maxBytes ∧ ¬ OneLongLine content maxLines maxBytes := by
  refine ⟨fun h => (keepsTail_iff hmax).mp h.tail, fun h => ?_⟩
  exact ⟨(keepsHead_iff hmax).mpr h.1, (keepsTail_iff hmax).mpr h⟩

theorem keeps_sample : Keeps "a\nbc".toList 1 2 :=
  (keeps_iff _ 2 Nat.one_pos).mpr
    ⟨fun h => absurd h.ends (by decide), fun h => absurd h.2.1 (by decide)⟩

/-- One line of two bytes and its newline, where five lines and two bytes are
allowed, and the end of the only line of three bytes: "lines" is named. -/
theorem not_keeps : ¬ Keeps "ab\n".toList 5 2 ∧ ¬ Keeps "abc".toList 1 2 := by
  constructor
  · rintro ⟨⟨kept, h⟩, -⟩
    obtain ⟨limit, hlimit, hnames⟩ := h.names (by decide)
    obtain rfl : limit = .lines := Option.some.inj (hlimit.symm.trans (by decide))
    have hmore : 5 < (splitLinesForCounting "ab\n".toList).length := hnames
    exact absurd hmore (by decide)
  · rintro ⟨-, kept, h⟩
    obtain ⟨limit, hlimit, hnames⟩ := h.names (by decide)
    obtain rfl : limit = .lines := Option.some.inj (hlimit.symm.trans (by decide))
    have hmore : 1 < (splitLinesForCounting "abc".toList).length := hnames
    exact absurd hmore (by decide)

end ReflectivePi.Tools
