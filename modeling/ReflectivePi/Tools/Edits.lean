import ReflectivePi.Tools.EditDiff

/-!
# Tools — Edits

What an edit of a file does: where every text to replace is in the content,
the first occurrence of each is replaced, provided that none is counted more
than once in normalized text and that the regions do not overlap.
-/

namespace ReflectivePi.Tools

open List
open Delta (JsString js)
open Search

/-! ## Replaced regions -/

/-- The content is `c₀ o₁ c₁ … oₖ cₖ` and the new one `c₀ n₁ c₁ … nₖ cₖ`, for
the edits in order of position. -/
inductive Replaced : List Edit → JsString → JsString → Prop where
  | nil (content : JsString) : Replaced [] content content
  | cons {edits : List Edit} {content new : JsString} (before : JsString)
      (edit : Edit) (h : Replaced edits content new) :
      Replaced (edit :: edits) (before ++ (edit.oldText ++ content))
        (before ++ (edit.newText ++ new))

/-- What comes of the content from position `b` on when the regions at the
matches, in order and apart, are replaced. -/
inductive ReplacedAt (content : JsString) :
    Nat → List MatchedEdit → JsString → Prop where
  | nil (b : Nat) : ReplacedAt content b [] (content.drop b)
  | cons {b : Nat} {m : MatchedEdit} {rest : List MatchedEdit} {new : JsString}
      (hb : b ≤ m.matchIndex)
      (h : ReplacedAt content (m.matchIndex + m.matchLength) rest new) :
      ReplacedAt content b (m :: rest) ((content.take m.matchIndex).drop b ++ (m.newText ++ new))

def MatchedEdit.edit (content : JsString) (m : MatchedEdit) : Edit where
  oldText := (content.drop m.matchIndex).take m.matchLength
  newText := m.newText

section

variable {content new : JsString} {regions : List MatchedEdit} {b i : Nat}

theorem drop_eq_append (text : JsString) (hb : b ≤ i) :
    text.drop b = (text.take i).drop b ++ text.drop i := by
  have hdrop : text.drop i = (text.drop b).drop (i - b) := by
    rw [drop_drop, Nat.add_sub_cancel' hb]
  rw [hdrop, drop_take, take_append_drop]

theorem ReplacedAt.replaced (h : ReplacedAt content b regions new) :
    Replaced (regions.map (MatchedEdit.edit content)) (content.drop b) new := by
  induction h with
  | nil b => exact .nil _
  | @cons b m rest new hb h ih =>
    have hregion : content.drop m.matchIndex = (m.edit content).oldText
        ++ content.drop (m.matchIndex + m.matchLength) := by
      rw [MatchedEdit.edit, ← drop_drop, take_append_drop]
    rw [drop_eq_append content hb, hregion]
    exact .cons _ _ ih

theorem applyReplacements_cons (m : MatchedEdit) (rest : List MatchedEdit) (o : Nat) :
    applyReplacements content (m :: rest) o
      = (applyReplacements content rest o).take (m.matchIndex - o) ++ m.newText
        ++ (applyReplacements content rest o).drop (m.matchIndex - o + m.matchLength) :=
  rfl

theorem ReplacedAt.applyReplacements {o : Nat} (h : ReplacedAt content b regions new)
    (ho : o ≤ b) (hb : b ≤ content.length)
    (hwithin : ∀ m ∈ regions, m.matchIndex + m.matchLength ≤ content.length) :
    Tools.applyReplacements (content.drop o) regions o = (content.take b).drop o ++ new := by
  induction h with
  | nil b => exact drop_eq_append content ho
  | @cons b m rest new hb' h ih =>
    have hm := hwithin m mem_cons_self
    have hinner := ih (by omega) hm fun m' hm' => hwithin m' (mem_cons_of_mem _ hm')
    have hlength : ((content.take (m.matchIndex + m.matchLength)).drop o).length
        = m.matchIndex - o + m.matchLength := by
      rw [length_drop, length_take_of_le hm]
      omega
    have hbefore : ((content.take (m.matchIndex + m.matchLength)).drop o
        ++ new).take (m.matchIndex - o) = (content.take m.matchIndex).drop o := by
      rw [take_append_of_le_length (by omega),
        ← drop_take, take_take, Nat.min_eq_left (Nat.le_add_right _ _)]
    have hafter : ((content.take (m.matchIndex + m.matchLength)).drop o
        ++ new).drop (m.matchIndex - o + m.matchLength) = new :=
      drop_left' hlength
    have hsplit := drop_eq_append (content.take m.matchIndex) ho
    rw [take_take, Nat.min_eq_left hb'] at hsplit
    rw [applyReplacements_cons, hinner, hbefore, hafter, hsplit]
    simp only [append_assoc]

theorem replacedAt_of_findOverlap (h : findOverlap regions = none)
    (hb : ∀ m ∈ regions.head?, b ≤ m.matchIndex) : ∃ new, ReplacedAt content b regions new := by
  induction regions generalizing b with
  | nil => exact ⟨_, .nil b⟩
  | cons m rest ih =>
    have hrest : ∃ new, ReplacedAt content (m.matchIndex + m.matchLength) rest new := by
      cases rest with
      | nil => exact ⟨_, .nil _⟩
      | cons m' rest =>
        rw [findOverlap] at h
        split at h
        · cases h
        · rename_i hapart
          exact ih h fun m'' hm'' => by
            cases hm''
            omega
    obtain ⟨new, hnew⟩ := hrest
    exact ⟨_, .cons (hb m rfl) hnew⟩

section

variable (h : ReplacedAt content b regions new)

include h

theorem ReplacedAt.head_le :
    ∀ m ∈ regions.head?, b ≤ m.matchIndex := by
  cases h with
  | nil => nofun
  | cons hb _ =>
    intro m hm
    cases hm
    exact hb

theorem ReplacedAt.findOverlap :
    Tools.findOverlap regions = none := by
  induction h with
  | nil => rfl
  | @cons b m rest new hb h ih =>
    cases rest with
    | nil => rfl
    | cons m' rest =>
      rw [Tools.findOverlap, if_neg (Nat.not_lt.mpr (h.head_le m' rfl))]
      exact ih

/-- Regions that are replaced in order lie apart. -/
theorem ReplacedAt.pairwise :
    (∀ m ∈ regions, b ≤ m.matchIndex) ∧
      regions.Pairwise fun m m' => m.matchIndex + m.matchLength ≤ m'.matchIndex := by
  induction h with
  | nil => simp
  | @cons b m rest new hb h ih =>
    refine ⟨fun m' hm' => ?_, List.pairwise_cons.mpr ih⟩
    rcases List.mem_cons.mp hm' with rfl | hm'
    · exact hb
    · exact Nat.le_trans (Nat.le_trans hb (Nat.le_add_right _ _)) (ih.1 m' hm')

theorem ReplacedAt.unique {new' : JsString}
    (h' : ReplacedAt content b regions new') : new = new' := by
  induction h generalizing new' with
  | nil => cases h'; rfl
  | cons hb h ih =>
    cases h' with
    | cons hb' h' => rw [ih h']

theorem ReplacedAt.advance {s : Nat} (hs : b ≤ s)
    (hafter : ∀ m ∈ regions, s ≤ m.matchIndex) :
    ∃ back, ReplacedAt content s regions back ∧ new = (content.take s).drop b ++ back := by
  cases h with
  | nil => exact ⟨_, .nil s, drop_eq_append content hs⟩
  | @cons b m rest new hb h =>
    have hm := hafter m mem_cons_self
    refine ⟨_, .cons hm h, ?_⟩
    have hsplit := drop_eq_append (content.take m.matchIndex) hs
    rw [take_take, Nat.min_eq_left hm] at hsplit
    rw [hsplit, append_assoc]

end

theorem ReplacedAt.split {s : Nat} {before after : List MatchedEdit}
    (h : ReplacedAt content b (before ++ after) new) (hs : b ≤ s)
    (hbefore : ∀ m ∈ before, m.matchIndex + m.matchLength ≤ s)
    (hafter : ∀ m ∈ after, s ≤ m.matchIndex) :
    ∃ front back, ReplacedAt (content.take s) b before front ∧
      ReplacedAt content s after back ∧ new = front ++ back := by
  induction before generalizing b new with
  | nil =>
    obtain ⟨back, hback, rfl⟩ := h.advance hs hafter
    exact ⟨_, back, .nil b, hback, rfl⟩
  | cons m before ih =>
    rw [forall_mem_cons] at hbefore
    cases h with
    | @cons _ _ _ new hb h =>
      obtain ⟨front, back, hfront, hback, rfl⟩ := ih h hbefore.1 hbefore.2
      refine ⟨_, back, .cons hb hfront, hback, ?_⟩
      rw [take_take, Nat.min_eq_left (Nat.le_of_add_right_le hbefore.1)]
      simp only [append_assoc]

end

/-! ## First occurrences -/

section

variable {nfkc : JsString → JsString} {content new : JsString} {edits : List Edit}
  {edit : Edit} {path : String} {i : Nat}

/-- The match of an edit at the first occurrence of its text. -/
def firstMatch (content : JsString) (i : Nat) (edit : Edit) : MatchedEdit where
  editIndex := i
  matchIndex := (indexOf edit.oldText content).getD 0
  matchLength := edit.oldText.length
  newText := edit.newText

/-- The first occurrences, in the order of the edits. -/
def firstMatches (content : JsString) : Nat → List Edit → List MatchedEdit
  | _, [] => []
  | i, edit :: rest => firstMatch content i edit :: firstMatches content (i + 1) rest

theorem firstMatch_occurs (h : Occurs edit.oldText content) :
    OccursAt edit.oldText content (firstMatch content i edit).matchIndex := by
  obtain ⟨j, hj⟩ := h
  obtain ⟨first, hfirst⟩ := Option.isSome_iff_exists.mp (indexOf_isSome hj)
  rw [firstMatch, hfirst]
  exact (indexOf_some hfirst).1

theorem edit_firstMatch (h : Occurs edit.oldText content) :
    (firstMatch content i edit).edit content = edit := by
  have hdrop := (firstMatch_occurs (i := i) h).drop_eq
  show Edit.mk ((content.drop _).take edit.oldText.length) edit.newText = edit
  rw [hdrop, take_left]

theorem map_edit_firstMatches (h : ∀ edit ∈ edits, Occurs edit.oldText content) :
    (firstMatches content i edits).map (MatchedEdit.edit content) = edits := by
  induction edits generalizing i with
  | nil => rfl
  | cons edit rest ih =>
    rw [firstMatches, map_cons, edit_firstMatch (h edit mem_cons_self),
      ih fun e he => h e (mem_cons_of_mem _ he)]

theorem mem_firstMatches {m : MatchedEdit} (h : m ∈ firstMatches content i edits) :
    ∃ edit ∈ edits, ∃ j, m = firstMatch content j edit := by
  induction edits generalizing i with
  | nil => cases h
  | cons edit rest ih =>
    rcases List.mem_cons.mp h with rfl | h
    · exact ⟨edit, mem_cons_self, i, rfl⟩
    · obtain ⟨e, he, hm⟩ := ih h
      exact ⟨e, mem_cons_of_mem _ he, hm⟩

theorem fuzzyFindText_of_occurs {base oldText : JsString} (h : Occurs oldText base) :
    fuzzyFindText nfkc base oldText
      = some ⟨(indexOf oldText base).getD 0, oldText.length, false⟩ := by
  obtain ⟨j, hj⟩ := h
  obtain ⟨first, hfirst⟩ := Option.isSome_iff_exists.mp (indexOf_isSome hj)
  rw [fuzzyFindText, hfirst]
  rfl

theorem matchEdits_ok_iff {total : Nat} {regions : List MatchedEdit}
    (h : ∀ edit ∈ edits, Occurs edit.oldText content) :
    matchEdits nfkc content path total i edits = .ok regions ↔
      (∀ edit ∈ edits, countOccurrences nfkc content edit.oldText ≤ 1) ∧
      regions = firstMatches content i edits := by
  induction edits generalizing i regions with
  | nil =>
    rw [matchEdits, Except.ok.injEq]
    exact ⟨fun h => ⟨fun _ he => absurd he not_mem_nil, h.symm⟩, fun h => h.2.symm⟩
  | cons edit rest ih =>
    have hrest := fun regions => @ih (i + 1) regions fun e he =>
      h e (mem_cons_of_mem _ he)
    rw [matchEdits, fuzzyFindText_of_occurs (h edit mem_cons_self)]
    dsimp only
    split
    · rename_i hcount
      exact iff_of_false (fun h => by cases h) fun hall =>
        absurd (hall.1 edit mem_cons_self) (Int.not_le.mpr hcount)
    · rename_i hcount
      rw [forall_mem_cons]
      cases hmatch : matchEdits nfkc content path total (i + 1) rest with
      | error e =>
        refine iff_of_false (fun h => by cases h) fun hall => ?_
        have hok := (hrest _).mpr ⟨hall.1.2, rfl⟩
        rw [hmatch] at hok
        cases hok
      | ok tail =>
        obtain ⟨hcounts, rfl⟩ := (hrest tail).mp hmatch
        show Except.ok _ = Except.ok regions ↔ _
        rw [Except.ok.injEq]
        exact ⟨fun heq => ⟨⟨Int.not_lt.mp hcount, hcounts⟩, heq.symm⟩, fun heq => heq.2.symm⟩

end

/-! ## The result -/

/-- No two regions of the edits' texts overlap. -/
def Apart (content : JsString) (edits : List Edit) : Prop :=
  edits.Pairwise fun e f => ∀ i j, OccursAt e.oldText content i → OccursAt f.oldText content j →
      i + e.oldText.length ≤ j ∨ j + f.oldText.length ≤ i

/-- An edit replaces exactly the unique regions it names: it gives a result
only if every text occurs at exactly one position and the regions lie apart,
and then the regions are replaced; and it gives one if that is so, also after
normalization, and the result differs from the content. -/
structure ReplacesNamedRegions (nfkc : JsString → JsString) (content : JsString)
    (edits : List Edit) (path : String) : Prop where
  sound : ∀ new, applyEditsToNormalizedContent nfkc content edits path = .ok new →
    (∀ edit ∈ edits, Once edit.oldText content) ∧ Apart content edits ∧
    ∃ ordered : List Edit, ordered.Perm (edits.map normalizeEdit) ∧ Replaced ordered content new
  complete : (∀ edit ∈ edits, Once edit.oldText content ∧
      Once (normalizeForFuzzyMatch nfkc edit.oldText) (normalizeForFuzzyMatch nfkc content)) →
    Apart content edits →
    (∀ (ordered : List Edit) (new : JsString),
      ordered.Perm (edits.map normalizeEdit) → Replaced ordered content new → new ≠ content) →
    ∃ new, applyEditsToNormalizedContent nfkc content edits path = .ok new

/-- The first occurrences in order of position. -/
def inOrder (content : JsString) (edits : List Edit) : List MatchedEdit :=
  (firstMatches content 0 (edits.map normalizeEdit)).insertionSort byIndex

/-- The edits are rejected: a text is counted more than once in normalized
text, or the first occurrences overlap, or replacing them changes nothing. -/
def Rejected (nfkc : JsString → JsString) (content : JsString)
    (edits : List Edit) : Prop :=
  (∃ edit ∈ edits, 1 < countOccurrences nfkc content edit.oldText) ∨
    ∀ new, ReplacedAt content 0 (inOrder content edits) new → new = content

section

variable {nfkc : JsString → JsString} {content new : JsString} {edits : List Edit}
  {path : String}

theorem normalizeToLF_of_not_mem {text : JsString} (h : carriageReturn ∉ text) :
    normalizeToLF text = text := by
  induction text with
  | nil => rfl
  | cons c rest ih =>
    rw [mem_cons, not_or] at h
    cases rest with
    | nil => exact if_neg (Ne.symm h.1)
    | cons d rest => rw [normalizeToLF, if_neg (Ne.symm h.1), ih h.2]

/-- Content with line feeds only, and texts that are in it. -/
structure Literal (content : JsString) (edits : List Edit) : Prop where
  lineFeeds : carriageReturn ∉ content
  nonempty : ∀ edit ∈ edits, edit.oldText ≠ []
  occurs : ∀ edit ∈ edits, Occurs edit.oldText content

theorem Literal.oldText (h : Literal content edits) {edit : Edit}
    (he : edit ∈ edits) : (normalizeEdit edit).oldText = edit.oldText :=
  normalizeToLF_of_not_mem fun hmem => h.lineFeeds ((h.occurs edit he).subset hmem)

theorem Literal.normalized (h : Literal content edits) :
    ∀ edit ∈ edits.map normalizeEdit, edit.oldText ≠ [] ∧ Occurs edit.oldText content := by
  intro edit hedit
  obtain ⟨e, he, rfl⟩ := List.mem_map.mp hedit
  rw [h.oldText he]
  exact ⟨h.nonempty e he, h.occurs e he⟩

theorem mem_inOrder {m : MatchedEdit} (h : Literal content edits) (hm : m ∈ inOrder content edits) :
    ∃ edit ∈ edits, m.matchLength = edit.oldText.length ∧
      OccursAt edit.oldText content m.matchIndex := by
  obtain ⟨e, he, j, rfl⟩ := mem_firstMatches ((mem_insertionSort byIndex).mp hm)
  have hoccurs := firstMatch_occurs (i := j) (h.normalized e he).2
  obtain ⟨edit, hedit, rfl⟩ := List.mem_map.mp he
  have hold := h.oldText hedit
  exact ⟨edit, hedit, congrArg List.length hold, hold ▸ hoccurs⟩

theorem applyEdits_ok_iff (h : Literal content edits) :
    applyEditsToNormalizedContent nfkc content edits path = .ok new ↔
      (∀ edit ∈ edits, countOccurrences nfkc content edit.oldText ≤ 1) ∧
      ReplacedAt content 0 (inOrder content edits) new ∧ new ≠ content := by
  have hnormalized := h.normalized
  have hnonempty : (edits.map normalizeEdit).findIdx?
      (fun edit => decide (edit.oldText = [])) = none := by
    rw [findIdx?_eq_none_iff]
    exact fun e he => decide_eq_false (hnormalized e he).1
  have hexact : ((edits.map normalizeEdit).any fun edit =>
      (fuzzyFindText nfkc content edit.oldText).any FuzzyMatchResult.usedFuzzyMatch)
      = false := by
    rw [any_eq_false]
    intro e he
    rw [fuzzyFindText_of_occurs (hnormalized e he).2]
    exact Bool.false_ne_true
  have hcounts : (∀ edit ∈ edits.map normalizeEdit, countOccurrences nfkc content edit.oldText ≤ 1)
      ↔ ∀ edit ∈ edits, countOccurrences nfkc content edit.oldText ≤ 1 := by
    rw [forall_mem_map]
    exact forall₂_congr fun e he => by rw [h.oldText he]
  have hmatch := fun regions => @matchEdits_ok_iff nfkc content (edits.map normalizeEdit)
    path 0 (edits.map normalizeEdit).length regions fun e he => (hnormalized e he).2
  have hwithin : ∀ m ∈ inOrder content edits, m.matchIndex + m.matchLength ≤ content.length := by
    intro m hm
    obtain ⟨edit, -, hlength, hoccurs⟩ := mem_inOrder h hm
    exact hlength ▸ hoccurs.bound
  rw [applyEditsToNormalizedContent, hnonempty]
  dsimp only
  rw [hexact, if_neg Bool.false_ne_true]
  cases hmatched : matchEdits nfkc content path (edits.map normalizeEdit).length 0
      (edits.map normalizeEdit) with
  | error e =>
    refine iff_of_false nofun fun hall => ?_
    have hok := (hmatch _).mpr ⟨hcounts.mpr hall.1, rfl⟩
    rw [hmatched] at hok
    cases hok
  | ok regions =>
    obtain ⟨hcount, rfl⟩ := (hmatch regions).mp hmatched
    refine Iff.trans ?_ (and_iff_right (hcounts.mp hcount)).symm
    have hinOrder : (firstMatches content 0 (edits.map normalizeEdit)).insertionSort byIndex
        = inOrder content edits := rfl
    dsimp only [bind, Except.bind]
    rw [hinOrder, if_neg Bool.false_ne_true]
    cases hoverlap : findOverlap (inOrder content edits) with
    | some pair =>
      refine iff_of_false nofun fun hall => ?_
      rw [hall.1.findOverlap] at hoverlap
      cases hoverlap
    | none =>
      obtain ⟨spliced, hspliced⟩ : ∃ new, ReplacedAt content 0 (inOrder content edits) new :=
        replacedAt_of_findOverlap hoverlap fun m _ => Nat.zero_le _
      have happlied := hspliced.applyReplacements (Nat.zero_le 0) (Nat.zero_le _) hwithin
      rw [take_zero, drop_zero, drop_zero, nil_append] at happlied
      have hunique (new : JsString) (hnew : ReplacedAt content 0 (inOrder content edits) new) :
          new = spliced := hnew.unique hspliced
      dsimp only
      rw [happlied]
      split
      · rename_i hsame
        refine iff_of_false nofun fun hall => hall.2 ?_
        rw [hunique new hall.1, hsame]
      · rename_i hdiffer
        rw [Except.ok.injEq]
        constructor
        · rintro rfl
          exact ⟨hspliced, Ne.symm hdiffer⟩
        · exact fun hall => (hunique new hall.1).symm

/-- Two matches whose regions do not overlap. -/
def MatchedEdit.Apart (m m' : MatchedEdit) : Prop :=
  m.matchIndex + m.matchLength ≤ m'.matchIndex ∨ m'.matchIndex + m'.matchLength ≤ m.matchIndex

theorem apart_iff (h : Literal content edits) (honce : ∀ edit ∈ edits, Once edit.oldText content) :
    Apart content edits ↔ (inOrder content edits).Pairwise MatchedEdit.Apart := by
  have hnormalized : Apart content edits ↔ Apart content (edits.map normalizeEdit) := by
    rw [Apart, Apart, pairwise_map]
    exact List.Pairwise.iff_of_mem fun he hf => by rw [h.oldText he, h.oldText hf]
  have hmatches : Apart content (edits.map normalizeEdit)
      ↔ (firstMatches content 0 (edits.map normalizeEdit)).Pairwise MatchedEdit.Apart := by
    have hmap := map_edit_firstMatches (i := 0) fun e he => (h.normalized e he).2
    rw [Apart]
    nth_rewrite 1 [← hmap]
    rw [pairwise_map]
    refine List.Pairwise.iff_of_mem fun {m m'} hm hm' => ?_
    obtain ⟨e, he, j, rfl⟩ := mem_firstMatches hm
    obtain ⟨e', he', j', rfl⟩ := mem_firstMatches hm'
    have hoccurs := (h.normalized e he).2
    have hoccurs' := (h.normalized e' he').2
    have hunique (f : Edit) (hf : f ∈ edits.map normalizeEdit) :
        Once f.oldText content := by
      obtain ⟨edit, hedit, rfl⟩ := List.mem_map.mp hf
      rw [h.oldText hedit]
      exact honce edit hedit
    rw [edit_firstMatch hoccurs, edit_firstMatch hoccurs']
    constructor
    · exact fun hall => hall _ _ (firstMatch_occurs hoccurs) (firstMatch_occurs hoccurs')
    · intro hapart i i' hi hi'
      rw [(hunique e he).unique hi (firstMatch_occurs (i := j) hoccurs),
        (hunique e' he').unique hi' (firstMatch_occurs (i := j') hoccurs')]
      exact hapart
  rw [hnormalized, hmatches]
  exact ((perm_insertionSort byIndex _).pairwise_iff Or.symm).symm

/-- Matches in order of position that lie apart have no overlap. -/
theorem findOverlap_of_apart {regions : List MatchedEdit}
    (hsorted : regions.Pairwise byIndex) (hapart : regions.Pairwise MatchedEdit.Apart)
    (hpos : ∀ m ∈ regions, 0 < m.matchLength) : findOverlap regions = none := by
  induction regions with
  | nil => rfl
  | cons m rest ih =>
    rw [pairwise_cons] at hsorted hapart
    have hrest := ih hsorted.2 hapart.2 fun m' hm' => hpos m' (mem_cons_of_mem _ hm')
    cases rest with
    | nil => rfl
    | cons m' rest =>
      have hle : m.matchIndex ≤ m'.matchIndex := hsorted.1 m' mem_cons_self
      have hpos' := hpos m' (mem_cons_of_mem _ mem_cons_self)
      have hno : ¬ m.matchIndex + m.matchLength > m'.matchIndex := by
        rcases hapart.1 m' mem_cons_self with happ | happ <;> omega
      rw [findOverlap, if_neg hno]
      exact hrest

/-- **An edit replaces exactly the unique regions it names** if and only if
every text occurs at one position, or the edits are rejected. -/
theorem replacesNamedRegions_iff (h : Literal content edits) :
    ReplacesNamedRegions nfkc content edits path
      ↔ (∀ edit ∈ edits, Once edit.oldText content) ∨ Rejected nfkc content edits := by
  constructor
  · intro hreplaces
    by_cases hrejected : Rejected nfkc content edits
    · exact .inr hrejected
    · left
      rw [Rejected, not_or] at hrejected
      obtain ⟨hcounts, hnew⟩ := hrejected
      simp only [not_exists, not_and, Int.not_lt] at hcounts
      rw [not_forall] at hnew
      obtain ⟨new, hnew⟩ := hnew
      rw [Classical.not_imp] at hnew
      exact (hreplaces.sound new ((applyEdits_ok_iff h).mpr ⟨hcounts, hnew⟩)).1
  · intro hcondition
    constructor
    · intro new hok
      obtain ⟨hcounts, hnew, hdiffer⟩ := (applyEdits_ok_iff h).mp hok
      have honce : ∀ edit ∈ edits, Once edit.oldText content := by
        rcases hcondition with honce | ⟨edit, hedit, hcount⟩ | hsame
        · exact honce
        · exact absurd (hcounts edit hedit) (Int.not_le.mpr hcount)
        · exact absurd (hsame new hnew) hdiffer
      refine ⟨honce, ?_, _, ?_, hnew.replaced⟩
      · rw [apart_iff h honce]
        exact hnew.pairwise.2.imp Or.inl
      · rw [← map_edit_firstMatches (i := 0) fun e he => (h.normalized e he).2]
        exact (perm_insertionSort byIndex _).map _
    · intro honce hapart hdiffer
      have honce' := fun edit he => (honce edit he).1
      have hoverlap : findOverlap (inOrder content edits) = none := by
        refine findOverlap_of_apart (pairwise_insertionSort byIndex _)
          ((apart_iff h honce').mp hapart) fun m hm => ?_
        obtain ⟨edit, hedit, hlength, -⟩ := mem_inOrder h hm
        exact hlength ▸ length_pos_of_ne_nil (h.nonempty edit hedit)
      obtain ⟨new, hnew⟩ : ∃ new, ReplacedAt content 0 (inOrder content edits) new :=
        replacedAt_of_findOverlap hoverlap fun m _ => Nat.zero_le _
      refine ⟨new, (applyEdits_ok_iff h).mpr ⟨fun edit hedit => ?_, hnew, ?_⟩⟩
      · have hpieces := split_length_le_of_once (honce edit hedit).2
        unfold countOccurrences
        omega
      · refine hdiffer _ new ?_ hnew.replaced
        rw [← map_edit_firstMatches (i := 0) fun e he => (h.normalized e he).2]
        exact (perm_insertionSort byIndex _).map _

end

def sampleEdit (oldText newText : String) : Edit := ⟨js oldText, js newText⟩

theorem occurs_of_indexOf {pattern text : JsString} {i : Nat}
    (h : indexOf pattern text = some i) : Occurs pattern text := ⟨i, (indexOf_some h).1⟩

theorem once_sample : Once (js "b") (js "ab") := by
  refine ⟨1, ⟨by decide, by decide⟩, fun i hi => ?_⟩
  cases i with
  | zero => exact absurd hi.2 (by decide)
  | succ i =>
    have hbound : i + 1 + 1 ≤ 2 := hi.bound
    omega

theorem replacesNamedRegions_iff_sample :
    ReplacesNamedRegions id (js "ab") [sampleEdit "b" "c"] "notes.md" :=
  (replacesNamedRegions_iff ⟨by decide, by decide, fun edit he => by
    obtain rfl := List.mem_singleton.mp he
    exact occurs_of_indexOf (i := 1) (by decide)⟩).mpr (.inl fun edit he => by
      obtain rfl := List.mem_singleton.mp he
      exact once_sample)

/-- In `aaa` the text `aa` occurs at two positions that overlap; it is counted
once, and the first is replaced. -/
theorem not_replacesNamedRegions :
    Literal (js "aaa") [sampleEdit "aa" "b"] ∧
      ¬ ReplacesNamedRegions id (js "aaa") [sampleEdit "aa" "b"] "notes.md" := by
  refine ⟨⟨by decide, by decide, fun edit he => ?_⟩, fun h => ?_⟩
  · obtain rfl := List.mem_singleton.mp he
    exact occurs_of_indexOf (i := 0) (by decide)
  · have honce := (h.sound (js "ba") (by decide)).1 _ mem_cons_self
    have hzero : OccursAt (js "aa") (js "aaa") 0 := ⟨by decide, by decide⟩
    have hone : OccursAt (js "aa") (js "aaa") 1 := ⟨by decide, by decide⟩
    cases honce.unique hzero hone

end ReflectivePi.Tools
