import Mathlib.Data.List.Infix
import ReflectivePi.Tui.StdinBuffer

/-!
# Tui — StdinScan

What a text says when it is read at once: sequences, the start of a paste, and
pastes. Reading it in two parts, with what the first part leaves over put in
front of the second, gives the same, unless an `ESC` was taken alone in front
of a sequence or an unfinished sequence was lost in front of a paste.
-/

namespace ReflectivePi.Tui

open List Search

inductive StdinItem where
  | sequence (taken : List CodeUnit)
  | pasteStart
  | paste (content : List CodeUnit)
  /-- An incomplete sequence in front of a paste, which is dropped. -/
  | lost (remainder : List CodeUnit)

/-- Neither an `ESC` taken alone nor a lost sequence. -/
def StdinItem.Settled : StdinItem → Prop
  | .sequence taken => taken ≠ [esc]
  | .lost _ => False
  | _ => True

def lostItems (remainder : List CodeUnit) : List StdinItem :=
  if remainder = [] then [] else [.lost remainder]

/-- What is left over: text that waits for more, or the paste so far. -/
inductive StdinMode where
  | normal (remainder : List CodeUnit)
  | paste (content : List CodeUnit)

def StdinItem.text : StdinItem → List CodeUnit
  | .sequence taken => taken
  | .pasteStart => []
  | .paste content => bracketedPasteStart ++ content ++ bracketedPasteEnd
  | .lost remainder => remainder

def StdinMode.text : StdinMode → List CodeUnit
  | .normal remainder => remainder
  | .paste content => bracketedPasteStart ++ content

/-- The marker of the paste that a text goes on with. -/
def opened (inPaste : Bool) : List CodeUnit := if inPaste then bracketedPasteStart else []

variable {marker : List CodeUnit}

theorem rest_length_lt {text : List CodeUnit} {i : Nat} (hmarker : marker ≠ [])
    (h : indexOf marker text = some i) : (text.drop (i + marker.length)).length < text.length := by
  have hbound := (indexOf_some h).1.bound
  have hlength := length_pos_of_ne_nil hmarker
  rw [length_drop]
  omega

theorem start_ne_nil : bracketedPasteStart ≠ [] := by decide

theorem end_ne_nil : bracketedPasteEnd ≠ [] := by decide

/-- The items of a text, in a paste or not. -/
def scan (inPaste : Bool) (text : List CodeUnit) : List StdinItem × StdinMode :=
  match inPaste with
  | true =>
    match h : indexOf bracketedPasteEnd text with
    | none => ([], .paste text)
    | some i =>
      have := rest_length_lt end_ne_nil h
      let (items, mode) := scan false (text.drop (i + bracketedPasteEnd.length))
      (.paste (text.take i) :: items, mode)
  | false =>
    match h : indexOf bracketedPasteStart text with
    | none =>
      let (sequences, remainder) := extractCompleteSequences text
      (sequences.map .sequence, .normal remainder)
    | some i =>
      have := rest_length_lt start_ne_nil h
      let (sequences, remainder) := extractCompleteSequences (text.take i)
      let (items, mode) := scan true (text.drop (i + bracketedPasteStart.length))
      (sequences.map .sequence ++ lostItems remainder ++ .pasteStart :: items, mode)
termination_by text.length
decreasing_by all_goals exact this

variable {text : List CodeUnit} {i : Nat}

theorem scan_paste_none (h : indexOf bracketedPasteEnd text = none) :
    scan true text = ([], .paste text) := by
  unfold scan
  split
  · rfl
  · rename_i i hsome
    rw [h] at hsome
    cases hsome

theorem scan_paste_some (h : indexOf bracketedPasteEnd text = some i) :
    scan true text =
      (.paste (text.take i) :: (scan false (text.drop (i + bracketedPasteEnd.length))).1,
        (scan false (text.drop (i + bracketedPasteEnd.length))).2) := by
  rw [scan]
  split
  · rename_i hnone
    rw [h] at hnone
    cases hnone
  · rename_i j hsome
    rw [h] at hsome
    cases hsome
    rfl

theorem scan_normal_none (h : indexOf bracketedPasteStart text = none) :
    scan false text = ((extractFrom [] text).1.map .sequence, .normal (extractFrom [] text).2) := by
  rw [scan]
  split
  · rfl
  · rename_i i hsome
    rw [h] at hsome
    cases hsome

theorem scan_normal_some (h : indexOf bracketedPasteStart text = some i) :
    scan false text = ((extractFrom [] (text.take i)).1.map .sequence
          ++ lostItems (extractFrom [] (text.take i)).2
          ++ .pasteStart :: (scan true (text.drop (i + bracketedPasteStart.length))).1,
        (scan true (text.drop (i + bracketedPasteStart.length))).2) := by
  conv_lhs => rw [scan]
  split
  · rename_i hnone
    rw [h] at hnone
    cases hnone
  · rename_i j hsome
    rw [h] at hsome
    cases hsome
    rfl

/-! ## Taking sequences -/

variable {x y candidate p q : List CodeUnit}

/-- A text whose beginnings are all incomplete. -/
def Unfinished (text : List CodeUnit) : Prop :=
  ∀ p, p <+: text → p ≠ [] → isCompleteSequence p = .incomplete

theorem unfinished_nil : Unfinished [] :=
  fun _ hfront hne => absurd (List.prefix_nil.mp hfront) hne

theorem Unfinished.snoc {c : CodeUnit} (h : Unfinished p)
    (hc : isCompleteSequence (p ++ [c]) = .incomplete) : Unfinished (p ++ [c]) := by
  intro q hq hne
  rcases List.prefix_concat_iff.mp hq with heq | hfront
  · rw [heq]
    exact hc
  · exact h q hfront hne

theorem head_of_incomplete {c : CodeUnit} (h : isCompleteSequence (c :: p) = .incomplete) :
    c = esc := by
  by_contra hne
  unfold isCompleteSequence at h
  rw [if_pos] at h
  · cases h
  · rw [List.isPrefixOf, beq_false_of_ne (Ne.symm hne)]
    rfl

theorem extractFrom_cons (c : CodeUnit) (rest : List CodeUnit) :
    extractFrom candidate (c :: rest) =
      if candidate = [] ∧ c ≠ esc then ([c] :: (extractFrom [] rest).1, (extractFrom [] rest).2)
      else if isCompleteSequence (candidate ++ [c]) = .incomplete then
        extractFrom (candidate ++ [c]) rest
      else if candidate ++ [c] = [esc, esc] ∧ startsSequence rest.head? then
        ([esc] :: (extractFrom [esc] rest).1, (extractFrom [esc] rest).2)
      else
        ((candidate ++ [c]) :: (extractFrom [] rest).1, (extractFrom [] rest).2) := by
  rw [extractFrom]
  cases isCompleteSequence (candidate ++ [c]) <;> rfl

theorem extractFrom_unfinished (h : Unfinished candidate) :
    Unfinished (extractFrom candidate x).2 := by
  induction x generalizing candidate with
  | nil => exact h
  | cons c rest ih =>
    rw [extractFrom_cons]
    split
    · exact ih unfinished_nil
    · split
      · rename_i hincomplete
        exact ih (h.snoc hincomplete)
      · split
        · have hesc : Unfinished [esc] := unfinished_nil.snoc (p := []) (by decide)
          exact ih hesc
        · exact ih unfinished_nil

theorem extractFrom_resume (h : Unfinished (p ++ q)) :
    extractFrom p (q ++ y) = extractFrom (p ++ q) y := by
  induction q generalizing p with
  | nil => rw [append_nil, nil_append]
  | cons c q ih =>
    have hc : isCompleteSequence (p ++ [c]) = .incomplete :=
      h (p ++ [c]) (prefix_append_right_inj p |>.mpr (by simp)) (by simp)
    have hsame : ¬(p = [] ∧ c ≠ esc) := by
      rintro ⟨rfl, hne⟩
      exact hne (head_of_incomplete hc)
    rw [cons_append, extractFrom, if_neg hsame, hc]
    have hassoc : p ++ c :: q = (p ++ [c]) ++ q := by simp
    rw [hassoc] at h ⊢
    exact ih h

theorem extractFrom_append
    (h : startsSequence y.head? → [esc] ∉ (extractFrom candidate (x ++ y)).1) :
    extractFrom candidate (x ++ y) =
      ((extractFrom candidate x).1 ++ (extractFrom (extractFrom candidate x).2 y).1,
        (extractFrom (extractFrom candidate x).2 y).2) := by
  induction x generalizing candidate with
  | nil => rfl
  | cons c rest ih =>
    rw [cons_append] at h ⊢
    rw [extractFrom_cons] at h ⊢
    rw [extractFrom_cons]
    by_cases hplain : candidate = [] ∧ c ≠ esc
    · simp only [if_pos hplain] at h ⊢
      rw [ih fun hstart hmem => h hstart (mem_cons_of_mem _ hmem)]
      rfl
    · by_cases hstatus : isCompleteSequence (candidate ++ [c]) = .incomplete
      · simp only [if_neg hplain, if_pos hstatus] at h ⊢
        exact ih h
      · simp only [if_neg hplain, if_neg hstatus] at h ⊢
        -- the character behind `ESC ESC` is the same one, or there is none yet
        have hsame : (candidate ++ [c] = [esc, esc] ∧ startsSequence (rest ++ y).head?) ↔
            candidate ++ [c] = [esc, esc] ∧ startsSequence rest.head? := by
          cases rest with
          | cons d rest => rfl
          | nil =>
            refine ⟨fun hsplit => ?_, fun hsplit => nomatch hsplit.2⟩
            rw [if_pos hsplit] at h
            exact absurd mem_cons_self (h hsplit.2)
        rw [if_congr hsame rfl rfl] at h ⊢
        split
        · rename_i hsplit
          rw [if_pos hsplit] at h
          rw [ih fun hstart hmem => h hstart (mem_cons_of_mem _ hmem)]
          rfl
        · rename_i hsplit
          rw [if_neg hsplit] at h
          rw [ih fun hstart hmem => h hstart (mem_cons_of_mem _ hmem)]
          rfl

theorem extractFrom_text :
    (extractFrom candidate x).1.flatten ++ (extractFrom candidate x).2 = candidate ++ x := by
  induction x generalizing candidate with
  | nil => rw [extractFrom, flatten_nil, nil_append, append_nil]
  | cons c rest ih =>
    rw [extractFrom_cons]
    split
    · rename_i hplain
      rw [hplain.1, flatten_cons, append_assoc, ih]
      rfl
    · split
      · rw [ih, append_assoc]
        rfl
      · split
        · rename_i hsplit
          rw [flatten_cons, append_assoc, ih, append_cons, hsplit.1]
          rfl
        · rw [flatten_cons, append_assoc, ih, append_assoc]
          rfl

/-! ## Reading in two parts -/

/-- Reading on after what was left over. -/
def StdinMode.resume : StdinMode → List CodeUnit → List StdinItem × StdinMode
  | .normal remainder, text => scan false (remainder ++ text)
  | .paste content, text => scan true (content ++ text)

def AllSettled (items : List StdinItem) : Prop := ∀ item ∈ items, item.Settled

theorem AllSettled.left {items more : List StdinItem} (h : AllSettled (items ++ more)) :
    AllSettled items :=
  fun item hitem => h item (mem_append_left _ hitem)

theorem AllSettled.right {items more : List StdinItem} (h : AllSettled (items ++ more)) :
    AllSettled more :=
  fun item hitem => h item (mem_append_right _ hitem)

theorem AllSettled.esc_not_mem {sequences : List (List CodeUnit)}
    (h : AllSettled (sequences.map .sequence)) : [esc] ∉ sequences :=
  fun hmem => h (.sequence [esc]) (mem_map_of_mem hmem) rfl

theorem AllSettled.lost {r : List CodeUnit} (h : AllSettled (lostItems r)) : r = [] := by
  by_contra hne
  rw [lostItems, if_neg hne] at h
  exact h (.lost r) mem_cons_self

theorem unfinished_start (h : q <+: bracketedPasteStart) (hne : q ≠ bracketedPasteStart) :
    extractFrom [] q = ([], q) ∧ startsSequence q.head? = false := by
  rw [← mem_inits] at h
  revert q
  decide

variable {r : List CodeUnit} {sequences : List (List CodeUnit)}

theorem extractFrom_nil_text (x : List CodeUnit) :
    (extractFrom [] x).1.flatten ++ (extractFrom [] x).2 = x :=
  extractFrom_text

theorem resume_remainder (x y : List CodeUnit) :
    extractFrom [] ((extractFrom [] x).2 ++ y) = extractFrom (extractFrom [] x).2 y :=
  extractFrom_resume (p := []) (extractFrom_unfinished unfinished_nil)

theorem scan_append_after (hstart : indexOf bracketedPasteStart (x ++ y) = some (x.length + i))
    (hsettled : AllSettled (scan false (x ++ y)).1) :
    scan false (x ++ y) =
      ((extractFrom [] x).1.map .sequence ++ (scan false ((extractFrom [] x).2 ++ y)).1,
        (scan false ((extractFrom [] x).2 ++ y)).2) := by
  have htext := extractFrom_nil_text x
  have hlengths : x.length = (extractFrom [] x).1.flatten.length + (extractFrom [] x).2.length := by
    rw [← length_append, htext]
  -- the marker is behind what the first part leaves over
  have hrest : indexOf bracketedPasteStart ((extractFrom [] x).2 ++ y)
      = some ((extractFrom [] x).2.length + i) := by
    have hwhole : indexOf bracketedPasteStart ((extractFrom [] x).1.flatten
        ++ ((extractFrom [] x).2 ++ y))
        = some ((extractFrom [] x).1.flatten.length + ((extractFrom [] x).2.length + i)) := by
      rw [← append_assoc, htext, hstart, hlengths, Nat.add_assoc]
    exact indexOf_drop hwhole
  rw [scan_normal_some hstart] at hsettled ⊢
  rw [take_length_add_append] at hsettled ⊢
  rw [scan_normal_some hrest, take_length_add_append, resume_remainder]
  rw [extractFrom_append fun _ => hsettled.left.left.esc_not_mem, map_append]
  have hdrop : (x ++ y).drop (x.length + i + bracketedPasteStart.length)
      = y.drop (i + bracketedPasteStart.length) := by
    rw [Nat.add_assoc, drop_length_add_append]
  have hdrop' : ((extractFrom [] x).2 ++ y).drop
        ((extractFrom [] x).2.length + i + bracketedPasteStart.length)
      = y.drop (i + bracketedPasteStart.length) := by
    rw [Nat.add_assoc, drop_length_add_append]
  rw [hdrop, hdrop']
  simp only [append_assoc]

theorem scan_append_across (hx : indexOf bracketedPasteStart x = none)
    (hstart : indexOf bracketedPasteStart (x ++ y) = some i) (hi : i ≤ x.length)
    (hsettled : AllSettled (scan false (x ++ y)).1) :
    scan false (x ++ y) =
      ((extractFrom [] x).1.map .sequence ++ (scan false ((extractFrom [] x).2 ++ y)).1,
        (scan false ((extractFrom [] x).2 ++ y)).2) := by
  have hoccurs := (indexOf_some hstart).1
  obtain ⟨before, q, rfl, rfl⟩ : ∃ before q, x = before ++ q ∧ before.length = i :=
    ⟨x.take i, x.drop i, (take_append_drop i x).symm, length_take_of_le hi⟩
  have hdrop : (before ++ q ++ y).drop before.length = q ++ y := by
    simp
  rw [OccursAt, hdrop] at hoccurs
  have hpartial : ¬ bracketedPasteStart <+: q := by
    rintro ⟨after, rfl⟩
    exact indexOf_eq_none.mp hx ⟨_, occursAt_append before after⟩
  have hfront : q <+: bracketedPasteStart := by
    rcases prefix_or_prefix_of_prefix (prefix_append q y) hoccurs.2 with h | h
    · exact h
    · exact absurd h hpartial
  have hne : q ≠ bracketedPasteStart := by
    rintro rfl
    exact hpartial (prefix_refl _)
  obtain ⟨htake, hhead⟩ := unfinished_start hfront hne
  have hrest : indexOf bracketedPasteStart (q ++ y) = some 0 :=
    indexOf_eq_some.mpr ⟨⟨Nat.zero_le _, hoccurs.2⟩, fun j _ => Nat.zero_le j⟩
  rw [scan_normal_some hstart] at hsettled ⊢
  rw [append_assoc before q y, take_left] at hsettled ⊢
  have hremainder := hsettled.left.right.lost
  rw [extractFrom_append (by simp [hhead]), hremainder, htake, scan_normal_some hrest,
    take_zero, ← drop_drop, drop_left, Nat.zero_add]
  simp only [extractFrom, append_nil, lostItems, map_nil, nil_append, if_pos]

theorem scan_append (inPaste : Bool) (x y : List CodeUnit)
    (hsettled : AllSettled (scan inPaste (x ++ y)).1) :
    scan inPaste (x ++ y) = ((scan inPaste x).1 ++ ((scan inPaste x).2.resume y).1,
        ((scan inPaste x).2.resume y).2) := by
  induction hlength : x.length using Nat.strongRecOn generalizing inPaste x with
  | ind n ih =>
    subst hlength
    cases inPaste with
    | true =>
      cases hx : indexOf bracketedPasteEnd x with
      | none => rw [scan_paste_none hx]; rfl
      | some i =>
        have hbound := (indexOf_some hx).1.bound
        rw [scan_paste_some (indexOf_append hx), drop_append_of_le_length hbound] at hsettled ⊢
        rw [scan_paste_some hx, take_append_of_le_length (by omega),
          ih _ (rest_length_lt end_ne_nil hx) false _ ?_ rfl]
        · rfl
        · exact fun item hitem => hsettled item (mem_cons_of_mem _ hitem)
    | false =>
      cases hx : indexOf bracketedPasteStart x with
      | some i =>
        have hbound := (indexOf_some hx).1.bound
        rw [scan_normal_some (indexOf_append hx), drop_append_of_le_length hbound,
          take_append_of_le_length (by omega)] at hsettled ⊢
        rw [scan_normal_some hx, ih _ (rest_length_lt start_ne_nil hx) true _ ?_ rfl]
        · simp
        · exact fun item hitem => hsettled.right item (mem_cons_of_mem _ hitem)
      | none =>
        rw [scan_normal_none hx]
        cases hstart : indexOf bracketedPasteStart (x ++ y) with
        | some i =>
          rcases Nat.le_total i x.length with hi | hi
          · exact scan_append_across hx hstart hi hsettled
          · obtain ⟨k, rfl⟩ := Nat.exists_eq_add_of_le hi
            exact scan_append_after hstart hsettled
        | none =>
          have hrest : indexOf bracketedPasteStart ((extractFrom [] x).2 ++ y) = none := by
            have hwhole : indexOf bracketedPasteStart ((extractFrom [] x).1.flatten
                ++ ((extractFrom [] x).2 ++ y)) = none := by
              rw [← append_assoc, extractFrom_nil_text, hstart]
            exact (indexOf_none_of_append hwhole).2
          rw [scan_normal_none hstart] at hsettled ⊢
          rw [StdinMode.resume, scan_normal_none hrest, resume_remainder,
            extractFrom_append fun _ => hsettled.esc_not_mem, map_append]

theorem flatMap_text_sequences (sequences : List (List CodeUnit)) :
    (sequences.map StdinItem.sequence).flatMap StdinItem.text = sequences.flatten := by
  induction sequences with
  | nil => rfl
  | cons taken sequences ih =>
    rw [map_cons, flatMap_cons, ih]
    rfl

theorem flatMap_text_lost (r : List CodeUnit) : (lostItems r).flatMap StdinItem.text = r := by
  rw [lostItems]
  split
  · rename_i hr
    rw [hr]
    rfl
  · rw [flatMap_cons, flatMap_nil, append_nil]
    rfl

theorem marker_at (h : indexOf marker text = some i) :
    text = text.take i ++ (marker ++ text.drop (i + marker.length)) := by
  rw [← (indexOf_some h).1.drop_eq, take_append_drop]

theorem scan_text (inPaste : Bool) (text : List CodeUnit) :
    (scan inPaste text).1.flatMap StdinItem.text ++ (scan inPaste text).2.text
      = opened inPaste ++ text := by
  induction hlength : text.length using Nat.strongRecOn generalizing inPaste text with
  | ind n ih =>
    subst hlength
    cases inPaste with
    | true =>
      cases hend : indexOf bracketedPasteEnd text with
      | none => rw [scan_paste_none hend]; rfl
      | some i =>
        rw [scan_paste_some hend, flatMap_cons, append_assoc,
          ih _ (rest_length_lt end_ne_nil hend) false _ rfl]
        conv_rhs => rw [marker_at hend]
        simp only [StdinItem.text, opened, append_assoc]
        rfl
    | false =>
      cases hstart : indexOf bracketedPasteStart text with
      | none =>
        rw [scan_normal_none hstart, flatMap_text_sequences]
        exact extractFrom_nil_text text
      | some i =>
        rw [scan_normal_some hstart, flatMap_append, flatMap_append,
          flatMap_cons, flatMap_text_sequences, flatMap_text_lost,
          extractFrom_nil_text, append_assoc, append_assoc,
          ih _ (rest_length_lt start_ne_nil hstart) true _ rfl]
        exact (marker_at hstart).symm

/-! ## An `ESC` taken alone -/

theorem extractFrom_split (h : [esc] ∈ (extractFrom candidate x).1) :
    ∃ w v taken, x = w ++ v ∧ startsSequence v.head? ∧
      extractFrom candidate w = (taken ++ [[esc, esc]], []) ∧
      taken ++ [[esc]] <+: (extractFrom candidate x).1 := by
  induction x generalizing candidate with
  | nil => cases h
  | cons c rest ih =>
    rw [extractFrom_cons] at h ⊢
    by_cases hplain : candidate = [] ∧ c ≠ esc
    · simp only [if_pos hplain] at h ⊢
      have hrest : [esc] ∈ (extractFrom [] rest).1 := by
        rcases List.mem_cons.mp h with heq | hmem
        · exact absurd (List.cons.inj heq).1.symm hplain.2
        · exact hmem
      obtain ⟨w, v, taken, rfl, hv, hw, hfront⟩ := ih hrest
      refine ⟨c :: w, v, [c] :: taken, rfl, hv, ?_, ?_⟩
      · rw [extractFrom_cons, if_pos hplain, hw]
        rfl
      · exact List.cons_prefix_cons.mpr ⟨rfl, hfront⟩
    · by_cases hstatus : isCompleteSequence (candidate ++ [c]) = .incomplete
      · simp only [if_neg hplain, if_pos hstatus] at h ⊢
        obtain ⟨w, v, taken, rfl, hv, hw, hfront⟩ := ih h
        refine ⟨c :: w, v, taken, rfl, hv, ?_, hfront⟩
        rw [extractFrom_cons, if_neg hplain, if_pos hstatus, hw]
      · simp only [if_neg hplain, if_neg hstatus] at h ⊢
        by_cases hsplit : candidate ++ [c] = [esc, esc] ∧ startsSequence rest.head?
        · rw [if_pos hsplit]
          refine ⟨[c], rest, [], rfl, hsplit.2, ?_, ?_⟩
          · rw [extractFrom_cons, if_neg hplain, if_neg hstatus, hsplit.1]
            rfl
          simp
        · rw [if_neg hsplit] at h ⊢
          have hrest : [esc] ∈ (extractFrom [] rest).1 := by
            rcases List.mem_cons.mp h with heq | hmem
            · rw [← heq] at hstatus
              exact absurd (by decide) hstatus
            · exact hmem
          obtain ⟨w, v, taken, rfl, hv, hw, hfront⟩ := ih hrest
          refine ⟨c :: w, v, (candidate ++ [c]) :: taken, rfl, hv, ?_, ?_⟩
          · cases w with
            | nil => cases taken <;> cases hw
            | cons d w =>
              have hsame : ¬(candidate ++ [c] = [esc, esc]
                  ∧ startsSequence (d :: w).head?) := hsplit
              rw [extractFrom_cons, if_neg hplain, if_neg hstatus, if_neg hsame, hw]
              rfl
          · exact List.cons_prefix_cons.mpr ⟨rfl, hfront⟩

theorem mem_sequences {taken : List CodeUnit} {sequences : List (List CodeUnit)}
    (h : StdinItem.sequence taken ∈ sequences.map StdinItem.sequence) : taken ∈ sequences := by
  obtain ⟨_, hmem, heq⟩ := List.mem_map.mp h
  cases heq
  exact hmem

theorem not_mem_lostItems {taken : List CodeUnit} (r : List CodeUnit) :
    StdinItem.sequence taken ∉ lostItems r := by
  intro hmem
  rw [lostItems] at hmem
  split at hmem
  · cases hmem
  · cases List.mem_singleton.mp hmem

/-- What stands behind a marker does not matter for where it is. -/
theorem indexOf_cut {w v : List CodeUnit} (h : indexOf marker text = some i)
    (hrest : text.drop (i + marker.length) = w ++ v) :
    text = text.take (i + marker.length) ++ w ++ v ∧
      indexOf marker (text.take (i + marker.length) ++ w) = some i ∧
      (text.take (i + marker.length) ++ w).take i = text.take i ∧
      (text.take (i + marker.length) ++ w).drop (i + marker.length) = w := by
  have hbound := (indexOf_some h).1.bound
  have hlength : (text.take (i + marker.length)).length = i + marker.length :=
    length_take_of_le hbound
  have htext : text = text.take (i + marker.length) ++ w ++ v := by
    rw [append_assoc, ← hrest, take_append_drop]
  refine ⟨htext, ?_, ?_, ?_⟩
  · rw [htext] at h
    refine indexOf_of_append h ?_
    rw [length_append, hlength]
    exact Nat.le_add_right _ _
  · rw [take_append_of_le_length (by omega), take_take, Nat.min_eq_left (Nat.le_add_right _ _)]
  · rw [drop_left' hlength]

theorem scan_split_before {before : List CodeUnit}
    (hstart : indexOf bracketedPasteStart before = none) (h : [esc] ∈ (extractFrom [] before).1) :
    ∃ w v items, before = w ++ v ∧ startsSequence v.head? ∧
      scan false w = (items ++ [.sequence [esc, esc]], .normal []) ∧
      items ++ [.sequence [esc]] <+: (extractFrom [] before).1.map .sequence := by
  obtain ⟨w, v, taken, rfl, hv, hw, hfront⟩ := extractFrom_split h
  refine ⟨w, v, taken.map .sequence, rfl, hv, ?_, ?_⟩
  · rw [scan_normal_none (indexOf_none_of_append hstart).1, hw, map_append]
    rfl
  · have hmap := hfront.map StdinItem.sequence
    rwa [map_append] at hmap

theorem indexOf_take (hmarker : marker ≠ [])
    (h : indexOf marker text = some i) : indexOf marker (text.take i) = none := by
  refine indexOf_eq_none.mpr fun ⟨j, hj⟩ => ?_
  have hbound := hj.bound
  have hlength := length_pos_of_ne_nil hmarker
  have hoccurs : OccursAt marker text j := by
    rw [← take_append_drop i text]
    exact hj.append_right
  have hfirst := (indexOf_some h).2 j hoccurs
  rw [length_take] at hbound
  omega

theorem scan_split (inPaste : Bool) (text : List CodeUnit)
    (h : StdinItem.sequence [esc] ∈ (scan inPaste text).1) :
    ∃ w v items, text = w ++ v ∧ startsSequence v.head? ∧
      scan inPaste w = (items ++ [.sequence [esc, esc]], .normal []) ∧
      items ++ [.sequence [esc]] <+: (scan inPaste text).1 := by
  induction hlength : text.length using Nat.strongRecOn generalizing inPaste text with
  | ind n ih =>
    subst hlength
    cases inPaste with
    | true =>
      cases hend : indexOf bracketedPasteEnd text with
      | none =>
        rw [scan_paste_none hend] at h
        cases h
      | some i =>
        rw [scan_paste_some hend] at h ⊢
        have hmem := (List.mem_cons.mp h).resolve_left fun heq => nomatch heq
        obtain ⟨w, v, items, hrest, hv, hw, hfront⟩ :=
          ih _ (rest_length_lt end_ne_nil hend) false _ hmem rfl
        obtain ⟨htext, hindex, htake, hdrop⟩ := indexOf_cut hend hrest
        refine ⟨_, v, .paste (text.take i) :: items, htext, hv, ?_, ?_⟩
        · rw [scan_paste_some hindex, htake, hdrop, hw]
          rfl
        · exact List.cons_prefix_cons.mpr ⟨rfl, hfront⟩
    | false =>
      cases hstart : indexOf bracketedPasteStart text with
      | none =>
        rw [scan_normal_none hstart] at h ⊢
        exact scan_split_before hstart (mem_sequences h)
      | some i =>
        rw [scan_normal_some hstart] at h ⊢
        rcases List.mem_append.mp h with hmem | hmem
        · rcases List.mem_append.mp hmem with hmem | hmem
          · obtain ⟨w, v, items, hbefore, hv, hw, hfront⟩ :=
              scan_split_before (indexOf_take start_ne_nil hstart) (mem_sequences hmem)
            refine ⟨w, v ++ text.drop i, items, ?_, ?_, hw, ?_⟩
            · rw [← append_assoc, ← hbefore, take_append_drop]
            · cases v with
              | nil => cases hv
              | cons d v => exact hv
            · rw [append_assoc]
              exact hfront.trans (prefix_append _ _)
          · exact absurd hmem (not_mem_lostItems _)
        · have hmem := (List.mem_cons.mp hmem).resolve_left fun heq => nomatch heq
          obtain ⟨w, v, items, hrest, hv, hw, hfront⟩ :=
            ih _ (rest_length_lt start_ne_nil hstart) true _ hmem rfl
          obtain ⟨htext, hindex, htake, hdrop⟩ := indexOf_cut hstart hrest
          refine ⟨_, v, (extractFrom [] (text.take i)).1.map .sequence
            ++ lostItems (extractFrom [] (text.take i)).2 ++ .pasteStart :: items,
            htext, hv, ?_, ?_⟩
          · rw [scan_normal_some hindex, htake, hdrop, hw]
            simp
          · rw [append_assoc, cons_append]
            refine (prefix_append_right_inj _).mpr ?_
            exact List.cons_prefix_cons.mpr ⟨rfl, hfront⟩

end ReflectivePi.Tui
