import ReflectivePi.Tui.StdinScan

/-!
# Tui — StdinChunks

How input is cut into chunks does not show in the events, and what is typed is
accounted for, exactly when every item of the input is settled.
-/

namespace ReflectivePi.Tui

open List Search

/-! ## The events of the items -/

/-- The code point that may be repeated, and the events of an item. -/
def StdinItem.emit (pending : Option Nat) : StdinItem → Option Nat × List StdinEvent
  | .sequence taken =>
    let (s, events) :=
      ({ pendingKittyPrintableCodepoint := pending } : StdinBuffer).emitDataSequence taken
    (s.pendingKittyPrintableCodepoint, events)
  | .pasteStart => (none, [])
  | .paste content => (none, [.paste content])
  | .lost _ => (pending, [])

def emitItems (pending : Option Nat) : List StdinItem → Option Nat × List StdinEvent
  | [] => (pending, [])
  | item :: items =>
    ((emitItems (item.emit pending).1 items).1,
      (item.emit pending).2 ++ (emitItems (item.emit pending).1 items).2)

theorem emitItems_append (pending : Option Nat) (items more : List StdinItem) :
    emitItems pending (items ++ more) = ((emitItems (emitItems pending items).1 more).1,
        (emitItems pending items).2 ++ (emitItems (emitItems pending items).1 more).2) := by
  induction items generalizing pending with
  | nil => rfl
  | cons item items ih =>
    rw [cons_append, emitItems, ih]
    simp only [emitItems, append_assoc]

theorem emit_lostItems (pending : Option Nat) (r : List CodeUnit) :
    emitItems pending (lostItems r) = (pending, []) := by
  rw [lostItems]
  split <;> rfl

theorem emitDataSequence_eq (s : StdinBuffer) (taken : List CodeUnit) :
    s.emitDataSequence taken = ({ s with pendingKittyPrintableCodepoint :=
          (StdinItem.emit s.pendingKittyPrintableCodepoint (.sequence taken)).1 },
        (StdinItem.emit s.pendingKittyPrintableCodepoint (.sequence taken)).2) := by
  unfold StdinItem.emit StdinBuffer.emitDataSequence
  dsimp only
  split
  · split <;> rfl
  rfl

theorem emitSequences_eq (s : StdinBuffer) (sequences : List (List CodeUnit)) :
    s.emitSequences sequences = ({ s with pendingKittyPrintableCodepoint :=
          (emitItems s.pendingKittyPrintableCodepoint (sequences.map .sequence)).1 },
        (emitItems s.pendingKittyPrintableCodepoint (sequences.map .sequence)).2) := by
  induction sequences generalizing s with
  | nil => rfl
  | cons taken sequences ih =>
    rw [StdinBuffer.emitSequences, emitDataSequence_eq]
    dsimp only
    rw [ih]
    rfl

/-! ## The code reads the items -/

def StdinMode.state (pending : Option Nat) : StdinMode → StdinBuffer
  | .normal remainder =>
    { buffer := remainder, pendingKittyPrintableCodepoint := pending }
  | .paste content =>
    { pasteMode := true, pasteBuffer := content, pendingKittyPrintableCodepoint := pending }

/-- The state and the events of what was read. -/
def outcome (pending : Option Nat) (read : List StdinItem × StdinMode) :
    StdinBuffer × List StdinEvent :=
  (read.2.state (emitItems pending read.1).1, (emitItems pending read.1).2)

theorem outcome_append (pending : Option Nat) (items : List StdinItem)
    (read : List StdinItem × StdinMode) :
    outcome pending (items ++ read.1, read.2) = ((outcome (emitItems pending items).1 read).1,
        (emitItems pending items).2 ++ (outcome (emitItems pending items).1 read).2) := by
  rw [outcome, emitItems_append]
  rfl

/-- What a text that is not empty does to a buffer with nothing in it. -/
def ReadsRest (process : StdinBuffer → List CodeUnit → StdinBuffer × List StdinEvent)
    (bound : Nat) : Prop :=
  ∀ pending rest, rest ≠ [] → rest.length < bound →
    process ((StdinMode.normal []).state pending) rest = outcome pending (scan false rest)

theorem scan_nil : scan false [] = ([], .normal []) := by
  rw [scan_normal_none (by decide)]
  rfl

theorem endPaste_scan {process} (pending : Option Nat) (content : List CodeUnit)
    (hprocess : ReadsRest process content.length) :
    StdinBuffer.endPaste process ((StdinMode.paste content).state pending)
      = outcome pending (scan true content) := by
  unfold StdinBuffer.endPaste
  dsimp only [StdinMode.state]
  cases hend : indexOf bracketedPasteEnd content with
  | none =>
    rw [scan_paste_none hend]
    rfl
  | some i =>
    rw [scan_paste_some hend]
    dsimp only
    have hlt := rest_length_lt end_ne_nil hend
    generalize content.drop (i + bracketedPasteEnd.length) = rest at hlt ⊢
    by_cases hrest : rest = []
    · subst hrest
      rw [if_neg (fun hne => hne rfl), scan_nil]
      rfl
    · rw [if_pos hrest]
      have hcall := hprocess none rest hrest hlt
      rw [StdinMode.state] at hcall
      rw [hcall]
      rfl

theorem emit_before (s : StdinBuffer) (text : List CodeUnit) (i : Nat) :
    (if i > 0 then s.emitSequences (extractCompleteSequences (text.take i)).1 else (s, []))
      = s.emitSequences (extractFrom [] (text.take i)).1 := by
  split
  · rfl
  · rename_i hi
    rw [Nat.eq_zero_of_not_pos hi]
    rfl

theorem processWithin_scan (depth : Nat) (pending : Option Nat) (mode : StdinMode)
    (str : List CodeUnit) (hne : str ≠ [])
    (hdepth : (mode.state pending).buffer.length + (mode.state pending).pasteBuffer.length
      + str.length < depth) :
    StdinBuffer.processWithin depth (mode.state pending) str
      = outcome pending (mode.resume str) := by
  induction depth generalizing pending mode str with
  | zero => cases hdepth
  | succ depth ih =>
    have hreads (bound : Nat) (hbound : bound ≤ depth) :
        ReadsRest (StdinBuffer.processWithin depth) bound := by
      intro pending rest hrest hlt
      refine ih pending (.normal []) rest hrest ?_
      show 0 + 0 + rest.length < depth
      omega
    rw [StdinBuffer.processWithin, if_neg fun hempty => hne hempty.1]
    cases mode with
    | paste content =>
      dsimp only [StdinMode.state] at hdepth ⊢
      refine endPaste_scan pending (content ++ str) (hreads _ ?_)
      rw [length_append]
      omega
    | normal remainder =>
      dsimp only [StdinMode.state] at hdepth ⊢
      rw [if_neg Bool.false_ne_true, StdinMode.resume]
      have hlength : (remainder ++ str).length ≤ depth := by
        rw [length_append]
        omega
      generalize remainder ++ str = text at hlength ⊢
      cases hstart : indexOf bracketedPasteStart text with
      | none =>
        rw [emitSequences_eq, scan_normal_none hstart]
        rfl
      | some i =>
        dsimp only
        rw [emit_before, emitSequences_eq]
        have hafter : ReadsRest (StdinBuffer.processWithin depth)
            (text.drop (i + bracketedPasteStart.length)).length :=
          hreads _ (Nat.le_trans (Nat.le_of_lt (rest_length_lt start_ne_nil hstart)) hlength)
        have hpaste := endPaste_scan none _ hafter
        rw [StdinMode.state] at hpaste
        rw [hpaste, scan_normal_some hstart]
        unfold outcome
        rw [emitItems_append, emitItems_append, emit_lostItems, append_nil]
        rfl

theorem process_scan (pending : Option Nat) (mode : StdinMode) {str : List CodeUnit}
    (hne : str ≠ []) : (mode.state pending).process str = outcome pending (mode.resume str) :=
  processWithin_scan _ pending mode str hne (Nat.lt_succ_self _)

/-! ## Chunk after chunk -/

/-- The chunks read one after the other. -/
def resumeAll (mode : StdinMode) : List (List CodeUnit) → List StdinItem × StdinMode
  | [] => ([], mode)
  | chunk :: chunks =>
    ((mode.resume chunk).1 ++ (resumeAll (mode.resume chunk).2 chunks).1,
      (resumeAll (mode.resume chunk).2 chunks).2)

variable {chunks : List (List CodeUnit)}

theorem processAll_scan (pending : Option Nat) (mode : StdinMode)
    (hne : ∀ chunk ∈ chunks, chunk ≠ []) :
    (mode.state pending).processAll chunks = outcome pending (resumeAll mode chunks) := by
  induction chunks generalizing pending mode with
  | nil => rfl
  | cons chunk chunks ih =>
    have hrest := fun chunk hmem => hne chunk (mem_cons_of_mem _ hmem)
    rw [StdinBuffer.processAll, process_scan pending mode (hne chunk mem_cons_self)]
    show (let (s, more) := ((mode.resume chunk).2.state
        (emitItems pending (mode.resume chunk).1).1).processAll chunks
      (s, (emitItems pending (mode.resume chunk).1).2 ++ more)) = _
    rw [ih _ _ hrest, resumeAll, outcome_append]

/-- What was left over waits for more. -/
def StdinMode.Waits (mode : StdinMode) : Prop := mode.resume [] = ([], mode)

variable {mode : StdinMode} {codepoint : Nat} {r : List CodeUnit}

theorem resume_append {x y : List CodeUnit} (h : AllSettled (mode.resume (x ++ y)).1) :
    mode.resume (x ++ y) = ((mode.resume x).1 ++ ((mode.resume x).2.resume y).1,
        ((mode.resume x).2.resume y).2) := by
  cases mode with
  | normal remainder =>
    rw [StdinMode.resume, ← append_assoc] at h ⊢
    exact scan_append false (remainder ++ x) y h
  | paste content =>
    rw [StdinMode.resume, ← append_assoc] at h ⊢
    exact scan_append true (content ++ x) y h

theorem waits_resume {x : List CodeUnit}
    (h : AllSettled (mode.resume x).1) : (mode.resume x).2.Waits := by
  have happend := @resume_append mode x []
  rw [append_nil] at happend
  have heq := happend h
  have hitems := List.append_right_eq_self.mp (congrArg Prod.fst heq).symm
  exact Prod.ext hitems (congrArg Prod.snd heq).symm

theorem resumeAll_flatten (hwaits : mode.Waits) (h : AllSettled (mode.resume chunks.flatten).1) :
    resumeAll mode chunks = mode.resume chunks.flatten := by
  induction chunks generalizing mode with
  | nil => exact hwaits.symm
  | cons chunk chunks ih =>
    rw [flatten_cons] at h ⊢
    have happend := resume_append h
    rw [happend] at h ⊢
    rw [resumeAll, ih (waits_resume h.left) h.right]

/-! ## What is typed is accounted for -/

def StdinEvent.text : StdinEvent → List CodeUnit
  | .data sequence => sequence
  | .paste content => bracketedPasteStart ++ content ++ bracketedPasteEnd

/-- What the buffer still holds of the input. -/
def StdinBuffer.buffered (s : StdinBuffer) : List CodeUnit :=
  (if s.pasteMode then bracketedPasteStart ++ s.pasteBuffer else []) ++ s.buffer

/-- The events after `previous`, and what is buffered, are the input, except for
the one character that repeats the Kitty key right before it. -/
inductive Accounts (buffered : List CodeUnit) :
    Option StdinEvent → List StdinEvent → List CodeUnit → Prop
  | buffered {previous} : Accounts buffered previous [] buffered
  | event {previous event events input} (rest : Accounts buffered (some event) events input) :
      Accounts buffered previous (event :: events) (event.text ++ input)
  | repeated {sequence c events input}
      (key : parseUnmodifiedKittyPrintableCodepoint sequence = some c.toNat)
      (rest : Accounts buffered none events input) :
      Accounts buffered (some (.data sequence)) events (c :: input)

/-- A pending code point is the one of the event before. -/
def Repeats (previous : Option StdinEvent) (pending : Option Nat) : Prop :=
  ∀ codepoint, pending = some codepoint → ∃ sequence, previous = some (.data sequence) ∧
      parseUnmodifiedKittyPrintableCodepoint sequence = some codepoint

theorem repeats_none (previous : Option StdinEvent) : Repeats previous none :=
  fun _ h => nomatch h

theorem emit_sequence (pending : Option Nat) (taken : List CodeUnit) :
    (∃ c : CodeUnit, taken = [c] ∧ pending = some c.toNat ∧
        StdinItem.emit pending (.sequence taken) = (none, [])) ∨
      StdinItem.emit pending (.sequence taken) =
        (parseUnmodifiedKittyPrintableCodepoint taken, [.data taken]) := by
  unfold StdinItem.emit StdinBuffer.emitDataSequence
  dsimp only
  split
  · rename_i c
    split
    · rename_i heq
      exact Or.inl ⟨c, rfl, heq.2.symm, rfl⟩
    · exact Or.inr rfl
  simp

theorem emitItems_accounts {buffered : List CodeUnit} {items : List StdinItem}
    {pending : Option Nat} {previous : Option StdinEvent} (hsettled : AllSettled items)
    (hpending : Repeats previous pending) :
    Accounts buffered previous (emitItems pending items).2
      (items.flatMap StdinItem.text ++ buffered) := by
  induction items generalizing pending previous with
  | nil => exact .buffered
  | cons item items ih =>
    have hrest : AllSettled items :=
      fun item hmem => hsettled item (mem_cons_of_mem _ hmem)
    rw [emitItems, flatMap_cons, append_assoc]
    cases item with
    | pasteStart => exact ih hrest (repeats_none _)
    | paste content => exact .event (ih hrest (repeats_none _))
    | lost remainder => exact absurd (hsettled _ mem_cons_self) id
    | sequence taken =>
      rcases emit_sequence pending taken with ⟨c, rfl, hc, hemit⟩ | hemit
      · obtain ⟨sequence, rfl, hkey⟩ := hpending _ hc
        rw [hemit]
        exact .repeated hkey (ih hrest (repeats_none _))
      · rw [hemit]
        exact .event (ih hrest fun codepoint h => ⟨taken, rfl, h⟩)

theorem codepoint_of_if {accepted : Bool} {value : Nat}
    (h : (if (accepted && value ≥ 32) = true then some value else none) = some codepoint) :
    32 ≤ codepoint := by
  split at h
  · rename_i haccepted
    cases h
    exact of_decide_eq_true (Bool.and_eq_true_iff.mp haccepted).2
  · cases h

theorem codepoint_ge {sequence : List CodeUnit}
    (h : parseUnmodifiedKittyPrintableCodepoint sequence = some codepoint) : 32 ≤ codepoint := by
  unfold parseUnmodifiedKittyPrintableCodepoint at h
  split at h
  · generalize split (sequence.drop 2).dropLast [unit ':'] = parts at h
    cases parts with
    | nil => cases h
    | cons first rest => exact codepoint_of_if h
  · cases h

theorem Accounts.count {buffered input : List CodeUnit} {events : List StdinEvent}
    {previous : Option StdinEvent} (h : Accounts buffered previous events input) :
    input.count esc = (events.flatMap StdinEvent.text ++ buffered).count esc := by
  induction h with
  | buffered => rfl
  | event rest ih =>
    rw [flatMap_cons, append_assoc, count_append, ih, ← count_append]
  | repeated key rest ih =>
    rename_i c events input
    have hge := codepoint_ge key
    have hne : c ≠ esc := by
      rintro rfl
      exact absurd hge (by decide)
    rw [count_cons_of_ne hne, ih]

def StdinItem.lostText : StdinItem → List CodeUnit
  | .lost remainder => remainder
  | _ => []

theorem emitItems_count (pending : Option Nat) (items : List StdinItem) :
    ((emitItems pending items).2.flatMap StdinEvent.text).count esc
        + (items.flatMap StdinItem.lostText).count esc
      ≤ (items.flatMap StdinItem.text).count esc := by
  induction items generalizing pending with
  | nil => exact Nat.le_refl 0
  | cons item items ih =>
    have hrest := ih (item.emit pending).1
    have hitem : ((item.emit pending).2.flatMap StdinEvent.text).count esc
        + item.lostText.count esc ≤ item.text.count esc := by
      cases item with
      | pasteStart => exact Nat.le_refl 0
      | lost remainder => exact Nat.le_of_eq (Nat.zero_add _)
      | paste content =>
        exact Nat.le_of_eq (congrArg (List.count esc) (append_nil _))
      | sequence taken =>
        rcases emit_sequence pending taken with ⟨c, rfl, hc, hemit⟩ | hemit
        · rw [hemit]
          exact Nat.zero_le _
        · rw [hemit]
          exact Nat.le_of_eq (congrArg (List.count esc) (append_nil _))
    rw [emitItems, flatMap_append, flatMap_cons, flatMap_cons,
      count_append, count_append, count_append]
    omega

theorem esc_mem_of_unfinished (h : Unfinished r) (hne : r ≠ []) : esc ∈ r := by
  cases r with
  | nil => exact absurd rfl hne
  | cons c r =>
    have hc := h [c] (List.cons_prefix_cons.mpr ⟨rfl, nil_prefix⟩) (cons_ne_nil _ _)
    rw [head_of_incomplete hc]
    exact mem_cons_self

theorem esc_mem_lost (inPaste : Bool) (text : List CodeUnit)
    (h : StdinItem.lost r ∈ (scan inPaste text).1) : esc ∈ r := by
  induction hlength : text.length using Nat.strongRecOn generalizing inPaste text with
  | ind n ih =>
    subst hlength
    have hsequences (sequences : List (List CodeUnit)) :
        StdinItem.lost r ∉ sequences.map StdinItem.sequence := by
      simp
    cases inPaste with
    | true =>
      cases hend : indexOf bracketedPasteEnd text with
      | none =>
        rw [scan_paste_none hend] at h
        cases h
      | some i =>
        rw [scan_paste_some hend] at h
        have hmem := (List.mem_cons.mp h).resolve_left fun heq => (by cases heq)
        exact ih _ (rest_length_lt end_ne_nil hend) false _ hmem rfl
    | false =>
      cases hstart : indexOf bracketedPasteStart text with
      | none =>
        rw [scan_normal_none hstart] at h
        exact absurd h (hsequences _)
      | some i =>
        rw [scan_normal_some hstart] at h
        rcases List.mem_append.mp h with hmem | hmem
        · have hlost := (List.mem_append.mp hmem).resolve_left (hsequences _)
          rw [lostItems] at hlost
          split at hlost
          · cases hlost
          · rename_i hne
            cases List.mem_singleton.mp hlost
            exact esc_mem_of_unfinished (extractFrom_unfinished unfinished_nil) hne
        · have hmem := (List.mem_cons.mp hmem).resolve_left fun heq => (by cases heq)
          exact ih _ (rest_length_lt start_ne_nil hstart) true _ hmem rfl

/-! ## Chunks do not show -/

/-- The events do not depend on the chunks, and account for the input. -/
def ChunksDoNotShow (input : List CodeUnit) : Prop :=
  ∀ chunks : List (List CodeUnit), (∀ chunk ∈ chunks, chunk ≠ []) → chunks.flatten = input →
    (({} : StdinBuffer).processAll chunks).2 = (({} : StdinBuffer).process input).2 ∧
      Accounts (({} : StdinBuffer).processAll chunks).1.buffered none
        (({} : StdinBuffer).processAll chunks).2 input

theorem buffered_state (pending : Option Nat) (mode : StdinMode) :
    (mode.state pending).buffered = mode.text := by
  cases mode with
  | normal remainder => rfl
  | paste content => exact append_nil _

theorem processAll_eq (hne : ∀ chunk ∈ chunks, chunk ≠ []) :
    ({} : StdinBuffer).processAll chunks = outcome none (resumeAll (.normal []) chunks) :=
  processAll_scan none (.normal []) hne

variable {input : List CodeUnit}

theorem process_eq (hne : input ≠ []) :
    ({} : StdinBuffer).process input = outcome none (scan false input) :=
  process_scan none (.normal []) hne

theorem chunks_do_not_show (hne : input ≠ []) (h : AllSettled (scan false input).1) :
    ChunksDoNotShow input := by
  rintro chunks hchunks rfl
  have hread : resumeAll (.normal []) chunks = scan false chunks.flatten :=
    resumeAll_flatten scan_nil h
  rw [processAll_eq hchunks, hread, process_eq hne]
  refine ⟨rfl, ?_⟩
  have haccounts := @emitItems_accounts (scan false chunks.flatten).2.text _ _ _ h
    (repeats_none none)
  rw [scan_text] at haccounts
  rw [outcome, buffered_state]
  exact haccounts

theorem processAll_single (hne : input ≠ []) :
    ({} : StdinBuffer).processAll [input] = outcome none (scan false input) := by
  rw [StdinBuffer.processAll, process_eq hne]
  exact Prod.ext rfl (append_nil _)

theorem not_lost {input : List CodeUnit} (hne : input ≠ []) (h : ChunksDoNotShow input) :
    StdinItem.lost r ∉ (scan false input).1 := by
  intro hmem
  have hchunks : ∀ chunk ∈ [input], chunk ≠ [] := by
    rintro chunk hchunk rfl
    exact hne (List.mem_singleton.mp hchunk).symm
  have haccounts := (h [input] hchunks flatten_singleton).2.count
  rw [processAll_single hne, outcome, buffered_state, count_append] at haccounts
  dsimp only at haccounts
  have htext := congrArg (List.count esc) (scan_text false input)
  rw [count_append] at htext
  have hcount := emitItems_count none (scan false input).1
  have hpos : 0 < ((scan false input).1.flatMap StdinItem.lostText).count esc :=
    List.count_pos_iff.mpr (List.mem_flatMap.mpr ⟨_, hmem, esc_mem_lost false input hmem⟩)
  have hinput : (opened false ++ input).count esc = input.count esc := rfl
  omega

theorem emitItems_pending {pending : Option Nat} {items : List StdinItem}
    (hpending : ∀ codepoint, pending = some codepoint → 32 ≤ codepoint)
    (h : (emitItems pending items).1 = some codepoint) : 32 ≤ codepoint := by
  induction items generalizing pending with
  | nil => exact hpending codepoint h
  | cons item items ih =>
    refine ih (fun codepoint hitem => ?_) h
    cases item with
    | pasteStart => cases hitem
    | paste content => cases hitem
    | lost remainder => exact hpending codepoint hitem
    | sequence taken =>
      rcases emit_sequence pending taken with ⟨_, _, _, hemit⟩ | hemit
      · rw [hemit] at hitem
        cases hitem
      · rw [hemit] at hitem
        exact codepoint_ge hitem

theorem emit_esc {pending : Option Nat}
    (hpending : ∀ codepoint, pending = some codepoint → 32 ≤ codepoint) :
    (StdinItem.emit pending (.sequence [esc])).2 = [.data [esc]] := by
  rcases emit_sequence pending [esc] with ⟨c, hc, hsome, _⟩ | hemit
  · cases hc
    exact absurd (hpending _ hsome) (by decide)
  · rw [hemit]

theorem emit_esc_esc (pending : Option Nat) :
    (StdinItem.emit pending (.sequence [esc, esc])).2 = [.data [esc, esc]] := by
  rfl

theorem not_split (hne : input ≠ []) (h : ChunksDoNotShow input) :
    StdinItem.sequence [esc] ∉ (scan false input).1 := by
  intro hmem
  obtain ⟨w, v, items, rfl, hv, hw, more, hfront⟩ := scan_split false input hmem
  have hwne : w ≠ [] := by
    rintro rfl
    rw [scan_nil] at hw
    cases items <;> cases hw
  have hvne : v ≠ [] := by
    rintro rfl
    cases hv
  have hchunks : ∀ chunk ∈ [w, v], chunk ≠ [] := by
    intro chunk hchunk
    rcases List.mem_cons.mp hchunk with rfl | hchunk
    · exact hwne
    · rw [List.mem_singleton.mp hchunk]
      exact hvne
  have hevents := (h [w, v] hchunks (by simp)).1
  rw [processAll_eq hchunks, process_eq hne, resumeAll] at hevents
  have hread : (StdinMode.normal []).resume w = (items ++ [.sequence [esc, esc]], .normal []) := hw
  rw [hread, outcome, outcome] at hevents
  rw [← hfront, append_assoc items, append_assoc items, emitItems_append,
    emitItems_append _ items] at hevents
  have hpair := append_cancel_left hevents
  have hnone : ∀ codepoint, (none : Option Nat) = some codepoint → 32 ≤ codepoint :=
    fun _ h => nomatch h
  rw [singleton_append, singleton_append, emitItems, emitItems, emit_esc_esc,
    emit_esc fun codepoint => emitItems_pending hnone] at hpair
  cases hpair

/-- The chunks do not show, and nothing is lost, exactly when the input is not
empty, no `ESC` is taken alone and no sequence is unfinished before a paste. -/
theorem chunks_do_not_show_iff (input : List CodeUnit) :
    ChunksDoNotShow input ↔ input ≠ [] ∧ AllSettled (scan false input).1 := by
  constructor
  · intro h
    have hne : input ≠ [] := by
      rintro rfl
      have hevents := (h [] (fun _ hmem => absurd hmem not_mem_nil) rfl).1
      cases hevents
    refine ⟨hne, fun item hitem => ?_⟩
    cases item with
    | pasteStart => trivial
    | paste content => trivial
    | lost remainder => exact not_lost hne h hitem
    | sequence taken =>
      rintro rfl
      exact not_split hne h hitem
  · rintro ⟨hne, hsettled⟩
    exact chunks_do_not_show hne hsettled

/-- `ESC ESC [ A`, cut behind the second `ESC`. -/
theorem not_chunks_do_not_show : ¬ ∀ input, ChunksDoNotShow input := by
  intro h
  have hevents := (h [esc, esc, unit '[', unit 'A'] [[esc, esc], [unit '[', unit 'A']]
    (by decide) rfl).1
  exact absurd hevents (by decide +kernel)

/-! ## With the timer -/

open StdinBuffer (Step)

theorem emitItems_sublist (pending : Option Nat) (items : List StdinItem) :
    (emitItems pending items).2.flatMap StdinEvent.text <+ items.flatMap StdinItem.text := by
  induction items generalizing pending with
  | nil => exact .slnil
  | cons item items ih =>
    rw [emitItems, flatMap_append, flatMap_cons]
    refine .append ?_ (ih _)
    cases item with
    | pasteStart => exact .slnil
    | lost remainder => exact nil_sublist _
    | paste content => simp [StdinItem.emit, StdinEvent.text, StdinItem.text]
    | sequence taken =>
      rcases emit_sequence pending taken with ⟨_, _, _, hemit⟩ | hemit
      · rw [hemit]
        exact nil_sublist _
      · simp [hemit, StdinEvent.text, StdinItem.text]

/-- What one step reads, and what it leaves over. -/
theorem handle_reads (pending : Option Nat) (mode : StdinMode) (step : Step) :
    ∃ start items pending' mode', (mode.state pending).handle step =
        (StdinMode.state pending' mode', (emitItems start items).2) ∧
      items.flatMap StdinItem.text ++ mode'.text = mode.text ++ step.typed := by
  cases step with
  | chunk str hne =>
    refine ⟨pending, (mode.resume str).1, _, (mode.resume str).2, process_scan pending mode hne, ?_⟩
    cases mode with
    | normal remainder => exact scan_text false _
    | paste content => exact (scan_text true _).trans (append_assoc ..).symm
  | timer =>
    cases mode with
    | paste content => exact ⟨none, [], pending, .paste content, rfl, (append_nil _).symm⟩
    | normal remainder =>
      by_cases hnil : remainder = []
      · subst hnil
        exact ⟨none, [], pending, .normal [], rfl, rfl⟩
      · refine ⟨none, [.sequence remainder], (emitItems none [.sequence remainder]).1, .normal [],
          ?_, by simp [StdinItem.text, StdinMode.text, Step.typed]⟩
        have hflush : (StdinMode.state pending (.normal remainder)).flush = ({}, [remainder]) :=
          if_neg hnil
        rw [StdinBuffer.handle, StdinBuffer.timesOut, hflush]
        exact emitSequences_eq {} [remainder]

theorem handleAll_reads (pending : Option Nat) (mode : StdinMode) (steps : List Step) :
    ((mode.state pending).handleAll steps).2.flatMap StdinEvent.text
        ++ ((mode.state pending).handleAll steps).1.buffered
      <+ mode.text ++ steps.flatMap Step.typed := by
  induction steps generalizing pending mode with
  | nil =>
    rw [flatMap_nil, append_nil, ← buffered_state pending]
    exact .refl _
  | cons step steps ih =>
    obtain ⟨start, items, pending', mode', hhandle, htext⟩ := handle_reads pending mode step
    rw [StdinBuffer.handleAll, hhandle, flatMap_cons, ← append_assoc, ← htext, append_assoc]
    show ((emitItems start items).2 ++ ((mode'.state pending').handleAll steps).2).flatMap
        StdinEvent.text ++ ((mode'.state pending').handleAll steps).1.buffered <+ _
    rw [flatMap_append, append_assoc]
    exact (emitItems_sublist start items).append (ih pending' mode')

/-- **Nothing is made up, repeated or put in another place**, however the input is cut and
whenever the timer fires. -/
theorem handleAll_sublist (steps : List Step) :
    (({} : StdinBuffer).handleAll steps).2.flatMap StdinEvent.text
        ++ (({} : StdinBuffer).handleAll steps).1.buffered <+ steps.flatMap Step.typed :=
  handleAll_reads none (.normal []) steps

end ReflectivePi.Tui
