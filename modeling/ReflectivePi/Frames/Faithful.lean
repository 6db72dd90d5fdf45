import ReflectivePi.Frames.Tracking

/-!
# Frames — Faithful

The frames of any prefix of a well-formed stream replay to what the stream
showed: the deltas of a tool call, then every event an open stream may have,
then runs of them, and the parse of unfinished tool calls at the end.
-/

namespace ReflectivePi.Frames

open List InsertionMap
open Delta (JsString)
open AssistantMessageFrameEncoder

variable {ν : Type} [DecidableEq ν] {T : JsonText ν}
  {base : AssistantMessage ν} {encoder : AssistantMessageFrameEncoder}
  {replay : Replay ν} {views : List (BlockView ν)} {i : Nat}
  {event : AssistantMessageEvent ν} {rest : List (AssistantMessageEvent ν)}

/-! ## Tool calls -/

variable {delta json : JsString} {c : ToolCall ν} {state : ReducerBlockState}

theorem encodeBlock_toolcallDelta {caughtUp : Bool}
    {catchupJson snapshotArguments : JsString} (hi : i ≤ maxSafeInteger)
    (hget : encoder.blocks.get? i = some (.toolCall caughtUp catchupJson snapshotArguments)) :
    encoder.encodeBlock T (.toolcallDelta i delta)
      = .ok ((toolcallDelta T i delta caughtUp catchupJson snapshotArguments).1, { encoder with
          blocks := encoder.blocks.set i (toolcallDelta T i delta caughtUp
            catchupJson snapshotArguments).2 }) := by
  have hblock : encoder.block i .toolCall
      = .ok (.toolCall caughtUp catchupJson snapshotArguments) :=
    block_ok hi hget rfl
  rw [encodeBlock, hblock]
  rfl

/-- The encoder holds a delta back as long as the arguments are not
reached. -/
theorem toolcallDelta_waiting {arguments : JsonValue ν}
    (h : ¬ Reaches T arguments (json ++ delta)) :
    toolcallDelta T i delta false json (T.stringify arguments)
      = (none, .toolCall false (json ++ delta) (T.stringify arguments)) := by
  unfold Reaches at h
  rw [← isJsonPrefix_iff, not_or, Bool.not_eq_true] at h
  exact if_pos h

theorem toolcallDelta_reaches {arguments : JsonValue ν}
    (h : Reaches T arguments (json ++ delta)) (hne : json ++ delta ≠ []) :
    toolcallDelta T i delta false json (T.stringify arguments)
      = (some (.toolcallCheckpoint i (json ++ delta)), .toolCall true [] []) := by
  unfold Reaches at h
  rw [← isJsonPrefix_iff] at h
  rw [toolcallDelta, if_neg Bool.false_ne_true]
  refine (if_neg ?_).trans ?_
  · rintro ⟨hstringify, hfront⟩
    rcases h with h | h
    · exact hstringify h
    · rw [h] at hfront
      cases hfront
  · rw [if_neg (by rwa [length_eq_zero_iff])]

omit [DecidableEq ν] in
theorem step_toolcallCheckpoint
    (hactive : replay.activeBlock i .toolCall
      "toolcall_checkpoint" = .ok (.toolCall c, state)) :
    replay.step T (.toolcallCheckpoint i json)
      = .ok (replay.update i (.toolCall { c with arguments := T.parseStreamingJson json })
        { state with json }) := by
  show (do match ← replay.activeBlock i .toolCall "toolcall_checkpoint" with
    | _ => _) = _
  rw [hactive]
  rfl

omit [DecidableEq ν] in
theorem step_toolcallDelta
    (hactive : replay.activeBlock i .toolCall
      "toolcall_delta" = .ok (.toolCall c, state)) :
    replay.step T (.toolcallDelta i delta) = .ok (replay.update i (.toolCall c)
        { state with json := state.json ++ delta }) := by
  show (do match ← replay.activeBlock i .toolCall "toolcall_delta" with
    | _ => _) = _
  rw [hactive]
  rfl

section

omit [DecidableEq ν]

variable {c : ToolCall ν} {ds future : List JsString} {delta : JsString}

theorem flatten_concat (ds : List JsString) (delta : JsString) :
    (ds ++ [delta]).flatten = ds.flatten ++ delta := by simp

theorem Tracks.caughtUp_delta {arguments : JsonValue ν}
    (hcaught : CaughtUp T c.arguments (ds ++ [delta]))
    (hempty : ds.flatten ++ delta = [] → arguments = emptyObject) :
    Tracks T (some (.toolCall true [] [])) (some (.toolCall { c with arguments }))
      (some ⟨.toolCall, false, ds.flatten ++ delta⟩)
      ⟨.toolCall c, ds ++ [delta], none⟩ future := by
  rw [← flatten_concat] at hempty ⊢
  exact .caughtUp hcaught hempty

theorem Tracks.waiting_delta (hwaiting : ¬ CaughtUp T c.arguments (ds ++ [delta])) :
    Tracks T (some (.toolCall false (ds.flatten ++ delta) (T.stringify c.arguments)))
      (some (.toolCall c)) (some ⟨.toolCall, false, []⟩)
      ⟨.toolCall c, ds ++ [delta], none⟩ future := by
  rw [← flatten_concat]
  exact .waiting hwaiting

end

theorem InStep.advances_toolcallDelta
    (h : InStep T base encoder replay views (toCome (.toolcallDelta i delta :: rest)))
    (hopen : IsOpen views i .toolCall) :
    Advances T base encoder replay (.toolcallDelta i delta)
      (views.modify i (BlockView.addDelta delta)) (toCome rest) := by
  have haccepts : Accepts views (.toolcallDelta i delta) rest := hopen
  obtain ⟨b, hb, hkind, hopen⟩ := hopen
  have hi := h.index_le hb
  have hfuture : ∀ j, j ≠ i → toCome rest j = toCome (.toolcallDelta i delta :: rest) j := by
    intro j hj
    simp [toCome, deltasOf, Ne.symm hj]
  obtain ⟨c, ds, rfl, ⟨he, hblock, hs, hwaiting⟩ |
    ⟨arguments, he, hblock, hs, hcaught, hempty⟩⟩ := (h.tracks i b hb).toolCall_inv hkind hopen
  · have hencode := (h.encode_eq haccepts).trans (encodeBlock_toolcallDelta hi he)
    by_cases hreaches : Reaches T c.arguments (ds.flatten ++ delta)
    · -- the first delta that reaches the arguments brings all of them
      have hne : ds.flatten ++ delta ≠ [] := by
        intro hnil
        rw [hnil] at hreaches
        exact hwaiting (.of_empty hreaches)
      rw [toolcallDelta_reaches hreaches hne] at hencode
      refine h.advances_update hb hencode
        (step_toolcallCheckpoint (activeBlock_ok hi hs hblock rfl rfl rfl))
        (get?_set_of_ne _ _) hfuture ?_
      rw [get?_set, if_pos rfl]
      rw [← flatten_concat] at hreaches
      exact .caughtUp_delta (caughtUp_concat.mpr (.inr hreaches))
        fun hnil => absurd hnil hne
    · rw [toolcallDelta_waiting hreaches] at hencode
      refine h.advances_silent hb hencode (get?_set_of_ne _ _) hfuture ?_
      rw [get?_set, if_pos rfl, hblock, hs]
      rw [← flatten_concat] at hreaches
      exact .waiting_delta fun hcaught =>
        (caughtUp_concat.mp hcaught).elim hwaiting hreaches
  · have hencode := (h.encode_eq haccepts).trans (encodeBlock_toolcallDelta hi he)
    have hcaught : CaughtUp T c.arguments (ds ++ [delta]) := caughtUp_concat.mpr (.inl hcaught)
    cases delta with
    | nil =>
      refine h.advances_silent hb hencode (get?_set_of_ne _ _) hfuture ?_
      rw [get?_set, if_pos rfl, hblock, hs, ← append_nil ds.flatten]
      exact .caughtUp_delta hcaught (by simpa using hempty)
    | cons x delta =>
      refine h.advances_update hb hencode
        (step_toolcallDelta (activeBlock_ok hi hs hblock rfl rfl rfl))
        (get?_set_of_ne _ _) hfuture ?_
      rw [get?_set, if_pos rfl]
      exact .caughtUp_delta hcaught (by simp)

theorem InStep.advances_toolcallStart {shown : AssistantMessage ν}
    (h : InStep T base encoder replay views (toCome (.toolcallStart i shown :: rest)))
    (hstarts : StartsNext views i) (hshown : shown.content[i]? = some (.toolCall c)) :
    Advances T base encoder replay (.toolcallStart i shown)
      (views ++ [⟨.toolCall c, [], none⟩]) (toCome rest) := by
  have haccepts : Accepts views (.toolcallStart i shown) rest :=
    ⟨hstarts, c, hshown⟩
  have hnone := h.encoderKeys i (by rw [hstarts.1])
  have hencode : encoder.encode T (.toolcallStart i shown)
      = .ok (some (.toolcallStart i c), { encoder with
          blocks := encoder.blocks.set i (.toolCall
            (decide (T.stringify c.arguments = emptyParsedToolArguments T)) []
            (if decide (T.stringify c.arguments = emptyParsedToolArguments T)
              then [] else T.stringify c.arguments)) }) := by
    rw [h.encode_eq haccepts, encodeBlock, eventBlock_ok hstarts.2 hshown]
    show (do
      let encoder ← encoder.startBlock i _
      return _) = _
    rw [startBlock_ok hstarts.2 hnone]
    rfl
  refine h.advances_start hstarts hencode rfl (fun _ => rfl) ?_
  by_cases hempty : c.arguments = emptyObject
  · have hcaught : T.stringify c.arguments = emptyParsedToolArguments T := by
      rw [hempty]
      rfl
    rw [decide_eq_true hcaught]
    exact .caughtUp (caughtUp_nil.mpr hempty) fun _ => hempty
  · have hwaiting : T.stringify c.arguments ≠ emptyParsedToolArguments T :=
      fun hsame => hempty (T.eq_empty _ hsame)
    rw [decide_eq_false hwaiting]
    exact .waiting fun hcaught => hempty (caughtUp_nil.mp hcaught)

omit [DecidableEq ν] in
theorem consume_start {shown : AssistantMessage ν} {block : ContentBlock ν}
    (hshown : shown.content[i]? = some block) :
    views ++ (shown.content[i]?.map fun block =>
        (⟨block, [], none⟩ : BlockView ν)).toList
      = views ++ [⟨block, [], none⟩] := by
  rw [hshown]
  rfl

/-- **Every event a well-formed stream may have is taken.** -/
theorem InStep.advances (h : InStep T base encoder replay views (toCome (event :: rest)))
    (ha : Accepts views event rest) :
    Advances T base encoder replay event (consume views event)
      (toCome rest) := by
  have hencode := h.encode_eq ha
  cases event with
  | textStart i shown =>
    obtain ⟨hstarts, c, hshown, hagree⟩ := ha
    rw [consume, consume_start hshown]
    refine h.advances_textStart (.textStart i c) hstarts nofun hagree ?_ rfl fun _ => rfl
    intro encoder' hstart
    rw [hencode, encodeBlock, eventBlock_ok hstarts.2 hshown]
    show (do
      let encoder ← encoder.startBlock i (.text .text c.text.length 0)
      return _) = _
    rw [show encoder.startBlock i (.text .text c.text.length 0) = .ok encoder' from hstart]
    rfl
  | thinkingStart i shown =>
    obtain ⟨hstarts, c, hshown, hagree⟩ := ha
    rw [consume, consume_start hshown]
    refine h.advances_textStart (.thinkingStart i c) hstarts nofun hagree ?_ rfl fun _ => rfl
    intro encoder' hstart
    rw [hencode, encodeBlock, eventBlock_ok hstarts.2 hshown]
    show (do
      let encoder ← encoder.startBlock i (.text .thinking c.thinking.length 0)
      return _) = _
    rw [show encoder.startBlock i (.text .thinking c.thinking.length 0) = .ok encoder' from hstart]
    rfl
  | toolcallStart i shown =>
    obtain ⟨hstarts, c, hshown⟩ := ha
    rw [consume, consume_start hshown]
    exact h.advances_toolcallStart hstarts hshown
  | textDelta i delta =>
    refine h.advances_textDelta (.textDelta i) ha nofun ?_ ?_ ?_
    · intro uncovered encoder' hdelta
      rw [hencode, encodeBlock, hdelta]
      rfl
    · intro uncovered block state hactive hkind
      cases block with
      | text c =>
        show (do match ← replay.activeBlock i .text "text_delta" with
          | _ => _) = _
        rw [show replay.activeBlock i .text "text_delta" = _ from hactive]
        rfl
      | _ => cases hkind
    · intro j
      by_cases hij : i = j <;> simp [toCome, deltasOf, hij]
  | thinkingDelta i delta =>
    refine h.advances_textDelta (.thinkingDelta i) ha nofun ?_ ?_ ?_
    · intro uncovered encoder' hdelta
      rw [hencode, encodeBlock, hdelta]
      rfl
    · intro uncovered block state hactive hkind
      cases block with
      | thinking c =>
        show (do match ← replay.activeBlock i .thinking "thinking_delta" with
          | _ => _) = _
        rw [show replay.activeBlock i .thinking "thinking_delta" = _ from hactive]
        rfl
      | _ => cases hkind
    · intro j
      by_cases hij : i = j <;> simp [toCome, deltasOf, hij]
  | toolcallDelta i delta => exact h.advances_toolcallDelta ha
  | textEnd i content shown =>
    obtain ⟨hopen, c, hshown⟩ := ha
    obtain ⟨b, hb, -⟩ := id hopen
    have hending : endingOf (.textEnd i content shown)
      = some (ContentBlock.text ⟨content, c.textSignature⟩) := by
        rw [endingOf, hshown]
    rw [consume, hending]
    refine h.advances_end (.textEnd i content c.textSignature) hopen ?_ ?_
      fun _ => rfl
    · intro encoder' hend
      rw [hencode, encodeBlock, eventBlock_ok (h.index_le hb) hshown]
      show (do
        let encoder ← encoder.endBlock i .text
        return _) = _
      rw [hend]
      rfl
    · intro block state hactive hkind
      cases block with
      | text c =>
        show (do match ← replay.activeBlock i .text "text_end" with
          | _ => _) = _
        rw [show replay.activeBlock i .text "text_end" = _ from hactive]
        rfl
      | _ => cases hkind
  | thinkingEnd i content shown =>
    obtain ⟨hopen, c, hshown⟩ := ha
    obtain ⟨b, hb, -⟩ := id hopen
    have hending : endingOf (.thinkingEnd i content shown) = some (ContentBlock.thinking
        ⟨content, c.thinkingSignature, c.redacted⟩) := by
        rw [endingOf, hshown]
    rw [consume, hending]
    refine h.advances_end (.thinkingEnd i content c.thinkingSignature c.redacted) hopen ?_ ?_
      fun _ => rfl
    · intro encoder' hend
      rw [hencode, encodeBlock, eventBlock_ok (h.index_le hb) hshown]
      show (do
        let encoder ← encoder.endBlock i .thinking
        return _) = _
      rw [hend]
      rfl
    · intro block state hactive hkind
      cases block with
      | thinking c =>
        show (do match ← replay.activeBlock i .thinking "thinking_end" with
          | _ => _) = _
        rw [show replay.activeBlock i .thinking "thinking_end" = _ from hactive]
        rfl
      | _ => cases hkind
  | toolcallEnd i toolCall shown =>
    obtain ⟨hopen, c, hshown⟩ := ha
    obtain ⟨b, hb, -⟩ := id hopen
    refine h.advances_end (.toolcallEnd i toolCall) hopen ?_ ?_ fun _ => rfl
    · intro encoder' hend
      rw [hencode, encodeBlock, eventBlock_ok (h.index_le hb) hshown]
      show (do
        let encoder ← encoder.endBlock i .toolCall
        return _) = _
      rw [hend]
      rfl
    · intro block state hactive hkind
      cases block with
      | toolCall c =>
        show (do match ← replay.activeBlock i .toolCall "toolcall_end" with
          | _ => _) = _
        rw [show replay.activeBlock i .toolCall "toolcall_end" = _ from hactive]
        rfl
      | _ => cases hkind
  | start | done | error => cases ha

omit [DecidableEq ν] in
theorem Follows.cons_inv (h : Follows views (event :: rest)) :
    (rest = [] ∧ (event = .done ∨ event = .error)) ∨
      (Accepts views event rest ∧ Follows (consume views event) rest) := by
  cases rest with
  | cons next rest => cases event <;> exact .inr h
  | nil =>
    cases event with
    | done => exact .inl ⟨rfl, .inl rfl⟩
    | error => exact .inl ⟨rfl, .inr rfl⟩
    | _ => exact .inr h

theorem InStep.encode_terminal {future : Nat → List JsString}
    (h : InStep T base encoder replay views future) (hterminal : event = .done ∨ event = .error) :
    encoder.encode T event = .ok (none, { encoder with terminal := true }) := by
  unfold encode
  rw [h.running, if_neg Bool.false_ne_true, h.started]
  rcases hterminal with rfl | rfl <;> rfl

theorem encodeAll_cons {frame : Option (AssistantMessageFrame ν)}
    {encoder' encoder'' : AssistantMessageFrameEncoder} {frames : List (AssistantMessageFrame ν)}
    (hhead : encoder.encode T event = .ok (frame, encoder'))
    (htail : encoder'.encodeAll T rest = .ok (frames, encoder'')) :
    encoder.encodeAll T (event :: rest) = .ok (frame.toList ++ frames, encoder'') := by
  rw [encodeAll, hhead]
  show Except.bind (encoder'.encodeAll T rest) _ = _
  rw [htail]
  rfl

/-- Any number of the events is taken, and their frames replay. -/
theorem InStep.encodeAll_take {events : List (AssistantMessageEvent ν)}
    (h : InStep T base encoder replay views (toCome events))
    (hfollows : Follows views events) (n : Nat) :
    ∃ frames encoder' replay', encoder.encodeAll T (events.take n) = .ok (frames, encoder') ∧
        frames.foldlM (Replay.step T) replay = .ok replay' ∧
        ∃ (open' : AssistantMessageFrameEncoder) (future : Nat → List JsString),
          InStep T base open' replay' ((events.take n).foldl consume views)
            future := by
  induction events generalizing encoder replay views n with
  | nil =>
    rw [take_nil]
    exact ⟨[], encoder, replay, rfl, rfl, encoder, _, h⟩
  | cons event rest ih =>
    cases n with
    | zero => exact ⟨[], encoder, replay, rfl, rfl, encoder, _, h⟩
    | succ n =>
      rw [take_succ_cons, foldl_cons]
      rcases hfollows.cons_inv with ⟨rfl, hterminal⟩ | ⟨haccepts, hfollows⟩
      · rw [take_nil, foldl_nil]
        have hviews : consume views event = views := by
          rcases hterminal with rfl | rfl <;> rfl
        rw [hviews]
        exact ⟨_, _, replay, encodeAll_cons (h.encode_terminal hterminal) rfl, rfl, encoder, _, h⟩
      · obtain ⟨frame, encoder', replay', hencode, hstep, h'⟩ := h.advances haccepts
        obtain ⟨frames, encoder'', replay'', htail, hsteps, hstep'⟩ := ih h' hfollows n
        refine ⟨_, _, replay'', encodeAll_cons hencode htail, ?_, hstep'⟩
        rw [foldlM_append, hstep]
        exact hsteps

/-! ## The end of the replay -/

section

omit [DecidableEq ν]

variable {state : ReducerBlockState} {content : List (ContentBlock ν)}

/-- A block as `finish` leaves it. -/
def finished (T : JsonText ν) (state : ReducerBlockState) :
    ContentBlock ν → ContentBlock ν
  | .toolCall c =>
    if state.kind ≠ .toolCall ∨ state.ended = true ∨ state.json.length = 0 then
      .toolCall c
    else .toolCall { c with arguments := T.parseStreamingJson state.json }
  | block => block

/-- An unfinished tool call is one in the message too. -/
def Kept (content : List (ContentBlock ν)) (i : Nat)
    (state : ReducerBlockState) : Prop :=
  state.kind = .toolCall → state.ended = false → ∃ c, content[i]? = some (.toolCall c)

theorem finishBlock_eq (h : Kept content i state) :
    Replay.finishBlock T content i state = .ok (content.modify i (finished T state)) := by
  unfold Replay.finishBlock
  by_cases hdone : state.kind ≠ .toolCall ∨ state.ended = true ∨ state.json.length = 0
  · have hsame : finished T state = id := by
      funext block
      cases block with
      | toolCall c => exact if_pos hdone
      | _ => rfl
    rw [if_pos hdone, hsame, modify_id]
  · have hopen : state.kind = .toolCall ∧ state.ended = false := by
      simpa [not_or] using (not_or.mp hdone).imp id fun h => (not_or.mp h).1
    obtain ⟨c, hc⟩ := h hopen.1 hopen.2
    rw [if_neg hdone, hc]
    show Except.ok (content.set i _) = _
    rw [modify_eq_set_getElem? , hc]
    exact congrArg (fun b => Except.ok (content.set i b)) (if_neg hdone).symm

theorem finish_entries {l : List (Nat × ReducerBlockState)} (hnodup : (l.map Prod.fst).Nodup)
    (hkept : ∀ p ∈ l, Kept content p.1 p.2) :
    ∃ content', l.foldlM (fun content p =>
        Replay.finishBlock T content p.1 p.2) content = .ok content' ∧
      ∀ j : Nat, content'[j]?
        = content[j]?.map ((InsertionMap.findEntry j l).elim id (finished T)) := by
  induction l generalizing content with
  | nil => exact ⟨content, rfl, fun _ => Option.map_id.symm ▸ rfl⟩
  | cons p l ih =>
    obtain ⟨i, state⟩ := p
    rw [map_cons, nodup_cons] at hnodup
    have hrest : ∀ p ∈ l, Kept (content.modify i (finished T state)) p.1 p.2 := by
      intro p hp hkind hended
      have hne : i ≠ p.1 := by
        intro heq
        exact hnodup.1 (List.mem_map.mpr ⟨p, hp, heq.symm⟩)
      rw [getElem?_modify_ne _ _ hne]
      exact hkept p (mem_cons_of_mem _ hp) hkind hended
    obtain ⟨content', hfold, hget⟩ := ih hnodup.2 hrest
    refine ⟨content', ?_, ?_⟩
    · rw [foldlM_cons, finishBlock_eq (hkept (i, state) (by simp))]
      exact hfold
    · intro j
      rw [hget j, InsertionMap.findEntry]
      by_cases hij : i = j
      · subst hij
        rw [if_pos rfl, InsertionMap.findEntry_eq_none.mpr hnodup.1, getElem?_modify_eq]
        simp
      · rw [if_neg hij, getElem?_modify_ne _ _ hij]

end

theorem shown_toolCall (c : ToolCall ν) (ds : List JsString) :
    (⟨.toolCall c, ds, none⟩ : BlockView ν).shown T
      = if CaughtUp T c.arguments ds then .toolCall { c with
          arguments := T.parseStreamingJson ds.flatten }
        else .toolCall c := rfl

theorem Tracks.finished_eq {e : Option EncoderBlockState}
    {block : Option (ContentBlock ν)} {s : Option ReducerBlockState}
    {b : BlockView ν} {deltas : List JsString} (h : Tracks T e block s b deltas) :
    block.map (s.elim id (finished T)) = some (b.shown T) := by
  cases h with
  | @text v ds _ hkind hagree =>
    rw [flatten_append] at hagree
    have hlonger := hagree.of_append.append_drop
    rw [hlonger]
    cases v with
    | toolCall c => exact absurd rfl hkind
    | text c => rfl
    | thinking c => rfl
  | waiting hwaiting =>
    rw [shown_toolCall, if_neg hwaiting]
    rfl
  | @caughtUp c ds _ arguments hcaught hempty =>
    rw [shown_toolCall, if_pos hcaught]
    show some (finished T ⟨.toolCall, false, ds.flatten⟩ (.toolCall { c with arguments })) = _
    rw [finished]
    by_cases hnil : ds.flatten = []
    · rw [hempty hnil, hnil]
      rfl
    · have hopen : ¬ (BlockKind.toolCall ≠ .toolCall ∨ false = true ∨ ds.flatten.length = 0) := by
        rw [length_eq_zero_iff]
        simpa only [ne_eq, not_true, Bool.false_eq_true, false_or] using hnil
      rw [if_neg hopen]
  | @ended block state b _ hending hended =>
    rw [BlockView.shown, hending]
    show some (finished T state block) = some block
    cases block with
    | toolCall c =>
      rw [finished, if_pos (.inr (.inl hended))]
    | _ => rfl

omit [DecidableEq ν] in
theorem Tracks.kept {e : Option EncoderBlockState} {content : List (ContentBlock ν)}
    {b : BlockView ν} {deltas : List JsString} (h : Tracks T e content[i]? (some state) b deltas) :
    Kept content i state := by
  intro hkind hopen
  generalize hblock : content[i]? = block at h
  cases h with
  | text hno => exact absurd hkind hno
  | waiting | caughtUp => exact ⟨_, rfl⟩
  | ended _ hended =>
    rw [hopen] at hended
    cases hended

theorem InStep.finish_eq {future : Nat → List JsString}
    (h : InStep T base encoder replay views future) :
    replay.finish T = .ok { base with content := views.map (BlockView.shown T) } := by
  have hkept : ∀ p ∈ replay.states.entries, Kept replay.message.content p.1 p.2 := by
    intro p hp hkind hended
    have hget : replay.states.get? p.1 = some p.2 :=
      InsertionMap.mem_entries_iff.mp hp
    rcases Nat.lt_or_ge p.1 views.length with hlt | hge
    · have htracks := h.tracks p.1 _ (getElem?_eq_getElem hlt)
      rw [hget] at htracks
      exact htracks.kept hkind hended
    · rw [h.replayKeys p.1 hge] at hget
      cases hget
  obtain ⟨content, hfold, hget⟩ := finish_entries replay.states.nodup hkept
  have hcontent : content = views.map (BlockView.shown T) := by
    ext1 j
    rw [hget, getElem?_map]
    cases hb : views[j]? with
    | some b => exact (h.tracks j b hb).finished_eq
    | none =>
      rw [List.getElem?_eq_none_iff, ← h.length] at hb
      rw [getElem?_eq_none hb]
      rfl
  rw [Replay.finish, hfold, hcontent, ← h.base]
  rfl

omit [DecidableEq ν] in
theorem inStep_start (message : AssistantMessage ν) (future : Nat → List JsString) :
    InStep T (cloneStartMessage message) { AssistantMessageFrameEncoder.new with started := true }
      ⟨cloneStartMessage message, .empty⟩ [] future := by
  refine ⟨rfl, rfl, rfl, Nat.zero_le _, rfl, ?_, ?_, ?_⟩
  · intro i _
    rfl
  · intro i _
    rfl
  · intro i b hb
    cases hb

omit [DecidableEq ν] in
theorem reduce_start {message : AssistantMessage ν} {frames : List (AssistantMessageFrame ν)}
    (hreplay : frames.foldlM (Replay.step T) ⟨message, .empty⟩ = .ok replay)
    (hfinish : replay.finish T = .ok base) :
    reduceAssistantMessageFrames T (.start message :: frames) = .ok (some base) := by
  rw [reduceAssistantMessageFrames, awaitStart, hreplay]
  show (do
    let message ← replay.finish T
    return some message) = _
  rw [hfinish]
  rfl

/-- **Frames replay to what the stream showed.** The frames of any number of
the first events of a well-formed stream are made, and reduce, without an
error, to the message with each block as it was shown: what its end says, or
the longer of the visible and the consumed text, or the arguments of an open
tool call. Those stay as they were visible until the deltas reach them: at
the latest when the deltas they were parsed from are consumed. -/
theorem reduce_encode {stream : List (AssistantMessageEvent ν)} (h : WellFormed stream) (n : Nat) :
    (∃ frames encoder, AssistantMessageFrameEncoder.new.encodeAll T (stream.take n)
          = .ok (frames, encoder) ∧
        reduceAssistantMessageFrames T frames = .ok (showing T (stream.take n))) ∧
    ∀ (c : ToolCall ν) deltas k, k ≤ deltas.length →
      c.arguments = T.parseStreamingJson (deltas.take k).flatten →
      (⟨.toolCall c, deltas, none⟩ : BlockView ν).shown T = .toolCall { c with
            arguments := T.parseStreamingJson deltas.flatten } := by
  constructor
  · cases stream with
    | nil => cases h
    | cons event events =>
      cases event with
      | start message =>
        cases n with
        | zero => exact ⟨[], .new, rfl, rfl⟩
        | succ n =>
          obtain ⟨frames, encoder, replay, hencode, hreplay, _, _, hstep⟩ :=
            (inStep_start message _).encodeAll_take h n
          exact ⟨_, encoder, encodeAll_cons rfl hencode, reduce_start hreplay hstep.finish_eq⟩
      | _ => cases h
  · intro c deltas k hk harguments
    rw [shown_toolCall, if_pos (caughtUp_of_snapshot hk harguments)]

/-! ## A stream whose accumulator runs ahead -/

/-- `{"a":"`. -/
def sampleOpen : JsString := [0x7B, 0x22, 0x61, 0x22, 0x3A, 0x22]

/-- `"}`. -/
def sampleClose : JsString := [0x22, 0x7D]

/-- `null`. -/
def sampleNull : JsString := [0x6E, 0x75, 0x6C, 0x6C]

def isLetter (c : UInt16) : Bool := 0x61 ≤ c && c ≤ 0x7A

/-- JSON of `null`, `{}` and objects whose one property `a` is a word. -/
def sampleStringify : JsonValue Empty → JsString
  | .obj [] => [0x7B, 0x7D]
  | .obj [([0x61], .str word)] =>
    if word.all isLetter then sampleOpen ++ word ++ sampleClose else sampleNull
  | _ => sampleNull

def sampleParse (json : JsString) : Option (JsonValue Empty) :=
  let word := (json.drop 6).dropLast.dropLast
  if json = [0x7B, 0x7D] then some (.obj [])
  else if json = sampleNull then some .null
  else if json = sampleOpen ++ word ++ sampleClose ∧ word.all isLetter then
    some (.obj [([0x61], .str word)])
  else none

def samplePartialParse (json : JsString) : Option (JsonValue Empty) :=
  if json ≠ [] ∧ json.isPrefixOf sampleOpen then some emptyObject
  else if sampleOpen.isPrefixOf json ∧ (json.drop 6).all isLetter then
    some (.obj [([0x61], .str (json.drop 6))])
  else none

theorem sampleStringify_cases (v : JsonValue Empty) :
    v = .obj [] ∨ sampleStringify v = sampleNull ∨ ∃ word, word.all isLetter = true ∧
        sampleStringify v = sampleOpen ++ word ++ sampleClose := by
  unfold sampleStringify
  split
  · exact .inl rfl
  · rename_i word
    by_cases hword : word.all isLetter = true
    · exact .inr (.inr ⟨word, hword, if_pos hword⟩)
    · exact .inr (.inl (if_neg hword))
  · exact .inr (.inl rfl)

theorem sampleParse_word {word : JsString} (hword : word.all isLetter = true) :
    sampleParse (sampleOpen ++ word ++ sampleClose) = some (.obj [([0x61], .str word)]) := by
  have hbody : ((sampleOpen ++ word ++ sampleClose).drop 6).dropLast.dropLast = word := by
    have hclose : (sampleOpen ++ word ++ sampleClose).drop 6 = word ++ [0x22] ++ [0x7D] := by
      rw [append_assoc, append_assoc]
      rfl
    rw [hclose, dropLast_concat, dropLast_concat]
  unfold sampleParse
  rw [hbody, if_neg, if_neg, if_pos ⟨rfl, hword⟩]
  · intro h
    cases h
  · intro h
    cases h

def sampleText : JsonText Empty where
  stringify := sampleStringify
  parse := sampleParse
  partialParse := samplePartialParse
  not_blank v := by
    rcases sampleStringify_cases v with rfl | h | ⟨word, -, h⟩
    · rfl
    · rw [h]
      rfl
    · rw [h]
      rfl
  reparse v := by
    rcases sampleStringify_cases v with rfl | h | ⟨word, hword, h⟩
    · exact ⟨.obj [], rfl, rfl⟩
    · exact ⟨.null, by rw [h]; rfl, h.symm⟩
    · rw [h]
      exact ⟨_, sampleParse_word hword, if_pos hword⟩
  eq_empty v h := by
    rcases sampleStringify_cases v with rfl | h' | ⟨word, -, h'⟩
    · rfl
    · rw [h'] at h
      cases h
    · rw [h'] at h
      cases h

def sampleShown (content : List (ContentBlock Empty)) :
    AssistantMessage Empty where
  content := content
  api := []
  provider := []
  model := []
  responseModel := none
  responseId := none
  providerThinkingLevel := none
  diagnostics := none
  usage := emptyObject
  stopReason := []
  deferred := none
  errorMessage := none
  rawStopReason := none
  endTurn := none
  timestamp := 0

def sampleCall (word : JsString) : ToolCall Empty :=
  ⟨[], [], .obj [([0x61], .str word)], none, none⟩

/-- A text one delta ahead, and a call two ahead; its deltas cut the word
in two. -/
def sampleStream : List (AssistantMessageEvent Empty) :=
  [.start (sampleShown []), .textStart 0 (sampleShown [.text ⟨[0x68, 0x69], none⟩]),
    .textDelta 0 [0x68], .toolcallStart 1 (sampleShown
      [.text ⟨[0x68, 0x69], none⟩, .toolCall (sampleCall [0x78])]), .textDelta 0 [0x69, 0x21],
    .toolcallDelta 1 sampleOpen, .toolcallDelta 1 [0x78], .toolcallDelta 1 ([0x79] ++ sampleClose),
    .toolcallEnd 1 (sampleCall [0x78, 0x79]) (sampleShown
      [.text ⟨[0x68, 0x69, 0x21], none⟩, .toolCall (sampleCall [0x78, 0x79])]), .done]

theorem sampleStream_wellFormed : WellFormed sampleStream := by
  refine ⟨⟨⟨rfl, Nat.zero_le _⟩, _, rfl, .inl ⟨[0x21], rfl⟩⟩, ⟨_, rfl, rfl, rfl⟩,
    ⟨⟨rfl, by decide⟩, _, rfl⟩, ⟨_, rfl, rfl, rfl⟩, ⟨_, rfl, rfl, rfl⟩,
    ⟨_, rfl, rfl, rfl⟩, ⟨_, rfl, rfl, rfl⟩, ⟨⟨_, rfl, rfl, rfl⟩, _, rfl⟩, trivial⟩

/-- Before the call ends, its word is whole. -/
theorem reduce_encode_sample : WellFormed sampleStream ∧ ∃ frames encoder,
      AssistantMessageFrameEncoder.new.encodeAll sampleText
          (sampleStream.take 8) = .ok (frames, encoder) ∧
        reduceAssistantMessageFrames sampleText frames
          = .ok (showing sampleText (sampleStream.take 8)) :=
  ⟨sampleStream_wellFormed, (reduce_encode sampleStream_wellFormed 8).1⟩

end ReflectivePi.Frames
