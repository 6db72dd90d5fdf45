import ReflectivePi.Frames.Views

/-!
# Frames — Tracking

Encoder, reducer and stream in step: block by block, what the encoder keeps
and what the reducer has rebuilt belong to what the consumed events tell
(`Tracks`). One event about one block keeps it so (`Advances`); here for
starts, for deltas of text and for ends.
-/

namespace ReflectivePi.Frames

open List Option InsertionMap
open Delta (JsString)
open AssistantMessageFrameEncoder

variable {ν : Type} {T : JsonText ν}

/-! ## One block -/

/-- The text of a text or a thinking block. -/
def ContentBlock.body : ContentBlock ν → JsString
  | .text c => c.text
  | .thinking c => c.thinking
  | .toolCall _ => []

def ContentBlock.withBody (text : JsString) : ContentBlock ν → ContentBlock ν
  | .text c => .text { c with text }
  | .thinking c => .thinking { c with thinking := text }
  | .toolCall c => .toolCall c

@[simp] theorem ContentBlock.body_withBody {v : ContentBlock ν}
    (hkind : v.kind ≠ .toolCall) (text : JsString) : (v.withBody text).body = text := by
  cases v <;> first | rfl | exact absurd rfl hkind

@[simp] theorem ContentBlock.withBody_withBody (v : ContentBlock ν)
    (a b : JsString) : (v.withBody a).withBody b = v.withBody b := by
  cases v <;> rfl

@[simp] theorem ContentBlock.kind_withBody (v : ContentBlock ν)
    (text : JsString) : (v.withBody text).kind = v.kind := by
  cases v <;> rfl

@[simp] theorem ContentBlock.withBody_body (v : ContentBlock ν) : v.withBody v.body = v := by
  cases v <;> rfl

/-- What encoder and reducer hold of a block, against its view and the
deltas still to come. -/
inductive Tracks (T : JsonText ν) : Option EncoderBlockState →
    Option (ContentBlock ν) → Option ReducerBlockState → BlockView ν →
    List JsString → Prop
  | text {v : ContentBlock ν} {deltas future : List JsString}
      (hkind : v.kind ≠ .toolCall) (hagree : Agree v.body (deltas ++ future).flatten) :
      Tracks T (some (.text v.kind v.body.length deltas.flatten.length))
        (some (v.withBody (v.body ++ deltas.flatten.drop v.body.length)))
        (some ⟨v.kind, false, []⟩) ⟨v, deltas, none⟩ future
  | waiting {c : ToolCall ν} {deltas future : List JsString}
      (hwaiting : ¬ CaughtUp T c.arguments deltas) :
      Tracks T
        (some (.toolCall false deltas.flatten (T.stringify c.arguments)))
        (some (.toolCall c)) (some ⟨.toolCall, false, []⟩)
        ⟨.toolCall c, deltas, none⟩ future
  | caughtUp {c : ToolCall ν} {deltas future : List JsString}
      {arguments : JsonValue ν} (hcaught : CaughtUp T c.arguments deltas)
      (hempty : deltas.flatten = [] → arguments = emptyObject) :
      Tracks T (some (.toolCall true [] []))
        (some (.toolCall { c with arguments }))
        (some ⟨.toolCall, false, deltas.flatten⟩)
        ⟨.toolCall c, deltas, none⟩ future
  | ended {block : ContentBlock ν} {state : ReducerBlockState} {b : BlockView ν}
      {future : List JsString} (hending : b.ending = some block)
      (hended : state.ended = true) :
      Tracks T none (some block) (some state) b future

/-- All but the blocks. -/
def AssistantMessage.bare (message : AssistantMessage ν) : AssistantMessage ν :=
  { message with content := [] }

/-- Encoder and replay against the views, with the events to come. -/
structure InStep (T : JsonText ν) (base : AssistantMessage ν)
    (encoder : AssistantMessageFrameEncoder) (replay : Replay ν)
    (views : List (BlockView ν)) (future : Nat → List JsString) : Prop where
  started : encoder.started = true
  running : encoder.terminal = false
  base : replay.message.bare = base
  bound : views.length ≤ maxSafeInteger + 1
  length : replay.message.content.length = views.length
  encoderKeys : ∀ i, views.length ≤ i → encoder.blocks.get? i = none
  replayKeys : ∀ i, views.length ≤ i → replay.states.get? i = none
  tracks : ∀ i b, views[i]? = some b → Tracks T (encoder.blocks.get? i) replay.message.content[i]?
      (replay.states.get? i) b (future i)

variable {base : AssistantMessage ν} {encoder encoder' : AssistantMessageFrameEncoder}
  {replay replay' : Replay ν} {views : List (BlockView ν)}
  {future future' : Nat → List JsString} {i : Nat}

variable {b : BlockView ν} {f : BlockView ν → BlockView ν}

theorem InStep.change (h : InStep T base encoder replay views future)
    (hb : views[i]? = some b) (hencoder : encoder'.started = encoder.started ∧
      encoder'.terminal = encoder.terminal ∧
      ∀ j, j ≠ i → encoder'.blocks.get? j = encoder.blocks.get? j)
    (hbase : replay'.message.bare = replay.message.bare)
    (hlength : replay'.message.content.length = replay.message.content.length)
    (hreplay : ∀ j, j ≠ i → replay'.message.content[j]? = replay.message.content[j]? ∧
        replay'.states.get? j = replay.states.get? j) (hfuture : ∀ j, j ≠ i → future' j = future j)
    (htracks : Tracks T (encoder'.blocks.get? i) replay'.message.content[i]?
      (replay'.states.get? i) (f b) (future' i)) :
    InStep T base encoder' replay' (views.modify i f) future' := by
  obtain ⟨hstarted, hterminal, hblocks⟩ := hencoder
  have hi : i < views.length := (List.getElem?_eq_some_iff.mp hb).1
  refine ⟨hstarted.trans h.started, hterminal.trans h.running,
    hbase.trans h.base, ?_, ?_, ?_, ?_, ?_⟩
  · rw [length_modify]
    exact h.bound
  · rw [length_modify, hlength, h.length]
  · intro j hj
    rw [length_modify] at hj
    rw [hblocks j (by omega), h.encoderKeys j hj]
  · intro j hj
    rw [length_modify] at hj
    rw [(hreplay j (by omega)).2, h.replayKeys j hj]
  · intro j x hx
    by_cases hji : i = j
    · subst hji
      rw [getElem?_modify_eq, hb] at hx
      cases hx
      exact htracks
    · rw [getElem?_modify_ne f views hji] at hx
      rw [hblocks j (Ne.symm hji), (hreplay j (Ne.symm hji)).1,
        (hreplay j (Ne.symm hji)).2, hfuture j (Ne.symm hji)]
      exact h.tracks j x hx

variable {block : ContentBlock ν} {state : EncoderBlockState}

theorem InStep.start (h : InStep T base encoder replay views future)
    (hstarts : StartsNext views i) {rstate : ReducerBlockState}
    (hfuture : ∀ j, future' j = future j)
    (htracks : Tracks T (some state) (some block) (some rstate) b (future' i)) :
    InStep T base { encoder with blocks := encoder.blocks.set i state }
      ⟨{ replay.message with content := replay.message.content ++ [block] },
        replay.states.set i rstate⟩ (views ++ [b]) future' := by
  obtain ⟨rfl, hbound⟩ := hstarts
  refine ⟨h.started, h.running, h.base, ?_, ?_, ?_, ?_, ?_⟩
  · rw [length_append, length_singleton]
    omega
  · simp [h.length]
  · intro j hj
    rw [length_append, length_singleton] at hj
    rw [get?_set, if_neg (by omega), h.encoderKeys j (by omega)]
  · intro j hj
    rw [length_append, length_singleton] at hj
    rw [get?_set, if_neg (by omega), h.replayKeys j (by omega)]
  · intro j x hx
    have hlength := h.length
    rcases Nat.lt_trichotomy j views.length with hlt | rfl | hgt
    · rw [getElem?_append_left hlt] at hx
      rw [get?_set, if_neg (by omega), get?_set,
        if_neg (by omega), getElem?_append_left (by omega), hfuture]
      exact h.tracks j x hx
    · rw [getElem?_concat_length] at hx
      cases hx
      rw [get?_set, if_pos rfl, get?_set, if_pos rfl, ← hlength, getElem?_concat_length, hlength]
      exact htracks
    · rw [getElem?_eq_none (by simp; omega)] at hx
      cases hx

/-! ## Reading what is held -/

theorem assertContentIndex_ok (h : i ≤ maxSafeInteger) :
    assertContentIndex i = .ok () := if_pos h

variable {kind : BlockKind}

section

variable (hi : i ≤ maxSafeInteger)

include hi

theorem block_ok (hget : encoder.blocks.get? i = some state)
    (hkind : state.kind = kind) : encoder.block i kind = .ok state := by
  simp only [AssistantMessageFrameEncoder.block, assertContentIndex_ok hi, hget]
  exact if_neg (not_not.mpr hkind)

theorem endBlock_ok (hget : encoder.blocks.get? i = some state)
    (hkind : state.kind = kind) : encoder.endBlock i kind
      = .ok { encoder with blocks := encoder.blocks.delete i } := by
  rw [endBlock, block_ok hi hget hkind]
  rfl

theorem startBlock_ok (hget : encoder.blocks.get? i = none) :
    encoder.startBlock i state = .ok { encoder with blocks := encoder.blocks.set i state } := by
  simp only [startBlock, assertContentIndex_ok hi, InsertionMap.has, hget]
  rfl

theorem eventBlock_ok {event : String} {shown : AssistantMessage ν}
    (hget : shown.content[i]? = some block) :
    eventBlock event i shown = .ok block := by
  simp only [eventBlock, assertContentIndex_ok hi, hget]
  rfl

theorem activeBlock_ok {frame : String} {state : ReducerBlockState}
    (hstate : replay.states.get? i = some state)
    (hblock : replay.message.content[i]? = some block) (hkind : state.kind = kind)
    (hblockKind : block.kind = kind) (hended : state.ended = false) :
    replay.activeBlock i kind frame = .ok (block, state) := by
  simp only [Replay.activeBlock, assertContentIndex_ok hi, hstate, hblock]
  refine (if_neg (by simp [hkind, hblockKind])).trans ?_
  rw [hended]
  rfl

theorem appendBlock_ok {state : ReducerBlockState}
    (hlength : i = replay.message.content.length) :
    replay.appendBlock i block state
      = .ok ⟨{ replay.message with content := replay.message.content ++ [block] },
          replay.states.set i state⟩ := by
  simp only [Replay.appendBlock, assertContentIndex_ok hi]
  exact if_neg (not_not.mpr hlength)

theorem encodeTextDelta_ok {covered start : Nat} {delta : JsString}
    (hget : encoder.blocks.get? i = some (.text kind covered start)) :
    encoder.encodeTextDelta i delta kind = .ok (if delta.length ≤ covered - start then none
          else some (delta.drop (covered - start)), { encoder with
          blocks := encoder.blocks.set i
            (.text kind covered (start + delta.length)) }) := by
  have hblock : encoder.block i kind = .ok (.text kind covered start) := block_ok hi hget rfl
  rw [encodeTextDelta, hblock]
  show (if delta.length ≤ covered - start then _ else _) = _
  split <;> rfl

end

/-! ## One event -/

variable [DecidableEq ν] {event : AssistantMessageEvent ν}
  {rest : List (AssistantMessageEvent ν)}

/-- The deltas to come after an event. -/
def toCome (events : List (AssistantMessageEvent ν)) (i : Nat) :
    List JsString := deltasOf i events

/-- The encoder takes the event, and the replay its frame if there is one. -/
def Advances (T : JsonText ν) (base : AssistantMessage ν)
    (encoder : AssistantMessageFrameEncoder) (replay : Replay ν)
    (event : AssistantMessageEvent ν) (views : List (BlockView ν))
    (future : Nat → List JsString) : Prop :=
  ∃ frame encoder' replay', encoder.encode T event = .ok (frame, encoder') ∧
      frame.toList.foldlM (Replay.step T) replay = .ok replay' ∧
      InStep T base encoder' replay' views future

omit [DecidableEq ν] in
theorem InStep.index_le (h : InStep T base encoder replay views future)
    (hb : views[i]? = some b) : i ≤ maxSafeInteger := by
  have hi := (List.getElem?_eq_some_iff.mp hb).1
  have hbound := h.bound
  omega

section

variable (h : InStep T base encoder replay views (toCome (event :: rest)))

include h

theorem InStep.advances_start
    (hstarts : StartsNext views i) {rstate : ReducerBlockState} {frame : AssistantMessageFrame ν}
    (hencode : encoder.encode T event = .ok (some frame, { encoder with
      blocks := encoder.blocks.set i state }))
    (hstep : replay.step T frame = replay.appendBlock i block rstate)
    (hfuture : ∀ j, toCome (event :: rest) j = toCome rest j)
    (htracks : Tracks T (some state) (some block) (some rstate) b (toCome rest i)) :
    Advances T base encoder replay event (views ++ [b]) (toCome rest) := by
  refine ⟨_, _, _, hencode, ?_, h.start hstarts (fun j => (hfuture j).symm) htracks⟩
  have hlength : i = replay.message.content.length := by
    rw [hstarts.1, h.length]
  rw [toList_some, foldlM_cons, hstep, appendBlock_ok hstarts.2 hlength]
  rfl

theorem InStep.advances_silent
    (hb : views[i]? = some b) {blocks : InsertionMap Nat EncoderBlockState}
    (hencode : encoder.encode T event = .ok (none, { encoder with blocks }))
    (hblocks : ∀ j, j ≠ i → blocks.get? j = encoder.blocks.get? j)
    (hfuture : ∀ j, j ≠ i → toCome rest j = toCome (event :: rest) j)
    (htracks : Tracks T (blocks.get? i) replay.message.content[i]?
      (replay.states.get? i) (f b) (toCome rest i)) :
    Advances T base encoder replay event (views.modify i f) (toCome rest) :=
  ⟨_, _, _, hencode, rfl, h.change hb ⟨rfl, rfl, hblocks⟩ rfl rfl
    (fun _ _ => ⟨rfl, rfl⟩) hfuture htracks⟩

theorem InStep.advances_update
    (hb : views[i]? = some b) {blocks : InsertionMap Nat EncoderBlockState}
    {frame : AssistantMessageFrame ν} {state : ReducerBlockState}
    (hencode : encoder.encode T event = .ok (some frame, { encoder with blocks }))
    (hstep : replay.step T frame = .ok (replay.update i block state))
    (hblocks : ∀ j, j ≠ i → blocks.get? j = encoder.blocks.get? j)
    (hfuture : ∀ j, j ≠ i → toCome rest j = toCome (event :: rest) j)
    (htracks : Tracks T (blocks.get? i) (some block) (some state) (f b) (toCome rest i)) :
    Advances T base encoder replay event (views.modify i f) (toCome rest) := by
  have hi : i < replay.message.content.length := by
    rw [h.length]
    exact (List.getElem?_eq_some_iff.mp hb).1
  refine ⟨frame, _, replay.update i block state, hencode, ?_,
    h.change hb ⟨rfl, rfl, hblocks⟩ rfl ?_ ?_ hfuture ?_⟩
  · rw [toList_some, foldlM_cons, hstep]
    rfl
  · simp [Replay.update]
  · intro j hj
    refine ⟨getElem?_set_ne (Ne.symm hj), ?_⟩
    rw [Replay.update, get?_set, if_neg (Ne.symm hj)]
  · rw [Replay.update, get?_set, if_pos rfl, getElem?_set_self hi]
    exact htracks

end

section

variable {e : Option EncoderBlockState} {block : Option (ContentBlock ν)}
  {s : Option ReducerBlockState} {b : BlockView ν} {deltas : List JsString}

omit [DecidableEq ν]

theorem Tracks.text_inv (h : Tracks T e block s b deltas)
    (hkind : b.visible.kind ≠ .toolCall) (hopen : b.ending = none) :
    ∃ v ds, b = ⟨v, ds, none⟩ ∧ e = some (.text v.kind v.body.length ds.flatten.length) ∧
      block = some (v.withBody (v.body ++ ds.flatten.drop v.body.length)) ∧
      s = some ⟨v.kind, false, []⟩ ∧ Agree v.body (ds ++ deltas).flatten := by
  cases h with
  | text _ hagree => exact ⟨_, _, rfl, rfl, rfl, rfl, hagree⟩
  | waiting | caughtUp => exact absurd rfl hkind
  | ended hending =>
    rw [hopen] at hending
    cases hending

theorem Tracks.toolCall_inv (h : Tracks T e block s b deltas)
    (hkind : b.visible.kind = .toolCall) (hopen : b.ending = none) :
    ∃ c ds, b = ⟨.toolCall c, ds, none⟩ ∧
      ((e = some (.toolCall false ds.flatten (T.stringify c.arguments)) ∧
          block = some (.toolCall c) ∧ s = some ⟨.toolCall, false, []⟩ ∧
          ¬ CaughtUp T c.arguments ds) ∨
        ∃ arguments, e = some (.toolCall true [] []) ∧
          block = some (.toolCall { c with arguments }) ∧
          s = some ⟨.toolCall, false, ds.flatten⟩ ∧
          CaughtUp T c.arguments ds ∧
          (ds.flatten = [] → arguments = emptyObject)) := by
  cases h with
  | waiting hwaiting =>
    exact ⟨_, _, rfl, .inl ⟨rfl, rfl, rfl, hwaiting⟩⟩
  | caughtUp hcaught hempty =>
    exact ⟨_, _, rfl, .inr ⟨_, rfl, rfl, rfl, hcaught, hempty⟩⟩
  | text hno => exact absurd hkind hno
  | ended hending =>
    rw [hopen] at hending
    cases hending

theorem Tracks.open_state (h : Tracks T e block s b deltas) (hopen : b.ending = none) :
    ∃ state x y, e = some x ∧ x.kind = b.visible.kind ∧ block = some y ∧
      y.kind = b.visible.kind ∧ s = some state ∧
      state.kind = b.visible.kind ∧ state.ended = false := by
  cases h with
  | text =>
    exact ⟨_, _, _, rfl, rfl, rfl, ContentBlock.kind_withBody _ _, rfl, rfl, rfl⟩
  | waiting | caughtUp => exact ⟨_, _, _, rfl, rfl, rfl, rfl, rfl, rfl, rfl⟩
  | ended hending =>
    rw [hopen] at hending
    cases hending

end

theorem InStep.encode_eq (h : InStep T base encoder replay views future)
    (ha : Accepts views event rest) : encoder.encode T event = encoder.encodeBlock T event := by
  unfold encode
  rw [h.running, if_neg Bool.false_ne_true, h.started]
  cases event <;> first | rfl | cases ha

theorem get?_set_of_ne (blocks : InsertionMap Nat EncoderBlockState) (state : EncoderBlockState) :
    ∀ j, j ≠ i → (blocks.set i state).get? j = blocks.get? j := by
  intro j hj
  rw [get?_set, if_neg (Ne.symm hj)]

theorem InStep.advances_textStart {v : ContentBlock ν} (frame : AssistantMessageFrame ν)
    (h : InStep T base encoder replay views (toCome (event :: rest)))
    (hstarts : StartsNext views i) (hkind : v.kind ≠ .toolCall)
    (hagree : Agree v.body (toCome rest i).flatten)
    (hencode : ∀ encoder', encoder.startBlock i (.text v.kind v.body.length 0)
      = .ok encoder' → encoder.encode T event = .ok (some frame, encoder'))
    (hstep : replay.step T frame = replay.appendBlock i v ⟨v.kind, false, []⟩)
    (hfuture : ∀ j, toCome (event :: rest) j = toCome rest j) :
    Advances T base encoder replay event (views ++ [⟨v, [], none⟩])
      (toCome rest) := by
  have hnone := h.encoderKeys i (by rw [hstarts.1])
  have htracks : Tracks T _ _ _ ⟨v, [], none⟩ (toCome rest i) :=
    .text hkind hagree
  exact h.advances_start hstarts (hencode _ (startBlock_ok hstarts.2 hnone))
    hstep hfuture (by simpa using htracks)

theorem drop_concat (a b d : JsString) :
    a ++ (b ++ d).drop a.length = a ++ b.drop a.length ++ d.drop (a.length - b.length) := by
  rw [drop_append, append_assoc]

theorem InStep.advances_textDelta {delta : JsString} (frame : JsString → AssistantMessageFrame ν)
    (h : InStep T base encoder replay views (toCome (event :: rest)))
    (hopen : IsOpen views i kind) (hkind : kind ≠ .toolCall)
    (hencode : ∀ uncovered encoder', encoder.encodeTextDelta i delta kind
      = .ok (uncovered, encoder') → encoder.encode T event = .ok (uncovered.map frame, encoder'))
    (hstep : ∀ uncovered block state,
      replay.activeBlock i kind (frame uncovered).type = .ok (block, state) →
        block.kind = kind → replay.step T (frame uncovered)
          = .ok (replay.update i (block.withBody (block.body ++ uncovered)) state))
    (hcome : ∀ j, toCome (event :: rest) j
      = if i = j then delta :: toCome rest j else toCome rest j) :
    Advances T base encoder replay event
      (views.modify i (BlockView.addDelta delta)) (toCome rest) := by
  obtain ⟨b, hb, rfl, hopen⟩ := hopen
  obtain ⟨v, ds, rfl, he, hblock, hs, hagree⟩ := (h.tracks i b hb).text_inv hkind hopen
  have hi := h.index_le hb
  have hfuture : ∀ j, j ≠ i → toCome rest j = toCome (event :: rest) j := by
    intro j hj
    rw [hcome, if_neg (Ne.symm hj)]
  have htracks : Tracks T _ _ _ ⟨v, ds ++ [delta], none⟩ (toCome rest i) :=
    .text hkind (by simpa [hcome] using hagree)
  rw [flatten_append, flatten_singleton, drop_concat, length_append] at htracks
  have hencode := hencode _ _ (encodeTextDelta_ok hi he)
  by_cases hcovered : delta.length ≤ v.body.length - ds.flatten.length
  · rw [if_pos hcovered] at hencode
    refine h.advances_silent hb hencode (get?_set_of_ne _ _) hfuture ?_
    rw [get?_set, if_pos rfl, hblock, hs]
    rw [drop_eq_nil_of_le hcovered, append_nil] at htracks
    exact htracks
  · rw [if_neg hcovered] at hencode
    have hframe := hstep (delta.drop (v.body.length - ds.flatten.length)) _ _
      (activeBlock_ok hi hs hblock rfl (ContentBlock.kind_withBody _ _) rfl)
      (ContentBlock.kind_withBody _ _)
    rw [ContentBlock.body_withBody hkind, ContentBlock.withBody_withBody] at hframe
    refine h.advances_update hb hencode hframe (get?_set_of_ne _ _) hfuture ?_
    rw [get?_set, if_pos rfl]
    exact htracks

theorem InStep.advances_end {ending : ContentBlock ν} (frame : AssistantMessageFrame ν)
    (h : InStep T base encoder replay views (toCome (event :: rest))) (hopen : IsOpen views i kind)
    (hencode : ∀ encoder', encoder.endBlock i kind = .ok encoder' →
      encoder.encode T event = .ok (some frame, encoder')) (hstep : ∀ block state,
      replay.activeBlock i kind frame.type = .ok (block, state) →
        block.kind = kind → replay.step T frame
          = .ok (replay.update i ending { state with ended := true }))
    (hfuture : ∀ j, toCome rest j = toCome (event :: rest) j) :
    Advances T base encoder replay event (views.modify i fun b => { b with ending := some ending })
      (toCome rest) := by
  obtain ⟨b, hb, rfl, hopen⟩ := hopen
  obtain ⟨state, x, y, he, hx, hblock, hy, hs, hstate, hended⟩ := (h.tracks i b hb).open_state hopen
  have hi := h.index_le hb
  refine h.advances_update hb (hencode _ (endBlock_ok hi he hx))
    (hstep _ _ (activeBlock_ok hi hs hblock hstate hy hended) hy) ?_
    (fun j _ => hfuture j) ?_
  · intro j hj
    rw [get?_delete, if_neg (Ne.symm hj)]
  · rw [get?_delete, if_pos rfl]
    exact .ended rfl rfl

end ReflectivePi.Frames
