import ReflectivePi.Frames.Reducer

/-!
# Frames — Views

What a stream of events tells of its blocks, and which streams are well
formed. A block that has ended is what its end says; an open text shows the
longer of what was visible at its start and its deltas; an open tool call
keeps the arguments visible at its start until its deltas reach them.
-/

namespace ReflectivePi.Frames

open List
open Delta (JsString)

variable {ν : Type}

/-! ## One block -/

/-- A block, as the events consumed so far tell of it. -/
structure BlockView (ν : Type) where
  /-- What the accumulator showed when the start was consumed. -/
  visible : ContentBlock ν
  deltas : List JsString
  ending : Option (ContentBlock ν)

def longer (a b : JsString) : JsString := if a.length < b.length then b else a

/-- The JSON parses to the arguments, or to an extension of them. -/
def Reaches (T : JsonText ν) (arguments : JsonValue ν) (json : JsString) : Prop :=
  T.stringify (T.parseStreamingJson json) = T.stringify arguments ∨
    Extends (T.parseStreamingJson (T.stringify arguments)) (T.parseStreamingJson json)

instance [DecidableEq ν] (T : JsonText ν) (arguments : JsonValue ν) (json : JsString) :
    Decidable (Reaches T arguments json) :=
  haveI : Decidable (Extends (T.parseStreamingJson (T.stringify arguments))
      (T.parseStreamingJson json)) :=
    decidable_of_iff _ (isJsonPrefix_iff _ _)
  inferInstanceAs (Decidable (_ ∨ _))

/-- Some of the deltas, in order, reach the arguments. -/
def CaughtUp (T : JsonText ν) (arguments : JsonValue ν)
    (deltas : List JsString) : Prop :=
  ∃ k, k < deltas.length + 1 ∧ Reaches T arguments (deltas.take k).flatten

instance [DecidableEq ν] (T : JsonText ν) (arguments : JsonValue ν)
    (deltas : List JsString) : Decidable (CaughtUp T arguments deltas) :=
  inferInstanceAs (Decidable (∃ k, k < deltas.length + 1 ∧ _))

def BlockView.shown [DecidableEq ν] (T : JsonText ν) (b : BlockView ν) : ContentBlock ν :=
  match b.ending with
  | some block => block
  | none =>
    match b.visible with
    | .text c => .text { c with text := longer c.text b.deltas.flatten }
    | .thinking c =>
      .thinking { c with thinking := longer c.thinking b.deltas.flatten }
    | .toolCall c =>
      if CaughtUp T c.arguments b.deltas then .toolCall { c with
        arguments := T.parseStreamingJson b.deltas.flatten }
      else .toolCall c

/-! ## Streams -/

/-- The block an end event leaves. -/
def endingOf : AssistantMessageEvent ν → Option (ContentBlock ν)
  | .textEnd contentIndex content shown =>
    match shown.content[contentIndex]? with
    | some (.text block) => some (.text ⟨content, block.textSignature⟩)
    | _ => none
  | .thinkingEnd contentIndex content shown =>
    match shown.content[contentIndex]? with
    | some (.thinking block) => some (.thinking
        ⟨content, block.thinkingSignature, block.redacted⟩)
    | _ => none
  | .toolcallEnd _ toolCall _ => some (.toolCall toolCall)
  | _ => none

def BlockView.addDelta (delta : JsString) (b : BlockView ν) : BlockView ν :=
  { b with deltas := b.deltas ++ [delta] }

def consume (views : List (BlockView ν)) (event : AssistantMessageEvent ν) : List (BlockView ν) :=
  match event with
  | .textStart contentIndex shown | .thinkingStart contentIndex shown
  | .toolcallStart contentIndex shown =>
    views ++ (shown.content[contentIndex]?.map fun block =>
      (⟨block, [], none⟩ : BlockView ν)).toList
  | .textDelta contentIndex delta | .thinkingDelta contentIndex delta
  | .toolcallDelta contentIndex delta =>
    views.modify contentIndex (BlockView.addDelta delta)
  | .textEnd contentIndex _ _ | .thinkingEnd contentIndex _ _
  | .toolcallEnd contentIndex _ _ =>
    views.modify contentIndex fun b => { b with ending := endingOf event }
  | .start _ | .done | .error => views

def deltasOf (contentIndex : Nat) (events : List (AssistantMessageEvent ν)) : List JsString :=
  events.filterMap fun event =>
    match event with
    | .textDelta i delta | .thinkingDelta i delta | .toolcallDelta i delta =>
      if i = contentIndex then some delta else none
    | _ => none

/-- One is the start of the other. -/
def Agree (a b : JsString) : Prop := a <+: b ∨ b <+: a

/-- The block has started, is of the kind, and has not ended. -/
def IsOpen (views : List (BlockView ν)) (contentIndex : Nat)
    (kind : BlockKind) : Prop :=
  ∃ b, views[contentIndex]? = some b ∧ b.visible.kind = kind ∧ b.ending = none

/-- The next block starts, at an index there can be. -/
def StartsNext (views : List (BlockView ν)) (contentIndex : Nat) : Prop :=
  contentIndex = views.length ∧ contentIndex ≤ maxSafeInteger

/-- An event a well-formed stream may have after others and before `rest`:
blocks start in order, deltas and an end are of an open block, and a text
visible at its start agrees with the deltas to come. -/
def Accepts (views : List (BlockView ν)) (event : AssistantMessageEvent ν)
    (rest : List (AssistantMessageEvent ν)) : Prop :=
  match event with
  | .textStart i shown => StartsNext views i ∧ ∃ c, shown.content[i]? = some (.text c) ∧
        Agree c.text (deltasOf i rest).flatten
  | .thinkingStart i shown => StartsNext views i ∧ ∃ c, shown.content[i]? = some (.thinking c) ∧
        Agree c.thinking (deltasOf i rest).flatten
  | .toolcallStart i shown => StartsNext views i ∧ ∃ c, shown.content[i]? = some (.toolCall c)
  | .textDelta i _ => IsOpen views i .text
  | .thinkingDelta i _ => IsOpen views i .thinking
  | .toolcallDelta i _ => IsOpen views i .toolCall
  | .textEnd i _ shown => IsOpen views i .text ∧ ∃ c, shown.content[i]? = some (.text c)
  | .thinkingEnd i _ shown => IsOpen views i .thinking ∧ ∃ c, shown.content[i]? = some (.thinking c)
  | .toolcallEnd i _ shown => IsOpen views i .toolCall ∧ ∃ c, shown.content[i]? = some (.toolCall c)
  | .start _ | .done | .error => False

/-- The events after the start: of blocks, and then at most one terminal. -/
def Follows (views : List (BlockView ν)) :
    List (AssistantMessageEvent ν) → Prop
  | [] => True
  | [.done] => True
  | [.error] => True
  | event :: rest => Accepts views event rest ∧ Follows (consume views event) rest

/-- One start, and what may follow it. -/
def WellFormed : List (AssistantMessageEvent ν) → Prop
  | .start _ :: events => Follows [] events
  | _ => False

/-- What the stream showed: nothing before the start, then its message with
every block as it is shown. -/
def showing [DecidableEq ν] (T : JsonText ν) :
    List (AssistantMessageEvent ν) → Option (AssistantMessage ν)
  | .start message :: events => some { cloneStartMessage message with
      content := (events.foldl consume []).map (BlockView.shown T) }
  | _ => none

theorem Agree.of_append {a b c : JsString} (h : Agree a (b ++ c)) : Agree a b := by
  rcases h with h | h
  · exact prefix_or_prefix_of_prefix h (prefix_append b c)
  · exact .inr ((prefix_append b c).trans h)

theorem Agree.append_drop {a b : JsString} (h : Agree a b) : a ++ b.drop a.length = longer a b := by
  unfold longer
  rcases h with ⟨rest, rfl⟩ | ⟨rest, rfl⟩
  · simp
  · rw [drop_eq_nil_of_le (by simp), append_nil, if_neg (by simp)]

variable {T : JsonText ν} {arguments : JsonValue ν} {deltas : List JsString}

theorem caughtUp_concat {delta : JsString} :
    CaughtUp T arguments (deltas ++ [delta]) ↔ CaughtUp T arguments deltas ∨
      Reaches T arguments (deltas ++ [delta]).flatten := by
  constructor
  · rintro ⟨k, hk, hreaches⟩
    rcases Nat.lt_or_ge k (deltas.length + 1) with hlt | hge
    · rw [take_append_of_le_length (by omega)] at hreaches
      exact .inl ⟨k, hlt, hreaches⟩
    · rw [take_of_length_le (by simp; omega)] at hreaches
      exact .inr hreaches
  · rintro (⟨k, hk, hreaches⟩ | hreaches)
    · refine ⟨k, by simp; omega, ?_⟩
      rw [take_append_of_le_length (by omega)]
      exact hreaches
    · refine ⟨(deltas ++ [delta]).length, by omega, ?_⟩
      rw [take_length]
      exact hreaches

theorem reaches_nil : Reaches T arguments [] ↔ arguments = emptyObject := by
  constructor
  · rintro (h | h)
    · exact T.eq_empty _ h.symm
    · rw [T.parseStreamingJson_nil] at h
      have hempty := extends_emptyObject h
      have hsame := T.stringify_parseStreamingJson arguments
      rw [hempty] at hsame
      exact T.eq_empty _ hsame.symm
  · rintro rfl
    exact .inl rfl

theorem caughtUp_nil : CaughtUp T arguments [] ↔ arguments = emptyObject := by
  rw [← reaches_nil]
  constructor
  · rintro ⟨k, -, h⟩
    simpa using h
  · intro h
    exact ⟨0, by simp, h⟩

theorem CaughtUp.of_empty (h : Reaches T arguments []) :
    CaughtUp T arguments deltas := ⟨0, by omega, h⟩

/-- **At the latest** the deltas the snapshot contained reach it. -/
theorem caughtUp_of_snapshot {k : Nat} (hk : k ≤ deltas.length)
    (h : arguments = T.parseStreamingJson (deltas.take k).flatten) : CaughtUp T arguments deltas :=
  ⟨k, by omega, .inl (by rw [h])⟩

end ReflectivePi.Frames
