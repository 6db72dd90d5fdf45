import ReflectivePi.Delta.Json
import Mathlib.Data.List.Zip

/-!
# Requests — CallIds

The two passes of `transformMessages` as far as ids go: here an id is its code
units, and the normalizer has variables of its own and may not return. A
message is what its ids say of it; the converters copy the ids that the
passes leave.
-/

namespace ReflectivePi.Requests.Ids

open List Option
open Delta (JsString)

/-- An assistant message: whether it came from the target model, whether it is an incomplete
turn, and the ids of its calls. -/
structure Assistant where
  isSameModel : Bool
  stopped : Bool
  ids : List JsString

inductive IdMessage where
  | system
  | user
  | assistant (message : Assistant)
  /-- A result, given by the transcript or put in for a call without one. -/
  | toolResult (toolCallId : JsString) (given : Bool)

/-! ## First pass -/

/-- `normalizeToolCallId` with the variables `σ` it closes over; `none` where
it does not return. -/
abbrev Normalizer (σ : Type) := σ → JsString → Option (σ × JsString)

structure FirstPass (σ : Type) where
  closure : σ
  toolCallIdMap : InsertionMap JsString JsString

variable {σ : Type}

def normalizeCall (normalizeToolCallId : Normalizer σ) (isSameModel : Bool)
    (pass : FirstPass σ) (id : JsString) : Option (FirstPass σ × JsString) :=
  if isSameModel then some (pass, id)
  else
    (normalizeToolCallId pass.closure id).map fun (closure, normalizedId) =>
      if normalizedId ≠ id then
        (⟨closure, pass.toolCallIdMap.set id normalizedId⟩, normalizedId)
      else (⟨closure, pass.toolCallIdMap⟩, id)

def normalizeCalls (normalizeToolCallId : Normalizer σ) (isSameModel : Bool) :
    FirstPass σ → List JsString → Option (FirstPass σ × List JsString)
  | pass, [] => some (pass, [])
  | pass, id :: rest =>
    (normalizeCall normalizeToolCallId isSameModel pass id).bind fun (pass, id) =>
      (normalizeCalls normalizeToolCallId isSameModel pass rest).map fun (pass, ids) =>
        (pass, id :: ids)

/-- A mapped id that is empty counts as none. -/
def renameResult (toolCallIdMap : InsertionMap JsString JsString) (id : JsString) : JsString :=
  match toolCallIdMap.get? id with
  | some normalizedId => if normalizedId ≠ [] ∧ normalizedId ≠ id then normalizedId else id
  | none => id

def firstPass (normalizeToolCallId : Normalizer σ) :
    FirstPass σ → List IdMessage → Option (List IdMessage)
  | _, [] => some []
  | pass, .assistant m :: rest =>
    (normalizeCalls normalizeToolCallId m.isSameModel pass m.ids).bind fun (pass, ids) =>
      (firstPass normalizeToolCallId pass rest).map (.assistant { m with ids } :: ·)
  | pass, .toolResult id given :: rest =>
    (firstPass normalizeToolCallId pass rest).map
      (.toolResult (renameResult pass.toolCallIdMap id) given :: ·)
  | pass, .system :: rest => (firstPass normalizeToolCallId pass rest).map (.system :: ·)
  | pass, .user :: rest => (firstPass normalizeToolCallId pass rest).map (.user :: ·)

/-! ## Second pass -/

structure SecondPass where
  result : List IdMessage := []
  pendingToolCalls : List JsString := []
  existingToolResultIds : List JsString := []
  heldSystemMessages : List IdMessage := []

namespace SecondPass

def push (pass : SecondPass) (message : IdMessage) : SecondPass :=
  { pass with result := pass.result ++ [message] }

/-- Results for the pending calls without one, then the system messages held back. -/
def closePendingToolCalls (pass : SecondPass) : SecondPass where
  result := pass.result ++ (pass.pendingToolCalls.filter fun id =>
        pass.existingToolResultIds.all fun other => decide (other ≠ id)).map (.toolResult · false)
    ++ pass.heldSystemMessages
  pendingToolCalls := []
  existingToolResultIds := if pass.pendingToolCalls = [] then pass.existingToolResultIds else []
  heldSystemMessages := []

def step (pass : SecondPass) : IdMessage → SecondPass
  | .assistant m =>
    let pass := pass.closePendingToolCalls
    if m.stopped then pass
    else if m.ids = [] then pass.push (.assistant m)
    else
      { pass with pendingToolCalls := m.ids, existingToolResultIds := [] }.push (.assistant m)
  | .toolResult id given =>
    { pass with existingToolResultIds := id :: pass.existingToolResultIds }.push
      (.toolResult id given)
  | .system =>
    if pass.pendingToolCalls = [] then pass.push .system
    else { pass with heldSystemMessages := pass.heldSystemMessages ++ [.system] }
  | .user => pass.closePendingToolCalls.push .user

end SecondPass

def secondPass (transformed : List IdMessage) : List IdMessage :=
  (transformed.foldl SecondPass.step {}).closePendingToolCalls.result

def transformMessages (normalizeToolCallId : Normalizer σ) (closure : σ)
    (messages : List IdMessage) : Option (List IdMessage) :=
  (firstPass normalizeToolCallId ⟨closure, .empty⟩ messages).map secondPass

/-! ## Ids of a request -/

def IdMessage.callIds : IdMessage → List JsString
  | .assistant m => m.ids
  | _ => []

/-- The id of a result that the transcript gives. -/
def IdMessage.givenId? : IdMessage → Option JsString
  | .toolResult id true => some id
  | _ => none

/-- The id of a result that is put in. -/
def IdMessage.putInId? : IdMessage → Option JsString
  | .toolResult id false => some id
  | _ => none

def callIds (messages : List IdMessage) : List JsString := messages.flatMap IdMessage.callIds

def givenIds (messages : List IdMessage) : List JsString :=
  messages.filterMap IdMessage.givenId?

def putInIds (messages : List IdMessage) : List JsString :=
  messages.filterMap IdMessage.putInId?

/-- A message without its calls, if it is an incomplete turn. -/
def IdMessage.kept : IdMessage → IdMessage
  | .assistant m => .assistant (if m.stopped then { m with ids := [] } else m)
  | message => message

/-- The ids of the calls that go out. -/
def keptIds (messages : List IdMessage) : List JsString := callIds (messages.map IdMessage.kept)

@[simp] theorem callIds_append (messages messages' : List IdMessage) :
    callIds (messages ++ messages') = callIds messages ++ callIds messages' :=
  flatMap_append

@[simp] theorem givenIds_append (messages messages' : List IdMessage) :
    givenIds (messages ++ messages') = givenIds messages ++ givenIds messages' :=
  filterMap_append

@[simp] theorem putInIds_append (messages messages' : List IdMessage) :
    putInIds (messages ++ messages') = putInIds messages ++ putInIds messages' :=
  filterMap_append

theorem keptIds_cons (message : IdMessage) (messages : List IdMessage) :
    keptIds (message :: messages) = message.kept.callIds ++ keptIds messages := rfl

/-! ## What the second pass keeps -/

namespace SecondPass

/-- Nothing but system messages is held back. -/
def Holds (pass : SecondPass) : Prop := ∀ message ∈ pass.heldSystemMessages, message = .system

variable {pass : SecondPass}

theorem Holds.none (h : pass.Holds) {α : Type} {f : IdMessage → Option α}
    (hf : f .system = none) : pass.heldSystemMessages.filterMap f = [] := by
  rw [filterMap_eq_nil_iff]
  intro message hmessage
  rw [h message hmessage, hf]

theorem Holds.callIds (h : pass.Holds) : callIds pass.heldSystemMessages = [] := by
  rw [Ids.callIds, flatMap_eq_nil_iff]
  intro message hmessage
  rw [h message hmessage]
  rfl

theorem callIds_close (h : pass.Holds) :
    Ids.callIds pass.closePendingToolCalls.result = Ids.callIds pass.result := by
  have hput : ∀ ids : List JsString, Ids.callIds (ids.map (.toolResult · false)) = [] := by
    intro ids
    rw [Ids.callIds, flatMap_map]
    exact List.flatMap_eq_nil_iff.mpr fun _ _ => rfl
  rw [closePendingToolCalls, callIds_append, callIds_append, hput, h.callIds, append_nil,
    append_nil]

theorem givenIds_close (h : pass.Holds) :
    givenIds pass.closePendingToolCalls.result = givenIds pass.result := by
  have hput : ∀ ids : List JsString, givenIds (ids.map (.toolResult · false)) = [] := by
    intro ids
    rw [givenIds, filterMap_map]
    exact List.filterMap_eq_nil_iff.mpr fun _ _ => rfl
  have hheld : givenIds pass.heldSystemMessages = [] := h.none rfl
  rw [closePendingToolCalls, givenIds_append, givenIds_append, hput, hheld, append_nil, append_nil]

theorem mem_putInIds_close (h : pass.Holds) {id : JsString}
    (hid : id ∈ putInIds pass.closePendingToolCalls.result) :
    id ∈ putInIds pass.result ∨ id ∈ pass.pendingToolCalls := by
  have hheld : putInIds pass.heldSystemMessages = [] := h.none rfl
  rw [closePendingToolCalls, putInIds_append, putInIds_append, hheld, append_nil] at hid
  rcases List.mem_append.mp hid with hid | hid
  · exact .inl hid
  · right
    rw [putInIds, filterMap_map] at hid
    obtain ⟨id', hmem, heq⟩ := List.mem_filterMap.mp hid
    cases heq
    exact (List.mem_filter.mp hmem).1

/-- What the pass has put out, with a message more. -/
structure Steps (pass next : SecondPass) (message : IdMessage) : Prop where
  holds : next.Holds
  callIds : Ids.callIds next.result = Ids.callIds pass.result ++ message.kept.callIds
  givenIds : Ids.givenIds next.result = Ids.givenIds pass.result ++ message.givenId?.toList
  pending : ∀ id ∈ next.pendingToolCalls, id ∈ pass.pendingToolCalls ∨ id ∈ message.kept.callIds
  putInIds : ∀ id ∈ Ids.putInIds next.result, id ∈ Ids.putInIds pass.result ∨
    id ∈ pass.pendingToolCalls ∨ message.putInId? = some id

theorem steps_push {next : SecondPass} (h : pass.Holds) {message : IdMessage}
    (hresult : next.result = pass.closePendingToolCalls.result ++ [message])
    (hheld : next.heldSystemMessages = [])
    (hpending : ∀ id ∈ next.pendingToolCalls, id ∈ message.kept.callIds)
    (hkept : message.kept.callIds = message.callIds) (hputIn : message.putInId? = none) :
    Steps pass next message where
  holds := by
    intro held hmem
    rw [hheld] at hmem
    cases hmem
  callIds := by
    rw [hresult, callIds_append, callIds_close h, hkept]
    exact congrArg _ (append_nil _)
  givenIds := by
    rw [hresult, givenIds_append, givenIds_close h]
    rfl
  pending := fun id hid => .inr (hpending id hid)
  putInIds := by
    intro id hid
    rw [hresult, putInIds_append, show Ids.putInIds [message] = [] from
      filterMap_cons_none hputIn, append_nil] at hid
    exact (mem_putInIds_close h hid).imp_right .inl

theorem steps_step (h : pass.Holds) (message : IdMessage) :
    Steps pass (pass.step message) message := by
  cases message with
  | user => exact steps_push h rfl rfl (fun id hid => by cases hid) rfl rfl
  | toolResult id given =>
    refine ⟨h, (callIds_append _ _).trans rfl, ?_, fun id hid => .inl hid, fun id' hid => ?_⟩
    · refine (givenIds_append _ _).trans (congrArg _ ?_)
      cases given <;> rfl
    · rw [step, push, putInIds_append] at hid
      rcases List.mem_append.mp hid with hid | hid
      · exact .inl hid
      · right
        right
        cases given with
        | true => cases hid
        | false =>
          rw [List.mem_singleton.mp hid]
          rfl
  | system =>
    rw [step]
    split
    · refine ⟨h, (callIds_append _ _).trans rfl, (givenIds_append _ _).trans rfl,
        fun id hid => .inl hid, fun id hid => .inl ?_⟩
      rwa [push, putInIds_append, show Ids.putInIds [.system] = [] from rfl, append_nil] at hid
    · refine ⟨?_, (append_nil _).symm, (append_nil _).symm, fun id hid => .inl hid,
        fun id hid => .inl hid⟩
      exact List.forall_mem_append.mpr ⟨h, fun message hmem => List.mem_singleton.mp hmem⟩
  | assistant m =>
    simp only [step]
    split
    · rename_i hstopped
      refine ⟨fun held hmem => (by cases hmem), ?_, ?_, fun id hid => (by cases hid),
        fun id hid => (mem_putInIds_close h hid).imp_right .inl⟩
      · rw [callIds_close h]
        simp [IdMessage.kept, hstopped, IdMessage.callIds]
      · rw [givenIds_close h]
        exact (append_nil _).symm
    · rename_i hstopped
      have hkept : (IdMessage.assistant m).kept = .assistant m := by
        simp [IdMessage.kept, hstopped]
      split
      · exact steps_push h rfl rfl (fun id hid => by cases hid) (by rw [hkept]) rfl
      · exact steps_push h rfl rfl (fun id hid => by rw [hkept]; exact hid) (by rw [hkept]) rfl

/-- What a run of the pass has put out. -/
theorem foldl_step (h : pass.Holds) (messages : List IdMessage) :
    let last := messages.foldl step pass
    last.Holds ∧ Ids.callIds last.result = Ids.callIds pass.result ++ keptIds messages ∧
      Ids.givenIds last.result = Ids.givenIds pass.result ++ Ids.givenIds messages ∧
      (∀ id ∈ last.pendingToolCalls, id ∈ pass.pendingToolCalls ∨ id ∈ keptIds messages) ∧
      ∀ id ∈ Ids.putInIds last.result, id ∈ Ids.putInIds pass.result ∨
        id ∈ pass.pendingToolCalls ∨ id ∈ keptIds messages ∨ id ∈ Ids.putInIds messages := by
  induction messages generalizing pass with
  | nil =>
    exact ⟨h, (append_nil _).symm, (append_nil _).symm, fun id hid => .inl hid,
      fun id hid => .inl hid⟩
  | cons message messages ih =>
    have hstep := steps_step h message
    obtain ⟨hholds, hcalls, hgiven, hpending, hputIn⟩ := ih hstep.holds
    rw [foldl_cons, keptIds_cons]
    refine ⟨hholds, ?_, ?_, fun id hid => ?_, fun id hid => ?_⟩
    · rw [hcalls, hstep.callIds, append_assoc]
    · rw [hgiven, hstep.givenIds, append_assoc]
      refine congrArg _ ?_
      cases hid : message.givenId? with
      | none => exact (filterMap_cons_none hid).symm
      | some id => exact (filterMap_cons_some hid).symm
    · rw [mem_append]
      rcases hpending id hid with hid | hid
      · exact (hstep.pending id hid).imp_right .inl
      · exact .inr (.inr hid)
    · rw [mem_append]
      rcases hputIn id hid with hid | hid | hid | hid
      · rcases hstep.putInIds id hid with hid | hid | hid
        · exact .inl hid
        · exact .inr (.inl hid)
        · exact .inr (.inr (.inr (List.mem_filterMap.mpr ⟨message, mem_cons_self, hid⟩)))
      · rcases hstep.pending id hid with hid | hid
        · exact .inr (.inl hid)
        · exact .inr (.inr (.inl (.inl hid)))
      · exact .inr (.inr (.inl (.inr hid)))
      · obtain ⟨message', hmem, heq⟩ := List.mem_filterMap.mp hid
        exact .inr (.inr (.inr (List.mem_filterMap.mpr
          ⟨message', mem_cons_of_mem _ hmem, heq⟩)))

end SecondPass

/-- **The second pass** keeps the calls of complete turns and the given results, in
order, and puts in results for calls that go out. -/
theorem secondPass_ids (messages : List IdMessage) :
    callIds (secondPass messages) = keptIds messages ∧
      givenIds (secondPass messages) = givenIds messages ∧
      ∀ id ∈ putInIds (secondPass messages), id ∈ keptIds messages ∨ id ∈ putInIds messages := by
  have hstart : SecondPass.Holds {} := fun message hmem => by cases hmem
  obtain ⟨hholds, hcalls, hgiven, hpending, hputIn⟩ := SecondPass.foldl_step hstart messages
  refine ⟨?_, ?_, fun id hid => ?_⟩
  · rw [secondPass, SecondPass.callIds_close hholds, hcalls]
    rfl
  · rw [secondPass, SecondPass.givenIds_close hholds, hgiven]
    rfl
  · rcases SecondPass.mem_putInIds_close hholds hid with hid | hid
    · rcases hputIn id hid with hid | hid | hid | hid
      · cases hid
      · cases hid
      · exact .inl hid
      · exact .inr hid
    · exact .inl ((hpending id hid).resolve_left nofun)

/-! ## What the first pass makes of the ids -/

/-- Every call in order: whether it came from the target model, and its id. -/
def allCalls (messages : List IdMessage) : List (Bool × JsString) :=
  messages.flatMap fun message =>
    match message with
    | .assistant m => m.ids.map (m.isSameModel, ·)
    | _ => []

/-- The ids that calls go out under, as the normalizer takes them one after another. -/
def outgoing (normalizeToolCallId : Normalizer σ) :
    σ → List (Bool × JsString) → Option (σ × List JsString)
  | closure, [] => some (closure, [])
  | closure, (isSameModel, id) :: rest =>
    if isSameModel then
      (outgoing normalizeToolCallId closure rest).map fun (closure, ids) => (closure, id :: ids)
    else
      (normalizeToolCallId closure id).bind fun (closure, id) =>
        (outgoing normalizeToolCallId closure rest).map fun (closure, ids) => (closure, id :: ids)

/-- The map after calls, each with the id it goes out under. -/
def mapped (map : InsertionMap JsString JsString) (calls : List (JsString × JsString)) :
    InsertionMap JsString JsString :=
  calls.foldl (fun map call => if call.2 ≠ call.1 then map.set call.1 call.2 else map) map

variable {normalizeToolCallId : Normalizer σ}

theorem outgoing_append (closure : σ) (calls calls' : List (Bool × JsString)) :
    outgoing normalizeToolCallId closure (calls ++ calls')
      = (outgoing normalizeToolCallId closure calls).bind fun first =>
        (outgoing normalizeToolCallId first.1 calls').map fun second =>
          (second.1, first.2 ++ second.2) := by
  induction calls generalizing closure with
  | nil => simp [outgoing]
  | cons call calls ih =>
    obtain ⟨isSameModel, id⟩ := call
    cases isSameModel with
    | true => simp [outgoing, ih, bind_map, Function.comp_def]
    | false =>
      simp only [cons_append, outgoing, Bool.false_eq_true, if_false, ih,
        bind_assoc, bind_map, Option.map_bind, Option.map_map, Function.comp_def]

variable {closure : σ} {out : List JsString} {messages : List IdMessage}

theorem length_outgoing {closure' : σ} {calls : List (Bool × JsString)}
    {ids : List JsString} (h : outgoing normalizeToolCallId closure calls = some (closure', ids)) :
    ids.length = calls.length := by
  induction calls generalizing closure ids with
  | nil =>
    cases h
    rfl
  | cons call calls ih =>
    obtain ⟨isSameModel, id⟩ := call
    rw [outgoing] at h
    split at h
    · obtain ⟨⟨_, rest⟩, hrest, heq⟩ := Option.map_eq_some_iff.mp h
      cases heq
      exact congrArg Nat.succ (ih hrest)
    · obtain ⟨⟨_, _⟩, -, h⟩ := Option.bind_eq_some_iff.mp h
      obtain ⟨⟨_, rest⟩, hrest, heq⟩ := Option.map_eq_some_iff.mp h
      cases heq
      exact congrArg Nat.succ (ih hrest)

theorem normalizeCalls_eq (isSameModel : Bool) (pass : FirstPass σ) (ids : List JsString) :
    normalizeCalls normalizeToolCallId isSameModel pass ids
      = (outgoing normalizeToolCallId pass.closure (ids.map (isSameModel, ·))).map fun out =>
        (⟨out.1, mapped pass.toolCallIdMap (ids.zip out.2)⟩, out.2) := by
  induction ids generalizing pass with
  | nil => rfl
  | cons id ids ih =>
    cases isSameModel with
    | true =>
      rw [normalizeCalls, normalizeCall, if_pos rfl, bind_some]
      dsimp only
      rw [ih, map_cons, outgoing, if_pos rfl, Option.map_map, Option.map_map]
      refine congrArg (Option.map · _) (funext fun out => ?_)
      simp [mapped]
    | false =>
      rw [normalizeCalls, normalizeCall, if_neg Bool.false_ne_true, map_cons, outgoing,
        if_neg Bool.false_ne_true, bind_map, Option.map_bind]
      refine congrArg (Option.bind _) (funext fun first => ?_)
      obtain ⟨closure, normalizedId⟩ := first
      by_cases hne : normalizedId = id
      · subst hne
        simp [ih, mapped, Function.comp_def]
      · simp [ih, mapped, Function.comp_def, hne]

/-- The map holds the renamed ones of the calls so far. -/
def Maps (before : List (JsString × JsString)) (map : InsertionMap JsString JsString) : Prop :=
  ∀ id out, map.get? id = some out ↔ (id, out) ∈ before ∧ out ≠ id

theorem Maps.mapped {before : List (JsString × JsString)}
    {map : InsertionMap JsString JsString} (h : Maps before map)
    {calls : List (JsString × JsString)} (hnodup : ((before ++ calls).map Prod.fst).Nodup) :
    Maps (before ++ calls) (mapped map calls) := by
  induction calls generalizing before map with
  | nil => simpa [Ids.mapped] using h
  | cons call calls ih =>
    obtain ⟨id, out⟩ := call
    rw [append_cons] at hnodup ⊢
    refine ih ?_ hnodup
    have hfresh : ∀ out', (id, out') ∉ before := by
      intro out' hmem
      rw [map_append, map_append, append_assoc] at hnodup
      exact (List.nodup_append.mp hnodup).2.2 id (List.mem_map_of_mem hmem) id (by simp) rfl
    intro id' out'
    rw [mem_append, mem_singleton]
    dsimp only
    by_cases hsame : out = id
    · subst hsame
      simp only [ne_eq, not_true_eq_false, if_false, h id' out']
      constructor
      · exact fun hmem => ⟨.inl hmem.1, hmem.2⟩
      · rintro ⟨hmem | heq, hne⟩
        · exact ⟨hmem, hne⟩
        · cases heq
          exact absurd rfl hne
    · rw [if_pos (show out ≠ id from hsame), InsertionMap.get?_set]
      by_cases hid : id = id'
      · subst hid
        rw [if_pos rfl]
        constructor
        · intro heq
          cases heq
          exact ⟨.inr rfl, hsame⟩
        · rintro ⟨hmem | heq, -⟩
          · exact absurd hmem (hfresh out')
          · cases heq
            rfl
      · rw [if_neg hid, h id' out']
        constructor
        · exact fun hmem => ⟨.inl hmem.1, hmem.2⟩
        · rintro ⟨hmem | heq, hne⟩
          · exact ⟨hmem, hne⟩
          · cases heq
            exact absurd rfl hid

/-- The id a result goes out under: that of its call, unless it is empty. -/
def answered (wire : JsString → JsString) (id : JsString) : JsString :=
  if wire id ≠ [] then wire id else id

/-- The message with the ids that it goes out with. -/
def IdMessage.rename (wire : JsString → JsString) : IdMessage → IdMessage
  | .assistant m => .assistant { m with ids := m.ids.map wire }
  | .toolResult id given => .toolResult (answered wire id) given
  | message => message

/-- Each result names a call before it. -/
def Named : List JsString → List IdMessage → Prop
  | _, [] => True
  | seen, .toolResult id _ :: rest => id ∈ seen ∧ Named seen rest
  | seen, .assistant m :: rest => Named (seen ++ m.ids) rest
  | seen, _ :: rest => Named seen rest

variable {wire : JsString → JsString}

theorem Maps.renameResult {before : List (JsString × JsString)}
    {map : InsertionMap JsString JsString} (h : Maps before map)
    (hwire : ∀ call ∈ before, wire call.1 = call.2) {id : JsString}
    (hid : id ∈ before.map Prod.fst) : renameResult map id = answered wire id := by
  obtain ⟨⟨id, out⟩, hmem, rfl⟩ := List.mem_map.mp hid
  have hout : wire id = out := hwire _ hmem
  unfold Ids.renameResult answered
  rw [hout]
  by_cases hsame : out = id
  · subst hsame
    cases hget : map.get? out with
    | none => simp
    | some other =>
      obtain ⟨hother, hne⟩ := (h out other).mp hget
      have heq : other = out := (hwire _ hother).symm.trans hout
      exact absurd heq hne
  · rw [(h id out).mpr ⟨hmem, hsame⟩]
    simp [hsame]

theorem callIds_eq_allCalls (messages : List IdMessage) :
    callIds messages = (allCalls messages).map Prod.snd := by
  rw [callIds, allCalls, map_flatMap]
  refine congrArg (List.flatMap · messages) (funext fun message => ?_)
  cases message with
  | assistant m => simp [IdMessage.callIds, Function.comp_def]
  | _ => rfl

theorem map_eq_of_zip {ids : List JsString} (hlength : out.length = ids.length)
    (h : ∀ call ∈ ids.zip out, wire call.1 = call.2) : ids.map wire = out := by
  have hfst : (ids.zip out).map Prod.fst = ids := map_fst_zip hlength.ge
  have hsnd : (ids.zip out).map Prod.snd = out := map_snd_zip hlength.le
  calc ids.map wire = ((ids.zip out).map Prod.fst).map wire := by rw [hfst]
    _ = (ids.zip out).map Prod.snd := by rw [List.map_map]; exact map_congr_left h
    _ = out := hsnd

theorem firstPass_isSome (messages : List IdMessage) (pass : FirstPass σ) :
    (firstPass normalizeToolCallId pass messages).isSome
      = (outgoing normalizeToolCallId pass.closure (allCalls messages)).isSome := by
  induction messages generalizing pass with
  | nil => rfl
  | cons message rest ih =>
    cases message with
    | assistant m =>
      have hcalls : allCalls (.assistant m :: rest)
          = m.ids.map (m.isSameModel, ·) ++ allCalls rest := rfl
      rw [hcalls, outgoing_append, firstPass, normalizeCalls_eq]
      cases outgoing normalizeToolCallId pass.closure (m.ids.map (m.isSameModel, ·)) with
      | none => rfl
      | some first =>
        rw [map_some, bind_some, bind_some, isSome_map, isSome_map]
        exact ih _
    | _ =>
      rw [firstPass, isSome_map]
      exact ih pass

/-- **The first pass**, when the ids are distinct and each result names a call before
it: every call and every result has the id that its call goes out under. -/
theorem firstPass_eq (messages : List IdMessage) (pass : FirstPass σ)
    (before : List (JsString × JsString)) (hmaps : Maps before pass.toolCallIdMap)
    (hnodup : (before.map Prod.fst ++ callIds messages).Nodup)
    (hnamed : Named (before.map Prod.fst) messages)
    (hout : outgoing normalizeToolCallId pass.closure (allCalls messages) = some (closure, out))
    (hbefore : ∀ call ∈ before, wire call.1 = call.2)
    (hwire : ∀ call ∈ (callIds messages).zip out, wire call.1 = call.2) :
    firstPass normalizeToolCallId pass messages = some (messages.map (IdMessage.rename wire)) := by
  induction messages generalizing pass before out with
  | nil => rfl
  | cons message rest ih =>
    cases message with
    | toolResult id given =>
      rw [firstPass, ih pass before hmaps hnodup hnamed.2 hout hbefore hwire,
        hmaps.renameResult hbefore hnamed.1]
      rfl
    | assistant m =>
      have hids : callIds (.assistant m :: rest) = m.ids ++ callIds rest := rfl
      have hcalls : allCalls (.assistant m :: rest)
          = m.ids.map (m.isSameModel, ·) ++ allCalls rest := rfl
      rw [hcalls, outgoing_append] at hout
      obtain ⟨⟨middle, first⟩, hfirst, hout⟩ := Option.bind_eq_some_iff.mp hout
      obtain ⟨⟨last, second⟩, hsecond, heq⟩ := Option.map_eq_some_iff.mp hout
      cases heq
      have hlength : first.length = m.ids.length := by
        rw [length_outgoing hfirst, length_map]
      rw [hids, zip_append hlength.symm, forall_mem_append] at hwire
      rw [hids, ← append_assoc] at hnodup
      have hfst : (before ++ m.ids.zip first).map Prod.fst = before.map Prod.fst ++ m.ids := by
        rw [map_append, map_fst_zip hlength.ge]
      have hrest := ih ⟨middle, mapped pass.toolCallIdMap (m.ids.zip first)⟩
        (before ++ m.ids.zip first)
        (hmaps.mapped (by rw [hfst]; exact (List.nodup_append.mp hnodup).1))
        (by rw [hfst]; exact hnodup) (by rw [hfst]; exact hnamed) hsecond
        (List.forall_mem_append.mpr ⟨hbefore, hwire.1⟩) hwire.2
      rw [firstPass, normalizeCalls_eq, hfirst, map_some, bind_some]
      dsimp only
      rw [hrest, ← map_eq_of_zip hlength hwire.1]
      rfl
    | _ => rw [firstPass, ih pass before hmaps hnodup hnamed hout hbefore hwire]; rfl

/-! ## The ids of the transformed messages -/

theorem keptIds_rename (wire : JsString → JsString) (messages : List IdMessage) :
    keptIds (messages.map (IdMessage.rename wire)) = (keptIds messages).map wire := by
  induction messages with
  | nil => rfl
  | cons message rest ih =>
    rw [map_cons, keptIds_cons, keptIds_cons, ih, map_append]
    cases message with
    | assistant m =>
      by_cases h : m.stopped <;> simp [IdMessage.rename, IdMessage.kept, IdMessage.callIds, h]
    | _ => rfl

theorem givenIds_rename (wire : JsString → JsString) (messages : List IdMessage) :
    givenIds (messages.map (IdMessage.rename wire)) = (givenIds messages).map (answered wire) := by
  rw [givenIds, givenIds, filterMap_map, map_filterMap]
  refine congrArg (List.filterMap · messages) (funext fun message => ?_)
  cases message with
  | toolResult id given => cases given <;> rfl
  | _ => rfl

theorem putInIds_rename (wire : JsString → JsString)
    (h : putInIds messages = []) : putInIds (messages.map (IdMessage.rename wire)) = [] := by
  rw [putInIds, filterMap_eq_nil_iff] at h ⊢
  intro message hmessage
  obtain ⟨message, hmem, rfl⟩ := List.mem_map.mp hmessage
  have hnone := h message hmem
  cases message with
  | toolResult id given =>
    cases given with
    | true => rfl
    | false => cases hnone
  | _ => rfl

/-- Ids that are not empty, pairwise distinct and, from the target model, in its format;
each result is given by the transcript and names a call before it. -/
structure WellNamed (format : JsString → Prop) (messages : List IdMessage) : Prop where
  nonempty : ∀ id ∈ callIds messages, id ≠ []
  distinct : (callIds messages).Nodup
  formatted : ∀ call ∈ allCalls messages, call.1 = true → format call.2
  named : Named [] messages
  given : putInIds messages = []

/-- What is asked of the request, when `wire` is the id that each call is given: distinct
ids in the provider's format, and each result under the id given to its call; a result that
is put in is one for a call of the request. -/
structure Carries (format : JsString → Prop) (messages request : List IdMessage)
    (wire : JsString → JsString) : Prop where
  calls : callIds request = (keptIds messages).map wire
  results : givenIds request = (givenIds messages).map wire
  putIn : ∀ id ∈ putInIds request, id ∈ callIds request
  distinct : (callIds request).Nodup
  formatted : ∀ id, id ∈ callIds request ∨ id ∈ givenIds request → format id

/-- The request that the ids go out under `wire` with. -/
theorem transformMessages_ids {format : JsString → Prop} (h : WellNamed format messages) {last : σ}
    (hout : outgoing normalizeToolCallId closure (allCalls messages) = some (last, out))
    (hwire : ∀ call ∈ (callIds messages).zip out, wire call.1 = call.2) :
    ∃ request, transformMessages normalizeToolCallId closure messages = some request ∧
      callIds request = (keptIds messages).map wire ∧
      givenIds request = (givenIds messages).map (answered wire) ∧
      ∀ id ∈ putInIds request, id ∈ callIds request := by
  have hmaps : Maps [] (InsertionMap.empty : InsertionMap JsString JsString) := by
    intro id out
    simp
  have hfirst := firstPass_eq messages ⟨closure, InsertionMap.empty⟩ [] hmaps h.distinct h.named
    hout (fun _ h => by cases h) hwire
  obtain ⟨hcalls, hgiven, hputIn⟩ := secondPass_ids (messages.map (IdMessage.rename wire))
  rw [keptIds_rename] at hcalls hputIn
  rw [givenIds_rename] at hgiven
  rw [putInIds_rename wire h.given] at hputIn
  refine ⟨secondPass (messages.map (IdMessage.rename wire)), ?_, hcalls, hgiven, fun id hid => ?_⟩
  · rw [transformMessages, hfirst]
    rfl
  · rw [hcalls]
    exact (hputIn id hid).resolve_right (fun h => by cases h)

/-- What the request owes to the ids that go out. -/
theorem carries_iff {format : JsString → Prop} {request : List IdMessage}
    (hnonempty : ∀ id ∈ keptIds messages, id ≠ [])
    (hcalls : callIds request = (keptIds messages).map wire)
    (hgiven : givenIds request = (givenIds messages).map (answered wire))
    (hputIn : ∀ id ∈ putInIds request, id ∈ callIds request) :
    (∃ wire', Carries format messages request wire') ↔ ((keptIds messages).map wire).Nodup ∧
      (∀ id ∈ keptIds messages, format (wire id)) ∧
      (∀ id ∈ givenIds messages, format (answered wire id)) ∧
      ∀ id ∈ givenIds messages, id ∈ keptIds messages → wire id ≠ [] := by
  constructor
  · rintro ⟨wire', h⟩
    have hkept : ∀ id ∈ keptIds messages, wire' id = wire id :=
      List.map_inj_left.mp (h.calls.symm.trans hcalls)
    have hanswered : ∀ id ∈ givenIds messages, wire' id = answered wire id :=
      List.map_inj_left.mp (h.results.symm.trans hgiven)
    refine ⟨hcalls ▸ h.distinct, fun id hid => h.formatted _ (.inl ?_),
      fun id hid => h.formatted _ (.inr ?_), fun id hid hmem hempty => ?_⟩
    · rw [hcalls]
      exact List.mem_map_of_mem hid
    · rw [hgiven]
      exact List.mem_map_of_mem hid
    · have heq := (hanswered id hid).symm.trans (hkept id hmem)
      rw [answered, if_neg (not_not.mpr hempty), hempty] at heq
      exact hnonempty id hmem heq
  · rintro ⟨hdistinct, hformat, hformat', hne⟩
    classical
    refine ⟨fun id => if id ∈ keptIds messages then wire id else answered wire id, ?_, ?_, hputIn,
      by rwa [hcalls], fun id hid => ?_⟩
    · rw [hcalls]
      exact map_congr_left fun id hid => (if_pos hid).symm
    · rw [hgiven]
      refine map_congr_left fun id hid => ?_
      split
      · rename_i hmem
        rw [answered, if_pos (hne id hid hmem)]
      · rfl
    · rw [hcalls, hgiven] at hid
      rcases hid with hid | hid
      · obtain ⟨call, hcall, rfl⟩ := List.mem_map.mp hid
        exact hformat call hcall
      · obtain ⟨call, hcall, rfl⟩ := List.mem_map.mp hid
        exact hformat' call hcall

end ReflectivePi.Requests.Ids
