import ReflectivePi.Requests.CallIdFormats
import Mathlib.Data.List.Forall2
import Mathlib.Logic.Function.Basic

/-!
# Requests — DistinctCalls

When the calls of a converted request have distinct ids of the provider's
format and the results follow them, for transcripts whose own ids are
distinct: a condition for each of the three rules.
-/

namespace ReflectivePi.Requests.Ids

open List
open Delta (JsString)

/-! ## The calls of a transcript -/

/-- The calls that go out, each with whether it came from the target model. -/
def keptCalls (messages : List IdMessage) : List (Bool × JsString) :=
  allCalls (messages.map IdMessage.kept)

theorem keptIds_eq_keptCalls (messages : List IdMessage) :
    keptIds messages = (keptCalls messages).map Prod.snd := callIds_eq_allCalls _

theorem keptCalls_sublist (messages : List IdMessage) :
    (keptCalls messages).Sublist (allCalls messages) := by
  induction messages with
  | nil => exact List.Sublist.slnil
  | cons message rest ih =>
    refine List.Sublist.append ?_ ih
    cases message with
    | assistant m =>
      by_cases h : m.stopped <;> simp [IdMessage.kept, h]
    | _ => exact List.Sublist.refl _

variable {messages : List IdMessage} {format : JsString → Prop}

theorem WellNamed.nodup_kept (h : WellNamed format messages) : (keptIds messages).Nodup := by
  rw [keptIds_eq_keptCalls]
  refine ((keptCalls_sublist messages).map Prod.snd).nodup ?_
  rw [← callIds_eq_allCalls]
  exact h.distinct

theorem mem_callIds_of_kept {id : JsString} (h : id ∈ keptIds messages) :
    id ∈ callIds messages := by
  rw [keptIds_eq_keptCalls] at h
  rw [callIds_eq_allCalls]
  exact ((keptCalls_sublist messages).map Prod.snd).subset h

theorem mem_callIds_of_named {seen : List JsString} (h : Named seen messages)
    {id : JsString} (hid : id ∈ givenIds messages) : id ∈ seen ∨ id ∈ callIds messages := by
  induction messages generalizing seen with
  | nil => cases hid
  | cons message rest ih =>
    cases message with
    | system => exact ih h hid
    | user => exact ih h hid
    | assistant m =>
      have hids : callIds (.assistant m :: rest) = m.ids ++ callIds rest := rfl
      rw [hids, mem_append, ← or_assoc, ← mem_append]
      exact ih h hid
    | toolResult named given =>
      cases given with
      | false => exact ih h.2 hid
      | true =>
        rcases List.mem_cons.mp hid with heq | hid
        · rw [heq]
          exact .inl h.1
        · exact ih h.2 hid

theorem WellNamed.mem_of_given (h : WellNamed format messages) {id : JsString}
    (hid : id ∈ givenIds messages) : id ∈ callIds messages :=
  (mem_callIds_of_named h.named hid).resolve_left nofun

theorem WellNamed.call_eq (h : WellNamed format messages) {call call' : Bool × JsString}
    (hcall : call ∈ allCalls messages) (hcall' : call' ∈ allCalls messages)
    (heq : call.2 = call'.2) : call = call' := by
  have hdistinct := h.distinct
  rw [callIds_eq_allCalls] at hdistinct
  exact inj_on_of_nodup_map hdistinct hcall hcall' heq

theorem exists_wire {calls : List (JsString × JsString)} (h : (calls.map Prod.fst).Nodup) :
    ∃ wire : JsString → JsString, ∀ call ∈ calls, wire call.1 = call.2 := by
  induction calls with
  | nil => simp
  | cons call rest ih =>
    obtain ⟨hfresh, hnodup⟩ := List.nodup_cons.mp h
    obtain ⟨wire, hwire⟩ := ih hnodup
    refine ⟨Function.update wire call.1 call.2,
      List.forall_mem_cons.mpr ⟨Function.update_self .., fun other hmem => ?_⟩⟩
    have hne : other.1 ≠ call.1 := fun heq => hfresh (heq ▸ mem_map_of_mem hmem)
    rw [Function.update_of_ne hne]
    exact hwire other hmem

section
variable {σ : Type} {normalizeToolCallId : Normalizer σ} {format : JsString → Prop}
  {messages : List IdMessage}

/-- What is asked of a request, in terms of the ids that the calls go out under. -/
theorem converted_iff (h : WellNamed format messages) {closure last : σ} {out : List JsString}
    (hout : outgoing normalizeToolCallId closure (allCalls messages) = some (last, out))
    {wire : JsString → JsString}
    (hwire : ∀ call ∈ (callIds messages).zip out, wire call.1 = call.2) :
    (∃ request wire, transformMessages normalizeToolCallId closure messages = some request ∧
        Carries format messages request wire) ↔
      ((keptIds messages).map wire).Nodup ∧
      (∀ id ∈ keptIds messages, format (wire id)) ∧
      (∀ id ∈ givenIds messages, format (answered wire id)) ∧
      ∀ id ∈ givenIds messages, id ∈ keptIds messages → wire id ≠ [] := by
  obtain ⟨request, hrequest, hcalls, hgiven, hputIn⟩ := transformMessages_ids h hout hwire
  have hnonempty : ∀ id ∈ keptIds messages, id ≠ [] := fun id hid =>
    h.nonempty id (mem_callIds_of_kept hid)
  rw [← carries_iff hnonempty hcalls hgiven hputIn]
  constructor
  · rintro ⟨request', wire', hrequest', hcarries⟩
    rw [hrequest] at hrequest'
    cases hrequest'
    exact ⟨wire', hcarries⟩
  · rintro ⟨wire', hcarries⟩
    exact ⟨request, wire', hrequest, hcarries⟩

end

/-! ## Rules that keep nothing -/

/-- The id a call goes out under. -/
def written (rule : JsString → JsString) (call : Bool × JsString) : JsString :=
  if call.1 then call.2 else rule call.2

@[simp] theorem written_own (rule : JsString → JsString) (id : JsString) :
    written rule (true, id) = id := rfl

@[simp] theorem written_foreign (rule : JsString → JsString) (id : JsString) :
    written rule (false, id) = rule id := rfl

theorem outgoing_stateless (rule : JsString → JsString) (calls : List (Bool × JsString)) :
    outgoing (stateless rule) () calls = some ((), calls.map (written rule)) := by
  induction calls with
  | nil => rfl
  | cons call rest ih =>
    obtain ⟨isSameModel, id⟩ := call
    cases isSameModel <;> simp [outgoing, stateless, ih]

section
variable {rule : JsString → JsString} {format : JsString → Prop} {messages : List IdMessage}

/-- The same when the ids are those of a rule. -/
theorem written_iff {σ : Type} {normalizeToolCallId : Normalizer σ} (h : WellNamed format messages)
    {closure last : σ} (hout : outgoing normalizeToolCallId closure (allCalls messages)
      = some (last, (allCalls messages).map (written rule))) {wire : JsString → JsString}
    (hwire : ∀ call ∈ allCalls messages, wire call.2 = written rule call) :
    (∃ request wire, transformMessages normalizeToolCallId closure messages = some request ∧
        Carries format messages request wire) ↔
      ((keptIds messages).map wire).Nodup ∧
      (∀ id ∈ keptIds messages, format (wire id)) ∧
      (∀ id ∈ givenIds messages, format (answered wire id)) ∧
      ∀ id ∈ givenIds messages, id ∈ keptIds messages → wire id ≠ [] := by
  refine converted_iff h hout ?_
  rw [callIds_eq_allCalls, zip_map']
  exact List.forall_mem_map.mpr hwire

theorem stateless_iff (h : WellNamed format messages)
    (hformat : ∀ call ∈ allCalls messages, format (written rule call)) {wire : JsString → JsString}
    (hwire : ∀ call ∈ allCalls messages, wire call.2 = written rule call) :
    (∃ request wire, transformMessages (stateless rule) () messages = some request ∧
        Carries format messages request wire) ↔
      ((keptIds messages).map wire).Nodup ∧
      (∀ id ∈ givenIds messages, wire id = [] → format id ∧ id ∉ keptIds messages) := by
  have hwritten : ∀ id ∈ callIds messages, format (wire id) := by
    rw [callIds_eq_allCalls]
    refine List.forall_mem_map.mpr fun call hcall => ?_
    rw [hwire call hcall]
    exact hformat call hcall
  rw [written_iff h (outgoing_stateless rule _) hwire]
  constructor
  · rintro ⟨hnodup, -, hanswered, hne⟩
    refine ⟨hnodup, fun id hid hempty => ⟨?_, fun hkept => hne id hid hkept hempty⟩⟩
    have hid' := hanswered id hid
    rwa [answered, if_neg (not_not.mpr hempty)] at hid'
  · rintro ⟨hnodup, hempty⟩
    refine ⟨hnodup, fun id hid => hwritten id (mem_callIds_of_kept hid), fun id hid => ?_,
      fun id hid hkept hnil => (hempty id hid hnil).2 hkept⟩
    rw [answered]
    split
    · exact hwritten id (h.mem_of_given hid)
    · rename_i hnil
      exact (hempty id hid (not_not.mp hnil)).1

theorem exists_written (h : WellNamed format messages) (rule : JsString → JsString) :
    ∃ wire : JsString → JsString, ∀ call ∈ allCalls messages, wire call.2 = written rule call := by
  have hfst : (((allCalls messages).map fun call => (call.2, written rule call)).map
      Prod.fst).Nodup := by
    rw [map_map]
    have hdistinct := h.distinct
    rwa [callIds_eq_allCalls] at hdistinct
  obtain ⟨wire, hwire⟩ := exists_wire hfst
  exact ⟨wire, fun call hcall => hwire _ (mem_map_of_mem hcall)⟩

end

/-! ## Anthropic -/

/-- Units that are the same once the characters an id may not have are `_`. -/
def AlikeUnits (u v : UInt16) : Prop :=
  u = v ∨ (u = 0x5F ∨ ¬ isIdUnit u) ∧ (v = 0x5F ∨ ¬ isIdUnit v)

instance (u v : UInt16) : Decidable (AlikeUnits u v) := by
  unfold AlikeUnits
  infer_instance

/-- Ids that are alike in their first 64 units. -/
def Alike (id id' : JsString) : Prop := List.Forall₂ AlikeUnits (id.take 64) (id'.take 64)

theorem alikeUnits_iff (u v : UInt16) :
    (if isIdUnit u then u else 0x5F) = (if isIdUnit v then v else 0x5F) ↔ AlikeUnits u v := by
  unfold AlikeUnits
  by_cases hu : isIdUnit u <;> by_cases hv : isIdUnit v
  · simp only [hu, hv, if_true, not_true_eq_false, or_false]
    exact ⟨.inl, fun h => h.elim id fun ⟨hu, hv⟩ => hu.trans hv.symm⟩
  · simp only [hu, hv, if_true, not_true_eq_false, or_false]
    refine ⟨fun h => .inr ⟨h, .inr (by simp)⟩, fun h => h.elim (fun h => ?_) (·.1)⟩
    exact absurd (h ▸ hu) hv
  · simp only [hu, hv, if_true, not_true_eq_false, or_false]
    refine ⟨fun h => .inr ⟨.inr (by simp), h.symm⟩, fun h => h.elim (fun h => ?_) (·.2.symm)⟩
    exact absurd (h ▸ hv) hu
  · simp [hu, hv]

theorem anthropicId_eq_iff (id id' : JsString) :
    anthropicId id = anthropicId id' ↔ Alike id id' := by
  rw [anthropicId, anthropicId, sanitize, sanitize, ← map_take, ← map_take,
    ← forall₂_eq_eq_eq, forall₂_map_left_iff, forall₂_map_right_iff, Alike]
  simp only [alikeUnits_iff]

/-- **Anthropic** holds its side when no two ids that go out are alike. -/
theorem anthropic_iff (h : WellNamed Converter.anthropicMessages.Format messages) :
    (∃ request wire, transformMessages (stateless anthropicId) () messages = some request ∧
        Carries Converter.anthropicMessages.Format messages request wire) ↔
      (keptIds messages).Pairwise (¬ Alike · ·) := by
  have hwritten : ∀ call ∈ allCalls messages, written anthropicId call = anthropicId call.2 := by
    intro call hcall
    rw [written]
    split
    · rename_i hown
      exact (anthropicId_eq_self (h.formatted call hcall hown)).symm
    · rfl
  have hwire : ∀ call ∈ allCalls messages, anthropicId call.2 = written anthropicId call :=
    fun call hcall => (hwritten call hcall).symm
  rw [stateless_iff h (fun call hcall => by rw [hwritten call hcall]; exact anthropicId_format _)
    hwire]
  have hnodup : ((keptIds messages).map anthropicId).Nodup ↔
      (keptIds messages).Pairwise (¬ Alike · ·) := by
    rw [List.Nodup, pairwise_map]
    simp only [ne_eq, anthropicId_eq_iff]
  rw [hnodup]
  refine ⟨And.left, fun hapart => ⟨hapart, fun id hid hnil => ?_⟩⟩
  exact absurd hnil (anthropicId_ne_nil (h.nonempty id (h.mem_of_given hid)))

/-- How a call's id is spelled: its first 40 units, unless it is another model's with
a `|` in it. -/
def spelled (call : Bool × JsString) : JsString :=
  if call.1 = false ∧ pipe ∈ call.2 then splitId call.2 else call.2.take 40

/-- **Chat Completions** holds its side when the ids that go out are spelled apart
and none with a result is `|`. -/
theorem completions_iff (h : WellNamed Converter.openaiCompletions.Format messages) :
    (∃ request wire, transformMessages (stateless completionsId) () messages = some request ∧
        Carries Converter.openaiCompletions.Format messages request wire) ↔
      (keptCalls messages).Pairwise (fun a b => spelled a ≠ spelled b) ∧
        ∀ id ∈ givenIds messages, (false, id) ∈ keptCalls messages → id ≠ [pipe] := by
  have hwritten : ∀ call ∈ allCalls messages, written completionsId call = spelled call := by
    rintro ⟨isSameModel, id⟩ hcall
    cases isSameModel with
    | true =>
      have hlength : id.length ≤ 40 := h.formatted _ hcall rfl
      simp [spelled, take_of_length_le hlength]
    | false =>
      by_cases hpipe : pipe ∈ id
      · simp [spelled, completionsId, hpipe]
      · by_cases hlength : 40 < id.length
        · simp [spelled, completionsId, hpipe, hlength]
        · simp [spelled, completionsId, hpipe, hlength, take_of_length_le (Nat.not_lt.mp hlength)]
  have hformat : ∀ call ∈ allCalls messages,
      Converter.openaiCompletions.Format (written completionsId call) := by
    rintro ⟨isSameModel, id⟩ hcall
    cases isSameModel with
    | true => exact h.formatted _ hcall rfl
    | false => exact completionsId_format id
  obtain ⟨wire, hwire⟩ := exists_written h completionsId
  rw [stateless_iff h hformat hwire]
  have hnodup : ((keptIds messages).map wire).Nodup ↔
      (keptCalls messages).Pairwise (fun a b => spelled a ≠ spelled b) := by
    rw [keptIds_eq_keptCalls, map_map, map_congr_left (g := spelled), List.Nodup, pairwise_map]
    intro call hcall
    have hmem := (keptCalls_sublist messages).subset hcall
    exact (hwire call hmem).trans (hwritten call hmem)
  rw [hnodup]
  refine and_congr_right fun _ => ?_
  constructor
  · intro hempty id hid hkept hpipe
    have hmem := (keptCalls_sublist messages).subset hkept
    have hnil : wire id = [] := by
      rw [hwire _ hmem, hpipe]
      decide
    refine (hempty id hid hnil).2 ?_
    rw [keptIds_eq_keptCalls]
    exact mem_map_of_mem hkept
  · intro hpipe id hid hnil
    have hmem := h.mem_of_given hid
    have hne := h.nonempty id hmem
    rw [callIds_eq_allCalls] at hmem
    obtain ⟨⟨isSameModel, id⟩, hcall, rfl⟩ := List.mem_map.mp hmem
    rw [hwire _ hcall] at hnil
    cases isSameModel with
    | true => exact absurd hnil hne
    | false =>
      have hid' := (completionsId_eq_nil_iff hne).mp hnil
      refine ⟨?_, fun hkept => ?_⟩
      · rw [hid']
        exact Nat.succ_le_succ (Nat.zero_le _)
      · rw [keptIds_eq_keptCalls] at hkept
        obtain ⟨kept, hkept, heq⟩ := List.mem_map.mp hkept
        have hsame := h.call_eq ((keptCalls_sublist messages).subset hkept) hcall heq
        exact hpipe id hid (hsame ▸ hkept) hid'

end ReflectivePi.Requests.Ids
