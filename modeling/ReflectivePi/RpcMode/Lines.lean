import ReflectivePi.RpcMode.Answers

/-!
# RpcMode — Lines

The condition under which every line is answered once, the invariant that the
ledger is part of, and that a line keeps it.
-/

namespace ReflectivePi.RpcMode

open List
open Delta (Json JsString js)
open Server

variable {s s' : Server} {n m d session : Nat} {handling : Handling} {work : Work}
  {response : Response} {parse : JsString → Option Json}

/-- A prompt waits in the loop. -/
def Server.hasPrompt (s : Server) (d : Nat) : Bool :=
  s.actions.any fun entry => entry.1 = .loop d && entry.2.line?.isSome

/-- What a step must not do. -/
def meets (parse : JsString → Option Json) (s : Server) : Label → Bool
  | .line text => !(parse text).any isNull
  | .finish _ outcome => outcome ≠ .throws .unprintable
  | .fails n thrown =>
    match s.handlings[n]?.map Handling.work with
    | some (.checking _ (.loop _)) => false
    | _ => thrown ≠ .nullish
  | .ends n (some _) =>
    match s.handlings[n]?.map Handling.work with
    | some (.running (.loop d)) => !s.hasPrompt d
    | _ => true
  | .runEnds d (some _) => !s.hasPrompt d
  | _ => true

/-! ## The invariant -/

/-- An answer has the identifier of its command. -/
def Ids (s : Server) : Prop :=
  ∀ entry ∈ s.responses, ∃ handling, s.handlings[entry.1]? = some handling ∧
    entry.2.id = handling.id

/-- A dialog waits or has been settled, once. -/
structure Dialogs (s : Server) : Prop where
  pending : ∀ id ∈ s.pendingExtensionRequests, id ∈ s.dialogs ∧ id ∉ s.settled
  settled : ∀ id ∈ s.settled, id ∈ s.dialogs
  distinct : s.pendingExtensionRequests.Nodup
  once : s.settled.Nodup

structure Inv (s : Server) : Prop where
  balanced : Balanced s
  handled : s.unhandled = false
  ids : Ids s
  dialogs : Dialogs s

theorem Ids.congr (h : Ids s) (hhandlings : s'.handlings = s.handlings)
    (hresponses : s'.responses = s.responses) : Ids s' := by
  rw [Ids, hhandlings, hresponses]
  exact h

theorem Ids.modify (h : Ids s)
    (hhandlings : s'.handlings = s.handlings.modify m fun handling => { handling with work })
    (hresponses : s'.responses = s.responses) : Ids s' := by
  intro entry hentry
  rw [hresponses] at hentry
  obtain ⟨handling, hhandling, hid⟩ := h entry hentry
  rw [hhandlings]
  by_cases heq : m = entry.1
  · rw [heq, getElem?_modify_eq, hhandling]
    exact ⟨_, rfl, hid⟩
  · rw [getElem?_modify_ne _ _ heq]
    exact ⟨handling, hhandling, hid⟩

theorem Ids.receive (h : Ids s) (handling : Handling) : Ids (s.receive handling) := by
  intro entry hentry
  obtain ⟨other, hother, hid⟩ := h entry hentry
  have hlt := (List.getElem?_eq_some_iff.mp hother).1
  exact ⟨other, (getElem?_append_left hlt).trans hother, hid⟩

theorem Ids.output (h : Ids s) (hm : s.handlings[m]? = some handling)
    (hid : response.id = handling.id) : Ids (s.output m response) := by
  intro entry hentry
  rcases List.mem_append.mp hentry with hold | hnew
  · exact h entry hold
  · obtain rfl := List.mem_singleton.mp hnew
    exact ⟨handling, hm, hid⟩

theorem Dialogs.congr (h : Dialogs s) (hpending :
    s'.pendingExtensionRequests = s.pendingExtensionRequests) (hdialogs : s'.dialogs = s.dialogs)
    (hsettled : s'.settled = s.settled) : Dialogs s' := by
  refine ⟨?_, ?_, ?_, ?_⟩
  · rw [hpending, hdialogs, hsettled]
    exact h.pending
  · rw [hdialogs, hsettled]
    exact h.settled
  · rw [hpending]
    exact h.distinct
  · rw [hsettled]
    exact h.once

/-- **A dialog is settled**: it does not wait any more. -/
theorem Dialogs.settle (h : Dialogs s) {id : JsString} (hid : id ∈ s.pendingExtensionRequests) :
    Dialogs (s.settleDialog id) := by
  have hpending := h.pending id hid
  refine ⟨fun other hother => ?_, fun other hother => ?_, h.distinct.erase _, ?_⟩
  · obtain ⟨hne, hmem⟩ := h.distinct.mem_erase_iff.mp hother
    refine ⟨(h.pending other hmem).1, fun hsettled => ?_⟩
    rcases List.mem_append.mp hsettled with hold | hnew
    · exact (h.pending other hmem).2 hold
    · exact hne (List.mem_singleton.mp hnew)
  · rcases List.mem_append.mp hother with hold | hnew
    · exact h.settled other hold
    · exact List.mem_singleton.mp hnew ▸ hpending.1
  · refine List.nodup_append.mpr ⟨h.once, nodup_singleton _, fun a ha b hb hab => ?_⟩
    rw [List.mem_singleton.mp hb] at hab
    exact hpending.2 (hab ▸ ha)

theorem Dialogs.answerDialog (h : Dialogs s) (value : Json) : Dialogs (s.answerDialog value) := by
  unfold Server.answerDialog
  split
  · split
    case isTrue hmem => exact h.settle hmem
    case isFalse => exact h
  · exact h

theorem length_receive (s : Server) (handling : Handling) :
    (s.receive handling).handlings[s.handlings.length]? = some handling :=
  getElem?_concat_length

/-- **A prompt is called**: it waits, or its preflight begins. -/
theorem inv_prompt_line (h : Inv s) (hui : handling.isUiResponse = false)
    (hwork : handling.work = .idle) (session : Nat) :
    Inv ((s.receive handling).prompt session s.handlings.length .direct) := by
  have hids := h.ids.receive handling
  obtain ⟨hanswers, hwaiting⟩ := h.balanced.fresh (Nat.le_refl s.handlings.length)
  unfold Server.prompt
  split
  · have hconcat := @waiting_concat s { s.receive handling with
        actions := s.actions ++ [(.deferred session, .prompt session s.handlings.length)] } _ _ rfl
    refine ⟨h.balanced.received rfl (fun n hn => ⟨rfl, ?_⟩) ?_, h.handled,
      hids.congr rfl rfl, h.dialogs.congr rfl rfl rfl⟩
    · refine (hconcat n).trans ?_
      simp [Action.line?, hn.symm]
    · refine (congrArg₂ (· + ·) (congrArg (· + _) hanswers) (hconcat _)).trans ?_
      simp [Action.line?, hui, hwork, hwaiting, Work.owes]
  · -- the preflight of the new line begins at once
    have hreceived := modify_concat s.handlings handling fun handling =>
      { handling with work := .checking session .direct }
    refine ⟨h.balanced.received hreceived (fun n hn => ⟨rfl, rfl⟩) ?_, h.handled,
      hids.modify rfl rfl, h.dialogs.congr rfl rfl rfl⟩
    refine (congrArg₂ (· + ·) (congrArg (· + _) hanswers) hwaiting).trans ?_
    simp [hui, Work.owes]

theorem inv_line (h : Inv s) {parsed : Option Json} (hnull : parsed.any isNull = false) :
    Inv (s.handleInputLine parsed) := by
  obtain ⟨hanswers, hwaiting⟩ := h.balanced.fresh (Nat.le_refl s.handlings.length)
  cases parsed with
  | none =>
    have houtput := answers_output (s.receive ⟨none, none, false, .idle⟩) s.handlings.length
    refine ⟨h.balanced.received rfl (fun n hn => ⟨(houtput n _).trans ?_, rfl⟩) ?_, h.handled,
      (h.ids.receive _).output (length_receive _ _) rfl, h.dialogs.congr rfl rfl rfl⟩
    · simp [hn.symm]
    · refine (congrArg₂ (· + ·) (congrArg (· + _) (houtput _ _)) hwaiting).trans ?_
      simp [hanswers, Work.owes]
  | some value =>
    simp only [Server.handleInputLine]
    split
    case isTrue =>
      have hsame := handlings_answerDialog
        (s.receive ⟨property "id" value, property "type" value, true, .idle⟩) value
      have hreceived : Inv
          (s.receive ⟨property "id" value, property "type" value, true, .idle⟩) := by
        refine ⟨h.balanced.received rfl (fun n hn => ⟨rfl, rfl⟩) ?_, h.handled,
          h.ids.receive _, h.dialogs.congr rfl rfl rfl⟩
        refine (congrArg₂ (· + ·) (congrArg (· + _) hanswers) hwaiting).trans ?_
        rfl
      refine ⟨hreceived.balanced.congr hsame.1 hsame.2.1 fun n => ?_,
        hsame.2.2.2.trans h.handled, hreceived.ids.congr hsame.1 hsame.2.1,
        hreceived.dialogs.answerDialog value⟩
      rw [waiting, hsame.2.2.1]
      rfl
    case isFalse =>
      rw [if_neg (by simpa using hnull)]
      split
      case isTrue => exact inv_prompt_line h rfl rfl s.session
      case isFalse =>
        refine ⟨h.balanced.received rfl (fun n hn => ⟨rfl, rfl⟩) ?_, h.handled,
          h.ids.receive _, h.dialogs.congr rfl rfl rfl⟩
        refine (congrArg₂ (· + ·) (congrArg (· + _) hanswers) hwaiting).trans ?_
        rfl

end ReflectivePi.RpcMode
