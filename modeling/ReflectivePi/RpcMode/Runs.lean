import ReflectivePi.Lib.LabelledRun
import ReflectivePi.RpcMode.Lines

/-!
# RpcMode — Runs

Every step that meets the condition keeps the ledger of each line balanced, and
no dialog is settled twice. The lines that are not answered are `null`, prompts
that were deferred and fail, and those deferred behind an action that fails.
-/

namespace ReflectivePi.RpcMode

open List
open Delta (Json JsString js)
open Server

variable {s s' : Server} {n m d session : Nat} {handling : Handling} {work : Work}
  {context : Context} {response : Response} {parse : JsString → Option Json}

theorem work_eq (h : s.handlings[n]?.map Handling.work = some work) :
    ∃ handling, s.handlings[n]? = some handling ∧ handling.work = work :=
  Option.map_eq_some_iff.mp h

/-- **A command is answered.** -/
theorem inv_answered (h : Inv s) (hm : s.handlings[m]? = some handling)
    (howes : handling.work.owes = true) (success : Bool) :
    Inv ((s.setWork m .idle).answer m success) := by
  have hget := handlings_setWork_get hm .idle
  rw [answer_eq hget]
  have hids : Ids (s.setWork m .idle) := h.ids.modify rfl rfl
  exact ⟨h.balanced.answered hm rfl howes rfl rfl rfl, h.handled, hids.output hget rfl,
    h.dialogs.congr rfl rfl rfl⟩

/-- **A preflight passes**: the line is answered, and the prompt goes on or ends. -/
theorem inv_passes (h : Inv s) (hm : s.handlings[m]? = some handling)
    (howes : handling.work.owes = true) (context : Context) (returns : Bool) :
    Inv (s.preflightPassed m context returns) := by
  have hids : Ids (s.output m ⟨handling.id, handling.type, true⟩) := h.ids.output hm rfl
  simp only [Server.preflightPassed, answer_eq hm]
  cases returns with
  | false => exact ⟨h.balanced.answered hm rfl howes rfl rfl rfl, h.handled, hids.modify rfl rfl,
      h.dialogs.congr rfl rfl rfl⟩
  | true =>
    cases context with
    | _ => exact ⟨h.balanced.answered hm rfl howes rfl rfl rfl, h.handled,
        hids.modify rfl rfl, h.dialogs.congr rfl rfl rfl⟩

/-! ## Loops -/

theorem waiting_filter (hprompt : s.hasPrompt d = false) (n : Nat) :
    (s.actions.filter fun entry => entry.1 ≠ .loop d).countP
      (fun entry => entry.2.line? = some n) = s.waiting n := by
  rw [waiting, countP_filter]
  refine countP_congr fun entry hentry => ?_
  simp only [Bool.and_eq_true, decide_eq_true_eq]
  refine ⟨fun h => h.1, fun hline => ⟨hline, fun hloop => ?_⟩⟩
  have hany : s.hasPrompt d = true := List.any_eq_true.mpr ⟨entry, hentry, by simp [hloop, hline]⟩
  rw [hany] at hprompt
  cases hprompt

variable {failure : Option Thrown}

theorem inv_actionEnded (h : Inv s)
    (hprompt : failure.isSome = true → s.hasPrompt d = false) : Inv (s.actionEnded d failure) := by
  cases failure with
  | none => exact ⟨h.balanced.congr rfl rfl fun _ => rfl, h.handled, h.ids.congr rfl rfl,
      h.dialogs.congr rfl rfl rfl⟩
  | some thrown => exact ⟨h.balanced.congr rfl rfl (waiting_filter (hprompt rfl)), h.handled,
      h.ids.congr rfl rfl, h.dialogs.congr rfl rfl rfl⟩

/-- **A prompt ends** whose line has been answered. -/
theorem inv_ends (h : Inv s) (hm : s.handlings[m]? = some handling)
    (howes : handling.work.owes = false)
    (hprompt : ∀ d, context = .loop d → failure.isSome = true → s.hasPrompt d = false) :
    Inv (s.promptEnded m context failure) := by
  have hidle : Inv (s.setWork m .idle) :=
    ⟨h.balanced.rested hm rfl howes rfl rfl fun _ => rfl, h.handled, h.ids.modify rfl rfl,
      h.dialogs.congr rfl rfl rfl⟩
  cases context with
  | direct => exact hidle
  | loop d => exact inv_actionEnded hidle (hprompt d rfl)

/-- **A loop takes what has been deferred**, and nothing is lost on the way. -/
theorem waiting_map (move : Place × Action → Place × Action)
    (hmove : ∀ entry, (move entry).2 = entry.2) (n : Nat) :
    (s.actions.map move).countP (fun entry => entry.2.line? = some n) = s.waiting n := by
  rw [countP_map, waiting]
  refine countP_congr fun entry _ => ?_
  simp [hmove]

theorem waiting_erase {entry : Place × Action} (hentry : entry ∈ s.actions) (n : Nat) :
    (s.actions.erase entry).countP (fun entry => entry.2.line? = some n) +
      (if entry.2.line? = some n then 1 else 0) = s.waiting n := by
  have hperm := List.Perm.countP_eq (fun entry => entry.2.line? = some n) (perm_cons_erase hentry)
  rw [countP_cons] at hperm
  simpa [waiting] using hperm.symm

/-- **A loop begins an action**: a run, or a prompt, which may be deferred again. -/
theorem inv_begin (h : Inv s) {place : Place} {action : Action}
    (hentry : (place, action) ∈ s.actions) (d : Nat) :
    Inv (begin { s with actions := s.actions.erase (place, action) } d action) := by
  have herase := waiting_erase hentry
  cases action with
  | run =>
    refine ⟨h.balanced.congr rfl rfl fun n => ?_, h.handled, h.ids.congr rfl rfl,
      h.dialogs.congr rfl rfl rfl⟩
    exact herase n
  | prompt session m =>
    simp only [Server.begin, Server.prompt]
    split
    · refine ⟨h.balanced.congr rfl rfl fun n => ?_, h.handled, h.ids.congr rfl rfl,
        h.dialogs.congr rfl rfl rfl⟩
      rw [← herase n]
      simp [waiting, countP_append]
    · -- the line is owed an answer for the waiting prompt and for nothing else
      have hm := h.balanced m
      have hwaiting := herase m
      have hle := expected_le s m
      simp only [Action.line?, if_true] at hwaiting
      have hexpected : s.expected m = 1 := by omega
      have hwork : s.inWork m = 0 := by omega
      cases hget : s.handlings[m]? with
      | none => simp [expected, hget] at hexpected
      | some handling =>
        rw [inWork_of_some hget] at hwork
        have howes : handling.work.owes = false := by
          cases howes : handling.work.owes with
          | false => rfl
          | true => simp [howes] at hwork
        refine ⟨h.balanced.started hget rfl howes rfl rfl fun n => ?_, h.handled,
          h.ids.modify rfl rfl, h.dialogs.congr rfl rfl rfl⟩
        have hn := herase n
        simp only [Action.line?, Option.some.injEq] at hn
        exact hn

theorem Dialogs.opened (h : Dialogs s) {id : JsString} (hid : id ∉ s.dialogs) :
    Dialogs { s with
      dialogs := s.dialogs ++ [id]
      pendingExtensionRequests := s.pendingExtensionRequests ++ [id] } := by
  have hsettled : id ∉ s.settled := fun hmem => hid (h.settled id hmem)
  have hpending : id ∉ s.pendingExtensionRequests := fun hmem => hid (h.pending id hmem).1
  refine ⟨fun other hother => ?_, fun other hother => ?_, ?_, h.once⟩
  · rcases List.mem_append.mp hother with hold | hnew
    · exact ⟨mem_append_left _ (h.pending other hold).1, (h.pending other hold).2⟩
    · obtain rfl := List.mem_singleton.mp hnew
      exact ⟨mem_append_right _ hnew, hsettled⟩
  · exact mem_append_left _ (h.settled other hother)
  · refine List.nodup_append.mpr ⟨h.distinct, nodup_singleton _, fun a ha b hb hab => ?_⟩
    rw [List.mem_singleton.mp hb] at hab
    exact hpending (hab ▸ ha)

theorem Dialogs.skipped (h : Dialogs s) {id : JsString} (hid : id ∉ s.dialogs) :
    Dialogs { s with dialogs := s.dialogs ++ [id], settled := s.settled ++ [id] } := by
  have hsettled : id ∉ s.settled := fun hmem => hid (h.settled id hmem)
  refine ⟨fun other hother => ⟨?_, fun hmem => ?_⟩, fun other hother => ?_, h.distinct, ?_⟩
  · exact mem_append_left _ (h.pending other hother).1
  · rcases List.mem_append.mp hmem with hold | hnew
    · exact (h.pending other hother).2 hold
    · exact hid (List.mem_singleton.mp hnew ▸ (h.pending other hother).1)
  · rcases List.mem_append.mp hother with hold | hnew
    · exact mem_append_left _ (h.settled other hold)
    · exact mem_append_right _ hnew
  · refine List.nodup_append.mpr ⟨h.once, nodup_singleton _, fun a ha b hb hab => ?_⟩
    rw [List.mem_singleton.mp hb] at hab
    exact hsettled (hab ▸ ha)

theorem settled_answerDialog (s : Server) (value : Json) :
    (s.answerDialog value).settled = s.settled ∨ ∃ id, property "id" value = some (.str id) ∧
        (s.answerDialog value).settled = s.settled ++ [id] := by
  unfold Server.answerDialog
  split
  case h_1 id hid =>
    split
    · exact .inr ⟨id, hid, rfl⟩
    · exact .inl rfl
  case h_2 => exact .inl rfl

theorem Inv.congr (h : Inv s) (hhandlings : s'.handlings = s.handlings)
    (hresponses : s'.responses = s.responses) (hunhandled : s'.unhandled = s.unhandled)
    (hwaiting : ∀ n, s'.waiting n = s.waiting n) (hdialogs : Dialogs s') : Inv s' :=
  ⟨h.balanced.congr hhandlings hresponses hwaiting, hunhandled.trans h.handled,
    h.ids.congr hhandlings hresponses, hdialogs⟩

theorem inv_finish (h : Inv s) {outcome : Outcome}
    (hok : outcome ≠ .throws .unprintable) (hstep : step parse s (.finish n outcome) = some s') :
    Inv s' := by
  simp only [step] at hstep
  split at hstep
  case isFalse => cases hstep
  case isTrue hwork =>
    obtain ⟨handling, hm, hcommand⟩ := work_eq hwork
    have howes : handling.work.owes = true := by rw [hcommand]; rfl
    cases outcome with
    | response success =>
      obtain rfl := Option.some.inj hstep
      exact inv_answered h hm howes success
    | throws thrown =>
      cases thrown with
      | unprintable => exact absurd rfl hok
      | _ =>
        obtain rfl := Option.some.inj hstep
        exact inv_answered h hm howes false

/-- Only the call of a line may fail before its preflight has passed. -/
theorem inv_fails (h : Inv s) {thrown : Thrown} (hok : meets parse s (.fails n thrown) = true)
    (hstep : step parse s (.fails n thrown) = some s') : Inv s' := by
  simp only [step] at hstep
  simp only [meets] at hok
  split at hstep
  case h_2 => cases hstep
  case h_1 session context hwork =>
    obtain ⟨handling, hm, hchecking⟩ := work_eq hwork
    have howes : handling.work.owes = true := by rw [hchecking]; rfl
    obtain rfl := Option.some.inj hstep
    rw [hwork] at hok
    cases context with
    | loop d => cases hok
    | direct =>
      have hne : thrown ≠ .nullish := by simpa using hok
      simp only [Server.preflightFailed]
      rw [if_neg hne]
      exact inv_answered h hm howes false

theorem inv_promptEnds (h : Inv s) (hok : meets parse s (.ends n failure) = true)
    (hstep : step parse s (.ends n failure) = some s') : Inv s' := by
  simp only [step] at hstep
  split at hstep
  case h_2 => cases hstep
  case h_1 context hwork =>
    obtain ⟨handling, hm, hrunning⟩ := work_eq hwork
    have howes : handling.work.owes = false := by rw [hrunning]; rfl
    obtain rfl := Option.some.inj hstep
    refine inv_ends h hm howes fun d hcontext hfailure => ?_
    obtain ⟨thrown, rfl⟩ := Option.isSome_iff_exists.mp hfailure
    subst hcontext
    simp only [meets] at hok
    rw [hwork] at hok
    simpa using hok

/-- **A step keeps the ledger.** -/
theorem inv_step {label : Label} (h : Inv s) (hok : meets parse s label = true)
    (hstep : step parse s label = some s') : Inv s' := by
  cases label with
  | line text =>
    obtain rfl := Option.some.inj hstep
    exact inv_line h (by simpa [meets] using hok)
  | finish n outcome => exact inv_finish h (by simpa [meets] using hok) hstep
  | passes n returns =>
    simp only [step] at hstep
    split at hstep
    case h_2 => cases hstep
    case h_1 session context hwork =>
      obtain ⟨handling, hm, hchecking⟩ := work_eq hwork
      obtain rfl := Option.some.inj hstep
      exact inv_passes h hm (by rw [hchecking]; rfl) context returns
  | fails n thrown => exact inv_fails h hok hstep
  | ends n failure => exact inv_promptEnds h hok hstep
  | deferRun session =>
    simp only [step] at hstep
    split at hstep <;> cases hstep
    refine h.congr rfl rfl rfl (fun n => ?_) (h.dialogs.congr rfl rfl rfl)
    simp [waiting, countP_append, Action.line?]
  | emitted session =>
    simp only [step] at hstep
    split at hstep <;> cases hstep
    refine h.congr rfl rfl rfl (waiting_map _ fun entry => ?_) (h.dialogs.congr rfl rfl rfl)
    split <;> rfl
  | emissionFails session =>
    simp only [step] at hstep
    split at hstep <;> cases hstep
    exact h.congr rfl rfl rfl (fun _ => rfl) (h.dialogs.congr rfl rfl rfl)
  | next d =>
    simp only [step] at hstep
    split at hstep
    case isTrue => cases hstep
    case isFalse =>
      split at hstep
      case h_1 => cases hstep
      case h_2 entry hentry =>
        obtain rfl := Option.some.inj hstep
        exact inv_begin h (mem_of_find?_eq_some hentry) d
  | runEnds d failure =>
    simp only [step] at hstep
    split at hstep <;> cases hstep
    refine inv_actionEnded h fun hfailure => ?_
    obtain ⟨thrown, rfl⟩ := Option.isSome_iff_exists.mp hfailure
    simpa [meets] using hok
  | openDialog id =>
    simp only [step] at hstep
    split at hstep <;> cases hstep
    exact h.congr rfl rfl rfl (fun _ => rfl) (h.dialogs.opened ‹_›)
  | skipDialog id =>
    simp only [step] at hstep
    split at hstep <;> cases hstep
    exact h.congr rfl rfl rfl (fun _ => rfl) (h.dialogs.skipped ‹_›)
  | closeDialog id =>
    simp only [step] at hstep
    split at hstep <;> cases hstep
    exact h.congr rfl rfl rfl (fun _ => rfl) (h.dialogs.settle ‹_›)
  | _ =>
    obtain rfl := Option.some.inj hstep
    exact h.congr rfl rfl rfl (fun _ => rfl) (h.dialogs.congr rfl rfl rfl)

/-! ## Runs -/

theorem inv_initial : Inv {} :=
  ⟨fun _ => rfl, rfl, forall_mem_nil _, ⟨forall_mem_nil _, forall_mem_nil _, .nil, .nil⟩⟩

/-- The server is done with what a line asked for. -/
def Server.done (s : Server) (n : Nat) : Bool :=
  !(s.handlings[n]?.any fun handling => handling.work.owes) && s.waiting n == 0

/-- Every line has its answer: never two, none for an answer to a dialog, and one once
the server is done with the line. -/
structure Answered (parse : JsString → Option Json) (s : Server) : Prop where
  handled : s.unhandled = false
  once : ∀ n handling, s.handlings[n]? = some handling → handling.isUiResponse = false →
    s.answers n ≤ 1 ∧ (s.done n = true → s.answers n = 1)
  uiResponse : ∀ n handling, s.handlings[n]? = some handling → handling.isUiResponse = true →
    s.answers n = 0
  ids : Ids s
  settledOnce : s.settled.Nodup
  settlesOne : ∀ text value, parse text = some value →
    isText "extension_ui_response" (property "type" value) = true →
    ∀ s', step parse s (.line text) = some s' → s'.settled = s.settled ∨
      ∃ id, property "id" value = some (.str id) ∧ s'.settled = s.settled ++ [id]

theorem answered_of_inv (h : Inv s) : Answered parse s := by
  refine ⟨h.handled, fun n handling hn hui => ?_, fun n handling hn hui => ?_, h.ids,
    h.dialogs.once, fun text value hparse hui s' hstep => ?_⟩
  · have hbalanced := h.balanced n
    have hexpected : s.expected n = 1 := by simp [expected, hn, hui]
    refine ⟨by omega, fun hdone => ?_⟩
    rw [done, Bool.and_eq_true] at hdone
    have hwork : s.inWork n = 0 := by
      rw [inWork, if_neg]
      simpa using hdone.1
    have hwaiting : s.waiting n = 0 := by simpa using hdone.2
    omega
  · have hbalanced := h.balanced n
    have hexpected : s.expected n = 0 := by simp [expected, hn, hui]
    omega
  · obtain rfl := Option.some.inj hstep
    rw [hparse]
    simp only [Server.handleInputLine]
    rw [if_pos hui]
    exact settled_answerDialog _ value

/-- **Every line is answered exactly once, and every dialog settled at most once**, as
long as no line is `null`, what is thrown can be printed, no deferred prompt fails, and
no action fails while a prompt is deferred behind it. -/
theorem lines_answered
    (h : Run (· = {}) (step parse) (fun s label => meets parse s label = true) s) :
    Answered parse s :=
  answered_of_inv (h.invariant (fun _ heq => heq ▸ inv_initial) fun _ _ _ => inv_step)

def promptText : JsString := js "\x7b\"type\":\"prompt\",\"message\":\"hi\"\x7d"

/-- `JSON.parse` of `null`, of the prompt, and of texts that are no JSON. -/
def parseSample (text : JsString) : Option Json :=
  if text.length = 4 then some .null
  else if text.length = 32 then
    some (.obj [(js "type", .str (js "prompt")), (js "message", .str (js "hi"))])
  else none

/-- Two prompts, the second while the session tells that the agent has settled, a text
that is no JSON, and a dialog. -/
def deferredRun : List Label :=
  [.line promptText, .passes 0 false, .settles 0, .line promptText, .line [123],
    .openDialog [97], .emitted 0, .next 0, .passes 1 false, .closeDialog [97],
    .ends 1 none, .ends 0 none]

theorem lines_answered_sample :
    Answered parseSample (Run.afterAll (step parseSample) {} deferredRun) :=
  lines_answered (.of_check (.init rfl) (by decide +kernel))

/-- The prompt that was deferred fails: there is no model to prompt, say. -/
def deferredFails : List Label :=
  [.line promptText, .passes 0 false, .settles 0, .line promptText, .emitted 0, .next 0,
    .fails 1 .printable, .ends 0 (some .printable)]

/-- **A line that is `null` makes the handling of input fail, and a deferred prompt that
fails is never answered.** -/
theorem lines_unanswered :
    (∃ s : Server, Run (· = {}) (step parseSample) (fun _ _ => True) s ∧
      s.handlings.length = 1 ∧ s.done 0 = true ∧ s.answers 0 = 0 ∧ s.unhandled = true) ∧
    ∃ s : Server, Run (· = {}) (step parseSample) (fun _ _ => True) s ∧
      s.done 1 = true ∧ ¬ Answered parseSample s := by
  refine ⟨⟨Run.afterAll (step parseSample) {} [.line (js "null")],
    .of_check (.init rfl) (by decide +kernel), by decide +kernel⟩,
    Run.afterAll (step parseSample) {} deferredFails, .of_check (.init rfl) (by decide +kernel),
    by decide +kernel, fun h => ?_⟩
  have hsome : ((Run.afterAll (step parseSample) {} deferredFails).handlings[1]?.any
      fun handling => !handling.isUiResponse) = true := by decide +kernel
  obtain ⟨handling, hhandling, hui⟩ := (Option.any_eq_true _ _).mp hsome
  have honce := (h.once 1 handling hhandling (by simpa using hui)).2 (by decide +kernel)
  revert honce
  decide +kernel

end ReflectivePi.RpcMode
