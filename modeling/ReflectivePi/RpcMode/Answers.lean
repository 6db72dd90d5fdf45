import ReflectivePi.RpcMode.Server

/-!
# RpcMode — Answers

A ledger for each line: it has been answered, or something that will answer it is
under way or waits among the actions. The three together make one for a command
and none for an answer to a dialog.
-/

namespace ReflectivePi.RpcMode

open List
open Delta (Json JsString js)

variable {s s' : Server} {n m d session : Nat} {handling : Handling} {work : Work}
  {response : Response}

/-! ## The ledger -/

/-- An answer will come of it. -/
def Work.owes : Work → Bool
  | .command => true
  | .checking _ _ => true
  | _ => false

namespace Server

def answers (s : Server) (n : Nat) : Nat :=
  s.responses.countP fun entry => entry.1 = n

def inWork (s : Server) (n : Nat) : Nat :=
  if s.handlings[n]?.any fun handling => handling.work.owes then 1 else 0

def waiting (s : Server) (n : Nat) : Nat :=
  s.actions.countP fun entry => entry.2.line? = some n

/-- One answer for a command, none for an answer to a dialog. -/
def expected (s : Server) (n : Nat) : Nat :=
  if s.handlings[n]?.any fun handling => !handling.isUiResponse then 1 else 0

/-- No line is owed more or less than its answer. -/
def Balanced (s : Server) : Prop :=
  ∀ n, s.answers n + s.inWork n + s.waiting n = s.expected n

theorem expected_le (s : Server) (n : Nat) : s.expected n ≤ 1 := by
  unfold expected
  split <;> omega

theorem inWork_of_some (hm : s.handlings[m]? = some handling) :
    s.inWork m = if handling.work.owes then 1 else 0 := by
  simp [inWork, hm]

theorem Balanced.congr (h : Balanced s) (hhandlings : s'.handlings = s.handlings)
    (hresponses : s'.responses = s.responses) (hwaiting : ∀ n, s'.waiting n = s.waiting n) :
    Balanced s' := by
  intro n
  rw [answers, inWork, expected, hhandlings, hresponses, hwaiting n]
  exact h n

section SetWork

variable (hm : s.handlings[m]? = some handling)
  (hhandlings : s'.handlings = s.handlings.modify m fun handling => { handling with work })
include hm hhandlings

theorem expected_modify (n : Nat) : s'.expected n = s.expected n := by
  rw [expected, expected, hhandlings]
  by_cases heq : m = n
  · subst heq
    rw [getElem?_modify_eq, hm]
    rfl
  · rw [getElem?_modify_ne _ _ heq]

theorem inWork_modify (n : Nat) :
    s'.inWork n = if m = n then (if work.owes then 1 else 0) else s.inWork n := by
  rw [inWork, inWork, hhandlings]
  by_cases heq : m = n
  · subst heq
    rw [getElem?_modify_eq, hm, if_pos rfl]
    rfl
  · rw [getElem?_modify_ne _ _ heq, if_neg heq]

/-- **A line is answered**: what was under way for it is not any more. -/
theorem Balanced.answered (h : Balanced s) (howes : handling.work.owes = true)
    (hwork : work.owes = false) (hresponses : s'.responses = s.responses ++ [(m, response)])
    (hactions : s'.actions = s.actions) : Balanced s' := by
  intro n
  rw [expected_modify hm hhandlings, inWork_modify hm hhandlings, answers, waiting, hresponses,
    hactions, countP_append, hwork]
  have hn := h n
  rw [answers, waiting] at hn
  by_cases heq : m = n
  · subst heq
    rw [inWork_of_some hm, howes, if_pos rfl] at hn
    simp
    omega
  · simp [heq]
    omega

theorem Balanced.rested (h : Balanced s) (howes : handling.work.owes = false)
    (hwork : work.owes = false) (hresponses : s'.responses = s.responses)
    (hwaiting : ∀ n, s'.waiting n = s.waiting n) : Balanced s' := by
  intro n
  rw [expected_modify hm hhandlings, inWork_modify hm hhandlings, answers, hresponses, hwaiting n,
    hwork]
  have hn := h n
  rw [answers] at hn
  by_cases heq : m = n
  · subst heq
    rw [inWork_of_some hm, howes] at hn
    simpa using hn
  · simpa [heq] using hn

theorem Balanced.started (h : Balanced s) (howes : handling.work.owes = false)
    (hwork : work.owes = true) (hresponses : s'.responses = s.responses)
    (hwaiting : ∀ n, s'.waiting n + (if m = n then 1 else 0) = s.waiting n) : Balanced s' := by
  intro n
  rw [expected_modify hm hhandlings, inWork_modify hm hhandlings, answers, hresponses, hwork]
  have hn := h n
  have hwait := hwaiting n
  rw [answers] at hn
  by_cases heq : m = n
  · subst heq
    rw [inWork_of_some hm, howes] at hn
    simp at hn hwait ⊢
    omega
  · simp [heq] at hwait ⊢
    omega

end SetWork

theorem Balanced.fresh (h : Balanced s) (hn : s.handlings.length ≤ n) :
    s.answers n = 0 ∧ s.waiting n = 0 := by
  have hn' := h n
  have hexpected : s.expected n = 0 := by
    rw [expected, getElem?_eq_none hn]
    rfl
  omega

/-- **A new line**, with its answer, what is under way for it, or its place among the
actions. -/
theorem Balanced.received (h : Balanced s) (hhandlings : s'.handlings = s.handlings ++ [handling])
    (hothers : ∀ n, n ≠ s.handlings.length →
      s'.answers n = s.answers n ∧ s'.waiting n = s.waiting n)
    (hline : s'.answers s.handlings.length + (if handling.work.owes then 1 else 0) +
      s'.waiting s.handlings.length = if handling.isUiResponse then 0 else 1) : Balanced s' := by
  intro n
  rw [inWork, expected, hhandlings]
  rcases Nat.lt_trichotomy n s.handlings.length with hlt | rfl | hgt
  · obtain ⟨hanswers, hwaiting⟩ := hothers n (Nat.ne_of_lt hlt)
    rw [getElem?_append_left hlt, hanswers, hwaiting]
    exact h n
  · rw [getElem?_concat_length]
    cases hui : handling.isUiResponse <;> simp [hui] at hline ⊢ <;> exact hline
  · obtain ⟨hanswers, hwaiting⟩ := hothers n (Nat.ne_of_gt hgt)
    obtain ⟨h₁, h₂⟩ := h.fresh (Nat.le_of_lt hgt)
    rw [getElem?_eq_none (by simp; omega), hanswers, hwaiting, h₁, h₂]
    rfl

/-! ## The parts of a step -/

@[simp] theorem waiting_receive (s : Server) (handling : Handling) (n : Nat) :
    (s.receive handling).waiting n = s.waiting n := rfl

@[simp] theorem answers_receive (s : Server) (handling : Handling) (n : Nat) :
    (s.receive handling).answers n = s.answers n := rfl

theorem answers_output (s : Server) (m n : Nat) (response : Response) :
    (s.output m response).answers n = s.answers n + if m = n then 1 else 0 := by
  simp [answers, output, countP_append]

theorem waiting_concat {place : Place} {action : Action}
    (hactions : s'.actions = s.actions ++ [(place, action)]) (n : Nat) :
    s'.waiting n = s.waiting n + if action.line? = some n then 1 else 0 := by
  simp [waiting, hactions, countP_append]

theorem modify_concat {α : Type} (l : List α) (x : α) (f : α → α) :
    (l ++ [x]).modify l.length f = l ++ [f x] := by
  induction l with
  | nil => rfl
  | cons y l ih => simp [modify_succ_cons, ih]

theorem handlings_answerDialog (s : Server) (value : Json) :
    (s.answerDialog value).handlings = s.handlings ∧
      (s.answerDialog value).responses = s.responses ∧ (s.answerDialog value).actions = s.actions ∧
          (s.answerDialog value).unhandled = s.unhandled := by
  unfold answerDialog
  split
  · split <;> exact ⟨rfl, rfl, rfl, rfl⟩
  simp

theorem answer_eq (hm : s.handlings[m]? = some handling) (success : Bool) :
    s.answer m success = s.output m ⟨handling.id, handling.type, success⟩ := by
  rw [answer, hm]

theorem handlings_setWork_get (hm : s.handlings[m]? = some handling) (work : Work) :
    (s.setWork m work).handlings[m]? = some { handling with work } := by
  refine (getElem?_modify_eq _ _ _).trans ?_
  rw [hm]
  rfl

end Server

end ReflectivePi.RpcMode
