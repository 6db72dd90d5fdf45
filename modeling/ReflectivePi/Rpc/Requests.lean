import Mathlib.Data.List.Nodup
import ReflectivePi.Rpc.Client

/-!
# Rpc — Requests

A request is settled once, or its timer is still set. The list of pending
requests may forget a request, its timer does not.
-/

namespace ReflectivePi.Rpc

open List

variable {ε : Type} {s s' : RpcClient ε} {isSettled : ε → Bool} {id : Nat} {label : Label ε}

namespace RpcClient

/-- How the request ended, as often as it did. -/
def outcomes (s : RpcClient ε) (id : Nat) : List (Nat × Outcome) :=
  s.settled.filter (·.1 = id)

/-- What requests are about. -/
def requestPart (s : RpcClient ε) : Nat × List Nat × List Nat × List (Nat × Outcome) :=
  (s.requestId, s.pendingRequests, s.timers, s.settled)

end RpcClient

/-- Requests are settled once, and by nobody else's response. -/
structure Requests (s : RpcClient ε) : Prop where
  numbered : ∀ id ∈ s.timers, id ≤ s.requestId
  pendingNodup : s.pendingRequests.Nodup
  pending : ∀ id ∈ s.pendingRequests, id ∈ s.timers
  known : ∀ id outcome, (id, outcome) ∈ s.settled → id ≤ s.requestId
  once : ∀ id, 0 < id → id ≤ s.requestId → (s.outcomes id).length = if id ∈ s.timers then 0 else 1
  own : ∀ id bearing, (id, .response bearing) ∈ s.settled → bearing = id

namespace Requests

theorem congr (h : Requests s) (hpart : s'.requestPart = s.requestPart) : Requests s' := by
  simp only [RpcClient.requestPart, Prod.mk.injEq] at hpart
  obtain ⟨hid, hpending, htimers, hsettled⟩ := hpart
  refine ⟨?_, ?_, ?_, ?_, ?_, ?_⟩
  · rw [htimers, hid]
    exact h.numbered
  · rw [hpending]
    exact h.pendingNodup
  · rw [hpending, htimers]
    exact h.pending
  · rw [hsettled, hid]
    exact h.known
  · rw [hid, htimers]
    intro id hpos hle
    rw [RpcClient.outcomes, hsettled]
    exact h.once id hpos hle
  · rw [hsettled]
    exact h.own

theorem initial : Requests (ε := ε) {} := by
  refine ⟨?_, nodup_nil, ?_, ?_, ?_, ?_⟩
  · intro id hid
    cases hid
  · intro id hid
    cases hid
  · nofun
  · intro id hpos hle
    exact absurd hle (Nat.not_le_of_gt hpos)
  nofun

/-- **One request is settled**: its timer was set until now. -/
theorem settle (h : Requests s) (hid : id ∈ s.timers) {outcome : Outcome}
    (hown : ∀ bearing, outcome = .response bearing → bearing = id) :
    Requests (s.settle id outcome) := by
  refine ⟨fun i hi => ?_, h.pendingNodup.filter _, fun i hi => ?_, fun i o hi => ?_,
    fun i hpos hle => ?_, fun i bearing hi => ?_⟩
  · exact h.numbered i (List.mem_filter.mp hi).1
  · obtain ⟨hmem, hne⟩ := List.mem_filter.mp hi
    exact List.mem_filter.mpr ⟨h.pending i hmem, hne⟩
  · rcases List.mem_append.mp hi with hold | hnew
    · exact h.known i o hold
    · cases List.mem_singleton.mp hnew
      exact h.numbered _ hid
  · have hbefore := h.once i hpos hle
    simp only [RpcClient.outcomes, RpcClient.settle, List.filter_append, length_append]
    rw [RpcClient.outcomes] at hbefore
    by_cases heq : i = id
    · subst heq
      simp [hbefore, hid]
    · simp [hbefore, heq, Ne.symm heq]
  · rcases List.mem_append.mp hi with hold | hnew
    · exact h.own i bearing hold
    · cases List.mem_singleton.mp hnew
      exact hown bearing rfl

/-- **The process is gone**: every pending request is settled. -/
theorem rejectPendingRequests (h : Requests s) : Requests s.rejectPendingRequests := by
  refine ⟨fun i hi => ?_, nodup_nil, fun i hi => ?_, fun i o hi => ?_,
    fun i hpos hle => ?_, fun i bearing hi => ?_⟩
  · exact h.numbered i (List.mem_filter.mp hi).1
  · cases hi
  · rcases List.mem_append.mp hi with hold | hnew
    · exact h.known i o hold
    · obtain ⟨j, hj, heq⟩ := List.mem_map.mp hnew
      cases heq
      exact h.numbered _ (h.pending _ hj)
  · have hbefore := h.once i hpos hle
    rw [RpcClient.outcomes] at hbefore
    have hadded : ((s.pendingRequests.map fun id => (id, Outcome.exited)).filter
        (·.1 = i)).length = if i ∈ s.pendingRequests then 1 else 0 := by
      rw [← h.pendingNodup.count, filter_map, length_map, List.count, countP_eq_length_filter]
      rfl
    simp only [RpcClient.outcomes, RpcClient.rejectPendingRequests, List.filter_append,
      length_append, hbefore, hadded, mem_filter, decide_not]
    by_cases hpending : i ∈ s.pendingRequests
    · simp [hpending, h.pending i hpending]
    · simp [hpending]
  · rcases List.mem_append.mp hi with hold | hnew
    · exact h.own i bearing hold
    · obtain ⟨j, hj, heq⟩ := List.mem_map.mp hnew
      cases heq

theorem send (h : Requests s) (usable : Bool) : Requests (s.send usable) := by
  unfold RpcClient.send
  split
  · exact h
  split
  · exact h.congr rfl
  dsimp only
  have hfresh : s.requestId + 1 ∉ s.timers := fun hmem => by
    have := h.numbered _ hmem
    omega
  refine ⟨fun i hi => ?_, ?_, fun i hi => ?_, fun i o hi => ?_, fun i hpos hle => ?_, h.own⟩
  · rcases List.mem_append.mp hi with hold | hnew
    · exact Nat.le_succ_of_le (h.numbered i hold)
    · exact Nat.le_of_eq (List.mem_singleton.mp hnew)
  · refine List.nodup_append.mpr ⟨h.pendingNodup, nodup_singleton _, fun i hi j hj => ?_⟩
    rintro rfl
    rw [List.mem_singleton.mp hj] at hi
    exact hfresh (h.pending _ hi)
  · exact (List.mem_append.mp hi).elim (fun hold => mem_append_left _ (h.pending i hold))
      (fun hnew => mem_append_right _ hnew)
  · exact Nat.le_succ_of_le (h.known i o hi)
  · by_cases hlast : i = s.requestId + 1
    · subst hlast
      have hnone : s.outcomes (s.requestId + 1) = [] := by
        refine List.filter_eq_nil_iff.mpr fun entry hentry heq => ?_
        have := h.known entry.1 entry.2 hentry
        simp only [decide_eq_true_eq] at heq
        omega
      show (s.outcomes _).length = _
      simp [hnone]
    · have hbefore := h.once i hpos (by dsimp only at hle; omega)
      show (s.outcomes i).length = _
      simp [hbefore, hlast]

end Requests

namespace RpcClient

@[simp] theorem requestPart_unsubscribe (listener : Listener) :
    (s.unsubscribe listener).requestPart = s.requestPart := by
  unfold unsubscribe
  split <;> rfl

@[simp] theorem requestPart_callAt (arrival : Arrival ε) (number index : Nat) :
    (s.callAt arrival number index).requestPart = s.requestPart := by
  unfold callAt
  split <;> rfl

@[simp] theorem requestPart_deliver (event : ε) :
    (s.deliver event).requestPart = s.requestPart := by
  rw [deliver, requestPart_callAt]
  rfl

@[simp] theorem requestPart_returnCall (delivery : Delivery ε) :
    (s.returnCall isSettled delivery).requestPart = s.requestPart := by
  unfold returnCall
  split
  · exact requestPart_callAt ..
  · split
    · dsimp only
      rw [requestPart_callAt]
      exact requestPart_unsubscribe _
    simp

end RpcClient

/-- **Every step** keeps the requests in order. -/
theorem Requests.step (h : Requests s) (hstep : Rpc.step isSettled s label = some s') :
    Requests s' := by
  cases label with
  | stopped =>
    simp only [Rpc.step] at hstep
    split at hstep <;> cases hstep
    refine ⟨h.numbered, nodup_nil, fun id hid => ?_, h.known, h.once, h.own⟩
    cases hid
  | exit =>
    simp only [Rpc.step] at hstep
    split at hstep <;> cases hstep
    have hexit : Requests { s with exitError := true } := h.congr rfl
    exact hexit.rejectPendingRequests
  | send usable =>
    simp only [Rpc.step] at hstep
    split at hstep <;> cases hstep
    exact h.send usable
  | unsubscribe fn =>
    simp only [Rpc.step] at hstep
    split at hstep <;> cases hstep
    exact h.congr (by simp)
  | line line =>
    simp only [Rpc.step] at hstep
    split at hstep <;> cases hstep
    unfold RpcClient.handleLine
    split
    · split
      case isTrue hmem =>
        refine h.settle (h.pending _ hmem) fun bearing heq => ?_
        cases heq
        rfl
      case isFalse => exact h.congr (by simp)
    · exact h.congr (by simp)
    · exact h.congr (by simp)
    · exact h
  | returns =>
    obtain ⟨delivery, -, rfl⟩ := Option.map_eq_some_iff.mp hstep
    exact h.congr (by simp)
  | throws =>
    simp only [Rpc.step] at hstep
    split at hstep
    · cases hstep
    · split at hstep <;> cases hstep
      exact h.congr rfl
  | timeout id =>
    simp only [Rpc.step] at hstep
    split at hstep
    case isFalse => cases hstep
    case isTrue hmem =>
      cases hstep
      simp only [Bool.and_eq_true, contains_iff_mem] at hmem
      exact h.settle hmem.2 fun bearing heq => by cases heq
  | waitTimeout call =>
    simp only [Rpc.step] at hstep
    split at hstep <;> cases hstep
    exact h.congr (RpcClient.requestPart_unsubscribe _)
  | _ =>
    simp only [Rpc.step] at hstep
    split at hstep <;> cases hstep
    exact h.congr rfl

end ReflectivePi.Rpc
