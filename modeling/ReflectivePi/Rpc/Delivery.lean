import Mathlib.Data.List.Nodup
import ReflectivePi.Rpc.Client

/-!
# Rpc — Delivery

The loop over the listeners. What the loop has still to call are the elements
behind its position, and a registered listener is lost when it comes to stand
before it: when the called listener or one before it leaves, or when a listener
throws.
-/

namespace ReflectivePi.Rpc

open List

variable {ε : Type} {s s' : RpcClient ε} {isSettled : ε → Bool} {d : Delivery ε}
  {r : Registration}

/-! ## Positions -/

section Positions

variable {α : Type} {l : List α} {x : α} {i j : Nat}

theorem mem_drop_iff : x ∈ l.drop i ↔ ∃ k, i ≤ k ∧ l[k]? = some x := by
  rw [mem_iff_getElem?]
  constructor
  · rintro ⟨k, hk⟩
    rw [getElem?_drop] at hk
    exact ⟨i + k, Nat.le_add_right i k, hk⟩
  · rintro ⟨k, hle, hk⟩
    refine ⟨k - i, ?_⟩
    rw [getElem?_drop, Nat.add_sub_cancel' hle]
    exact hk

theorem mem_drop_of_eraseIdx (h : x ∈ (l.eraseIdx j).drop i) : x ∈ l.drop i := by
  obtain ⟨k, hle, hk⟩ := mem_drop_iff.mp h
  rw [getElem?_eraseIdx] at hk
  split at hk
  · exact mem_drop_iff.mpr ⟨k, hle, hk⟩
  · exact mem_drop_iff.mpr ⟨k + 1, Nat.le_succ_of_le hle, hk⟩

theorem mem_drop_eraseIdx (h : x ∈ l.drop i) (hj : i ≤ j) (hne : l[j]? ≠ some x) :
    x ∈ (l.eraseIdx j).drop i := by
  obtain ⟨k, hle, hk⟩ := mem_drop_iff.mp h
  have hkj : k ≠ j := by
    rintro rfl
    exact hne hk
  by_cases hlt : k < j
  · exact mem_drop_iff.mpr ⟨k, hle, by rw [getElem?_eraseIdx, if_pos hlt, hk]⟩
  · refine mem_drop_iff.mpr ⟨k - 1, by omega, ?_⟩
    rw [getElem?_eraseIdx, if_neg (by omega), Nat.sub_add_cancel (by omega), hk]

end Positions

namespace RpcClient

/-- The listeners that the loop has still to call. -/
def rest (s : RpcClient ε) (index : Nat) : List Registration := s.eventListeners.drop index

/-- Of those, none was registered when the event arrived. -/
def tailClear (s : RpcClient ε) (d : Delivery ε) : Bool :=
  (s.rest (d.index + 1)).all fun r => !d.registered.contains r

theorem tailClear_spec (h : s.tailClear d = true) (hr : r ∈ d.registered) :
    r ∉ s.rest (d.index + 1) := by
  intro hmem
  have := List.all_eq_true.mp h r hmem
  simp [hr] at this

end RpcClient

/-! ## The invariant -/

/-- The listeners and the history agree. -/
structure Recorded (s : RpcClient ε) : Prop where
  ids : (s.eventListeners.map Registration.id).Nodup
  fresh : ∀ r ∈ s.eventListeners, r.id < s.registrations
  givenFresh : ∀ n r, (n, r) ∈ s.given → r.id < s.registrations ∧ n < s.arrivals.length
  givenNodup : s.given.Nodup
  ordered : (s.given.map Prod.fst).Pairwise (· ≤ ·)

/-- The loop for an event is at a position: whoever was registered was given the
event, or left, or is still to be called. -/
structure Looping (isSettled : ε → Bool) (s : RpcClient ε) (a : Arrival ε) (number index : Nat)
    (current : Option Registration) : Prop where
  arrived : s.arrivals[number]? = some a
  last : s.arrivals.length = number + 1
  spared : ∀ r ∈ a.registered, (number, r) ∈ s.removed ∨ (number, r) ∈ s.given ∨ r ∈ s.rest index
  ahead : ∀ r ∈ s.rest index, (number, r) ∉ s.given
  waiters : isSettled a.event = true → ∀ r ∈ a.registered, ∀ call,
    r.listener = .waiter call → r ∈ s.rest index ∨ some r = current ∨ call ∈ s.ended

/-- The loop for an event is over. -/
structure Over (isSettled : ε → Bool) (s : RpcClient ε) (a : Arrival ε) (number : Nat) :
    Prop where
  spared : ∀ r ∈ a.registered, (number, r) ∈ s.removed ∨ (number, r) ∈ s.given
  waiters : isSettled a.event = true → ∀ r ∈ a.registered, ∀ call,
    r.listener = .waiter call → call ∈ s.ended

structure Listening (isSettled : ε → Bool) (s : RpcClient ε) : Prop where
  recorded : Recorded s
  finished : ∀ n a, s.arrivals[n]? = some a → (∀ d, s.delivery = some d → n ≠ d.number) →
    Over isSettled s a n
  looping : ∀ d, s.delivery = some d →
    Looping isSettled s d.toArrival d.number (d.index + 1) (some d.current)

/-- Nothing of the history is lost. -/
structure Later (s s' : RpcClient ε) : Prop where
  given : ∀ entry ∈ s.given, entry ∈ s'.given
  removed : ∀ entry ∈ s.removed, entry ∈ s'.removed
  ended : ∀ call ∈ s.ended, call ∈ s'.ended

theorem Over.later {a : Arrival ε} {n : Nat} (h : Over isSettled s a n) (hl : Later s s') :
    Over isSettled s' a n where
  spared := fun r hr => (h.spared r hr).imp (hl.removed _) (hl.given _)
  waiters := fun hsettled r hr call hcall => hl.ended _ (h.waiters hsettled r hr call hcall)

/-- **The next round**: the loop calls the element at its position, or is over. -/
theorem Looping.callAt {a : Arrival ε} {number index : Nat}
    (h : Looping isSettled s a number index none) (hrec : Recorded s)
    (hover : ∀ n a', s.arrivals[n]? = some a' → n ≠ number → Over isSettled s a' n) :
    Listening isSettled (s.callAt a number index) := by
  unfold RpcClient.callAt
  split
  case h_1 hnone =>
    have hempty : s.rest index = [] := by
      rw [RpcClient.rest, drop_eq_nil_iff]
      exact List.getElem?_eq_none_iff.mp hnone
    refine ⟨⟨hrec.ids, hrec.fresh, hrec.givenFresh, hrec.givenNodup, hrec.ordered⟩,
      fun n a' ha' _ => ?_, fun d hd => by cases hd⟩
    by_cases hn : n = number
    · subst hn
      obtain rfl : a = a' := Option.some.inj (h.arrived.symm.trans ha')
      refine ⟨fun r hr => ?_, fun hsettled r hr call hcall => ?_⟩
      · have := h.spared r hr
        rw [hempty] at this
        simpa using this
      · have := h.waiters hsettled r hr call hcall
        rw [hempty] at this
        simpa using this
    · exact (hover n a' ha' hn).later ⟨fun _ => id, fun _ => id, fun _ => id⟩
  case h_2 current hcurrent =>
    obtain ⟨hlt, hget⟩ := List.getElem?_eq_some_iff.mp hcurrent
    have hsplit : s.rest index = current :: s.rest (index + 1) := by
      rw [RpcClient.rest, drop_eq_getElem_cons hlt, hget]
      rfl
    have hmem : current ∈ s.eventListeners := mem_of_getElem? hcurrent
    have hnew : (number, current) ∉ s.given := h.ahead current (by rw [hsplit]; exact mem_cons_self)
    have hnumber : number < s.arrivals.length := by
      rw [h.last]
      omega
    have hnodup : (s.rest index).Nodup := (List.Nodup.of_map _ hrec.ids).sublist (drop_sublist _ _)
    rw [hsplit, nodup_cons] at hnodup
    refine ⟨⟨hrec.ids, hrec.fresh, fun n r hr => ?_, ?_, ?_⟩, fun n a' ha' hn => ?_, fun d hd => ?_⟩
    · rcases List.mem_append.mp hr with hold | hlast
      · exact hrec.givenFresh n r hold
      · cases List.mem_singleton.mp hlast
        exact ⟨hrec.fresh current hmem, hnumber⟩
    · refine List.nodup_append.mpr ⟨hrec.givenNodup, nodup_singleton _, fun x hx y hy => ?_⟩
      rintro rfl
      rw [List.mem_singleton.mp hy] at hx
      exact hnew hx
    · rw [map_append, pairwise_append]
      refine ⟨hrec.ordered, by simp, fun n hn m hm => ?_⟩
      obtain ⟨⟨n', r⟩, hr, rfl⟩ := List.mem_map.mp hn
      have := (hrec.givenFresh n' r hr).2
      simp only [map_cons, map_nil, mem_singleton] at hm
      rw [h.last] at this
      dsimp only
      omega
    · exact (hover n a' ha' (hn _ rfl)).later
        ⟨fun _ => mem_append_left _, fun _ => id, fun _ => id⟩
    · cases hd
      refine ⟨h.arrived, h.last, fun r hr => ?_, fun r hr hgiven => ?_,
        fun hsettled r hr call hcall => ?_⟩
      · rcases h.spared r hr with hleft | hgiven | hrest
        · exact .inl hleft
        · exact .inr (.inl (mem_append_left _ hgiven))
        · rw [hsplit, mem_cons] at hrest
          rcases hrest with rfl | hrest
          · simp
          · exact .inr (.inr hrest)
      · rcases List.mem_append.mp hgiven with hold | hlast
        · exact h.ahead r (by rw [hsplit]; exact mem_cons_of_mem _ hr) hold
        · cases List.mem_singleton.mp hlast
          exact hnodup.1 hr
      · rcases h.waiters hsettled r hr call hcall with hrest | hno | hended
        · rw [hsplit, mem_cons] at hrest
          rcases hrest with rfl | hrest
          · exact .inr (.inl rfl)
          · exact .inl hrest
        · cases hno
        · exact .inr (.inr hended)

namespace Listening

/-- **An event arrives.** -/
theorem deliver (h : Listening isSettled s) (hidle : s.delivery = none) (event : ε) :
    Listening isSettled (s.deliver event) := by
  have hrec := h.recorded
  have hlooping : Looping isSettled { s with arrivals := s.arrivals ++ [⟨event, s.eventListeners⟩] }
      ⟨event, s.eventListeners⟩ s.arrivals.length 0 none := by
    refine ⟨getElem?_concat_length, by simp, fun r hr => .inr (.inr hr), fun r _ hgiven => ?_,
      fun _ r hr _ _ => .inl hr⟩
    exact Nat.lt_irrefl _ (hrec.givenFresh _ r hgiven).2
  refine hlooping.callAt ⟨hrec.ids, hrec.fresh, fun n r hr => ?_, hrec.givenNodup,
    hrec.ordered⟩ fun n a ha hn => ?_
  · obtain ⟨hid, hlt⟩ := hrec.givenFresh n r hr
    refine ⟨hid, ?_⟩
    rw [length_append]
    omega
  · have hlt : n < s.arrivals.length := by
      have := (List.getElem?_eq_some_iff.mp ha).1
      rw [length_append, length_singleton] at this
      omega
    rw [getElem?_append_left hlt] at ha
    have hover := h.finished n a ha fun d hd => by
      rw [hidle] at hd
      cases hd
    exact hover.later ⟨fun _ => id, fun _ => id, fun _ => id⟩

/-- **A listener is added**: it gets the last place. -/
theorem onEvent (h : Listening isSettled s) (listener : Listener) :
    Listening isSettled (s.onEvent listener) := by
  have hrec := h.recorded
  have hnew : ∀ n, (n, (⟨s.registrations, listener⟩ : Registration)) ∉ s.given :=
    fun n hgiven => Nat.lt_irrefl _ (hrec.givenFresh n _ hgiven).1
  have hrest : ∀ index r, r ∈ (s.onEvent listener).rest index →
      r ∈ s.rest index ∨ r = ⟨s.registrations, listener⟩ := by
    intro index r hr
    simp only [RpcClient.rest, RpcClient.onEvent, drop_append, mem_append] at hr
    exact hr.imp id fun hlast => List.mem_singleton.mp (mem_of_mem_drop hlast)
  have hkept : ∀ index r, r ∈ s.rest index → r ∈ (s.onEvent listener).rest index := by
    intro index r hr
    simp only [RpcClient.rest, RpcClient.onEvent, drop_append, mem_append]
    exact .inl hr
  refine ⟨⟨?_, fun r hr => ?_, fun n r hr => ?_, hrec.givenNodup, hrec.ordered⟩,
    fun n a ha hn => ?_, fun d hd => ?_⟩
  · simp only [RpcClient.onEvent, map_append, map_cons, map_nil]
    refine List.nodup_append.mpr ⟨hrec.ids, nodup_singleton _, fun i hi j hj => ?_⟩
    obtain ⟨r, hr, rfl⟩ := List.mem_map.mp hi
    have := hrec.fresh r hr
    rw [mem_singleton] at hj
    omega
  · rcases List.mem_append.mp hr with hold | hlast
    · exact Nat.lt_succ_of_lt (hrec.fresh r hold)
    · rw [List.mem_singleton.mp hlast]
      exact Nat.lt_succ_self _
  · obtain ⟨hid, hlt⟩ := hrec.givenFresh n r hr
    exact ⟨Nat.lt_succ_of_lt hid, hlt⟩
  · exact (h.finished n a ha hn).later ⟨fun _ => id, fun _ => id, fun _ => id⟩
  · have hloop := h.looping d hd
    refine ⟨hloop.arrived, hloop.last, fun r hr => ?_, fun r hr => ?_,
      fun hsettled r hr call hcall => ?_⟩
    · exact (hloop.spared r hr).imp id (Or.imp id (hkept _ r))
    · rcases hrest _ r hr with hold | rfl
      · exact hloop.ahead r hold
      · exact hnew _
    · exact (hloop.waiters hsettled r hr call hcall).imp (hkept _ r) id

end Listening

end ReflectivePi.Rpc
