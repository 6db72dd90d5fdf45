import ReflectivePi.Lib.LabelledRun
import ReflectivePi.Rpc.Delivery
import ReflectivePi.Rpc.Jsonl
import ReflectivePi.Rpc.Requests

/-!
# Rpc — Runs

The runs in which every listener is given every event: those in which no
listener leaves its place, and none throws, before a registered one has been
called. A waiter that ends leaves its place, so that a second waiter behind it
is passed over.
-/

namespace ReflectivePi.Rpc

open List

variable {ε : Type} {s s' : RpcClient ε} {isSettled : ε → Bool} {d : Delivery ε}
  {r : Registration} {label : Label ε}

/-- **The condition of a step**, on the state before it. -/
def meets (isSettled : ε → Bool) (s : RpcClient ε) (label : Label ε) : Bool :=
  match s.delivery with
  | none => true
  | some d =>
    match label with
    | .unsubscribe fn =>
      (s.eventListeners.findIdx? (·.listener = .custom fn)).all fun index =>
        d.index < index || s.tailClear d
    | .returns =>
      match d.current.listener with
      | .custom _ => true
      | .waiter _ => !isSettled d.event || s.tailClear d
    | .throws => s.tailClear d
    | _ => true

/-! ## Listeners that leave -/

theorem later_unsubscribe (s : RpcClient ε) (listener : Listener) :
    Later s (s.unsubscribe listener) := by
  unfold RpcClient.unsubscribe
  split
  · exact ⟨fun _ => id, fun _ => id, fun _ => id⟩
  · refine ⟨fun _ => id, fun entry hentry => ?_, fun _ => id⟩
    dsimp only
    split
    · exact mem_append_left _ hentry
    · exact hentry

@[simp] theorem delivery_unsubscribe (s : RpcClient ε) (listener : Listener) :
    (s.unsubscribe listener).delivery = s.delivery := by
  unfold RpcClient.unsubscribe
  split <;> rfl

@[simp] theorem arrivals_unsubscribe (s : RpcClient ε) (listener : Listener) :
    (s.unsubscribe listener).arrivals = s.arrivals := by
  unfold RpcClient.unsubscribe
  split <;> rfl

@[simp] theorem given_unsubscribe (s : RpcClient ε) (listener : Listener) :
    (s.unsubscribe listener).given = s.given := by
  unfold RpcClient.unsubscribe
  split <;> rfl

theorem rest_unsubscribe {index : Nat} {listener : Listener}
    (h : r ∈ (s.unsubscribe listener).rest index) : r ∈ s.rest index := by
  unfold RpcClient.unsubscribe at h
  split at h
  · exact h
  · exact mem_drop_of_eraseIdx h

theorem Recorded.unsubscribe (h : Recorded s) (listener : Listener) :
    Recorded (s.unsubscribe listener) := by
  unfold RpcClient.unsubscribe
  split
  · exact h
  · refine ⟨?_, fun r hr => h.fresh r (mem_of_mem_eraseIdx hr), h.givenFresh, h.givenNodup,
      h.ordered⟩
    exact h.ids.sublist ((eraseIdx_sublist _ _).map _)

/-- A listener that leaves from behind the position of the loop is the only one
that leaves. -/
theorem rest_kept {listener : Listener} (hdelivery : s.delivery = some d)
    (hindex : ∀ index, s.eventListeners.findIdx? (·.listener = listener) = some index →
      d.index < index) (hr : r ∈ s.rest (d.index + 1)) :
    (r.listener = listener ∧ (d.number, r) ∈ (s.unsubscribe listener).removed) ∨
      r ∈ (s.unsubscribe listener).rest (d.index + 1) := by
  unfold RpcClient.unsubscribe
  split
  case h_1 => exact .inr hr
  case h_2 index hfound =>
    by_cases heq : s.eventListeners[index]? = some r
    · left
      have hlt := (List.getElem?_eq_some_iff.mp heq).1
      have hget := (List.getElem?_eq_some_iff.mp heq).2
      have hlistener := (List.findIdx?_eq_some_iff_getElem.mp hfound).2.1
      rw [hget, decide_eq_true_eq] at hlistener
      refine ⟨hlistener, ?_⟩
      simp only [hdelivery, heq]
      simp
    · exact .inr (mem_drop_eraseIdx hr (hindex index hfound) heq)

/-- **A listener leaves** with nothing lost. -/
theorem Looping.unsubscribe {listener : Listener} (hdelivery : s.delivery = some d)
    (h : Looping isSettled s d.toArrival d.number (d.index + 1) (some d.current))
    (hcustom : ∀ call, listener ≠ .waiter call)
    (hok : ((s.eventListeners.findIdx? (·.listener = listener)).all fun index =>
      d.index < index || s.tailClear d) = true) :
    Looping isSettled (s.unsubscribe listener) d.toArrival d.number (d.index + 1)
      (some d.current) := by
  have hlater := later_unsubscribe s listener
  have hkept : ∀ r ∈ d.registered, r ∈ s.rest (d.index + 1) →
      (r.listener = listener ∧ (d.number, r) ∈ (s.unsubscribe listener).removed) ∨
        r ∈ (s.unsubscribe listener).rest (d.index + 1) := by
    intro r hr hrest
    by_cases hclear : s.tailClear d = true
    · exact absurd hrest (RpcClient.tailClear_spec hclear hr)
    · refine rest_kept hdelivery (fun index hfound => ?_) hrest
      simpa [hfound, hclear] using hok
  refine ⟨?_, ?_, fun r hr => ?_, fun r hr => ?_, fun hsettled r hr call hcall => ?_⟩
  · rw [arrivals_unsubscribe]
    exact h.arrived
  · rw [arrivals_unsubscribe]
    exact h.last
  · rcases h.spared r hr with hleft | hgiven | hrest
    · exact .inl (hlater.removed _ hleft)
    · exact .inr (.inl (hlater.given _ hgiven))
    · rcases hkept r hr hrest with ⟨-, hleft⟩ | hstays
      · exact .inl hleft
      · exact .inr (.inr hstays)
  · rw [given_unsubscribe]
    exact h.ahead r (rest_unsubscribe hr)
  · rcases h.waiters hsettled r hr call hcall with hrest | hcurrent | hended
    · rcases hkept r hr hrest with ⟨heq, -⟩ | hstays
      · exact absurd (heq.symm.trans hcall) (hcustom call)
      · exact .inl hstays
    · exact .inr (.inl hcurrent)
    · exact .inr (.inr (hlater.ended _ hended))

/-- With nobody left to call, the loop goes on in any state that is later. -/
theorem Looping.ofClear {number index : Nat}
    (h : Looping isSettled s d.toArrival d.number (d.index + 1) (some d.current))
    (hclear : s.tailClear d = true) (hlater : Later s s') (harrivals : s'.arrivals = s.arrivals)
    (hrest : ∀ r ∈ s'.rest index, (d.number, r) ∉ s'.given)
    (hcurrent : isSettled d.event = true → ∀ call, d.current.listener = .waiter call →
      call ∈ s'.ended) (hnumber : number = d.number) :
    Looping isSettled s' d.toArrival number index none := by
  subst hnumber
  refine ⟨?_, ?_, fun r hr => ?_, hrest, fun hsettled r hr call hcall => ?_⟩
  · rw [harrivals]
    exact h.arrived
  · rw [harrivals]
    exact h.last
  · rcases h.spared r hr with hleft | hgiven | hno
    · exact .inl (hlater.removed _ hleft)
    · exact .inr (.inl (hlater.given _ hgiven))
    · exact absurd hno (RpcClient.tailClear_spec hclear hr)
  · rcases h.waiters hsettled r hr call hcall with hno | heq | hended
    · exact absurd hno (RpcClient.tailClear_spec hclear hr)
    · cases heq
      exact .inr (.inr (hcurrent hsettled call hcall))
    · exact .inr (.inr (hlater.ended _ hended))

namespace Listening

section

variable (h : Listening isSettled s)

include h

theorem unsubscribe {listener : Listener}
    (hidle : s.delivery = none ∨ ∀ call, listener ≠ .waiter call)
    (hok : ∀ d, s.delivery = some d →
      ((s.eventListeners.findIdx? (·.listener = listener)).all fun index =>
        d.index < index || s.tailClear d) = true) :
    Listening isSettled (s.unsubscribe listener) := by
  refine ⟨h.recorded.unsubscribe listener, fun n a ha hn => ?_, fun d hd => ?_⟩
  · rw [arrivals_unsubscribe] at ha
    rw [delivery_unsubscribe] at hn
    exact (h.finished n a ha hn).later (later_unsubscribe s listener)
  · rw [delivery_unsubscribe] at hd
    rcases hidle with hnone | hcustom
    · rw [hnone] at hd
      cases hd
    · exact (h.looping d hd).unsubscribe hd hcustom (hok d hd)

/-- The loops that are over, apart from the one that goes on. -/
theorem others (hd : s.delivery = some d) (hlater : Later s s')
    (harrivals : s'.arrivals = s.arrivals) (n : Nat) (a : Arrival ε)
    (ha : s'.arrivals[n]? = some a) (hn : n ≠ d.number) : Over isSettled s' a n := by
  rw [harrivals] at ha
  refine (h.finished n a ha fun d' hd' => ?_).later hlater
  rw [hd] at hd'
  cases hd'
  exact hn

/-- **A called listener is done.** -/
theorem returnCall (hd : s.delivery = some d)
    (hok : meets isSettled s .returns = true) : Listening isSettled (s.returnCall isSettled d) := by
  have hloop := h.looping d hd
  have hgoesOn : (∀ call, isSettled d.event = true → d.current.listener ≠ .waiter call) →
      Listening isSettled (s.callAt d.toArrival d.number (d.index + 1)) := by
    intro hnot
    refine Looping.callAt ⟨hloop.arrived, hloop.last, hloop.spared, hloop.ahead, ?_⟩ h.recorded
      (h.others hd ⟨fun _ => id, fun _ => id, fun _ => id⟩ rfl)
    intro hsettled r hr call hcall
    rcases hloop.waiters hsettled r hr call hcall with hrest | heq | hended
    · exact .inl hrest
    · cases heq
      exact absurd hcall (hnot call hsettled)
    · exact .inr (.inr hended)
  unfold RpcClient.returnCall
  split
  case h_1 fn hcustom =>
    refine hgoesOn fun call _ hwaiter => ?_
    rw [hcustom] at hwaiter
    cases hwaiter
  case h_2 call hwaiter =>
    split
    case isFalse hno => exact hgoesOn fun _ hsettled => absurd hsettled hno
    case isTrue hsettled =>
      have hclear : s.tailClear d = true := by
        simpa [meets, hd, hwaiter, hsettled] using hok
      have hunsubscribed := later_unsubscribe s d.current.listener
      let left := s.unsubscribe d.current.listener
      let t : RpcClient ε := { left with
          waiterTimers := left.waiterTimers.filter (· ≠ call)
          ended := left.ended ++ [call] }
      have hlater : Later s t := by
        refine ⟨hunsubscribed.given, hunsubscribed.removed, fun c hc => ?_⟩
        exact mem_append_left _ (hunsubscribed.ended c hc)
      have hrec := h.recorded.unsubscribe d.current.listener
      have hlooping : Looping isSettled t d.toArrival d.number (d.index + 1) none := by
        refine hloop.ofClear hclear hlater (arrivals_unsubscribe s _) (fun r hr => ?_)
          (fun _ c hc => ?_) rfl
        · show (d.number, r) ∉ left.given
          rw [given_unsubscribe]
          exact hloop.ahead r (rest_unsubscribe hr)
        · rw [hwaiter] at hc
          cases hc
          exact mem_append_right _ mem_cons_self
      refine hlooping.callAt ⟨hrec.ids, hrec.fresh, hrec.givenFresh, hrec.givenNodup,
        hrec.ordered⟩ ?_
      exact h.others hd hlater (arrivals_unsubscribe s _)

/-- **A listener throws**, and the loop is over. -/
theorem throws (hd : s.delivery = some d)
    (hclear : s.tailClear d = true) (hruns : s.callerRuns = true) :
    Listening isSettled { s with delivery := none } := by
  have hrec := h.recorded
  have hloop := h.looping d hd
  refine ⟨⟨hrec.ids, hrec.fresh, hrec.givenFresh, hrec.givenNodup, hrec.ordered⟩,
    fun n a ha _ => ?_, fun d' hd' => by cases hd'⟩
  by_cases hn : n = d.number
  · subst hn
    obtain rfl : d.toArrival = a := Option.some.inj (hloop.arrived.symm.trans ha)
    refine ⟨fun r hr => ?_, fun hsettled r hr call hcall => ?_⟩
    · rcases hloop.spared r hr with hleft | hgiven | hno
      · exact .inl hleft
      · exact .inr hgiven
      · exact absurd hno (RpcClient.tailClear_spec hclear hr)
    · rcases hloop.waiters hsettled r hr call hcall with hno | heq | hended
      · exact absurd hno (RpcClient.tailClear_spec hclear hr)
      · cases heq
        rw [RpcClient.callerRuns, hd] at hruns
        simp [hcall] at hruns
      · exact hended
  · have hother : Over isSettled s a n :=
      h.others hd ⟨fun _ => id, fun _ => id, fun _ => id⟩ rfl n a ha hn
    exact hother.later ⟨fun _ => id, fun _ => id, fun _ => id⟩

theorem congr (hlisteners : s'.eventListeners = s.eventListeners)
    (hregistrations : s'.registrations = s.registrations) (hdelivery : s'.delivery = s.delivery)
    (harrivals : s'.arrivals = s.arrivals) (hgiven : s'.given = s.given)
    (hremoved : s'.removed = s.removed) (hended : s'.ended = s.ended) : Listening isSettled s' := by
  have hrec := h.recorded
  have hlater : Later s s' := by
    refine ⟨?_, ?_, ?_⟩
    · rw [hgiven]
      exact fun _ => id
    · rw [hremoved]
      exact fun _ => id
    · rw [hended]
      exact fun _ => id
  have hrest : ∀ index, s'.rest index = s.rest index := by
    intro index
    rw [RpcClient.rest, RpcClient.rest, hlisteners]
  refine ⟨⟨?_, ?_, ?_, ?_, ?_⟩, fun n a ha hn => ?_, fun d hd => ?_⟩
  · rw [hlisteners]
    exact hrec.ids
  · rw [hlisteners, hregistrations]
    exact hrec.fresh
  · rw [hgiven, hregistrations, harrivals]
    exact hrec.givenFresh
  · rw [hgiven]
    exact hrec.givenNodup
  · rw [hgiven]
    exact hrec.ordered
  · rw [harrivals] at ha
    rw [hdelivery] at hn
    exact (h.finished n a ha hn).later hlater
  · rw [hdelivery] at hd
    have hloop := h.looping d hd
    refine ⟨?_, ?_, ?_, ?_, ?_⟩
    · rw [harrivals]
      exact hloop.arrived
    · rw [harrivals]
      exact hloop.last
    · rw [hremoved, hgiven, hrest]
      exact hloop.spared
    · rw [hrest, hgiven]
      exact hloop.ahead
    · rw [hrest, hended]
      exact hloop.waiters

end

theorem initial : Listening isSettled (ε := ε) {} := by
  refine ⟨⟨nodup_nil, fun r hr => ?_, fun n r hr => ?_, nodup_nil, List.Pairwise.nil⟩,
    fun n a ha _ => ?_, fun d hd => ?_⟩
  · cases hr
  · cases hr
  · simp at ha
  · cases hd

theorem send (h : Listening isSettled s) (usable : Bool) : Listening isSettled (s.send usable) := by
  unfold RpcClient.send
  split
  · exact h
  · split
    · exact h.congr rfl rfl rfl rfl rfl rfl rfl
    · exact h.congr rfl rfl rfl rfl rfl rfl rfl

theorem handleLine (h : Listening isSettled s) (hidle : s.delivery = none) (line : Line ε) :
    Listening isSettled (s.handleLine line) := by
  unfold RpcClient.handleLine
  split
  · split
    · exact h.congr rfl rfl rfl rfl rfl rfl rfl
    · exact h.deliver hidle _
  · exact h.deliver hidle _
  · exact h.deliver hidle _
  · exact h

/-- **Every step** that meets the condition keeps the listeners served. -/
theorem step (h : Listening isSettled s) (hok : meets isSettled s label = true)
    (hstep : Rpc.step isSettled s label = some s') : Listening isSettled s' := by
  cases label with
  | send usable =>
    simp only [Rpc.step] at hstep
    split at hstep <;> cases hstep
    exact h.send usable
  | subscribe fn =>
    simp only [Rpc.step] at hstep
    split at hstep <;> cases hstep
    exact h.onEvent _
  | unsubscribe fn =>
    simp only [Rpc.step] at hstep
    split at hstep <;> cases hstep
    refine h.unsubscribe (.inr fun call hno => by cases hno) fun d hd => ?_
    simpa only [meets, hd] using hok
  | wait =>
    simp only [Rpc.step] at hstep
    split at hstep <;> cases hstep
    exact (h.onEvent _).congr rfl rfl rfl rfl rfl rfl rfl
  | line line =>
    simp only [Rpc.step] at hstep
    split at hstep
    case isFalse => cases hstep
    case isTrue hidle =>
      cases hstep
      exact h.handleLine (Option.isNone_iff_eq_none.mp hidle) line
  | returns =>
    obtain ⟨d, hd, rfl⟩ := Option.map_eq_some_iff.mp hstep
    exact h.returnCall hd hok
  | throws =>
    simp only [Rpc.step] at hstep
    split at hstep
    case h_1 => cases hstep
    case h_2 d hd =>
      split at hstep
      case isFalse => cases hstep
      case isTrue hruns =>
        cases hstep
        refine h.throws hd ?_ hruns
        simpa only [meets, hd] using hok
  | waitTimeout call =>
    simp only [Rpc.step] at hstep
    split at hstep
    case isFalse => cases hstep
    case isTrue hidle =>
      cases hstep
      rw [Bool.and_eq_true, Option.isNone_iff_eq_none] at hidle
      have hleft : Listening isSettled (s.unsubscribe (.waiter call)) :=
        h.unsubscribe (.inl hidle.1) fun d hd => by
          rw [hidle.1] at hd
          cases hd
      exact hleft.congr rfl rfl rfl rfl rfl rfl rfl
  | _ =>
    simp only [Rpc.step] at hstep
    split at hstep <;> cases hstep
    exact h.congr rfl rfl rfl rfl rfl rfl rfl

end Listening

/-! ## Every run under the condition -/

/-- **What a client owes its caller.** A request is settled once or its timer is
set, and a response settles its own request only. An event that has been handed
on was given once, and in the order of arrival, to everyone who was registered
then and did not leave meanwhile; a waiter that was registered when the agent
settled has ended. -/
structure Proper (isSettled : ε → Bool) (s : RpcClient ε) : Prop where
  once : ∀ id, 0 < id → id ≤ s.requestId →
    ((s.outcomes id).length = 1 ∧ id ∉ s.timers) ∨ (s.outcomes id = [] ∧ id ∈ s.timers)
  own : ∀ id bearing, (id, .response bearing) ∈ s.settled → bearing = id
  given : ∀ n a, s.arrivals[n]? = some a → (∀ d, s.delivery = some d → n ≠ d.number) →
    ∀ r ∈ a.registered, (n, r) ∉ s.removed → s.given.count (n, r) = 1
  neverTwice : s.given.Nodup
  inOrder : (s.given.map Prod.fst).Pairwise (· ≤ ·)
  waiters : ∀ n a, s.arrivals[n]? = some a → (∀ d, s.delivery = some d → n ≠ d.number) →
    isSettled a.event = true → ∀ r ∈ a.registered, ∀ call, r.listener = .waiter call →
      call ∈ s.ended

theorem Proper.of_invariants (hrequests : Requests s) (h : Listening isSettled s) :
    Proper isSettled s where
  once := by
    intro id hpos hle
    have honce := hrequests.once id hpos hle
    by_cases hset : id ∈ s.timers
    · rw [if_pos hset] at honce
      exact .inr ⟨List.length_eq_zero_iff.mp honce, hset⟩
    · rw [if_neg hset] at honce
      exact .inl ⟨honce, hset⟩
  own := hrequests.own
  given := by
    intro n a ha hn r hr hstays
    have hgiven := ((h.finished n a ha hn).spared r hr).resolve_left hstays
    rw [h.recorded.givenNodup.count, if_pos hgiven]
  neverTwice := h.recorded.givenNodup
  inOrder := h.recorded.ordered
  waiters := fun n a ha hn => (h.finished n a ha hn).waiters

/-- **Lines come back as they were written**, and under the condition every
request and every event is dealt with. -/
theorem client_proper (isSettled : ε → Bool) :
    (∀ {ν : Type} (json : Stringify ν) (records : List ν) (pieces : List (List UInt16)),
      pieces.flatten = records.flatMap (serializeJsonLine json) →
        readLines pieces [] = records.map json.stringify) ∧
    ∀ s, Run (· = {}) (step isSettled) (fun s label => meets isSettled s label = true) s →
      Proper isSettled s := by
  refine ⟨fun json records pieces h => readLines_records json records pieces h, fun s h => ?_⟩
  have hboth : Requests s ∧ Listening isSettled s := by
    refine h.invariant (p := fun s => Requests s ∧ Listening isSettled s) ?_ ?_
    · rintro _ rfl
      exact ⟨.initial, .initial⟩
    · rintro s label s' ⟨hrequests, hlistening⟩ hok hstep
      exact ⟨hrequests.step hstep, hlistening.step hok hstep⟩
  exact .of_invariants hboth.1 hboth.2

/-- The values `true` and `false`. -/
def booleans : Stringify Bool where
  stringify v := if v then [116, 114, 117, 101] else [102, 97, 108, 115, 101]
  newline_notMem := by decide
  carriageReturn_notMem := by decide

/-- Requests that are answered, time out or lose their process, and an event that
adds a listener and takes one away before a waiter ends as the last one. Event 1
is that of a settled agent. -/
def servedRun : List (Label Nat) :=
  [.start, .subscribe 7, .subscribe 8, .subscribe 9, .wait, .send true, .send true, .send true,
    .line (.event 0), .subscribe 7, .unsubscribe 9, .returns, .returns, .returns, .returns,
    .line (.response (some 1) 0), .timeout 2, .unsubscribe 7, .unsubscribe 7,
    .line (.event 1), .returns, .returns, .exit, .stopped]

theorem client_proper_sample :
    readLines [[116, 114], [117, 101, 10, 102, 97], [108, 115, 101, 10]] []
        = [[116, 114, 117, 101], [102, 97, 108, 115, 101]] ∧
      Proper (· = 1) (Run.afterAll (step (· = 1)) {} servedRun) :=
  ⟨(client_proper (· = 1)).1 booleans [true, false] _ rfl,
    (client_proper (· = 1)).2 _ (.of_check (.init rfl) (by decide +kernel))⟩

/-- Two calls of `waitForIdle`, and the event of a settled agent. -/
def twoWaitersRun : List (Label Nat) :=
  [.start, .wait, .wait, .line (.event 1), .returns]

/-- A listener that throws before another one. -/
def throwingRun : List (Label Nat) :=
  [.start, .subscribe 7, .subscribe 8, .line (.event 0), .throws]

/-- Whatever the listeners do, a request is settled once or its timer is set. -/
theorem requests_always (h : Run (· = {}) (step isSettled) (fun _ _ => True) s) : Requests s := by
  refine h.invariant (p := Requests) ?_ fun _ _ _ hrequests _ hstep => hrequests.step hstep
  rintro _ rfl
  exact .initial

theorem requests_always_throwing : Requests (Run.afterAll (step (· = 1)) {} throwingRun) :=
  requests_always (.of_check (.init rfl) (by decide +kernel))

/-- **A listener is passed over**: the second waiter does not end, and a listener
behind one that throws is not given the event. -/
theorem client_improper :
    (∃ s : RpcClient Nat, Run (· = {}) (step (· = 1)) (fun _ _ => True) s ∧
      s.delivery = none ∧ s.arrivals[0]? = some ⟨1, [⟨0, .waiter 0⟩, ⟨1, .waiter 1⟩]⟩ ∧
        1 ∉ s.ended) ∧
    ∃ s : RpcClient Nat, Run (· = {}) (step (· = 1)) (fun _ _ => True) s ∧ ¬ Proper (· = 1) s := by
  refine ⟨⟨Run.afterAll (step (· = 1)) {} twoWaitersRun,
    .of_check (.init rfl) (by decide +kernel), by decide +kernel⟩,
    Run.afterAll (step (· = 1)) {} throwingRun, .of_check (.init rfl) (by decide +kernel),
    fun h => ?_⟩
  have hgiven := h.given 0 ⟨0, [⟨0, .custom 7⟩, ⟨1, .custom 8⟩]⟩ (by decide +kernel)
    (by decide +kernel) ⟨1, .custom 8⟩ (by decide +kernel) (by decide +kernel)
  revert hgiven
  decide +kernel

end ReflectivePi.Rpc
