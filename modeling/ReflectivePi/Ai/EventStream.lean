import Mathlib.Data.List.Nodup
import Mathlib.Data.List.ReduceOption
import Mathlib.Logic.Function.Basic
import ReflectivePi.Lib.LabelledRun

/-!
# Ai — the event stream

Producers push events, any number of iterators take them. An iterator is an
async generator: its calls of `next` are served one after another, and what a
call returns is settled a moment after the stream has handed it over. Which
iterator an event was handed to is kept in `handed`, what the producers called
in `calls`.
-/

namespace ReflectivePi.Ai

open List

/-- A queue on two stacks; the head of a list is the top of its stack. -/
structure FifoQueue (α : Type) where
  incoming : List α := []
  outgoing : List α := []

namespace FifoQueue

variable {α : Type} (q : FifoQueue α)

def toList : List α := q.outgoing ++ q.incoming.reverse

def length : Nat := q.incoming.length + q.outgoing.length

def enqueue (value : α) : FifoQueue α := { q with incoming := value :: q.incoming }

def dequeue : Option α × FifoQueue α :=
  let q := if q.outgoing.length = 0 then { outgoing := q.incoming.reverse } else q
  match q.outgoing with
  | [] => (none, q)
  | value :: rest => (some value, { q with outgoing := rest })

@[simp] theorem toList_enqueue (value : α) : (q.enqueue value).toList = q.toList ++ [value] := by
  simp [toList, enqueue]

theorem length_eq : q.length = q.toList.length := by
  simp [length, toList, Nat.add_comm]

/-- **What is dequeued is the oldest value.** -/
theorem dequeue_cases :
    (q.toList = [] ∧ q.dequeue.1 = none) ∨
      ∃ value rest, q.dequeue = (some value, rest) ∧ q.toList = value :: rest.toList := by
  obtain ⟨incoming, outgoing⟩ := q
  cases outgoing with
  | cons value rest => exact .inr ⟨value, _, rfl, by simp [toList]⟩
  | nil =>
    cases hlist : incoming.reverse with
    | nil => exact .inl ⟨by simpa [toList] using hlist, by simp [dequeue, hlist]⟩
    | cons value rest =>
      exact .inr ⟨value, ⟨[], rest⟩, by simp [dequeue, hlist], by simp [toList, hlist]⟩

end FifoQueue

namespace EventStream

variable {T : Type}

inductive Phase (T : Type) where
  /-- The generator has not started, or is suspended at a `yield`. -/
  | idle
  /-- Its waiter is in the queue. -/
  | awaiting
  /-- The call is about to return this event, or that the generator is done. -/
  | settling (result : Option T)
  | finished

structure Iterator (T : Type) where
  phase : Phase T := .idle
  /-- The calls of `next` that have not returned. -/
  requests : Nat := 0
  returned : List (Option T) := []

inductive Call (T : Type) where
  | push (event : T)
  | end_

structure Stream (T : Type) where
  queue : FifoQueue T := {}
  waiting : FifoQueue Nat := {}
  done : Bool := false
  iterators : Nat → Iterator T := fun _ => {}
  calls : List (Call T) := []
  handed : List (Nat × T) := []

variable (isComplete : T → Bool) (s : Stream T) (i : Nat)

def setIterator (iterator : Iterator T) : Stream T :=
  { s with iterators := Function.update s.iterators i iterator }

def setPhase (phase : Phase T) : Stream T := setIterator s i { s.iterators i with phase }

def give (event : T) : Stream T :=
  { setPhase s i (.settling (some event)) with handed := s.handed ++ [(i, event)] }

/-- The loop of the generator up to its next `yield`, `return` or `await`. -/
def advance : Stream T :=
  match s.queue.dequeue with
  | (some event, queue) => give { s with queue } i event
  | (none, _) =>
    if s.done then setPhase s i (.settling none)
    else { setPhase s i .awaiting with waiting := s.waiting.enqueue i }

def push (event : T) : Stream T :=
  if s.done then s
  else
    let s := { s with done := isComplete event }
    match s.waiting.dequeue with
    | (some waiter, waiting) => give { s with waiting } waiter event
    | (none, _) => { s with queue := s.queue.enqueue event }

def end_ : Stream T :=
  { s with
    done := true
    waiting := {}
    iterators := fun i =>
      if i ∈ s.waiting.toList then { s.iterators i with phase := .settling none }
      else s.iterators i }

def next : Stream T :=
  let iterator := s.iterators i
  match iterator.phase with
  | .finished => setIterator s i { iterator with returned := iterator.returned ++ [none] }
  | _ =>
    let called := setIterator s i { iterator with requests := iterator.requests + 1 }
    if iterator.requests = 0 then advance called i else called

/-- The current call of `next` returns. -/
def settle : Option (Stream T) :=
  let iterator := s.iterators i
  match iterator.phase with
  | .settling (some event) =>
    let settled := setIterator s i { iterator with
      phase := .idle
      requests := iterator.requests - 1
      returned := iterator.returned ++ [some event] }
    some (if iterator.requests - 1 = 0 then settled else advance settled i)
  | .settling none =>
    some (setIterator s i {
      phase := .finished
      returned := iterator.returned ++ List.replicate iterator.requests none })
  | _ => none

inductive Label (T : Type) where
  | push (event : T)
  | end_
  | next (i : Nat)
  | settle (i : Nat)

def step : Label T → Option (Stream T)
  | .push event => some { push isComplete s event with calls := s.calls ++ [.push event] }
  | .end_ => some { end_ s with calls := s.calls ++ [.end_] }
  | .next i => some (next s i)
  | .settle i => settle s i

/-! ## What is promised -/

/-- The events pushed up to the first terminal one, or to the end. -/
def accepted : List (Call T) → List T
  | [] => []
  | .push event :: calls => if isComplete event then [event] else event :: accepted calls
  | .end_ :: _ => []

def closed : List (Call T) → Bool
  | [] => false
  | .push event :: calls => isComplete event || closed calls
  | .end_ :: _ => true

def handedTo (handed : List (Nat × T)) (i : Nat) : List T :=
  (handed.filter fun pair => pair.1 = i).map Prod.snd

def Phase.inFlight : Phase T → List T
  | .settling (some event) => [event]
  | _ => []

structure Delivers : Prop where
  /-- Handed over in the order they were pushed in, each to one iterator. -/
  inOrder : s.handed.map Prod.snd ++ s.queue.toList = accepted isComplete s.calls
  /-- An iterator returns what it was handed. -/
  own : ∀ i, (s.iterators i).returned.reduceOption ++ (s.iterators i).phase.inFlight =
    handedTo s.handed i
  /-- All calls return, those with no event that they are done. -/
  returns : s.done = true → s.queue.toList = [] → ∀ i,
    Inevitable (step isComplete) (fun | .settle j => j = i | _ => false)
      (fun s' => (s'.iterators i).requests = 0 ∧ s'.handed = s.handed) s

/-- A terminal event that ends the stream meets at most one waiter. -/
def Quiet : Label T → Prop
  | .push event => s.done = false → isComplete event = true → s.waiting.length ≤ 1
  | _ => True

instance : ∀ label, Decidable (Quiet isComplete s label)
  | .push _ => inferInstanceAs (Decidable (_ → _ → _))
  | .end_ | .next _ | .settle _ => .isTrue trivial

/-! ## The invariant -/

variable {isComplete s i} {s' : Stream T} {event : T} {iterator : Iterator T}

@[simp] theorem iterators_self : (setIterator s i iterator).iterators i = iterator :=
  Function.update_self ..

theorem iterators_ne {j : Nat} (h : j ≠ i) :
    (setIterator s i iterator).iterators j = s.iterators j := Function.update_of_ne h ..

theorem closed_concat (calls : List (Call T)) (call : Call T) :
    closed isComplete (calls ++ [call]) =
      (closed isComplete calls || closed isComplete [call]) := by
  induction calls with
  | nil => rfl
  | cons first calls ih =>
    cases first with
    | push event => simp only [cons_append, closed, ih, Bool.or_assoc]
    | end_ => rfl

theorem accepted_concat (calls : List (Call T)) (call : Call T) :
    accepted isComplete (calls ++ [call]) = accepted isComplete calls ++
      if closed isComplete calls then [] else accepted isComplete [call] := by
  induction calls with
  | nil => rfl
  | cons first calls ih =>
    cases first with
    | push event =>
      simp only [cons_append, accepted, closed, ih]
      by_cases hevent : isComplete event = true <;> simp [hevent]
    | end_ => rfl

/-- What is said of the stream without its iterators. -/
structure Base (isComplete : T → Bool) (s : Stream T) : Prop where
  empty : s.waiting.toList ≠ [] → s.queue.toList = [] ∧ s.done = false
  nodup : s.waiting.toList.Nodup
  closed : s.done = closed isComplete s.calls
  inOrder : s.handed.map Prod.snd ++ s.queue.toList = accepted isComplete s.calls

/-- What is said of one iterator. -/
structure Own (waiting : List Nat) (handed : List (Nat × T)) (i : Nat)
    (iterator : Iterator T) : Prop where
  own : iterator.returned.reduceOption ++ iterator.phase.inFlight = handedTo handed i
  waits : i ∈ waiting ↔ iterator.phase = .awaiting
  requests : iterator.requests = 0 ↔ iterator.phase = .idle ∨ iterator.phase = .finished

structure Inv (isComplete : T → Bool) (s : Stream T) : Prop where
  base : Base isComplete s
  own : ∀ i, Own s.waiting.toList s.handed i (s.iterators i)

/-- The generator of `i` runs. -/
structure Runs (s : Stream T) (i : Nat) : Prop where
  own : ∀ j, j ≠ i → Own s.waiting.toList s.handed j (s.iterators j)
  returned : (s.iterators i).returned.reduceOption = handedTo s.handed i
  waits : i ∉ s.waiting.toList
  requests : (s.iterators i).requests ≠ 0

/-- The generator stops in a phase; it was handed an event, or nothing. -/
theorem Runs.inv (h : Runs s i) (hbase : Base isComplete s') (phase : Phase T)
    (hi : s'.iterators = Function.update s.iterators i { s.iterators i with phase })
    (hwaiting : ∀ j, j ∈ s'.waiting.toList ↔ j ∈ s.waiting.toList ∨ j = i ∧ phase = .awaiting)
    (hhanded : s'.handed = s.handed ++ phase.inFlight.map (i, ·))
    (hphase : phase ≠ .idle ∧ phase ≠ .finished) : Inv isComplete s' := by
  have hto : ∀ j, handedTo s'.handed j =
      handedTo s.handed j ++ if i = j then phase.inFlight else [] := by
    intro j
    rw [hhanded]
    by_cases hij : i = j <;> simp [handedTo, filter_map, Function.comp_def, hij]
  refine ⟨hbase, fun j => ?_⟩
  rw [hi]
  by_cases hij : j = i
  · subst hij
    rw [Function.update_self]
    refine ⟨?_, ?_, iff_of_false h.requests (not_or.mpr hphase)⟩
    · rw [hto, if_pos rfl, ← h.returned]
    · rw [hwaiting]
      simp [h.waits]
  · rw [Function.update_of_ne hij]
    obtain ⟨hown, hwaits, hrequests⟩ := h.own j hij
    refine ⟨?_, ?_, hrequests⟩
    · rw [hto, if_neg fun heq => hij heq.symm, append_nil, hown]
    · rw [hwaiting, ← hwaits]
      simp [hij]

theorem inv_advance (hbase : Base isComplete s) (h : Runs s i) : Inv isComplete (advance s i) := by
  obtain ⟨hempty, hnodup, hclosed, hinOrder⟩ := hbase
  unfold advance
  rcases s.queue.dequeue_cases with ⟨hqueue, hnone⟩ | ⟨event, queue, hsome, hqueue⟩
  · split
    · rename_i heq
      rw [heq] at hnone
      cases hnone
    · split
      · refine h.inv ⟨hempty, hnodup, hclosed, hinOrder⟩ _ rfl (fun j => ?_) ?_ ⟨nofun, nofun⟩
        · simp [setPhase, setIterator]
        · exact (append_nil _).symm
      · rename_i hopen
        refine h.inv ⟨fun _ => ⟨hqueue, Bool.eq_false_iff.mpr hopen⟩, ?_, hclosed, hinOrder⟩ _ rfl
          (fun j => ?_) (append_nil _).symm ⟨nofun, nofun⟩
        · rw [FifoQueue.toList_enqueue]
          exact List.nodup_append_comm.mp (List.nodup_cons.mpr ⟨h.waits, hnodup⟩)
        · simp
  · rw [hsome]
    have hwaiting : s.waiting.toList = [] := by
      by_contra hne
      rw [(hempty hne).1] at hqueue
      cases hqueue
    refine h.inv ⟨fun hne => absurd hwaiting hne, hnodup, hclosed, ?_⟩ _ rfl (fun j => ?_) rfl
      ⟨nofun, nofun⟩
    · refine Eq.trans ?_ hinOrder
      simp [give, setPhase, EventStream.setIterator, hqueue]
    · simp [give, setPhase, setIterator]

/-! ## The steps -/

theorem Inv.push (h : Inv isComplete s) (event : T) (hquiet : Quiet isComplete s (.push event)) :
    Inv isComplete { push isComplete s event with calls := s.calls ++ [.push event] } := by
  obtain ⟨⟨hempty, hnodup, hclosed, hinOrder⟩, hown⟩ := h
  unfold EventStream.push
  cases hdone : s.done with
  | true =>
    rw [if_pos rfl]
    rw [hdone] at hclosed hempty
    refine ⟨⟨fun hne => absurd (hempty hne).2 nofun, hnodup, ?_, ?_⟩, fun i => hown i⟩
    · rw [closed_concat, ← hclosed]
      exact hdone
    · rw [accepted_concat, ← hclosed, if_pos rfl, append_nil]
      exact hinOrder
  | false =>
    rw [if_neg Bool.false_ne_true]
    rw [hdone] at hclosed
    have hclosed' : isComplete event = closed isComplete (s.calls ++ [.push event]) := by
      rw [closed_concat, ← hclosed]
      simp [closed]
    have haccepted : accepted isComplete (s.calls ++ [.push event]) =
        accepted isComplete s.calls ++ [event] := by
      rw [accepted_concat, ← hclosed]
      simp [accepted]
    rcases s.waiting.dequeue_cases with ⟨hwaiting, hnone⟩ | ⟨waiter, waiting, hsome, hwaiting⟩
    · dsimp only
      split
      · rename_i heq
        rw [heq] at hnone
        cases hnone
      · refine ⟨⟨fun hne => absurd hwaiting hne, hnodup, hclosed', ?_⟩, fun i => hown i⟩
        rw [FifoQueue.toList_enqueue, haccepted, ← hinOrder, append_assoc]
    · dsimp only
      rw [hsome]
      have hqueue := (hempty (by simp [hwaiting])).1
      rw [hwaiting, nodup_cons] at hnodup
      have hwaits := (hown waiter).waits.mp (by simp [hwaiting])
      have hruns : Runs { s with waiting } waiter := by
        refine ⟨fun j hj => ?_, ?_, hnodup.1, fun hzero => ?_⟩
        · refine ⟨(hown j).own, ?_, (hown j).requests⟩
          rw [← (hown j).waits, hwaiting, mem_cons]
          simp [hj]
        · rw [← (hown waiter).own, hwaits]
          exact (append_nil _).symm
        · have hphase := (hown waiter).requests.mp hzero
          rw [hwaits] at hphase
          rcases hphase with hphase | hphase <;> cases hphase
      refine hruns.inv ⟨fun hne => ⟨hqueue, ?_⟩, hnodup.2, hclosed', ?_⟩ (.settling (some event))
        rfl (fun j => by simp [give, setPhase, setIterator]) rfl ⟨nofun, nofun⟩
      · -- a terminal event would leave another iterator waiting
        refine Bool.eq_false_iff.mpr fun hcomplete => ?_
        have hle := hquiet hdone hcomplete
        rw [FifoQueue.length_eq, hwaiting, length_cons] at hle
        exact hne (List.length_eq_zero_iff.mp (by simpa [give, setPhase, setIterator] using hle))
      · rw [haccepted, ← hinOrder]
        simp [give, setPhase, setIterator, hqueue]

theorem Inv.end_ (h : Inv isComplete s) :
    Inv isComplete { end_ s with calls := s.calls ++ [.end_] } := by
  obtain ⟨⟨hempty, -, hclosed, hinOrder⟩, hown⟩ := h
  refine ⟨⟨fun hne => absurd rfl hne, nodup_nil, ?_, ?_⟩, fun i => ?_⟩
  · rw [closed_concat]
    exact (Bool.or_true _).symm
  · rw [accepted_concat]
    show s.handed.map Prod.snd ++ s.queue.toList = _
    rw [hinOrder]
    split <;> exact (append_nil _).symm
  · show Own [] s.handed i (if _ then _ else _)
    obtain ⟨hreturned, hwaits, hrequests⟩ := hown i
    split
    · rename_i hmem
      have hphase := hwaits.mp hmem
      rw [hphase] at hreturned hrequests
      refine ⟨hreturned, iff_of_false not_mem_nil nofun, hrequests.trans ?_⟩
      simp
    · rename_i hmem
      exact ⟨hreturned, iff_of_false not_mem_nil fun hphase => hmem (hwaits.mpr hphase), hrequests⟩

theorem Inv.runs (h : Inv isComplete s) (hwaits : (s.iterators i).phase ≠ .awaiting)
    (hrequests : iterator.requests ≠ 0)
    (hreturned : iterator.returned.reduceOption = handedTo s.handed i) :
    Runs (setIterator s i iterator) i := by
  refine ⟨fun j hj => ?_, ?_, fun hmem => hwaits ((h.own i).waits.mp hmem), ?_⟩
  · rw [iterators_ne hj]
    exact h.own j
  · rw [iterators_self]
    exact hreturned
  · rw [iterators_self]
    exact hrequests

theorem Inv.setIterator (h : Inv isComplete s)
    (hown : Own s.waiting.toList s.handed i iterator) : Inv isComplete (setIterator s i iterator) := by
  refine ⟨⟨h.base.empty, h.base.nodup, h.base.closed, h.base.inOrder⟩, fun j => ?_⟩
  by_cases hij : j = i
  · subst hij
    rw [iterators_self]
    exact hown
  · rw [iterators_ne hij]
    exact h.own j

theorem base_setIterator (h : Base isComplete s) : Base isComplete (EventStream.setIterator s i iterator) :=
  ⟨h.empty, h.nodup, h.closed, h.inOrder⟩

theorem Inv.next (h : Inv isComplete s) (i : Nat) : Inv isComplete (next s i) := by
  obtain ⟨hown, hwaits, hrequests⟩ := h.own i
  unfold EventStream.next
  dsimp only
  split
  · rename_i hphase
    refine h.setIterator ⟨?_, hwaits, hrequests⟩
    rw [← hown]
    simp [reduceOption_append]
  · rename_i hphase
    split
    · rename_i hzero
      have hidle := (hrequests.mp hzero).resolve_right hphase
      refine inv_advance (base_setIterator h.base)
        (h.runs (by rw [hidle]; exact nofun) (Nat.succ_ne_zero _) ?_)
      rw [← hown, hidle]
      exact (append_nil _).symm
    · rename_i hpos
      refine h.setIterator ⟨hown, hwaits, iff_of_false (Nat.succ_ne_zero _) fun hor => ?_⟩
      exact hpos (hrequests.mpr hor)

theorem Inv.settle (h : Inv isComplete s) (hs : settle s i = some s') : Inv isComplete s' := by
  obtain ⟨hown, hwaits, hrequests⟩ := h.own i
  unfold EventStream.settle at hs
  dsimp only at hs
  split at hs
  · rename_i event hphase
    cases hs
    rw [hphase] at hown hwaits
    have hreturned : ((s.iterators i).returned ++ [some event]).reduceOption =
        handedTo s.handed i := by
      rw [← hown]
      simp [reduceOption_append, Phase.inFlight]
    split
    · rename_i hzero
      refine h.setIterator ⟨?_, hwaits.trans (iff_of_false nofun nofun), iff_of_true hzero (.inl rfl)⟩
      exact (append_nil _).trans hreturned
    · rename_i hpos
      exact inv_advance (base_setIterator h.base)
        (h.runs (by rw [hphase]; exact nofun) hpos hreturned)
  · rename_i hphase
    cases hs
    rw [hphase] at hown hwaits
    refine h.setIterator ⟨?_, hwaits.trans (iff_of_false nofun nofun), iff_of_true rfl (.inr rfl)⟩
    rw [← hown]
    simp [reduceOption_append, reduceOption_replicate_none, Phase.inFlight]
  · cases hs

theorem Inv.step (h : Inv isComplete s) {label : Label T} (hquiet : Quiet isComplete s label)
    (hs : step isComplete s label = some s') : Inv isComplete s' := by
  cases label with
  | push event =>
    cases hs
    exact h.push event hquiet
  | end_ =>
    cases hs
    exact h.end_
  | next i =>
    cases hs
    exact h.next i
  | settle i => exact h.settle hs

/-! ## Every run -/

theorem settle_lt (h : Inv isComplete s) (hdone : s.done = true) (hqueue : s.queue.toList = [])
    (hs : settle s i = some s') :
    s'.done = true ∧ s'.queue.toList = [] ∧ s'.handed = s.handed ∧
      (s'.iterators i).requests < (s.iterators i).requests := by
  have hpos : (s.iterators i).phase ≠ .idle → (s.iterators i).phase ≠ .finished →
      0 < (s.iterators i).requests := fun hidle hfinished =>
    Nat.pos_of_ne_zero fun hzero => ((h.own i).requests.mp hzero).elim hidle hfinished
  unfold settle at hs
  dsimp only at hs
  split at hs
  · rename_i event hphase
    have hlt := hpos (by rw [hphase]; exact nofun) (by rw [hphase]; exact nofun)
    cases hs
    split
    · refine ⟨hdone, hqueue, rfl, ?_⟩
      rw [iterators_self]
      exact Nat.sub_lt hlt Nat.one_pos
    · rw [advance]
      rcases s.queue.dequeue_cases with ⟨-, hnone⟩ | ⟨event', queue, -, hcons⟩
      · split
        · rename_i heq
          cases (congrArg Prod.fst heq).symm.trans hnone
        · rw [if_pos (show (setIterator s i _).done = true from hdone)]
          refine ⟨hdone, hqueue, rfl, ?_⟩
          rw [setPhase, iterators_self, iterators_self]
          exact Nat.sub_lt hlt Nat.one_pos
      · rw [hqueue] at hcons
        cases hcons
  · rename_i hphase
    cases hs
    refine ⟨hdone, hqueue, rfl, ?_⟩
    rw [iterators_self]
    exact hpos (by rw [hphase]; exact nofun) (by rw [hphase]; exact nofun)
  · cases hs

theorem Inv.returns (h : Inv isComplete s) (hdone : s.done = true) (hqueue : s.queue.toList = [])
    (i : Nat) : Inevitable (EventStream.step isComplete) (fun | .settle j => j = i | _ => false)
      (fun s' => (s'.iterators i).requests = 0 ∧ s'.handed = s.handed) s := by
  have hown : ∀ label : Label T, (match label with | .settle j => decide (j = i) | _ => false) = true →
      label = .settle i := by
    intro label hlabel
    cases label with
    | settle j => rw [of_decide_eq_true hlabel]
    | _ => cases hlabel
  refine .of_measure (q := fun t => Inv isComplete t ∧ t.done = true ∧ t.queue.toList = [] ∧
      t.handed = s.handed) (fun t => (t.iterators i).requests) ?_ ?_ ?_ ⟨h, hdone, hqueue, rfl⟩
  · rintro t label t' ⟨ht, htdone, htqueue, hthanded⟩ hlabel hs
    obtain rfl := hown label hlabel
    obtain ⟨hdone', hqueue', hhanded', -⟩ := settle_lt ht htdone htqueue hs
    exact ⟨ht.settle hs, hdone', hqueue', hhanded'.trans hthanded⟩
  · rintro t label t' ⟨ht, htdone, htqueue, -⟩ hlabel hs
    obtain rfl := hown label hlabel
    exact (settle_lt ht htdone htqueue hs).2.2.2
  · rintro t ⟨ht, htdone, htqueue, hthanded⟩ hpending
    refine ⟨.settle i, decide_eq_true rfl, ?_⟩
    have hidle := fun hor => hpending ⟨(ht.own i).requests.mpr hor, hthanded⟩
    have hempty : t.waiting.toList = [] := by
      by_contra hne
      rw [(ht.base.empty hne).2] at htdone
      cases htdone
    show (EventStream.settle t i).isSome = true
    rw [EventStream.settle]
    cases hphase : (t.iterators i).phase with
    | idle => exact absurd (.inl hphase) hidle
    | finished => exact absurd (.inr hphase) hidle
    | awaiting =>
      have hmem := (ht.own i).waits.mpr hphase
      rw [hempty] at hmem
      cases hmem
    | settling result => cases result <;> rfl

/-- The states of all runs of a stream whose steps are quiet. -/
abbrev Reaches (isComplete : T → Bool) : Stream T → Prop :=
  Run (· = {}) (EventStream.step isComplete) (Quiet isComplete)

/-- **Every event is handed over once, in order, and no call is left behind**,
unless a terminal event meets more than one waiter. -/
theorem delivers (isComplete : T → Bool) (s : Stream T) (h : Reaches isComplete s) :
    Delivers isComplete s := by
  have hinv : Inv isComplete s := by
    refine h.invariant ?_ fun s label s' hinv hquiet hs => hinv.step hquiet hs
    rintro s rfl
    refine ⟨⟨fun hne => absurd rfl hne, nodup_nil, rfl, rfl⟩, fun i => ⟨rfl, ?_, ?_⟩⟩
    · exact iff_of_false not_mem_nil nofun
    simp
  exact ⟨hinv.base.inOrder, fun i => (hinv.own i).own, hinv.returns⟩

/-- Two events of which the second is terminal, and an iterator that waits for them. -/
theorem delivers_sample :
    Delivers id (Run.afterAll (step id) {} [.next 0, .push false, .push true, .settle 0]) :=
  delivers id _ (.of_check (.init rfl) (by decide))

/-- Of two iterators that wait for the terminal event, one is left waiting. -/
theorem not_delivers : ¬ ∀ (T : Type) (isComplete : T → Bool) (s : Stream T),
    Run (· = {}) (step isComplete) (fun _ _ => True) s → Delivers isComplete s := by
  intro h
  have hall := h Bool id (Run.afterAll (step id) {} [.next 0, .next 1, .push true])
    (.of_check (.init rfl) (by decide))
  cases hall.returns (by decide) (by decide) 1 with
  | now hnow => exact absurd hnow.1 (by decide)
  | later hown hstep _ =>
    rename_i label _
    cases label with
    | settle j =>
      obtain rfl : j = 1 := of_decide_eq_true hown
      cases hstep
    | _ => cases hown

end EventStream

end ReflectivePi.Ai
