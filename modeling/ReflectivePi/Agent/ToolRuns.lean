import Mathlib.Algebra.Ring.Nat
import ReflectivePi.Agent.ToolCalls

/-!
# Agent — ToolRuns

What holds in every run of a batch of tool calls, whichever way it is executed:
a call has the outcome that it has by itself, its events come in order, and the
run goes on until it has returned.
-/

namespace ReflectivePi.Agent

open List Option

variable {Args : Type} {C : ToolConfig Args} {mode : Mode} {calls : List ToolCall}
  {s s' : Execution Args} {toolCall : ToolCall} {index : Nat} {isAborted : Bool}

/-! ## Outcomes -/

variable (C) in
/-- The preparation of a call that is not aborted. -/
def preparation (toolCall : ToolCall) : Preparation Args :=
  match validated C toolCall with
  | .error message => .immediate (createErrorToolResult message)
  | .ok (tool, args) =>
    match C.beforeToolCall with
    | none => .prepared tool args
    | some beforeToolCall =>
      afterBeforeHook false tool args (beforeToolCall toolCall args false)

variable (C) in
/-- The outcome of a call that is not aborted. -/
def outcome (toolCall : ToolCall) : Finalized :=
  match preparation C toolCall with
  | .immediate result => ⟨toolCall, result, true⟩
  | .prepared tool args =>
    finalize C false toolCall args (settled false toolCall tool args)

variable (C) in
/-- What is known of a call by its phase; what comes of it as long as there
is no abort. -/
def Phase.Ok (isAborted : Bool) (toolCall : ToolCall) : Phase Args → Prop
  | .starting => True
  | .preparing tool args =>
    validated C toolCall = .ok (tool, args) ∧ C.beforeToolCall.isSome
  | .deferred tool args =>
    isAborted = false → preparation C toolCall = .prepared tool args
  | .executing tool args =>
    isAborted = false → preparation C toolCall = .prepared tool args
  | .settling args executed =>
    isAborted = false → ∃ tool, preparation C toolCall = .prepared tool args ∧
      executed = settled false toolCall tool args
  | .finalizing args executed =>
    isAborted = false → ∃ tool, preparation C toolCall = .prepared tool args ∧
      executed = settled false toolCall tool args
  | .ending finalized =>
    finalized.toolCall = toolCall ∧ (isAborted = false → finalized = outcome C toolCall)
  | .ended finalized =>
    finalized.toolCall = toolCall ∧ (isAborted = false → finalized = outcome C toolCall)

variable {phase : Phase Args}

theorem Phase.Ok.abort (h : phase.Ok C isAborted toolCall) : phase.Ok C true toolCall := by
  cases phase with
  | starting => trivial
  | preparing tool args => exact h
  | ending finalized => exact ⟨h.1, nofun⟩
  | ended finalized => exact ⟨h.1, nofun⟩
  | _ => exact nofun

theorem ok_proceed {preparation' : Preparation Args}
    (h : isAborted = false → preparation' = preparation C toolCall) :
    (proceed mode index toolCall preparation').1.Ok C isAborted toolCall := by
  cases preparation' with
  | immediate result =>
    refine ⟨rfl, fun hno => ?_⟩
    rw [outcome, ← h hno]
  | prepared tool args =>
    cases mode with
    | _ => exact fun hno => (h hno).symm

theorem finalize_toolCall (args : Args) (executed : Executed) :
    (finalize C isAborted toolCall args executed).toolCall = toolCall := by
  unfold finalize
  split
  · rfl
  · split <;> rfl

variable {result : Phase Args × List Event}

theorem ok_resume (hok : phase.Ok C isAborted toolCall)
    (h : resume C mode isAborted index toolCall phase = some result) :
    result.1.Ok C isAborted toolCall := by
  have hfinal {args : Args} {executed : Executed} (hexecuted : isAborted = false → ∃ tool,
        preparation C toolCall = .prepared tool args ∧
        executed = settled false toolCall tool args) :
      (conclude index (finalize C isAborted toolCall args executed) :
        Phase Args × List Event).1.Ok C isAborted toolCall := by
    refine ⟨finalize_toolCall args executed, fun hno => ?_⟩
    obtain ⟨tool, hprepared, rfl⟩ := hexecuted hno
    rw [outcome, hprepared, hno]
  cases phase with
  | starting =>
    rw [resume] at h
    split at h
    · rename_i message hinvalid
      cases h
      exact ok_proceed fun _ => by rw [preparation, hinvalid]
    · rename_i tool args hvalid
      split at h
      · rename_i hook hhook
        cases h
        exact ⟨hvalid, by rw [hhook]; rfl⟩
      · rename_i hhook
        cases h
        exact ok_proceed fun hno => by rw [preparation, hvalid, hhook, hno]; rfl
  | preparing tool args =>
    obtain ⟨hvalid, -⟩ := hok
    obtain ⟨hook, hhook, rfl⟩ := Option.map_eq_some_iff.mp h
    exact ok_proceed fun hno => by rw [preparation, hvalid, hhook, hno]
  | deferred tool args => cases h
  | executing tool args =>
    cases h
    exact fun hno => ⟨tool, hok hno, by rw [hno]⟩
  | settling args executed =>
    rw [resume] at h
    split at h
    · cases h
      exact hok
    · cases h
      exact hfinal hok
  | finalizing args executed =>
    cases h
    exact hfinal hok
  | ending finalized =>
    cases mode <;> (cases h; exact hok)
  | ended finalized => cases h

theorem ok_call (hok : phase.Ok C isAborted toolCall) :
    (call isAborted index toolCall phase).1.Ok C isAborted toolCall := by
  cases phase with
  | deferred tool args =>
    cases isAborted with
    | true => exact ⟨rfl, nofun⟩
    | false => exact hok
  | _ => exact hok

/-! ## Events -/

/-- The position of the call that an event is about. -/
def Event.index? : Event → Option Nat
  | .toolExecutionStart index _ => some index
  | .toolExecutionUpdate index _ _ => some index
  | .toolExecutionEnd index _ => some index
  | _ => none

/-- The events of the call at a position. -/
def trace (index : Nat) (events : List Event) : List Event :=
  events.filter fun event => event.index? = some index

/-- The end event of a call whose outcome is there. -/
def Phase.closing (index : Nat) : Phase Args → List Event
  | .ending finalized => [.toolExecutionEnd index finalized]
  | .ended finalized => [.toolExecutionEnd index finalized]
  | _ => []

@[simp] theorem trace_append (events more : List Event) :
    trace index (events ++ more) = trace index events ++ trace index more :=
  List.filter_append ..

@[simp] theorem trace_messageEvents (finalized : Finalized) :
    trace index (messageEvents finalized) = [] := rfl

theorem trace_proceed (preparation' : Preparation Args) (i : Nat) :
    trace i (proceed mode index toolCall preparation').2
      = if i = index then (proceed mode index toolCall preparation').1.closing index
        else [] := by
  cases preparation' with
  | immediate result =>
    by_cases hi : i = index
    · subst hi
      simp [proceed, conclude, trace, Event.index?, Phase.closing]
    · simp [proceed, conclude, trace, Event.index?, hi, Ne.symm hi]
  | prepared tool args => cases mode <;> simp [proceed, trace, Phase.closing]

theorem trace_conclude (finalized : Finalized) (i : Nat) :
    trace i (conclude index finalized : Phase Args × List Event).2
      = if i = index then [.toolExecutionEnd index finalized] else [] := by
  by_cases hi : i = index
  · subst hi
    simp [conclude, trace, Event.index?]
  · simp [conclude, trace, Event.index?, hi, Ne.symm hi]

theorem trace_resume (h : resume C mode isAborted index toolCall phase = some result) (i : Nat) :
    (if i = index then phase.closing index else []) ++ trace i result.2
      = if i = index then result.1.closing index else [] := by
  cases phase with
  | starting =>
    rw [resume] at h
    split at h
    · cases h
      simpa [Phase.closing] using trace_proceed _ i
    · split at h
      · cases h
        simp [Phase.closing, trace]
      · cases h
        simpa [Phase.closing] using trace_proceed _ i
  | preparing tool args =>
    obtain ⟨hook, -, rfl⟩ := Option.map_eq_some_iff.mp h
    simpa [Phase.closing] using trace_proceed _ i
  | deferred tool args => cases h
  | executing tool args =>
    cases h
    simp [Phase.closing, trace]
  | settling args executed =>
    rw [resume] at h
    split at h
    · cases h
      simp [Phase.closing, trace]
    · cases h
      rw [trace_conclude]
      simp [Phase.closing, conclude]
  | finalizing args executed =>
    cases h
    rw [trace_conclude]
    simp [Phase.closing, conclude]
  | ending finalized =>
    cases mode with
    | sequential =>
      cases h
      simp [Phase.closing]
    | parallel =>
      cases h
      simp [Phase.closing, trace]
  | ended finalized => cases h

theorem trace_call (phase : Phase Args) (i : Nat) :
    (if i = index then phase.closing index else [])
        ++ trace i (call isAborted index toolCall phase).2
      = if i = index then (call isAborted index toolCall phase).1.closing index
        else [] := by
  cases phase with
  | deferred tool args =>
    cases isAborted with
    | true =>
      rw [call, if_pos rfl, trace_conclude]
      simp [Phase.closing, conclude]
    | false => simp [call, Phase.closing, trace]
  | _ => simp [call, trace]

/-! ## The invariant -/

/-- The events of a call: it starts, is updated, and ends when its outcome is
there. -/
def Traced (events : List Event) (index : Nat) (toolCall : ToolCall)
    (closing : List Event) : Prop :=
  ∃ partials : List ToolResult, trace index events = .toolExecutionStart index toolCall
      :: partials.map (.toolExecutionUpdate index toolCall) ++ closing

def Phase.isDeferred : Phase Args → Bool
  | .deferred _ _ => true
  | _ => false

/-- The preparation is not done. -/
def Phase.isEarly : Phase Args → Bool
  | .starting => true
  | .preparing _ _ => true
  | _ => false

def Phase.isEnded (phase : Phase Args) : Bool := phase.finalized?.isSome

/-- Every call has been reached, unless the run was aborted. -/
def Complete (calls : List ToolCall) (s : Execution Args) : Prop :=
  s.entries.length = calls.length ∨ s.aborted = true

/-- What holds of the entries by the position of the function. -/
def Loop.Holds (mode : Mode) (calls : List ToolCall) (s : Execution Args) :
    Loop → Prop
  | .running => ∀ (i : Nat) (phase : Phase Args), i + 1 < s.entries.length →
      s.entries[i]? = some phase → phase.handled mode = true
  | .launching position => Complete calls s ∧ (∀ phase ∈ s.entries, phase.isEarly = false) ∧
      ∀ (i : Nat) (phase : Phase Args), i < position →
        s.entries[i]? = some phase → phase.isDeferred = false
  | .waiting => Complete calls s ∧
      ∀ phase ∈ s.entries, phase.isEarly = false ∧ phase.isDeferred = false
  | .returned batch => Complete calls s ∧
      (∀ phase ∈ s.entries, phase.isEnded = true) ∧ batch = batchOf s.finalizedCalls

structure Inv (C : ToolConfig Args) (mode : Mode) (calls : List ToolCall)
    (s : Execution Args) : Prop where
  length : s.entries.length ≤ calls.length
  entries : ∀ (i : Nat) (phase : Phase Args), s.entries[i]? = some phase →
    ∃ toolCall, calls[i]? = some toolCall ∧ phase.Ok C s.aborted toolCall ∧
      Traced s.events i toolCall (phase.closing i)
  fresh : ∀ i, s.entries.length ≤ i → trace i s.events = []
  sequential : mode = .sequential → ∀ phase ∈ s.entries, phase.isDeferred = false
  loop : s.loop.Holds mode calls s

theorem inv_start (isAborted : Bool) : Inv C mode calls (Execution.start isAborted) := by
  refine ⟨Nat.zero_le _, nofun, fun _ _ => rfl, fun _ => nofun, nofun⟩

theorem isEnded_of_handled (h : phase.handled .sequential = true) : phase.isEnded = true := by
  cases phase with
  | ended finalized => rfl
  | _ => cases h

theorem resume_isDeferred (h : resume C .sequential isAborted index toolCall phase = some result) :
    result.1.isDeferred = false := by
  have hproceed (preparation' : Preparation Args) :
      (proceed .sequential index toolCall preparation').1.isDeferred = false := by
    cases preparation' <;> rfl
  cases phase with
  | starting =>
    rw [resume] at h
    split at h
    · cases h
      exact hproceed _
    · split at h
      · cases h
        rfl
      · cases h
        exact hproceed _
  | preparing tool args =>
    obtain ⟨hook, -, rfl⟩ := Option.map_eq_some_iff.mp h
    exact hproceed _
  | settling args executed =>
    rw [resume] at h
    split at h <;> (cases h; rfl)
  | deferred tool args => cases h
  | ended finalized => cases h
  | _ => cases h; rfl

/-- A call goes on: its entry changes, and the others keep theirs. -/
theorem Inv.put (h : Inv C mode calls s) (hentry : s.entries[index]? = some phase)
    (hcall : calls[index]? = some toolCall) (hok : result.1.Ok C s.aborted toolCall)
    (htrace : ∀ i, (if i = index then phase.closing index else []) ++ trace i result.2
      = if i = index then result.1.closing index else [])
    (hdeferred : mode = .sequential → result.1.isDeferred = false) {loop : Loop}
    (hloop : loop.Holds mode calls { s.put index result with loop := loop }) :
    Inv C mode calls { s.put index result with loop := loop } := by
  have hbound : index < s.entries.length := (List.getElem?_eq_some_iff.mp hentry).1
  refine ⟨?_, ?_, ?_, ?_, hloop⟩
  · rw [Execution.put, length_set]
    exact h.length
  · intro i p hp
    have htr := htrace i
    by_cases hi : i = index
    · subst hi
      obtain rfl : p = result.1 := by
        have hset := getElem?_set_self (a := result.1) hbound
        exact Option.some.inj (hp.symm.trans hset)
      obtain ⟨toolCall', hcall', -, partials, htraced⟩ := h.entries i phase hentry
      obtain rfl := Option.some.inj (hcall'.symm.trans hcall)
      rw [if_pos rfl, if_pos rfl] at htr
      refine ⟨toolCall', hcall, hok, partials, ?_⟩
      show trace i (s.events ++ result.2) = _
      rw [trace_append, htraced, append_assoc, htr]
    · have hp' : s.entries[i]? = some p := (getElem?_set_ne (Ne.symm hi)).symm.trans hp
      obtain ⟨toolCall', hcall', hok', partials, htraced⟩ := h.entries i p hp'
      rw [if_neg hi, if_neg hi, nil_append] at htr
      refine ⟨toolCall', hcall', hok', partials, ?_⟩
      show trace i (s.events ++ result.2) = _
      rw [trace_append, htr, append_nil, htraced]
  · intro i hi
    have hi' : s.entries.length ≤ i := by
      rw [← @length_set _ s.entries index result.1]
      exact hi
    have htr := htrace i
    rw [if_neg (Nat.ne_of_gt (Nat.lt_of_lt_of_le hbound hi')),
      if_neg (Nat.ne_of_gt (Nat.lt_of_lt_of_le hbound hi')), nil_append] at htr
    show trace i (s.events ++ result.2) = []
    rw [trace_append, htr, h.fresh i hi']
    rfl
  · intro hmode p hp
    rcases mem_or_eq_of_mem_set hp with hp | rfl
    · exact h.sequential hmode p hp
    · exact hdeferred hmode

/-! ## The steps -/

theorem handled_of_resume (h : resume C mode isAborted index toolCall phase = some result) :
    phase.handled mode = false := by
  cases phase with
  | deferred tool args => cases h
  | ended finalized => cases h
  | _ => rfl

theorem resume_late (hlate : phase.isEarly = false)
    (h : resume C mode isAborted index toolCall phase = some result) :
    result.1.isEarly = false ∧ result.1.isDeferred = false := by
  cases phase with
  | starting => cases hlate
  | preparing tool args => cases hlate
  | deferred tool args => cases h
  | ended finalized => cases h
  | settling args executed =>
    rw [resume] at h
    split at h <;> (cases h; exact ⟨rfl, rfl⟩)
  | ending finalized => cases mode <;> (cases h; exact ⟨rfl, rfl⟩)
  | _ =>
    cases h
    exact ⟨rfl, rfl⟩

theorem mem_put (h : phase ∈ (s.put index result).entries) :
    phase ∈ s.entries ∨ phase = result.1 := mem_or_eq_of_mem_set h

theorem put_of_ne {i : Nat} (h : i ≠ index) : (s.put index result).entries[i]? = s.entries[i]? :=
  getElem?_set_ne (Ne.symm h)

theorem put_self (h : s.entries[index]? = some phase) :
    (s.put index result).entries[index]? = some result.1 :=
  getElem?_set_self (List.getElem?_eq_some_iff.mp h).1

theorem length_put :
    (s.put index result).entries.length = s.entries.length := length_set

theorem Inv.resume (h : Inv C mode calls s)
    (hs : Execution.step C mode calls s (.resume index) = some s') : Inv C mode calls s' := by
  rw [Execution.step] at hs
  split at hs
  · rename_i toolCall phase hcall hentry
    obtain ⟨result, hresult, rfl⟩ := Option.map_eq_some_iff.mp hs
    obtain ⟨toolCall', hcall', hok, -⟩ := h.entries index phase hentry
    obtain rfl := Option.some.inj (hcall'.symm.trans hcall)
    have hput (hloop : s.loop.Holds mode calls { s.put index result with loop := s.loop }) :
        Inv C mode calls { s.put index result with loop := s.loop } := by
      refine h.put hentry hcall (ok_resume hok hresult) (trace_resume hresult) ?_ hloop
      rintro rfl
      exact resume_isDeferred hresult
    refine hput ?_
    · have hloop := h.loop
      have hmem := mem_of_getElem? hentry
      cases hl : s.loop with
      | running =>
        rw [hl] at hloop
        intro i p hi hp
        rw [length_put] at hi
        by_cases hindex : i = index
        · subst hindex
          have hhandled := hloop i phase hi hentry
          rw [handled_of_resume hresult] at hhandled
          cases hhandled
        · exact hloop i p hi ((put_of_ne hindex).symm.trans hp)
      | launching position =>
        rw [hl] at hloop
        obtain ⟨hcomplete, hlate, hcalled⟩ := hloop
        obtain ⟨hlate', hdeferred'⟩ := resume_late (hlate phase hmem) hresult
        refine ⟨hcomplete.imp_left fun heq => length_put.trans heq, ?_, ?_⟩
        · intro p hp
          rcases mem_put hp with hp | rfl
          · exact hlate p hp
          · exact hlate'
        · intro i p hi hp
          by_cases hindex : i = index
          · subst hindex
            obtain rfl := Option.some.inj (hp.symm.trans (put_self hentry))
            exact hdeferred'
          · exact hcalled i p hi ((put_of_ne hindex).symm.trans hp)
      | waiting =>
        rw [hl] at hloop
        obtain ⟨hcomplete, hall⟩ := hloop
        refine ⟨hcomplete.imp_left fun heq => length_put.trans heq, fun p hp => ?_⟩
        rcases mem_put hp with hp | rfl
        · exact hall p hp
        · exact resume_late (hall phase hmem).1 hresult
      | returned batch =>
        rw [hl] at hloop
        have hended := hloop.2.1 phase hmem
        cases phase with
        | ended finalized => cases hresult
        | _ => cases hended
  · cases hs

theorem Inv.abort (h : Inv C mode calls s)
    (hs : Execution.step C mode calls s .abort = some s') : Inv C mode calls s' := by
  cases hs
  refine ⟨h.length, fun i p hp => ?_, h.fresh, h.sequential, ?_⟩
  · obtain ⟨toolCall, hcall, hok, htraced⟩ := h.entries i p hp
    exact ⟨toolCall, hcall, hok.abort, htraced⟩
  · have hloop := h.loop
    cases hl : s.loop with
    | running =>
      rw [hl] at hloop
      exact hloop
    | _ =>
      rw [hl] at hloop
      exact ⟨.inr rfl, hloop.2⟩

theorem Loop.Holds.congr {loop : Loop} (h : loop.Holds mode calls s)
    (hentries : s'.entries = s.entries) (haborted : s'.aborted = s.aborted) :
    loop.Holds mode calls s' := by
  obtain ⟨isAborted, entries, loop', events⟩ := s
  obtain ⟨isAborted', entries', loop'', events'⟩ := s'
  obtain rfl := hentries
  obtain rfl := haborted
  cases loop <;> exact h

section

variable (h : Inv C mode calls s)

include h

/-- Events that are about no call, or an update of one that is executing. -/
theorem Inv.emit {events : List Event}
    (hentries : s'.entries = s.entries) (haborted : s'.aborted = s.aborted)
    (hevents : s'.events = s.events ++ events)
    (htrace : ∀ i, trace i events = [] ∨ ∃ toolCall tool args partialResult,
      calls[i]? = some toolCall ∧ s.entries[i]? = some (.executing tool args) ∧
      trace i events = [.toolExecutionUpdate i toolCall partialResult])
    (hloop : s'.loop.Holds mode calls s') : Inv C mode calls s' := by
  refine ⟨hentries ▸ h.length, fun i p hp => ?_, fun i hi => ?_, hentries ▸ h.sequential, hloop⟩
  · rw [hentries] at hp
    obtain ⟨toolCall, hcall, hok, partials, htraced⟩ := h.entries i p hp
    refine ⟨toolCall, hcall, haborted ▸ hok, ?_⟩
    rcases htrace i with hnone | ⟨toolCall', tool, args, partialResult, hcall', hexec, hone⟩
    · exact ⟨partials, by rw [hevents, trace_append, htraced, hnone, append_nil]⟩
    · obtain rfl := Option.some.inj (hcall'.symm.trans hcall)
      obtain rfl := Option.some.inj (hexec.symm.trans hp)
      refine ⟨partials ++ [partialResult], ?_⟩
      have hclosing : (Phase.executing tool args).closing i = [] := rfl
      rw [hevents, trace_append, htraced, hone, hclosing]
      simp
  · rw [hentries] at hi
    rw [hevents, trace_append, h.fresh i hi]
    rcases htrace i with hnone | ⟨toolCall', tool, args, partialResult, -, hexec, -⟩
    · exact hnone
    · exact absurd (List.getElem?_eq_some_iff.mp hexec).1 (Nat.not_lt.mpr hi)

theorem Inv.update {partialResult : ToolResult}
    (hs : Execution.step C mode calls s (.update index partialResult) = some s') :
    Inv C mode calls s' := by
  rw [Execution.step] at hs
  split at hs
  · rename_i toolCall tool args hcall hentry
    cases hs
    refine h.emit rfl rfl rfl (fun i => ?_) (h.loop.congr rfl rfl)
    by_cases hi : i = index
    · subst hi
      exact .inr ⟨toolCall, tool, args, partialResult, hcall, hentry, by simp [trace, Event.index?]⟩
    · exact .inl (by simp [trace, Event.index?, Ne.symm hi])
  · cases hs
    exact h
  · cases hs

theorem Inv.collect
    (hs : Execution.step C mode calls s .collect = some s') : Inv C mode calls s' := by
  rw [Execution.step] at hs
  split at hs
  · rename_i hl
    split at hs
    · rename_i hall
      cases hs
      have hloop := h.loop
      rw [hl] at hloop
      refine h.emit rfl rfl rfl (fun i => .inl ?_) ?_
      · induction s.finalizedCalls with
        | nil => rfl
        | cons finalized rest ih =>
          rw [flatMap_cons, trace_append, trace_messageEvents, ih]
          rfl
      · exact ⟨hloop.1, List.all_eq_true.mp hall, rfl⟩
    · cases hs
  · cases hs

theorem Inv.launch
    (hs : Execution.step C mode calls s .launch = some s') : Inv C mode calls s' := by
  rw [Execution.step] at hs
  split at hs
  · rename_i position hl
    have hloop := h.loop
    rw [hl] at hloop
    obtain ⟨hcomplete, hlate, hcalled⟩ := hloop
    split at hs
    · rename_i toolCall phase hcall hentry
      cases hs
      obtain ⟨toolCall', hcall', hok, -⟩ := h.entries position phase hentry
      obtain rfl := Option.some.inj (hcall'.symm.trans hcall)
      have hphase : (call s.aborted position toolCall' phase).1.isEarly = false ∧
          (call s.aborted position toolCall' phase).1.isDeferred = false := by
        have hearly := hlate phase (mem_of_getElem? hentry)
        cases phase with
        | deferred tool args =>
          rw [call]
          split <;> exact ⟨rfl, rfl⟩
        | _ => exact ⟨hearly, rfl⟩
      refine h.put hentry hcall (ok_call hok) (trace_call phase) (fun _ => hphase.2) ?_
      refine ⟨hcomplete.imp_left fun heq => length_put.trans heq, fun p hp => ?_,
        fun i p hi hp => ?_⟩
      · rcases mem_put hp with hp | rfl
        · exact hlate p hp
        · exact hphase.1
      · by_cases hindex : i = position
        · subst hindex
          obtain rfl := Option.some.inj (hp.symm.trans (put_self hentry))
          exact hphase.2
        · exact hcalled i p (Nat.lt_of_le_of_ne (Nat.le_of_lt_succ hi) hindex)
            ((put_of_ne hindex).symm.trans hp)
    · rename_i hnone
      cases hs
      refine ⟨h.length, h.entries, h.fresh, h.sequential, hcomplete, fun p hp => ?_⟩
      refine ⟨hlate p hp, ?_⟩
      obtain ⟨i, hi, rfl⟩ := List.mem_iff_getElem.mp hp
      -- the position is behind all entries
      have hpos : s.entries.length ≤ position := by
        by_contra hlt
        have hlt := Nat.lt_of_not_le hlt
        exact hnone _ _ (getElem?_eq_getElem (Nat.lt_of_lt_of_le hlt h.length))
          (getElem?_eq_getElem hlt)
      exact hcalled i _ (Nat.lt_of_lt_of_le hi hpos) (getElem?_eq_getElem hi)
  · cases hs

theorem Inv.all_handled (hl : s.loop = .running)
    (hlast : s.entries.getLast?.all (Phase.handled mode) = true) :
    ∀ phase ∈ s.entries, phase.handled mode = true := by
  intro phase hphase
  have hloop := h.loop
  rw [hl] at hloop
  obtain ⟨i, hi, rfl⟩ := List.mem_iff_getElem.mp hphase
  by_cases hnext : i + 1 < s.entries.length
  · exact hloop i _ hnext (getElem?_eq_getElem hi)
  · have hindex : i = s.entries.length - 1 := by omega
    rw [getLast?_eq_getElem?, ← hindex, getElem?_eq_getElem hi] at hlast
    exact hlast

end

theorem isEarly_of_handled (h : phase.handled mode = true) : phase.isEarly = false := by
  cases phase with
  | starting => cases h
  | preparing tool args => cases h
  | _ => rfl

theorem Inv.leave (h : Inv C mode calls s) (hcomplete : Complete calls s)
    (hhandled : ∀ phase ∈ s.entries, phase.handled mode = true) {loop : Loop}
    (hloop : loop = match mode with
      | .sequential => .returned (batchOf s.finalizedCalls)
      | .parallel => .launching 0) : Inv C mode calls { s with loop := loop } := by
  refine ⟨h.length, h.entries, h.fresh, h.sequential, ?_⟩
  subst hloop
  cases mode with
  | sequential =>
    exact ⟨hcomplete, fun p hp => isEnded_of_handled (hhandled p hp), rfl⟩
  | parallel =>
    exact ⟨hcomplete, fun p hp => isEarly_of_handled (hhandled p hp),
      fun i p hi => absurd hi (Nat.not_lt_zero i)⟩

theorem Inv.reach (h : Inv C mode calls s) (hl : s.loop = .running)
    (hhandled : ∀ phase ∈ s.entries, phase.handled mode = true)
    (hcall : calls[s.entries.length]? = some toolCall) :
    Inv C mode calls
      { s with
        entries := s.entries ++ [.starting]
        events := s.events ++ [.toolExecutionStart s.entries.length toolCall] } := by
  have hstart (i : Nat) (hi : i ≠ s.entries.length) :
      trace i [Event.toolExecutionStart s.entries.length toolCall] = [] := by
    simp [trace, Event.index?, Ne.symm hi]
  have hlt : s.entries.length < calls.length := (List.getElem?_eq_some_iff.mp hcall).1
  have hlength : (s.entries ++ [Phase.starting]).length = s.entries.length + 1 := length_append
  refine ⟨hlength ▸ hlt, fun i p hp => ?_, fun i hi => ?_, fun hmode p hp => ?_, ?_⟩
  · rcases Nat.lt_trichotomy i s.entries.length with hi | rfl | hi
    · obtain ⟨toolCall', hcall', hok, partials, htraced⟩ :=
        h.entries i p ((getElem?_append_left hi).symm.trans hp)
      refine ⟨toolCall', hcall', hok, partials, ?_⟩
      show trace i (s.events ++ _) = _
      rw [trace_append, hstart i (Nat.ne_of_lt hi), append_nil, htraced]
    · obtain rfl := Option.some.inj (List.getElem?_concat_length.symm.trans hp)
      refine ⟨toolCall, hcall, trivial, [], ?_⟩
      show trace _ (s.events ++ _) = _
      rw [trace_append, h.fresh _ (Nat.le_refl _)]
      simp [trace, Event.index?, Phase.closing]
    · have hnone := getElem?_eq_none (l := s.entries ++ [Phase.starting]) (hlength ▸ hi : _ ≤ i)
      rw [hnone] at hp
      cases hp
  · change (s.entries ++ [Phase.starting]).length ≤ i at hi
    rw [hlength] at hi
    have hi' : s.entries.length < i := hi
    show trace i (s.events ++ _) = []
    rw [trace_append, hstart i (Nat.ne_of_gt hi'), h.fresh i (Nat.le_of_lt hi')]
    rfl
  · rcases List.mem_append.mp hp with hp | hp
    · exact h.sequential hmode p hp
    · obtain rfl := List.mem_singleton.mp hp
      rfl
  · show Loop.Holds mode calls _ s.loop
    rw [hl]
    intro i p hi hp
    rw [hlength] at hi
    have hi' : i < s.entries.length := Nat.lt_of_succ_lt_succ hi
    exact hhandled p (mem_of_getElem? ((getElem?_append_left hi').symm.trans hp))

theorem Inv.next (h : Inv C mode calls s)
    (hs : Execution.step C mode calls s .next = some s') : Inv C mode calls s' := by
  unfold Execution.step at hs
  dsimp only at hs
  split at hs
  · rename_i hl
    split at hs
    · rename_i hlast
      have hhandled := h.all_handled hl hlast
      split at hs
      · rename_i haborted
        have hcomplete : Complete calls s := .inr haborted.2
        cases mode <;> (cases hs; exact h.leave hcomplete hhandled rfl)
      · split at hs
        · rename_i toolCall hcall
          cases hs
          exact h.reach hl hhandled hcall
        · rename_i hnone
          have hcomplete : Complete calls s :=
            .inl (Nat.le_antisymm h.length (List.getElem?_eq_none_iff.mp hnone))
          cases mode <;> (cases hs; exact h.leave hcomplete hhandled rfl)
    · cases hs
  · cases hs

theorem Inv.step {label : Label} (h : Inv C mode calls s)
    (hs : Execution.step C mode calls s label = some s') : Inv C mode calls s' := by
  cases label with
  | abort => exact h.abort hs
  | update index partialResult => exact h.update hs
  | resume index => exact h.resume hs
  | next => exact h.next hs
  | launch => exact h.launch hs
  | collect => exact h.collect hs

/-! ## The end of a run -/

/-- The steps of the functions, their tools and hooks. -/
def own : Label → Bool
  | .abort => false
  | .update _ _ => false
  | _ => true

/-- The steps that a call has to come. -/
def Phase.left : Phase Args → Nat
  | .starting => 8
  | .preparing _ _ => 7
  | .deferred _ _ => 6
  | .executing _ _ => 5
  | .settling _ _ => 4
  | .finalizing _ _ => 3
  | .ending _ => 2
  | .ended _ => 1

def Loop.left (calls : List ToolCall) : Loop → Nat
  | .running => calls.length + 3
  | .launching position => calls.length - position + 2
  | .waiting => 1
  | .returned _ => 0

def left (calls : List ToolCall) (s : Execution Args) : Nat :=
  (s.entries.map Phase.left).sum + 9 * (calls.length - s.entries.length) + s.loop.left calls

theorem left_resume (h : resume C mode isAborted index toolCall phase = some result) :
    result.1.left < phase.left := by
  have hproceed (preparation' : Preparation Args) :
      (proceed mode index toolCall preparation').1.left ≤ 6 := by
    cases preparation' with
    | immediate result => exact (by decide : 2 ≤ 6)
    | prepared tool args =>
      cases mode with
      | sequential => exact (by decide : 5 ≤ 6)
      | parallel => exact Nat.le_refl 6
  cases phase with
  | starting =>
    rw [resume] at h
    split at h
    · cases h
      exact Nat.lt_of_le_of_lt (hproceed _) (by decide : 6 < 8)
    · split at h
      · cases h
        exact (by decide : 7 < 8)
      · cases h
        exact Nat.lt_of_le_of_lt (hproceed _) (by decide : 6 < 8)
  | preparing tool args =>
    obtain ⟨hook, -, rfl⟩ := Option.map_eq_some_iff.mp h
    exact Nat.lt_succ_of_le (hproceed _)
  | deferred tool args => cases h
  | executing tool args =>
    cases h
    exact (by decide : 4 < 5)
  | settling args executed =>
    rw [resume] at h
    split at h
    · cases h
      exact (by decide : 3 < 4)
    · cases h
      exact (by decide : 2 < 4)
  | finalizing args executed =>
    cases h
    exact (by decide : 2 < 3)
  | ending finalized => cases mode <;> (cases h; exact (by decide : 1 < 2))
  | ended finalized => cases h

theorem left_call (phase : Phase Args) :
    (call isAborted index toolCall phase).1.left ≤ phase.left := by
  cases phase with
  | deferred tool args =>
    rw [call]
    split
    · exact (by decide : 2 ≤ 6)
    · exact (by decide : 5 ≤ 6)
  | _ => exact Nat.le_refl _

theorem sum_set {phase phase' : Phase Args} {entries : List (Phase Args)}
    (h : entries[index]? = some phase) :
    ((entries.set index phase').map Phase.left).sum + phase.left
      = (entries.map Phase.left).sum + phase'.left := by
  induction entries generalizing index with
  | nil => cases h
  | cons p entries ih =>
    cases index with
    | zero =>
      cases h
      simp only [set_cons_zero, map_cons, sum_cons]
      omega
    | succ index =>
      have hrest := ih h
      simp only [set_cons_succ, map_cons, sum_cons]
      omega

theorem left_lt {label : Label} (hown : own label = true)
    (hs : Execution.step C mode calls s label = some s') : left calls s' < left calls s := by
  cases label with
  | resume index =>
    rw [Execution.step] at hs
    split at hs
    · rename_i toolCall phase hcall hentry
      obtain ⟨result, hresult, rfl⟩ := Option.map_eq_some_iff.mp hs
      have hlt := left_resume hresult
      have hsum := @sum_set _ _ _ result.1 _ hentry
      simp only [left, Execution.put, length_set]
      omega
    · cases hs
  | next =>
    unfold Execution.step at hs
    dsimp only at hs
    split at hs
    · rename_i hl
      have hleave {loop : Loop} (hloop : loop = match mode with
          | .sequential => .returned (batchOf s.finalizedCalls)
          | .parallel => .launching 0) :
          left calls { s with loop := loop } < left calls s := by
        subst hloop
        cases mode <;> simp only [left, hl, Loop.left] <;> omega
      split at hs
      · split at hs
        · cases mode <;> (cases hs; exact hleave rfl)
        · split at hs
          · rename_i toolCall hcall
            have hlt := (List.getElem?_eq_some_iff.mp hcall).1
            cases hs
            simp only [left, map_append, sum_append, length_append,
              map_cons, map_nil, sum_cons, sum_nil, length_cons, length_nil, Phase.left]
            omega
          · cases mode <;> (cases hs; exact hleave rfl)
      · cases hs
    · cases hs
  | launch =>
    rw [Execution.step] at hs
    split at hs
    · rename_i position hl
      split at hs
      · rename_i toolCall phase hcall hentry
        have hlt := (List.getElem?_eq_some_iff.mp hcall).1
        have hle : (call s.aborted position toolCall phase).1.left ≤ phase.left := left_call phase
        have hsum := @sum_set _ _ _ (call s.aborted position toolCall phase).1 _ hentry
        cases hs
        simp only [left, Execution.put, length_set, hl, Loop.left]
        omega
      · cases hs
        simp only [left, hl, Loop.left]
        omega
    · cases hs
  | collect =>
    rw [Execution.step] at hs
    split at hs
    · rename_i hl
      split at hs
      · cases hs
        simp only [left, hl, Loop.left]
        omega
      · cases hs
    · cases hs
  | _ => cases hown

theorem resume_enabled (hok : phase.Ok C isAborted toolCall)
    (hdeferred : phase.isDeferred = false) (hended : phase.isEnded = false) :
    (resume C mode isAborted index toolCall phase).isSome = true := by
  cases phase with
  | starting =>
    rw [resume]
    split
    · rfl
    · split <;> rfl
  | preparing tool args =>
    rw [resume, isSome_map]
    exact hok.2
  | deferred tool args => cases hdeferred
  | executing tool args => rfl
  | settling args executed =>
    rw [resume]
    split <;> rfl
  | finalizing args executed => rfl
  | ending finalized => cases mode <;> rfl
  | ended finalized => cases hended

theorem Inv.resume_step (h : Inv C mode calls s) (hphase : phase ∈ s.entries)
    (hdeferred : phase.isDeferred = false) (hended : phase.isEnded = false) :
    ∃ label, own label = true ∧ (Execution.step C mode calls s label).isSome := by
  obtain ⟨i, hi, rfl⟩ := List.mem_iff_getElem.mp hphase
  have hentry := getElem?_eq_getElem hi
  obtain ⟨toolCall, hcall, hok, -⟩ := h.entries i _ hentry
  refine ⟨.resume i, rfl, ?_⟩
  rw [Execution.step, hcall, hentry]
  rw [isSome_map]
  exact resume_enabled hok hdeferred hended

theorem Inv.goes_on (h : Inv C mode calls s) (hopen : ¬ ∃ batch, s.loop = .returned batch) :
    ∃ label, own label = true ∧ (Execution.step C mode calls s label).isSome := by
  cases hl : s.loop with
  | running =>
    cases hlast : s.entries.getLast?.all (Phase.handled mode) with
    | true =>
      refine ⟨.next, rfl, ?_⟩
      unfold Execution.step
      simp only [hl, hlast, if_true]
      split
      · cases mode <;> rfl
      · split
        · rfl
        · cases mode <;> rfl
    | false =>
      cases hget : s.entries.getLast? with
      | none => rw [hget] at hlast; cases hlast
      | some phase =>
        rw [hget, all_some] at hlast
        have hmem := mem_of_getLast? hget
        refine h.resume_step hmem ?_ ?_
        · cases phase with
          | deferred tool args =>
            cases mode with
            | sequential => exact h.sequential rfl _ hmem
            | parallel => cases hlast
          | _ => rfl
        · cases phase with
          | ended finalized => cases hlast
          | _ => rfl
  | launching position =>
    refine ⟨.launch, rfl, ?_⟩
    rw [Execution.step, hl]
    dsimp only
    split <;> rfl
  | waiting =>
    have hloop := h.loop
    rw [hl] at hloop
    by_cases hall : ∀ phase ∈ s.entries, phase.isEnded = true
    · refine ⟨.collect, rfl, ?_⟩
      have hall' : (s.entries.all fun phase => phase.finalized?.isSome) = true :=
        List.all_eq_true.mpr hall
      rw [Execution.step, hl]
      simp only [hall', if_true, isSome_some]
    · simp only [not_forall] at hall
      obtain ⟨phase, hphase, hended⟩ := hall
      exact h.resume_step hphase (hloop.2 phase hphase).2 (Bool.not_eq_true _ ▸ hended)
  | returned batch => exact absurd ⟨batch, hl⟩ hopen

end ReflectivePi.Agent
