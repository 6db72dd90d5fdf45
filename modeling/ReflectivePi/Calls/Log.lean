import ReflectivePi.Calls.AgentSession

/-!
# Calls — Log

What the log of a session says when it is read from the start, and what it
ought to say: one operation at a time, no wait resolved and no message
appended where it must not be, each compaction closed by one end, each run
by one `agent_settled`.
-/

namespace ReflectivePi.Calls

/-! ## Reading -/

/-- The operation in progress and the calls without a result. -/
structure Reading where
  inProgress : Option Operation
  openCalls : Nat

namespace Reading

/-- The reading after one more event, if the event may come now. -/
def after (r : Reading) : Event → Option Reading
  | .started op => if r.inProgress = none then some { r with inProgress := some op } else none
  | .ended op =>
    some { r with inProgress := if r.inProgress = some op then none else r.inProgress }
  | .idle => if r.inProgress = none then some r else none
  | .toolCalls n => some { r with openCalls := n }
  | .toolResult => some { r with openCalls := r.openCalls - 1 }
  | .abandoned => some { r with openCalls := 0 }
  | .bash | .custom => if r.openCalls = 0 then some r else none
  | _ => some r

end Reading

def read (log : List Event) : Option Reading :=
  log.foldlM Reading.after ⟨none, 0⟩

theorem read_append {log events : List Event} {r : Reading} (h : read log = some r) :
    read (log ++ events) = events.foldlM Reading.after r := by
  unfold read at h ⊢
  rw [List.foldlM_append, h]
  rfl

/-- An event that changes nothing of what is in progress and may come now. -/
def Event.Neutral (r : Reading) (e : Event) : Prop := r.after e = some r

theorem read_neutral {log events : List Event} {r : Reading} (h : read log = some r)
    (hevents : ∀ e ∈ events, e.Neutral r) : read (log ++ events) = some r := by
  rw [read_append h]
  clear h
  induction events with
  | nil => rfl
  | cons e events ih =>
    rw [List.foldlM_cons, hevents e (by simp)]
    exact ih fun x hx => hevents x (by simp [hx])

def Event.ofCompaction (k : Nat) : Event → Bool
  | .compactionStart j => decide (j = k)
  | .compactionEnd j => decide (j = some k)
  | _ => false

def Event.ofRun (k : Nat) : Event → Bool
  | .started (.run j) => decide (j = k)
  | .ended (.run j) => decide (j = k)
  | .settled j => decide (j = k)
  | _ => false

/-- What the place of a call says about the operations it holds. -/
structure View where
  operation : Option Operation := none
  /-- The compaction it has to end. -/
  compacts : Option Nat := none
  /-- The run it has to settle. -/
  settles : Option Nat := none
  atAgent : Bool := false
  rejected : Bool := false
  reports : Bool := false

def Phase.view : Phase → View
  | .autoBefore k .working => { compacts := some k }
  | .run k .agent => { operation := some (.run k), atAgent := true }
  | .run k .rejected => { operation := some (.run k), rejected := true }
  | .run k .between => { operation := some (.run k) }
  | .run k (.auto c .working) => { operation := some (.run k), compacts := some c }
  | .run k (.auto _ .reporting) => { operation := some (.run k) }
  | .settling k _ => { settles := some k }
  | .compacting k => { operation := some (.compaction k), compacts := some k }
  | .announcing k => { operation := some (.compaction k), compacts := some k }
  | .reporting => { reports := true }
  | .navigating k => { operation := some (.navigation k) }
  | _ => {}

namespace State

def views (s : State) (i : CallId) : View := (s.phase i).view

/-- The compaction `k` has started: it is ended once, or a call still has to
end it. -/
def CompactionProper (s : State) (k : Nat) : Prop :=
  s.log.filter (Event.ofCompaction k) = [.compactionStart k, .compactionEnd (some k)] ∨
    s.log.filter (Event.ofCompaction k) = [.compactionStart k] ∧ ∃ i, (s.views i).compacts = some k

/-- The run `k` has started: it has ended and was settled once, or a call
still has to settle it, or is in it. -/
def RunProper (s : State) (k : Nat) : Prop :=
  s.log.filter (Event.ofRun k) = [.started (.run k), .ended (.run k), .settled k] ∨
    s.log.filter (Event.ofRun k) = [.started (.run k), .ended (.run k)] ∧
      (∃ i, (s.views i).settles = some k) ∨
    s.log.filter (Event.ofRun k) = [.started (.run k)] ∧ ∃ i, (s.views i).operation = some (.run k)

/-- What callers rely on. -/
structure Proper (s : State) : Prop where
  /-- One operation at a time; no wait is resolved during one; no message is
  appended between calls and their results; the session is not idle during an
  operation. -/
  exclusive : ∃ r, read s.log = some r ∧ (r.inProgress.isSome → s.isIdle = false)
  /-- A call that is in an operation is in the one in progress. -/
  located : ∀ i op, (s.views i).operation = some op →
    ∃ r, read s.log = some r ∧ r.inProgress = some op
  compactions : ∀ k, .compactionStart k ∈ s.log → s.CompactionProper k
  runs : ∀ k, .started (.run k) ∈ s.log → s.RunProper k

end State

end ReflectivePi.Calls
