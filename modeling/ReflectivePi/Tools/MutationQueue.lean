import Mathlib.Data.Option.Basic
import ReflectivePi.Lib.InsertionMap
import ReflectivePi.Lib.LabelledRun

/-!
# Tools — MutationQueue

`withFileMutationQueue`: mutations of a file wait for each other. A call is
registered under a key that is looked up in the file system, one call after
the other; per key the queue is a chain of promises, and a promise is named
by the call that made it. A run is a sequence of calls, answers of the file
system, resumed awaits and settled functions, in any order.
-/

namespace ReflectivePi.Tools

open Option

/-- What the operating system makes of paths: `fileAt` is the file that an
absolute path reaches, through links, whether it exists or not. -/
structure FileSystem (Path File : Type) where
  resolve : Path → Path
  fileAt : Path → File
  canonical : File → Path
  fileAt_canonical : ∀ file, fileAt (canonical file) = file

namespace FileSystem

variable {Path File : Type} (F : FileSystem Path File)

/-- The file that a path denotes. -/
def denotes (path : Path) : File := F.fileAt (F.resolve path)

/-- The canonical path of a file that exists; fails for a missing one. -/
def realpath (existing : File → Bool) (path : Path) : Option Path :=
  if existing (F.fileAt path) then some (F.canonical (F.fileAt path)) else none

def getMutationQueueKey (existing : File → Bool) (filePath : Path) : Path :=
  let resolvedPath := F.resolve filePath
  (F.realpath existing resolvedPath).getD resolvedPath

theorem fileAt_getMutationQueueKey (existing : File → Bool) (filePath : Path) :
    F.fileAt (F.getMutationQueueKey existing filePath) = F.denotes filePath := by
  unfold getMutationQueueKey realpath
  by_cases hexists : existing (F.fileAt (F.resolve filePath)) = true
  · simp [hexists, F.fileAt_canonical, denotes]
  · simp [hexists, denotes]

end FileSystem

/-- How far a call has come: its key is being looked up, is known, the call
is in its queue, its function runs, has settled, and the call has settled
and released its successor. -/
inductive Stage where
  | waiting | keyed | queued | running | finished | settled
  deriving DecidableEq

namespace Stage

/-- The steps to come. -/
def left : Stage → Nat
  | waiting => 5
  | keyed => 4
  | queued => 3
  | running => 2
  | finished => 1
  | settled => 0

def registered (stage : Stage) : Bool := stage.left ≤ 3

def started (stage : Stage) : Bool := stage.left ≤ 2

end Stage

structure Call (Path : Type) where
  path : Path
  stage : Stage
  key : Option Path
  /-- `currentQueue`: the call whose `chainedQueue` it is, if it has one. -/
  currentQueue : Option Nat
  /-- `chainedQueue` is resolved. -/
  chainResolved : Bool

structure Queues (Path File : Type) where
  existing : File → Bool
  calls : List (Call Path)
  /-- How many registrations have been made. -/
  registered : Nat
  /-- The call whose `chainedQueue` a key has. -/
  fileMutationQueues : InsertionMap Path Nat

/-- A call is made, the file system answers `realpath` for the registration
at hand, the registration is made, a function starts, settles, its call
releases the next one, a chained promise resolves, or the file system
changes. -/
inductive Label (Path File : Type) where
  | call (path : Path)
  | resolveKey
  | register
  | start (id : Nat)
  | finish (id : Nat)
  | release (id : Nat)
  | resolveChain (id : Nat)
  | change (existing : File → Bool)

namespace Queues

variable {Path File : Type} [DecidableEq Path]

def init (existing : File → Bool) : Queues Path File :=
  ⟨existing, [], 0, .empty⟩

def update (s : Queues Path File) (id : Nat) (f : Call Path → Call Path) : Queues Path File :=
  { s with calls := s.calls.modify id f }

/-- The promise that a call awaits before its function has resolved. -/
def currentResolved (s : Queues Path File) (call : Call Path) : Bool :=
  match call.currentQueue with
  | none => true
  | some id => (s.calls[id]?).any Call.chainResolved

def step (F : FileSystem Path File) (s : Queues Path File) :
    Label Path File → Option (Queues Path File)
  | .call path =>
    some { s with calls := s.calls ++ [⟨path, .waiting, none, none, false⟩] }
  | .resolveKey => do
    let call ← s.calls[s.registered]?
    guard (call.stage = .waiting)
    some (s.update s.registered fun call =>
      { call with
        stage := .keyed
        key := some (F.getMutationQueueKey s.existing call.path) })
  | .register => do
    let call ← s.calls[s.registered]?
    guard (call.stage = .keyed)
    let key ← call.key
    some { s.update s.registered (fun call =>
          { call with
            stage := .queued
            currentQueue := s.fileMutationQueues.get? key }) with
        registered := s.registered + 1
        fileMutationQueues := s.fileMutationQueues.set key s.registered }
  | .start id => do
    let call ← s.calls[id]?
    guard (call.stage = .queued ∧ s.currentResolved call = true)
    some (s.update id fun call => { call with stage := .running })
  | .finish id => do
    let call ← s.calls[id]?
    guard (call.stage = .running)
    some (s.update id fun call => { call with stage := .finished })
  | .release id => do
    let call ← s.calls[id]?
    guard (call.stage = .finished)
    let key ← call.key
    let s' := s.update id fun call => { call with stage := .settled }
    some (if s.fileMutationQueues.get? key = some id then
        { s' with fileMutationQueues := s'.fileMutationQueues.delete key }
      else s')
  | .resolveChain id => do
    let call ← s.calls[id]?
    guard (call.stage = .settled ∧ call.chainResolved = false ∧ s.currentResolved call = true)
    some (s.update id fun call => { call with chainResolved := true })
  | .change existing => some { s with existing }

/-! ## What a step does -/

section

variable {F : FileSystem Path File} {s s' : Queues Path File} {id i : Nat}
  {call c : Call Path}

omit [DecidableEq Path] in
theorem update_getElem? (s : Queues Path File) (id i : Nat) (f : Call Path → Call Path) :
    (s.update id f).calls[i]? = if id = i then (s.calls[i]?).map f else s.calls[i]? := by
  show (s.calls.modify id f)[i]? = _
  rw [List.getElem?_modify]
  split
  · rfl
  · exact map_id_apply

omit [DecidableEq Path] in
theorem length_update (s : Queues Path File) (id : Nat)
    (f : Call Path → Call Path) : (s.update id f).calls.length = s.calls.length :=
  List.length_modify ..

omit [DecidableEq Path] in
theorem update_of_ne (s : Queues Path File) (f : Call Path → Call Path)
    (h : i ≠ id) : (s.update id f).calls[i]? = s.calls[i]? := by
  rw [update_getElem?, if_neg (Ne.symm h)]

omit [DecidableEq Path] in
theorem update_self (f : Call Path → Call Path) (h : s.calls[id]? = some c) :
    (s.update id f).calls[id]? = some (f c) := by
  rw [update_getElem?, if_pos rfl, h]
  rfl

theorem step_resolveKey (h : step F s .resolveKey = some s') :
    ∃ call, s.calls[s.registered]? = some call ∧ call.stage = .waiting ∧
      s' = s.update s.registered fun call =>
        { call with
          stage := .keyed
          key := some (F.getMutationQueueKey s.existing call.path) } := by
  simp only [step, bind_eq_bind, bind_eq_some_iff, guard_eq_some', Option.some.injEq] at h
  obtain ⟨call, hcall, -, hstage, rfl⟩ := h
  exact ⟨call, hcall, hstage, rfl⟩

theorem step_register (h : step F s .register = some s') :
    ∃ call key, s.calls[s.registered]? = some call ∧ call.stage = .keyed ∧ call.key = some key ∧
      s' = { s.update s.registered (fun call =>
          { call with
            stage := .queued
            currentQueue := s.fileMutationQueues.get? key }) with
        registered := s.registered + 1
        fileMutationQueues := s.fileMutationQueues.set key s.registered } := by
  simp only [step, bind_eq_bind, bind_eq_some_iff, guard_eq_some', Option.some.injEq] at h
  obtain ⟨call, hcall, -, hstage, key, hkey, rfl⟩ := h
  exact ⟨call, key, hcall, hstage, hkey, rfl⟩

theorem step_start (h : step F s (.start id) = some s') :
    ∃ call, s.calls[id]? = some call ∧ call.stage = .queued ∧ s.currentResolved call = true ∧
      s' = s.update id fun call => { call with stage := .running } := by
  simp only [step, bind_eq_bind, bind_eq_some_iff, guard_eq_some', Option.some.injEq] at h
  obtain ⟨call, hcall, -, ⟨hstage, hcurrent⟩, rfl⟩ := h
  exact ⟨call, hcall, hstage, hcurrent, rfl⟩

theorem step_finish (h : step F s (.finish id) = some s') :
    ∃ call, s.calls[id]? = some call ∧ call.stage = .running ∧
      s' = s.update id fun call => { call with stage := .finished } := by
  simp only [step, bind_eq_bind, bind_eq_some_iff, guard_eq_some', Option.some.injEq] at h
  obtain ⟨call, hcall, -, hstage, rfl⟩ := h
  exact ⟨call, hcall, hstage, rfl⟩

theorem step_release (h : step F s (.release id) = some s') :
    ∃ call key, s.calls[id]? = some call ∧ call.stage = .finished ∧ call.key = some key ∧
      s' = { s.update id (fun call => { call with stage := .settled }) with
        fileMutationQueues := if s.fileMutationQueues.get? key = some id then
            s.fileMutationQueues.delete key
          else s.fileMutationQueues } := by
  simp only [step, bind_eq_bind, bind_eq_some_iff, guard_eq_some', Option.some.injEq] at h
  obtain ⟨call, hcall, -, hstage, key, hkey, rfl⟩ := h
  refine ⟨call, key, hcall, hstage, hkey, ?_⟩
  split <;> rfl

theorem step_resolveChain (h : step F s (.resolveChain id) = some s') :
    ∃ call, s.calls[id]? = some call ∧ call.stage = .settled ∧
      call.chainResolved = false ∧ s.currentResolved call = true ∧
      s' = s.update id fun call => { call with chainResolved := true } := by
  simp only [step, bind_eq_bind, bind_eq_some_iff, guard_eq_some', Option.some.injEq] at h
  obtain ⟨call, hcall, -, ⟨hstage, hchain, hcurrent⟩, rfl⟩ := h
  exact ⟨call, hcall, hstage, hchain, hcurrent, rfl⟩

end

end Queues

end ReflectivePi.Tools
