import ReflectivePi.Session.SharedDisk

/-!
# Session — Switch

`setSessionFile` with the failures of the file system. The path is taken over
before the file is looked at, so a call that throws leaves the session intact only
if it was for the session's own file.
-/

namespace ReflectivePi.Session

namespace LiveManager

/-! ## Failures -/

/-- Where the file system fails, if it does: as the file is read or its size asked for,
or as it is written anew. -/
inductive Fault where
  | nowhere
  | load
  | rewrite
  deriving DecidableEq

def loadError : String := "cannot read the session file"

def writeError : String := "cannot write the session file"

section

variable (migrate : List FileEntry → List FileEntry × Bool)

/-- `_rewriteFile`, which a failure leaves with what it has put on the disk. -/
def rewriteOrThrow (m : LiveManager) (fault : Fault) (next : LiveManager) : Outcome :=
  if fault = .rewrite && !m.rewriteFile.isEmpty then ⟨m, [], some writeError⟩
  else ⟨next, m.rewriteFile, none⟩

/-- `_loadEntries` and what follows it. -/
def loadOrThrow (env : Environment) (entries : List FileEntry) (fault : Fault)
    (m : LiveManager) : Outcome :=
  match entries.findSome? FileEntry.header? with
  | some header =>
    let (migrated, changed) := migrate entries
    let m := { m with fileEntries := migrated, sessionId := header.id }
    if changed then m.rewriteOrThrow fault { m.buildIndex with flushed := true }
    else ⟨{ m.buildIndex with flushed := true }, [], none⟩
  | none =>
    let m := m.startSession env {}
    ⟨{ { m with fileEntries := m.fileEntries ++ entries }.buildIndex with flushed := true },
      [], none⟩

/-- `_setSessionFile`. -/
def switchFile (env : Environment) (path : String) (file : SessionFile) (fault : Fault)
    (m : LiveManager) : Outcome :=
  let m := { m with sessionFile := some path }
  match file with
  | .missing => ⟨{ m.startSession env {} with sessionFile := some path }, [], none⟩
  | .present isEmpty entries =>
    if fault = .load then ⟨m, [], some loadError⟩
    else
      match entries with
      | [] =>
        if !isEmpty then ⟨m, [], some (invalidFileError path)⟩
        else
          let m := { m.startSession env {} with sessionFile := some path }
          m.rewriteOrThrow fault { m with flushed := true }
      | entries => m.loadOrThrow migrate env entries fault

end

variable {migrate : List FileEntry → List FileEntry × Bool} {m m' next : LiveManager}
  {env : Environment} {path : String} {file : SessionFile} {fault : Fault}
  {entries : List FileEntry}

/-! ## What a failure leaves -/

/-- The session as it can be observed, and what is written next. -/
structure Intact (m m' : LiveManager) : Prop where
  sessionFile : m'.sessionFile = m.sessionFile
  sessionId : m'.sessionId = m.sessionId
  fileEntries : m'.fileEntries = m.fileEntries
  leafId : m'.leafId = m.leafId
  labels : ∀ id, m'.getLabel id = m.getLabel id
  pruneState : ∀ id, m'.getPruneState id = m.getPruneState id
  pruneSummary : ∀ id, m'.getPruneSummary id = m.getPruneSummary id
  appends : ∀ (env : Environment) (kinds : List EntryKind),
    (m'.appendAll env kinds).2 = (m.appendAll env kinds).2

theorem Intact.refl (m : LiveManager) : Intact m m :=
  ⟨rfl, rfl, rfl, rfl, fun _ => rfl, fun _ => rfl, fun _ => rfl, fun _ _ => rfl⟩

/-- The call was for the session's own file; and if the file was to be written anew, it
had in it what is in memory. -/
def IsOwn (migrate : List FileEntry → List FileEntry × Bool) (m : LiveManager) (path : String)
    (file : SessionFile) (fault : Fault) : Prop :=
  m.sessionFile = some path ∧ match file with
    | .missing => True
    | .present isEmpty entries =>
      fault = .load ∨ match entries with
        | [] => isEmpty = false
        | entries => ∃ header, entries.findSome? FileEntry.header? = some header ∧
            m.sessionId = header.id ∧ m.fileEntries = (migrate entries).1

theorem own_path (h : m.sessionFile = some path) :
    ({ m with sessionFile := some path } : LiveManager) = m := by
  rw [← h]

theorem rewriteOrThrow_throws (h : (m.rewriteOrThrow fault next).error.isSome = true) :
    m.rewriteOrThrow fault next = ⟨m, [], some writeError⟩ := by
  unfold rewriteOrThrow at h ⊢
  split at h
  case isTrue hfails => exact if_pos hfails
  case isFalse => cases h

theorem loadOrThrow_throws (h : (m.loadOrThrow migrate env entries fault).error.isSome = true) :
    ∃ header, entries.findSome? FileEntry.header? = some header ∧
      (m.loadOrThrow migrate env entries fault).manager
        = { m with fileEntries := (migrate entries).1, sessionId := header.id } := by
  unfold loadOrThrow at h ⊢
  cases hheader : entries.findSome? FileEntry.header? with
  | none =>
    rw [hheader] at h
    cases h
  | some header =>
    refine ⟨header, rfl, ?_⟩
    simp only [hheader] at h ⊢
    split at h
    case isTrue hchanged => rw [if_pos hchanged, rewriteOrThrow_throws h]
    case isFalse => cases h

/-- **A failed switch leaves the session intact if and only if it was for the session's
own file**: the manager has the path of the file that was rejected. -/
theorem switchFile_intact (hnew : env.createSessionId ≠ m.sessionId)
    (hthrows : (m.switchFile migrate env path file fault).error.isSome = true) :
    Intact m (m.switchFile migrate env path file fault).manager ↔
      IsOwn migrate m path file fault := by
  cases file with
  | missing => cases hthrows
  | present isEmpty entries =>
    simp only [switchFile, IsOwn] at hthrows ⊢
    by_cases hload : fault = .load
    · simp only [hload, if_true, true_or, and_true]
      refine ⟨fun h => h.sessionFile.symm, fun h => ?_⟩
      rw [own_path h]
      exact .refl m
    · simp only [hload, if_false, false_or] at hthrows ⊢
      cases entries with
      | nil =>
        cases isEmpty with
        | false =>
          simp only [Bool.not_false, if_true, and_true]
          refine ⟨fun h => h.sessionFile.symm, fun h => ?_⟩
          rw [own_path h]
          exact .refl m
        | true =>
          -- the session has already been started anew
          simp only [Bool.not_true, Bool.false_eq_true, if_false] at hthrows ⊢
          rw [rewriteOrThrow_throws hthrows]
          refine ⟨fun h => absurd h.sessionId hnew, fun h => ?_⟩
          cases h.2
      | cons e rest =>
        obtain ⟨header, hheader, hmanager⟩ := loadOrThrow_throws hthrows
        rw [hmanager]
        refine ⟨fun h => ⟨h.sessionFile.symm, header, hheader, h.sessionId.symm,
          h.fileEntries.symm⟩, ?_⟩
        rintro ⟨hpath, header', hheader', hid, hentries⟩
        obtain rfl := Option.some.inj (hheader.symm.trans hheader')
        have hsame : ({ m with
            sessionFile := some path
            fileEntries := (migrate (e :: rest)).1
            sessionId := header.id } : LiveManager) = m := by
          rw [← hpath, ← hid, ← hentries]
        rw [hsame]
        exact .refl m

/-- A session with an answer, on the disk. -/
def answeredManager : LiveManager :=
  ((construct (·, false) World.stampedEnvironment true (.new { id := some "a" })).manager.append
    World.stampedEnvironment (.message (.assistant ⟨none, "p", "m", "stop", none, 0⟩))).1

theorem switchFile_intact_sample :
    Intact answeredManager
      (answeredManager.switchFile (·, false) World.stampedEnvironment "0_a.jsonl"
        (.present false []) .nowhere).manager :=
  (switchFile_intact (by decide +kernel) rfl).mpr ⟨by decide +kernel, .inr rfl⟩

/-- **The next entry is appended to the file that was rejected.** -/
theorem switchFile_takes_rejected :
    Reachable (·, false) answeredManager ∧
    (answeredManager.switchFile (·, false) World.stampedEnvironment "notes.txt"
      (.present false []) .nowhere).error.isSome = true ∧
    ¬ Intact answeredManager
      (answeredManager.switchFile (·, false) World.stampedEnvironment "notes.txt"
        (.present false []) .nowhere).manager ∧
    ((answeredManager.switchFile (·, false) World.stampedEnvironment "notes.txt"
      (.present false []) .nowhere).manager.append World.stampedEnvironment
        (.custom "note")).2.map FileWrite.path = ["notes.txt"] := by
  have hcreated : Reachable (·, false)
      (construct (·, false) World.stampedEnvironment true (.new { id := some "a" })).manager :=
    .init ⟨_, _, _, rfl, rfl⟩
  have hreached : Reachable (·, false) (Run.afterAll (fun m (label : Environment × Operation) =>
        some (m.perform (·, false) label.1 label.2).manager)
      (construct (·, false) World.stampedEnvironment true (.new { id := some "a" })).manager
      [(World.stampedEnvironment,
        .append (.message (.assistant ⟨none, "p", "m", "stop", none, 0⟩)) rfl)]) := Run.of_check hcreated rfl
  refine ⟨hreached, rfl, fun h => ?_, by decide +kernel⟩
  have hpath := h.sessionFile
  revert hpath
  decide +kernel

end LiveManager

end ReflectivePi.Session
