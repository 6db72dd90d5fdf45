import Mathlib.Logic.Equiv.List
import Mathlib.Tactic.DeriveEncodable
import ReflectivePi.Session.File
import ReflectivePi.Session.Synced

/-!
# Session — Persist

A persisted manager beside the disk it writes to. Writing waits for the
first assistant message, then the whole session is written at once, then
entry by entry. In every run a flushed manager has on disk what it has in
memory, and one that is not flushed has no file and no assistant message.
-/

namespace ReflectivePi.Session

open List

/-! ## The disk -/

abbrev Disk := String → Option Text

def Disk.put (disk : Disk) (path : String) (text : Text) : Disk :=
  fun p => if p = path then some text else disk p

/-- One header, and it comes first. -/
def oneHeader : List FileEntry → Bool
  | .session _ :: rest => rest.all fun e => e.header?.isNone
  | _ => false

section

variable (F : LineFormat)

/-- One file operation; `wx` fails on a file there is. -/
def Disk.apply (disk : Disk) : FileWrite → Option Disk
  | .writeAll path exclusive entries =>
    if exclusive && (disk path).isSome then none
    else some (disk.put path (entries.flatMap F.line))
  | .appendLine path entry =>
    some (disk.put path ((disk path).getD [] ++ F.line entry))

def Disk.applyAll (disk : Disk) (writes : List FileWrite) : Option Disk :=
  writes.foldlM (Disk.apply F) disk

/-- `loadEntriesFromFile` on a path, the text read in the given chunks. -/
def Disk.read (disk : Disk) (path : String) (chunks : List Text) : Option (SessionFile × Disk) :=
  match disk path with
  | none => some (.missing, disk)
  | some text =>
    if chunks.flatten = text then
      let (entries, ended) := F.loadEntriesFromFile chunks
      some (.present text.isEmpty entries, if ended then disk.put path (text ++ ['\n']) else disk)
    else none

end

/-! ## Runs -/

structure World where
  manager : LiveManager
  disk : Disk

inductive Command where
  /-- An operation that reads no file. -/
  | operation (op : LiveManager.Operation)
  | setSessionFile (path : String) (chunks : List Text)

namespace World

section

variable (F : LineFormat) (migrate : List FileEntry → List FileEntry × Bool)

/-- What an operation leaves behind, once its file operations succeed. -/
def settle (disk : Disk) (outcome : Outcome) : Option World :=
  (disk.applyAll F outcome.writes).map fun disk => ⟨outcome.manager, disk⟩

/-- `setSessionFile`, when it does not throw. -/
def openFile (env : Environment) (w : World) (path : String)
    (chunks : List Text) : Option World :=
  match w.disk.read F path chunks with
  | none => none
  | some (file, disk) =>
    let outcome := w.manager.setSessionFile migrate env path file
    if outcome.error.isSome then none else settle F disk outcome

def step (w : World) (label : Environment × Command) : Option World :=
  match label.2 with
  | .operation (.setSessionFile _ _) => none
  | .operation op =>
    settle F w.disk (w.manager.perform migrate label.1 op)
  | .setSessionFile path chunks => w.openFile F migrate label.1 path chunks

end

/-- The file a new session takes does not exist. -/
def NameIsNew (env : Environment) (w : World) (id : String) : Prop :=
  w.disk (env.newSessionFile (env.clock w.manager.fileEntries.length) id) = none

/-- Every session started takes a new name. -/
def TakesNewNames (w : World) (label : Environment × Command) : Prop :=
  match label.2 with
  | .operation (.newSession options) =>
    w.NameIsNew label.1 (options.id.getD label.1.createSessionId)
  | .operation (.createBranchedSession _) =>
    w.NameIsNew label.1 label.1.createSessionId
  | _ => True

/-- A file that is opened has no entries, or one header in front. -/
def OpensValidFile (F : LineFormat) (label : Environment × Command) : Prop :=
  match label.2 with
  | .setSessionFile _ chunks =>
    (F.loadEntriesFromFile chunks).1 = [] ∨ oneHeader (F.loadEntriesFromFile chunks).1 = true
  | _ => True

/-- `create` or `open`, over any disk. -/
inductive Started (F : LineFormat)
    (migrate : List FileEntry → List FileEntry × Bool) : World → Prop
  | create {env : Environment} {disk : Disk} {options : LiveManager.NewSessionOptions}
      (hnew : NameIsNew env ⟨LiveManager.blank true, disk⟩
        (options.id.getD env.createSessionId))
      (hvalid : (LiveManager.construct migrate env true (.new options)).error = none) :
      Started F migrate
        ⟨(LiveManager.construct migrate env true (.new options)).manager, disk⟩
  | openFile {env : Environment} {disk : Disk} {path : String}
      {chunks : List Text} {w : World}
      (hvalid : OpensValidFile F (env, .setSessionFile path chunks))
      (hopen : openFile F migrate env ⟨LiveManager.blank true, disk⟩ path chunks = some w) :
      Started F migrate w

/-! ## The invariant -/

/-- The file is what is in memory, or there is none yet. -/
inductive OnDisk (F : LineFormat) (m : LiveManager) (disk : Disk)
    (path : String) : Prop
  | flushed {text : Text} (hflushed : m.flushed = true)
      (hfile : disk path = some text) (hholds : F.Holds text m.fileEntries)
  | waiting (hflushed : m.flushed = false) (hmissing : disk path = none)
      (hassistant : m.hasAssistant = false)

structure Persisted (F : LineFormat) (m : LiveManager) (disk : Disk) :
    Prop where
  persist : m.persist = true
  headed : oneHeader m.fileEntries = true
  onDisk : ∃ path, m.sessionFile = some path ∧ OnDisk F m disk path

variable {F : LineFormat} {m m' : LiveManager} {disk disk' : Disk}
  {path : String}

@[simp] theorem put_self (disk : Disk) (path : String) (text : Text) :
    disk.put path text path = some text := if_pos rfl

theorem applyAll_append (disk : Disk) (a b : List FileWrite) :
    disk.applyAll F (a ++ b) = (disk.applyAll F a).bind (·.applyAll F b) :=
  foldlM_append

theorem oneHeader_append {l : List FileEntry} (h : oneHeader l = true)
    (e : SessionEntry) : oneHeader (l ++ [.entry e]) = true := by
  unfold oneHeader at h
  split at h
  · rename_i header rest
    show (rest ++ [FileEntry.entry e]).all _ = true
    rw [all_append, h]
    rfl
  · cases h

theorem header_of_oneHeader {l : List FileEntry} (h : oneHeader l = true) :
    ∃ header rest, l = .session header :: rest := by
  unfold oneHeader at h
  split at h
  · exact ⟨_, _, rfl⟩
  · cases h

/-! ## Appends -/

section

variable {e : SessionEntry} (hpersist : m.persist = true)
  (hpath : m.sessionFile = some path)

include hpersist hpath

theorem persistEntry_of_flushed (hflushed : m.flushed = true) :
    m.persistEntry e = (m, [.appendLine path (.entry e)]) := by
  simp only [LiveManager.persistEntry, hpersist, hpath, hflushed]
  simp

theorem persistEntry_of_assistant (hflushed : m.flushed = false)
    (hassistant : m.hasAssistant = true) :
    m.persistEntry e = ({ m with flushed := true }, [.writeAll path true m.fileEntries]) := by
  simp [LiveManager.persistEntry, hpersist, hpath, hflushed, hassistant]

theorem persistEntry_of_waiting (hflushed : m.flushed = false)
    (hassistant : m.hasAssistant = false) :
    m.persistEntry e = ({ m with flushed := false }, []) := by
  simp [LiveManager.persistEntry, hpersist, hpath, hflushed, hassistant]

end

theorem applyAll_singleton (disk : Disk) (write : FileWrite) :
    disk.applyAll F [write] = disk.apply F write := by
  simp [Disk.applyAll]

theorem holds_of_writeAll {exclusive : Bool} {entries : List FileEntry}
    (hwrites : disk.applyAll F [.writeAll path exclusive entries]
      = some disk') : ∃ text, disk' path = some text ∧ F.Holds text entries := by
  rw [applyAll_singleton, Disk.apply] at hwrites
  split at hwrites
  · cases hwrites
  · cases hwrites
    exact ⟨_, put_self _ _ _, LineFormat.holds_lines _⟩

/-- What is in memory is on disk, whatever headers it has. -/
structure Backed (F : LineFormat) (m : LiveManager) (disk : Disk) : Prop where
  persist : m.persist = true
  onDisk : ∃ path, m.sessionFile = some path ∧ OnDisk F m disk path

theorem Persisted.backed (h : Persisted F m disk) : Backed F m disk :=
  ⟨h.persist, h.onDisk⟩

theorem Backed.persisted (h : Backed F m disk)
    (hheaded : oneHeader m.fileEntries = true) : Persisted F m disk :=
  ⟨h.persist, hheaded, h.onDisk⟩

/-- **One more entry**, in memory and on disk. -/
theorem Backed.appendEntry (h : Backed F m disk) (e : SessionEntry)
    (hwrites : disk.applyAll F (m.appendEntry e).2 = some disk') :
    Backed F (m.appendEntry e).1 disk' := by
  obtain ⟨path, hpath, hdisk⟩ := h.onDisk
  generalize hgrown : ({ m with
    fileEntries := m.fileEntries ++ [FileEntry.entry e]
    byId := m.byId.set e.id e
    leafId := some e.id } : LiveManager) = grown
  have happend : m.appendEntry e = grown.persistEntry e := by rw [← hgrown]; rfl
  have hpersist' : grown.persist = true := by rw [← hgrown]; exact h.persist
  have hpath' : grown.sessionFile = some path := by rw [← hgrown]; exact hpath
  have hentries : grown.fileEntries = m.fileEntries ++ [.entry e] := by
    rw [← hgrown]
  rw [happend] at hwrites ⊢
  cases hdisk with
  | @flushed text hflushed hfile hholds =>
    have hflushed' : grown.flushed = true := by rw [← hgrown]; exact hflushed
    rw [persistEntry_of_flushed hpersist' hpath' hflushed'] at hwrites ⊢
    refine ⟨hpersist', path, hpath', ?_⟩
    rw [applyAll_singleton, Disk.apply, hfile] at hwrites
    cases hwrites
    refine .flushed hflushed' (put_self _ _ _) ?_
    show F.Holds _ grown.fileEntries
    rw [hentries]
    exact hholds.append _
  | waiting hflushed hmissing _ =>
    have hflushed' : grown.flushed = false := by rw [← hgrown]; exact hflushed
    cases hassistant : grown.hasAssistant with
    | true =>
      rw [persistEntry_of_assistant hpersist' hpath' hflushed' hassistant] at hwrites ⊢
      obtain ⟨text, hfile, hholds⟩ := holds_of_writeAll hwrites
      exact ⟨hpersist', path, hpath', .flushed rfl hfile hholds⟩
    | false =>
      rw [persistEntry_of_waiting hpersist' hpath' hflushed' hassistant] at hwrites ⊢
      cases hwrites
      exact ⟨hpersist', path, hpath', .waiting rfl hmissing hassistant⟩

variable {env : Environment}

theorem Backed.appendAll {kinds : List EntryKind} (h : Backed F m disk)
    (hwrites : disk.applyAll F (m.appendAll env kinds).2 = some disk') :
    Backed F (m.appendAll env kinds).1 disk' := by
  induction kinds generalizing m disk with
  | nil =>
    cases hwrites
    exact h
  | cons kind kinds ih =>
    have hsplit := applyAll_append (F := F) disk
      (m.append env kind).2 ((m.append env kind).1.appendAll env kinds).2
    obtain ⟨disk₁, hone, hrest⟩ := Option.bind_eq_some_iff.mp (hsplit.symm.trans hwrites)
    exact ih (h.appendEntry _ hone) hrest

/-! ## Other sessions -/

theorem backed_startSession (options : LiveManager.NewSessionOptions) (hpersist : m.persist = true)
    (hnew : disk (env.newSessionFile (env.clock m.fileEntries.length)
      (options.id.getD env.createSessionId)) = none) : Backed F (m.startSession env options) disk :=
  ⟨hpersist, _, if_pos hpersist, .waiting rfl hnew rfl⟩

theorem persisted_startSession (options : LiveManager.NewSessionOptions)
    (hpersist : m.persist = true) (hnew : disk (env.newSessionFile (env.clock m.fileEntries.length)
      (options.id.getD env.createSessionId)) = none) :
    Persisted F (m.startSession env options) disk :=
  (backed_startSession options hpersist hnew).persisted rfl

theorem buildIndex_eq (m : LiveManager) :
    m.buildIndex.persist = m.persist ∧ m.buildIndex.sessionFile = m.sessionFile ∧
      m.buildIndex.fileEntries = m.fileEntries ∧
      m.buildIndex.flushed = m.flushed := by
  rw [LiveManager.buildIndex, LiveManager.foldl_indexEntry]
  simp

theorem rewriteFile_eq (hpersist : m.persist = true) (hpath : m.sessionFile = some path) :
    m.rewriteFile = [.writeAll path false m.fileEntries] := by
  simp only [LiveManager.rewriteFile, hpersist, hpath]

theorem backed_rewriteFile (hpersist : m.persist = true) (hpath : m.sessionFile = some path)
    (hwrites : disk.applyAll F m.rewriteFile = some disk') :
    Backed F { m with flushed := true } disk' := by
  rw [rewriteFile_eq hpersist hpath] at hwrites
  obtain ⟨text, hfile, hholds⟩ := holds_of_writeAll hwrites
  exact ⟨hpersist, path, hpath, .flushed rfl hfile hholds⟩

theorem branched_eq (env : Environment) (path : List SessionEntry) (m : LiveManager) :
    (m.branched env path).persist = m.persist ∧ (m.branched env path).sessionFile
        = (if m.persist = true then some (env.newSessionFile
            (env.clock m.fileEntries.length) env.createSessionId)
          else m.sessionFile) := by
  obtain ⟨hpersist, hfile, -, -⟩ := buildIndex_eq _
  exact ⟨hpersist, hfile⟩

theorem backed_createBranchedSession {leafId : EntryId} (h : Backed F m disk)
    (hnew : disk (env.newSessionFile (env.clock m.fileEntries.length)
      env.createSessionId) = none)
    (hwrites : disk.applyAll F (m.createBranchedSession env leafId).writes
      = some disk') : Backed F (m.createBranchedSession env leafId).manager disk' := by
  unfold LiveManager.createBranchedSession at hwrites ⊢
  by_cases hempty : (m.walk (some leafId)).isEmpty = true
  · rw [if_pos hempty] at hwrites ⊢
    cases hwrites
    exact h
  · rw [if_neg hempty] at hwrites ⊢
    obtain ⟨hpersist, hfile⟩ := branched_eq env (m.walk (some leafId)) m
    rw [h.persist] at hpersist hfile
    generalize m.branched env (m.walk (some leafId)) = branched at hwrites hpersist hfile ⊢
    unfold LiveManager.writeBranched at hwrites ⊢
    rw [if_pos hpersist] at hwrites ⊢
    by_cases hassistant : branched.hasAssistant = true
    · rw [if_pos hassistant] at hwrites ⊢
      exact backed_rewriteFile hpersist hfile hwrites
    · rw [if_neg hassistant] at hwrites ⊢
      cases hwrites
      exact ⟨hpersist, _, hfile, .waiting rfl hnew (Bool.eq_false_iff.mpr hassistant)⟩

/-! ## Headers -/

/-- What holds of every header followed by entries, and of more entries. -/
structure KeptByEntries (p : List FileEntry → Prop) : Prop where
  append : ∀ l e, p l → p (l ++ [.entry e])
  started : ∀ (header : SessionHeader) (l : List SessionEntry),
    header.version = LiveManager.currentSessionVersion →
    p (.session header :: l.map FileEntry.entry)

theorem keptByEntries_oneHeader : KeptByEntries fun l => oneHeader l = true := by
  refine ⟨fun l e h => oneHeader_append h e, fun header l _ => ?_⟩
  show (l.map FileEntry.entry).all _ = true
  rw [all_map, all_eq_true]
  intro e _
  rfl

section Kept

variable {p : List FileEntry → Prop} {env : Environment}

theorem KeptByEntries.appendEntry (hp : KeptByEntries p)
    (h : p m.fileEntries) (e : SessionEntry) : p (m.appendEntry e).1.fileEntries := by
  rw [LiveManager.appendEntry, LiveManager.persistEntry_eq]
  exact hp.append _ e h

theorem KeptByEntries.appendAll (hp : KeptByEntries p)
    {kinds : List EntryKind} (h : p m.fileEntries) : p (m.appendAll env kinds).1.fileEntries := by
  induction kinds generalizing m with
  | nil => exact h
  | cons kind kinds ih => exact ih (hp.appendEntry h _)

theorem KeptByEntries.startSession (hp : KeptByEntries p)
    (options : LiveManager.NewSessionOptions) : p (m.startSession env options).fileEntries :=
  hp.started _ [] rfl

theorem KeptByEntries.createBranchedSession (hp : KeptByEntries p)
    (h : p m.fileEntries) (leafId : EntryId) :
    p (m.createBranchedSession env leafId).manager.fileEntries := by
  have hbranched : p (m.branched env (m.walk (some leafId))).fileEntries := by
    unfold LiveManager.branched
    rw [(buildIndex_eq _).2.2.1]
    exact hp.started _ _ rfl
  unfold LiveManager.createBranchedSession LiveManager.writeBranched
  simp only
  split
  · exact h
  · split
    · split <;> exact hbranched
    · exact hbranched

/-- **Every operation keeps what entries keep.** -/
theorem KeptByEntries.perform (hp : KeptByEntries p)
    {migrate : List FileEntry → List FileEntry × Bool} {op : LiveManager.Operation}
    (h : p m.fileEntries) (hop : ∀ path file, op ≠ .setSessionFile path file) :
    p (m.perform migrate env op).manager.fileEntries := by
  unfold LiveManager.perform
  cases op with
  | read =>
    simp only [LiveManager.getContextChanges]
    split
    · exact h
    · split <;> exact h
  | append kind plain => exact hp.appendEntry h _
  | appendCompaction summary first tokens details fromHook =>
    exact hp.appendEntry h _
  | appendContextChanges changes =>
    simp only
    split
    · exact h
    · exact hp.appendAll h
  | branch id =>
    simp only
    split <;> exact h
  | resetLeaf => exact h
  | branchWithSummary id summary =>
    cases id with
    | none => exact hp.appendEntry (m := { m with leafId := none }) h _
    | some id =>
      simp only
      split
      · exact h
      · exact hp.appendEntry (m := { m with leafId := some id }) h _
  | createBranchedSession leafId => exact hp.createBranchedSession h leafId
  | newSession options =>
    simp only [LiveManager.newSession]
    split
    · exact h
    · exact hp.startSession options
  | setSessionFile path file => exact absurd rfl (hop path file)
  | _ =>
    simp only
    split
    · exact h
    · exact hp.appendEntry h _

end Kept

/-! ## Opening a file -/

/-- What a migration may do: report that it did nothing, or bring entries
with one header in front to others with one in front. -/
structure Migrates (migrate : List FileEntry → List FileEntry × Bool) :
    Prop where
  unchanged : ∀ l, (migrate l).2 = false → (migrate l).1 = l
  headed : ∀ l, oneHeader l = true → oneHeader (migrate l).1 = true

variable {migrate : List FileEntry → List FileEntry × Bool}

theorem loadEntries_eq {header : SessionHeader} {rest : List FileEntry} :
    m.loadEntries migrate env {} (.session header :: rest) = (({ m with
          fileEntries := (migrate (.session header :: rest)).1
          sessionId := header.id } : LiveManager).buildIndex,
        if (migrate (.session header :: rest)).2 then
          ({ m with
            fileEntries := (migrate (.session header :: rest)).1
            sessionId := header.id } : LiveManager).rewriteFile
        else []) := rfl

theorem backed_loadEntries (hmigrate : ∀ l, (migrate l).2 = false → (migrate l).1 = l)
    {header : SessionHeader} {rest : List FileEntry} {text : Text}
    (hpersist : m.persist = true) (hpath : m.sessionFile = some path)
    (hfile : disk path = some text) (hholds : F.Holds text (.session header :: rest))
    (hwrites : disk.applyAll F
        (m.loadEntries migrate env {} (.session header :: rest)).2 = some disk') :
    Backed F { (m.loadEntries migrate env {} (.session header :: rest)).1 with
      flushed := true } disk' := by
  rw [loadEntries_eq] at hwrites ⊢
  generalize hentries : FileEntry.session header :: rest = entries at hwrites hholds ⊢
  generalize hloaded : ({ m with
    fileEntries := (migrate entries).1
    sessionId := header.id } : LiveManager) = loaded at hwrites ⊢
  have hpersist' : loaded.persist = true := by rw [← hloaded]; exact hpersist
  have hpath' : loaded.sessionFile = some path := by rw [← hloaded]; exact hpath
  have hentries' : loaded.fileEntries = (migrate entries).1 := by rw [← hloaded]
  obtain ⟨hbuilt, hfile', hbuilt', -⟩ := buildIndex_eq loaded
  refine ⟨hbuilt.trans hpersist', path, hfile'.trans hpath', ?_⟩
  cases hchanged : (migrate entries).2 with
  | true =>
    rw [hchanged, if_pos rfl, rewriteFile_eq hpersist' hpath'] at hwrites
    obtain ⟨text', hfile', hholds'⟩ := holds_of_writeAll hwrites
    exact .flushed rfl hfile' (hbuilt'.symm ▸ hholds')
  | false =>
    rw [hchanged] at hwrites
    cases hwrites
    refine .flushed rfl hfile ?_
    show F.Holds _ loaded.buildIndex.fileEntries
    rw [hbuilt', hentries', hmigrate _ hchanged]
    exact hholds

theorem loadEntriesFromFile_cases (F : LineFormat) (chunks : List Text) :
    F.loadEntriesFromFile chunks = ([], false) ∨ ∃ header rest ended,
        F.loadEntriesFromFile chunks = (.session header :: rest, ended) := by
  unfold LineFormat.loadEntriesFromFile
  simp only
  split
  · rename_i header rest hread
    exact .inr ⟨header, rest, _, congrArg (·, _) hread⟩
  · exact .inl rfl

variable {chunks : List Text} {w w' : World}

/-- **A file that was opened** is what is in memory: it was not there, it was empty, or
it was loaded. -/
theorem openFile_cases (hopen : w.openFile F migrate env path chunks = some w') :
    (w.disk path = none ∧ w' = ⟨{ ({ w.manager with sessionFile := some path } :
        LiveManager).startSession env {} with sessionFile := some path }, w.disk⟩) ∨
    (w.disk path = some [] ∧ ∃ m : LiveManager, m = { ({ w.manager with sessionFile := some path } :
        LiveManager).startSession env {} with sessionFile := some path } ∧
      w'.manager = { m with flushed := true } ∧
      w.disk.applyAll F m.rewriteFile = some w'.disk) ∨
    ∃ text header rest ended, w.disk path = some text ∧ chunks.flatten = text ∧
      F.loadEntriesFromFile chunks = (.session header :: rest, ended) ∧
      ∃ loaded, loaded = ({ w.manager with sessionFile := some path } :
        LiveManager).loadEntries migrate env {} (.session header :: rest) ∧
      w'.manager = { loaded.1 with flushed := true } ∧
      (if ended then w.disk.put path (text ++ ['\n']) else w.disk).applyAll F loaded.2
        = some w'.disk := by
  unfold openFile at hopen
  cases htext : w.disk path with
  | none =>
    simp only [Disk.read, htext] at hopen
    cases hopen
    exact .inl ⟨rfl, rfl⟩
  | some text =>
    by_cases hchunks : chunks.flatten = text
    case neg =>
      simp only [Disk.read, htext, if_neg hchunks] at hopen
      cases hopen
    case pos =>
      simp only [Disk.read, htext, if_pos hchunks] at hopen
      rcases loadEntriesFromFile_cases F chunks with hload | ⟨header, rest, ended, hload⟩
      · cases hempty : text.isEmpty with
        | false => simp [hload, LiveManager.setSessionFile, hempty] at hopen
        | true =>
          simp only [hload, LiveManager.setSessionFile, hempty, settle, Bool.not_true,
            Bool.false_eq_true, if_false] at hopen
          obtain ⟨disk', hwrites, rfl⟩ := Option.map_eq_some_iff.mp hopen
          refine .inr (.inl ⟨?_, _, rfl, rfl, hwrites⟩)
          rw [List.isEmpty_iff.mp hempty]
      · simp only [hload, LiveManager.setSessionFile, settle] at hopen
        obtain ⟨disk', hwrites, rfl⟩ := Option.map_eq_some_iff.mp hopen
        exact .inr (.inr ⟨text, header, rest, ended, rfl, hchunks, hload, _, rfl, rfl, hwrites⟩)

theorem backed_openFile (hmigrate : ∀ l, (migrate l).2 = false → (migrate l).1 = l)
    (hpersist : w.manager.persist = true)
    (hopen : w.openFile F migrate env path chunks = some w') : Backed F w'.manager w'.disk := by
  rcases openFile_cases hopen with ⟨hmissing, rfl⟩ | ⟨-, m, rfl, hmanager, hwrites⟩ |
      ⟨text, header, rest, ended, htext, hchunks, hload, loaded, rfl, hmanager, hwrites⟩
  · exact ⟨hpersist, path, rfl, .waiting rfl hmissing rfl⟩
  · rw [hmanager]
    exact backed_rewriteFile (by exact hpersist) rfl hwrites
  · have hholds := LineFormat.holds_of_load hload (by simp)
    rw [hchunks] at hholds
    rw [hmanager]
    refine backed_loadEntries hmigrate hpersist rfl ?_ hholds hwrites
    cases ended with
    | true => exact put_self _ _ _
    | false => simpa using htext

theorem persisted_openFile (hmigrate : Migrates migrate) (hpersist : w.manager.persist = true)
    (hvalid : OpensValidFile F (env, .setSessionFile path chunks))
    (hopen : w.openFile F migrate env path chunks = some w') : Persisted F w'.manager w'.disk := by
  refine (backed_openFile hmigrate.unchanged hpersist hopen).persisted ?_
  rcases openFile_cases hopen with ⟨-, rfl⟩ | ⟨-, m, rfl, hmanager, -⟩ |
      ⟨text, header, rest, ended, -, -, hload, loaded, rfl, hmanager, -⟩
  · rfl
  · rw [hmanager]
    rfl
  · simp only [OpensValidFile, hload] at hvalid
    have hheaded := hvalid.resolve_left (by simp)
    rw [hmanager, loadEntries_eq]
    show oneHeader (LiveManager.buildIndex _).fileEntries = true
    rw [(buildIndex_eq _).2.2.1]
    exact hmigrate.headed _ hheaded

/-! ## Every step -/

theorem Backed.congr (h : Backed F m disk)
    (hpersist : m'.persist = m.persist) (hfile : m'.sessionFile = m.sessionFile)
    (hflushed : m'.flushed = m.flushed)
    (hentries : m'.fileEntries = m.fileEntries) : Backed F m' disk := by
  obtain ⟨path, hpath, hdisk⟩ := h.onDisk
  refine ⟨hpersist.trans h.persist, path, hfile.trans hpath, ?_⟩
  cases hdisk with
  | flushed hf hfile hholds =>
    exact .flushed (hflushed.trans hf) hfile (hentries ▸ hholds)
  | waiting hf hmissing hassistant =>
    refine .waiting (hflushed.trans hf) hmissing ?_
    rw [LiveManager.hasAssistant, hentries]
    exact hassistant

/-- Once its file operations succeed, the outcome is on disk. -/
def Backs (F : LineFormat) (disk : Disk) (outcome : Outcome) : Prop :=
  ∀ disk', disk.applyAll F outcome.writes = some disk' → Backed F outcome.manager disk'

theorem Backed.backs (h : Backed F m disk) (error : Option String) :
    Backs F disk ⟨m, [], error⟩ := by
  intro disk' hwrites
  cases hwrites
  exact h

theorem Backed.backs_append (h : Backed F m disk) (env : Environment) (kind : EntryKind) :
    Backs F disk (LiveManager.done (m.append env kind)) :=
  fun _ hwrites => h.appendEntry _ hwrites

/-- **Every operation keeps file and memory together.** -/
theorem backs_perform {op : LiveManager.Operation} (h : Backed F m disk)
    (hnew : TakesNewNames ⟨m, disk⟩ (env, .operation op))
    (hop : ∀ path file, op ≠ .setSessionFile path file) :
    Backs F disk (m.perform migrate env op) := by
  unfold LiveManager.perform
  cases op with
  | read =>
    have hread : Backed F m.getContextChanges.2 disk := by
      unfold LiveManager.getContextChanges
      split
      · exact h.congr rfl rfl rfl rfl
      · split
        · exact h
        · exact h.congr rfl rfl rfl rfl
    exact hread.backs none
  | append kind plain => exact h.backs_append _ _
  | appendCompaction summary first tokens details fromHook =>
    exact h.backs_append _ _
  | appendLabelChange targetId label =>
    simp only
    split
    · exact h.backs _
    · exact fun _ hwrites => (h.appendEntry _ hwrites).congr rfl rfl rfl rfl
  | appendContextChanges changes =>
    simp only
    split
    · exact h.backs _
    · exact fun _ hwrites => h.appendAll hwrites
  | branch id =>
    have hmoved : Backed F { m with leafId := some id } disk := h.congr rfl rfl rfl rfl
    simp only
    split
    · exact h.backs _
    · exact hmoved.backs _
  | resetLeaf =>
    have hmoved : Backed F { m with leafId := none } disk := h.congr rfl rfl rfl rfl
    exact hmoved.backs _
  | branchWithSummary id summary =>
    cases id with
    | none =>
      have hmoved : Backed F { m with leafId := none } disk := h.congr rfl rfl rfl rfl
      exact hmoved.backs_append _ _
    | some id =>
      have hmoved : Backed F { m with leafId := some id } disk := h.congr rfl rfl rfl rfl
      simp only
      split
      · exact h.backs _
      · exact hmoved.backs_append _ _
  | createBranchedSession leafId =>
    exact fun _ hwrites => backed_createBranchedSession h hnew hwrites
  | newSession options =>
    simp only [LiveManager.newSession]
    split
    · exact h.backs _
    · exact (backed_startSession options h.persist hnew).backs _
  | setSessionFile path file => exact absurd rfl (hop path file)
  | _ =>
    simp only
    split
    · exact h.backs _
    · exact h.backs_append _ _

/-- Once its file operations succeed, the outcome is persisted. -/
def Settles (F : LineFormat) (disk : Disk) (outcome : Outcome) : Prop :=
  ∀ disk', disk.applyAll F outcome.writes = some disk' → Persisted F outcome.manager disk'

theorem settles_perform {op : LiveManager.Operation} (h : Persisted F m disk)
    (hnew : TakesNewNames ⟨m, disk⟩ (env, .operation op))
    (hop : ∀ path file, op ≠ .setSessionFile path file) :
    Settles F disk (m.perform migrate env op) :=
  fun disk' hwrites => (backs_perform h.backed hnew hop disk' hwrites).persisted
    (keptByEntries_oneHeader.perform h.headed hop)

/-- The worlds a persisted manager reaches, by steps that meet `ok`. -/
abbrev Reachable (F : LineFormat) (migrate : List FileEntry → List FileEntry × Bool)
    (ok : World → Environment × Command → Prop) : World → Prop :=
  Run (Started F migrate) (step F migrate) (fun w label => OpensValidFile F label ∧ ok w label)

theorem Reachable.persisted (hmigrate : Migrates migrate)
    (h : Reachable F migrate TakesNewNames w) : Persisted F w.manager w.disk := by
  refine Run.invariant (p := fun w => Persisted F w.manager w.disk) ?_ ?_ h
  · rintro _ (⟨hnew, hvalid⟩ | ⟨hvalid, hopen⟩)
    · rename_i env disk options
      revert hvalid
      simp only [LiveManager.construct, LiveManager.newSession]
      split
      · intro hc
        cases hc
      · exact fun _ => persisted_startSession options rfl hnew
    · exact persisted_openFile hmigrate rfl hvalid hopen
  · rintro w ⟨env, command⟩ w' hw ⟨hvalid, hnew⟩ hstep
    cases command with
    | operation op =>
      have hop : ∀ path file, op ≠ .setSessionFile path file := by
        rintro path file rfl
        cases hstep
      have hsettle : settle F w.disk (w.manager.perform migrate env op) = some w' := by
        cases op <;> first | exact hstep | exact absurd rfl (hop _ _)
      obtain ⟨disk', hwrites, rfl⟩ := Option.map_eq_some_iff.mp hsettle
      exact settles_perform hw hnew hop disk' hwrites
    | setSessionFile path chunks =>
      exact persisted_openFile hmigrate hw.persist hvalid hstep

/-- What is written is what is in memory: of a flushed session the file
parses, however it is read, to its entries with one header in front; one
that is not flushed has no file and no assistant message. -/
structure WrittenIsHeld (F : LineFormat) (w : World) (path : String) : Prop where
  flushed : w.manager.flushed = true → oneHeader w.manager.fileEntries = true ∧
      ∃ text, w.disk path = some text ∧ ∀ chunks, chunks.flatten = text →
        (F.loadEntriesFromFile chunks).1 = w.manager.fileEntries
  waiting : w.manager.flushed = false → w.disk path = none ∧ w.manager.hasAssistant = false

/-- **The session file is the session**, in every run of a persisted
manager that names each new session anew. -/
theorem file_holds_session {migrate : List FileEntry → List FileEntry × Bool}
    (hmigrate : Migrates migrate) {w : World} (h : Reachable F migrate TakesNewNames w) :
    ∃ path, w.manager.sessionFile = some path ∧ WrittenIsHeld F w path := by
  have hp := h.persisted hmigrate
  obtain ⟨path, hpath, hdisk⟩ := hp.onDisk
  refine ⟨path, hpath, ?_⟩
  cases hdisk with
  | @flushed text hflushed hfile hholds =>
    refine ⟨fun _ => ⟨hp.headed, text, hfile, fun chunks hchunks => ?_⟩, ?_⟩
    · obtain ⟨header, rest, hentries⟩ := header_of_oneHeader hp.headed
      rw [hholds.load hentries hchunks]
    · intro hc
      rw [hflushed] at hc
      cases hc
  | waiting hflushed hmissing hassistant =>
    refine ⟨?_, fun _ => ⟨hmissing, hassistant⟩⟩
    intro hc
    rw [hflushed] at hc
    cases hc

/-! ## A format -/

end World

instance encodableChar : Encodable Char :=
  Encodable.ofLeftInverse Char.toNat Char.ofNat Char.ofNat_toNat

instance encodableString : Encodable String :=
  Encodable.ofLeftInverse String.toList String.ofList
    fun _ => String.ofList_toList

instance encodableEntryId : Encodable EntryId :=
  Encodable.ofLeftInverse EntryId.val (fun val => if h : val ≠ "" then ⟨val, h⟩ else .lit "")
    fun id => dif_pos id.nonempty

deriving instance Encodable for ToolCall, ContentBlock, Content, Tool,
  SystemMessage, Usage, AssistantMessage, ToolResultMessage, CustomMessage,
  BashExecutionMessage, AgentMessage, CompactionDetails, PruneState, Curation,
  CompactionEntry, EntryKind, SessionEntry, SessionHeader, FileEntry

def firstAnswer : FileEntry :=
  .entry ⟨SessionManager.longerId [], none, 0,
    .message (.assistant ⟨none, "p", "m", "stop", none, 0⟩)⟩

def firstHeader : FileEntry := .session ⟨3, "a", 0, none⟩

/-- `{"type":"session","version":3,"id":"a",
"timestamp":"1970-01-01T00:00:00.000Z","cwd":"/"}`, in one line. -/
def firstHeaderText : Text :=
  [ '\x7b', '\x22', 't', 'y', 'p', 'e', '\x22', ':', '\x22', 's', 'e', 's', 's',
    'i', 'o', 'n', '\x22', ',', '\x22', 'v', 'e', 'r', 's', 'i', 'o', 'n',
    '\x22', ':', '3', ',', '\x22', 'i', 'd', '\x22', ':', '\x22', 'a', '\x22',
    ',', '\x22', 't', 'i', 'm', 'e', 's', 't', 'a', 'm', 'p', '\x22', ':',
    '\x22', '1', '9', '7', '0', '-', '0', '1', '-', '0', '1', 'T', '0', '0',
    ':', '0', '0', ':', '0', '0', '.', '0', '0', '0', 'Z', '\x22', ',', '\x22',
    'c', 'w', 'd', '\x22', ':', '\x22', '/', '\x22', '\x7d' ]

/-- `{"type":"message","id":"x","parentId":null,
"timestamp":"1970-01-01T00:00:00.000Z","message":{"role":"assistant",
"content":null,"provider":"p","model":"m","stopReason":"stop","timestamp":0}}`,
in one line. -/
def firstAnswerText : Text :=
  [ '\x7b', '\x22', 't', 'y', 'p', 'e', '\x22', ':', '\x22', 'm', 'e', 's', 's',
    'a', 'g', 'e', '\x22', ',', '\x22', 'i', 'd', '\x22', ':', '\x22', 'x',
    '\x22', ',', '\x22', 'p', 'a', 'r', 'e', 'n', 't', 'I', 'd', '\x22', ':',
    'n', 'u', 'l', 'l', ',', '\x22', 't', 'i', 'm', 'e', 's', 't', 'a', 'm',
    'p', '\x22', ':', '\x22', '1', '9', '7', '0', '-', '0', '1', '-', '0', '1',
    'T', '0', '0', ':', '0', '0', ':', '0', '0', '.', '0', '0', '0', 'Z',
    '\x22', ',', '\x22', 'm', 'e', 's', 's', 'a', 'g', 'e', '\x22', ':', '\x7b',
    '\x22', 'r', 'o', 'l', 'e', '\x22', ':', '\x22', 'a', 's', 's', 'i', 's',
    't', 'a', 'n', 't', '\x22', ',', '\x22', 'c', 'o', 'n', 't', 'e', 'n', 't',
    '\x22', ':', 'n', 'u', 'l', 'l', ',', '\x22', 'p', 'r', 'o', 'v', 'i', 'd',
    'e', 'r', '\x22', ':', '\x22', 'p', '\x22', ',', '\x22', 'm', 'o', 'd', 'e',
    'l', '\x22', ':', '\x22', 'm', '\x22', ',', '\x22', 's', 't', 'o', 'p', 'R',
    'e', 'a', 's', 'o', 'n', '\x22', ':', '\x22', 's', 't', 'o', 'p', '\x22',
    ',', '\x22', 't', 'i', 'm', 'e', 's', 't', 'a', 'm', 'p', '\x22', ':', '0', '\x7d', '\x7d' ]

/-- The JSON of two entries, and a number in unary for every other. -/
def unaryFormat : LineFormat where
  stringify e := if e = firstHeader then firstHeaderText
    else if e = firstAnswer then firstAnswerText
    else 'x' :: List.replicate (Encodable.encode e) 'x'
  parse text := if text = firstHeaderText then some firstHeader
    else if text = firstAnswerText then some firstAnswer
    else Encodable.decode text.tail.length
  parse_stringify e := by
    by_cases hheader : e = firstHeader
    · simp [hheader]
    · by_cases hanswer : e = firstAnswer
      · have hne : firstAnswer ≠ firstHeader := by decide
        have htext : firstAnswerText ≠ firstHeaderText := by decide +kernel
        simp [hanswer, hne, htext]
      · have hx : ∀ n, 'x' :: List.replicate n 'x' ≠ firstHeaderText ∧
            'x' :: List.replicate n 'x' ≠ firstAnswerText := by
          intro n
          have hheaderHead : firstHeaderText.head? = some '\x7b' := by
            decide +kernel
          have hanswerHead : firstAnswerText.head? = some '\x7b' := by
            decide +kernel
          refine ⟨fun hc => ?_, fun hc => ?_⟩
          · rw [← hc] at hheaderHead
            cases hheaderHead
          · rw [← hc] at hanswerHead
            cases hanswerHead
        simp [hheader, hanswer, (hx _).1, (hx _).2]
  one_line e := by
    have hheader : '\n' ∉ firstHeaderText := by decide +kernel
    have hanswer : '\n' ∉ firstAnswerText := by decide +kernel
    split
    · exact hheader
    · split
      · exact hanswer
      · simp
  not_blank e := by
    split
    · decide +kernel
    · split
      · decide +kernel
      · rfl

namespace World

/-! ## Two runs -/

/-- One name for one time and id. -/
def stampedEnvironment : Environment where
  generateId := SessionManager.longerId
  clock _ := 0
  createSessionId := "b"
  newSessionFile timestamp id := toString timestamp ++ "_" ++ id ++ ".jsonl"

/-- A session `a` with nothing on the disk. -/
def createdWorld : World :=
  ⟨(LiveManager.construct (·, false) stampedEnvironment true
    (.new { id := some "a" })).manager, fun _ => none⟩

def answer : Environment × Command :=
  (stampedEnvironment, .operation
    (.append (.message (.assistant ⟨none, "p", "m", "stop", none, 0⟩)) rfl))

theorem started_createdWorld : Started unaryFormat (·, false) createdWorld :=
  .create rfl rfl

instance : (w : World) → (label : Environment × Command) → Decidable (TakesNewNames w label)
  | w, (_, .operation (.newSession _)) =>
    inferInstanceAs (Decidable (w.disk _ = none))
  | w, (_, .operation (.createBranchedSession _)) =>
    inferInstanceAs (Decidable (w.disk _ = none))
  | _, (_, .operation .read) | _, (_, .operation (.append _ _))
  | _, (_, .operation (.appendCompaction _ _ _ _ _))
  | _, (_, .operation (.appendContextEdit _ _ _))
  | _, (_, .operation (.appendContextEditCancel _))
  | _, (_, .operation (.appendLabelChange _ _))
  | _, (_, .operation (.appendContextChanges _))
  | _, (_, .operation (.branch _)) | _, (_, .operation .resetLeaf)
  | _, (_, .operation (.branchWithSummary _ _))
  | _, (_, .operation (.setSessionFile _ _))
  | _, (_, .setSessionFile _ _) => isTrue trivial

instance (F : LineFormat) : (label : Environment × Command) → Decidable (OpensValidFile F label)
  | (_, .setSessionFile _ _) => inferInstanceAs (Decidable (_ ∨ _))
  | (_, .operation _) => isTrue trivial

/-- The first answer writes the file, which is then opened again. -/
theorem file_holds_session_sample :
    ∃ path, (Run.afterAll (step unaryFormat (·, false)) createdWorld
        [answer, (stampedEnvironment, .setSessionFile "0_a.jsonl"
          [unaryFormat.line firstHeader ++ unaryFormat.line firstAnswer])]
        ).manager.sessionFile = some path ∧
      WrittenIsHeld unaryFormat (Run.afterAll (step unaryFormat (·, false))
        createdWorld
        [answer, (stampedEnvironment, .setSessionFile "0_a.jsonl"
          [unaryFormat.line firstHeader ++ unaryFormat.line firstAnswer])])
        path :=
  file_holds_session ⟨fun _ _ => rfl, fun _ h => h⟩
    (Run.of_check (.init started_createdWorld) (by decide +kernel))

/-- A session started again under its id within one tick of the clock is
not flushed, and has the other one's file. -/
theorem session_started_twice :
    ¬ ∀ w, Reachable unaryFormat (·, false) (fun _ _ => True) w →
      ∃ path, w.manager.sessionFile = some path ∧ WrittenIsHeld unaryFormat w path := by
  intro hall
  have hrun : Reachable unaryFormat (·, false) (fun _ _ => True)
      (Run.afterAll (step unaryFormat (·, false)) createdWorld
        [answer, (stampedEnvironment, .operation (.newSession { id := some "a" }))]) :=
    Run.of_check (.init started_createdWorld) (by decide +kernel)
  obtain ⟨path, hpath, hheld⟩ := hall _ hrun
  obtain ⟨hmissing, -⟩ := hheld.waiting (by decide +kernel)
  have hname : path = "0_a.jsonl" := by
    refine (Option.some.inj (hpath.symm.trans ?_))
    decide +kernel
  rw [hname] at hmissing
  have hfile := congrArg Option.isSome hmissing
  revert hfile
  decide +kernel

end World

end ReflectivePi.Session
