import ReflectivePi.Session.Persist

/-!
# Session — Shared disk

Managers that write to one disk. A manager writes to its own file, or to the one
of the session it starts; a manager with another file does not notice. A file that
a manager has on disk can be opened without a change of it.
-/

namespace ReflectivePi.Session

def FileWrite.path : FileWrite → String
  | .writeAll path _ _ => path
  | .appendLine path _ => path

variable {F : LineFormat} {m m' : LiveManager} {disk disk' : Disk} {path : String}
  {migrate : List FileEntry → List FileEntry × Bool} {env : Environment}

theorem put_other {name : String} (h : path ≠ name) (text : Text) :
    disk.put name text path = disk path := if_neg h

theorem apply_other {write : FileWrite} (hpath : write.path ≠ path)
    (happly : disk.apply F write = some disk') : disk' path = disk path := by
  cases write with
  | writeAll name exclusive entries =>
    simp only [Disk.apply] at happly
    split at happly <;> cases happly
    exact put_other (Ne.symm hpath) _
  | appendLine name entry =>
    cases happly
    exact put_other (Ne.symm hpath) _

/-- **What is written elsewhere is not noticed.** -/
theorem applyAll_other {writes : List FileWrite} (hpaths : ∀ write ∈ writes, write.path ≠ path)
    (happly : disk.applyAll F writes = some disk') : disk' path = disk path := by
  induction writes generalizing disk with
  | nil =>
    cases happly
    rfl
  | cons write writes ih =>
    obtain ⟨disk₁, hone, hrest⟩ := Option.bind_eq_some_iff.mp happly
    rw [ih (fun w hw => hpaths w (List.mem_cons_of_mem _ hw)) hrest]
    exact apply_other (hpaths write List.mem_cons_self) hone

/-- A manager reads its own file only. -/
theorem World.Backed.frame (h : Backed F m disk)
    (hdisk : ∀ path, m.sessionFile = some path → disk' path = disk path) : Backed F m disk' := by
  obtain ⟨path, hpath, hfile⟩ := h.onDisk
  refine ⟨h.persist, path, hpath, ?_⟩
  have hsame := hdisk path hpath
  cases hfile with
  | flushed hflushed hfile hholds => exact .flushed hflushed (hsame.trans hfile) hholds
  | waiting hflushed hmissing hassistant =>
    exact .waiting hflushed (hsame.trans hmissing) hassistant

/-! ## The file of a manager -/

namespace LiveManager

/-- The file of the session that an operation starts. -/
def newName (env : Environment) (m : LiveManager) : Operation → Option String
  | .newSession options => some (env.newSessionFile (env.clock m.fileEntries.length)
      (options.id.getD env.createSessionId))
  | .createBranchedSession _ => some (env.newSessionFile (env.clock m.fileEntries.length)
      env.createSessionId)
  | _ => none

/-- What an operation may do with files: it writes to the manager's file, and the
manager keeps it; or all of it is about the new one. -/
structure OwnFile (env : Environment) (m : LiveManager) (op : Operation)
    (outcome : Outcome) : Prop where
  persist : outcome.manager.persist = m.persist
  file : outcome.manager.sessionFile = m.sessionFile ∨
    ∃ name, m.newName env op = some name ∧ outcome.manager.sessionFile = some name
  writes : ∀ write ∈ outcome.writes, (m.newName env op = none ∧ m.sessionFile = some write.path) ∨
      m.newName env op = some write.path

theorem persistEntry_frame (m : LiveManager) (e : SessionEntry) :
    (m.persistEntry e).1.persist = m.persist ∧ (m.persistEntry e).1.sessionFile = m.sessionFile ∧
        ∀ write ∈ (m.persistEntry e).2, m.sessionFile = some write.path := by
  unfold persistEntry
  split
  case h_1 path hpersist hpath =>
    have hown : ∀ write : FileWrite, write.path = path → m.sessionFile = some write.path :=
      fun write hwrite => hwrite ▸ hpath
    split
    · split
      · refine ⟨rfl, rfl, fun write hwrite => hown write ?_⟩
        rw [List.mem_singleton.mp hwrite]
        rfl
      simp
    · split
      · refine ⟨rfl, rfl, fun write hwrite => hown write ?_⟩
        rw [List.mem_singleton.mp hwrite]
        rfl
      · refine ⟨rfl, rfl, fun write hwrite => hown write ?_⟩
        rw [List.mem_singleton.mp hwrite]
        rfl
  simp

theorem appendEntry_frame (m : LiveManager) (e : SessionEntry) :
    (m.appendEntry e).1.persist = m.persist ∧ (m.appendEntry e).1.sessionFile = m.sessionFile ∧
        ∀ write ∈ (m.appendEntry e).2, m.sessionFile = some write.path :=
  persistEntry_frame _ e

theorem appendAll_frame (m : LiveManager) (kinds : List EntryKind) :
    (m.appendAll env kinds).1.persist = m.persist ∧
      (m.appendAll env kinds).1.sessionFile = m.sessionFile ∧
        ∀ write ∈ (m.appendAll env kinds).2, m.sessionFile = some write.path := by
  induction kinds generalizing m with
  | nil => exact ⟨rfl, rfl, fun write hwrite => by cases hwrite⟩
  | cons kind kinds ih =>
    obtain ⟨hpersist, hfile, hwrites⟩ := appendEntry_frame m (m.newEntry env kind)
    obtain ⟨hpersist', hfile', hwrites'⟩ := ih (m.append env kind).1
    refine ⟨hpersist'.trans hpersist, hfile'.trans hfile, fun write hwrite => ?_⟩
    rcases List.mem_append.mp hwrite with hone | hrest
    · exact hwrites write hone
    · exact hfile.symm.trans (hwrites' write hrest)

section

variable {op : Operation}

theorem ownFile_unchanged {outcome : Outcome}
    (h : outcome.manager.persist = m.persist ∧
      outcome.manager.sessionFile = m.sessionFile ∧ outcome.writes = []) :
    OwnFile env m op outcome := by
  refine ⟨h.1, .inl h.2.1, fun write hwrite => ?_⟩
  rw [h.2.2] at hwrite
  cases hwrite

theorem ownFile_written (hname : m.newName env op = none) {outcome : Outcome}
    (h : outcome.manager.persist = m.persist ∧ outcome.manager.sessionFile = m.sessionFile ∧
        ∀ write ∈ outcome.writes, m.sessionFile = some write.path) : OwnFile env m op outcome :=
  ⟨h.1, .inl h.2.1, fun write hwrite => .inl ⟨hname, h.2.2 write hwrite⟩⟩

end

theorem ownFile_createBranchedSession (m : LiveManager) (leafId : EntryId) :
    OwnFile env m (.createBranchedSession leafId) (m.createBranchedSession env leafId) := by
  obtain ⟨hpersist, hfile⟩ := World.branched_eq env (m.walk (some leafId)) m
  unfold createBranchedSession
  simp only
  split
  case isTrue => exact ownFile_unchanged ⟨rfl, rfl, rfl⟩
  case isFalse =>
    generalize m.branched env (m.walk (some leafId)) = branched at hpersist hfile ⊢
    unfold writeBranched
    split
    case isTrue hpersisted =>
      rw [if_pos (hpersist.symm.trans hpersisted)] at hfile
      split
      · refine ⟨hpersist, .inr ⟨_, rfl, hfile⟩, fun write hwrite => .inr ?_⟩
        rw [World.rewriteFile_eq hpersisted hfile] at hwrite
        rw [List.mem_singleton.mp hwrite]
        rfl
      · exact ⟨hpersist, .inr ⟨_, rfl, hfile⟩, fun write hwrite => by cases hwrite⟩
    case isFalse hpersisted =>
      rw [if_neg (by rwa [← hpersist])] at hfile
      exact ownFile_unchanged ⟨hpersist, hfile, rfl⟩

/-- **Every operation keeps to the manager's file, or to the new one.** -/
theorem ownFile_perform {op : Operation} (hop : ∀ path file, op ≠ .setSessionFile path file) :
    OwnFile env m op (m.perform migrate env op) := by
  unfold perform
  cases op with
  | read =>
    simp only [getContextChanges]
    split
    · exact ownFile_unchanged ⟨rfl, rfl, rfl⟩
    · split <;> exact ownFile_unchanged ⟨rfl, rfl, rfl⟩
  | append kind plain => exact ownFile_written rfl (appendEntry_frame m _)
  | appendCompaction summary first tokens details fromHook =>
    exact ownFile_written rfl (appendEntry_frame m _)
  | appendContextChanges changes =>
    simp only
    split
    · exact ownFile_unchanged ⟨rfl, rfl, rfl⟩
    · exact ownFile_written rfl (appendAll_frame m _)
  | branch id =>
    simp only
    split <;> exact ownFile_unchanged ⟨rfl, rfl, rfl⟩
  | resetLeaf => exact ownFile_unchanged ⟨rfl, rfl, rfl⟩
  | branchWithSummary id summary =>
    cases id with
    | none => exact ownFile_written rfl (appendEntry_frame { m with leafId := none } _)
    | some id =>
      simp only
      split
      · exact ownFile_unchanged ⟨rfl, rfl, rfl⟩
      · exact ownFile_written rfl (appendEntry_frame { m with leafId := some id } _)
  | createBranchedSession leafId => exact ownFile_createBranchedSession m leafId
  | newSession options =>
    simp only [newSession]
    split
    · exact ownFile_unchanged ⟨rfl, rfl, rfl⟩
    · cases hpersist : m.persist with
      | false =>
        refine ownFile_unchanged ⟨rfl, ?_, rfl⟩
        simp [startSession, hpersist]
      | true =>
        refine ⟨rfl, .inr ⟨_, rfl, ?_⟩, fun write hwrite => by cases hwrite⟩
        simp [startSession, hpersist]
  | setSessionFile path file => exact absurd rfl (hop path file)
  | _ =>
    simp only
    split
    · exact ownFile_unchanged ⟨rfl, rfl, rfl⟩
    · exact ownFile_written rfl (appendEntry_frame m _)

theorem takesNewNames_of {op : Operation}
    (hnew : ∀ name, m.newName env op = some name → disk name = none) :
    World.TakesNewNames ⟨m, disk⟩ (env, .operation op) := by
  cases op with
  | newSession options => exact hnew _ rfl
  | createBranchedSession leafId => exact hnew _ rfl
  | _ => trivial

theorem rewriteFile_path (m : LiveManager) :
    ∀ write ∈ m.rewriteFile, m.sessionFile = some write.path := by
  intro write hwrite
  unfold rewriteFile at hwrite
  split at hwrite
  case h_1 path _ hpath =>
    rw [List.mem_singleton.mp hwrite]
    exact hpath
  case h_2 => cases hwrite

end LiveManager

/-! ## Opening a file -/

/-- Entries with a header of the current version in front. -/
def Current (l : List FileEntry) : Prop :=
  ∃ header rest, l = .session header :: rest ∧ LiveManager.currentSessionVersion ≤ header.version

theorem keptByEntries_current : World.KeptByEntries Current := by
  refine ⟨fun l e ⟨header, rest, hl, hversion⟩ => ?_, fun header l hversion => ?_⟩
  · exact ⟨header, rest ++ [.entry e], by rw [hl]; rfl, hversion⟩
  · exact ⟨header, _, rfl, Nat.le_of_eq hversion.symm⟩

/-- A migration changes old entries only, and brings them up to the current version. -/
structure Migration (migrate : List FileEntry → List FileEntry × Bool) : Prop where
  unchanged : ∀ l, (migrate l).2 = false → (migrate l).1 = l
  settled : ∀ (header : SessionHeader) rest, LiveManager.currentSessionVersion ≤ header.version →
    (migrate (.session header :: rest)).2 = false
  current : ∀ header rest, Current (migrate (.session header :: rest)).1

section Open

variable {w w' : World} {chunks : List Text}
  (hopen : w.openFile F migrate env path chunks = some w')
include hopen

/-- **A file is opened**: no other file is touched. -/
theorem openFile_other {name : String} (hname : name ≠ path) : w'.disk name = w.disk name := by
  rcases World.openFile_cases hopen with ⟨-, rfl⟩ | ⟨-, m, rfl, -, hwrites⟩ |
      ⟨text, header, rest, ended, -, -, -, loaded, rfl, -, hwrites⟩
  · rfl
  · refine applyAll_other (fun write hwrite heq => hname ?_) hwrites
    exact heq.symm.trans (Option.some.inj (LiveManager.rewriteFile_path _ write hwrite)).symm
  · have hother : (if ended then w.disk.put path (text ++ ['\n']) else w.disk) name
        = w.disk name := by
      split
      · exact put_other hname _
      · rfl
    rw [← hother]
    refine applyAll_other (fun write hwrite heq => hname ?_) hwrites
    rw [World.loadEntries_eq] at hwrite
    simp only at hwrite
    split at hwrite
    · exact heq.symm.trans (Option.some.inj (LiveManager.rewriteFile_path _ write hwrite)).symm
    · cases hwrite

theorem current_openFile (hmigrate : Migration migrate) : Current w'.manager.fileEntries := by
  rcases World.openFile_cases hopen with ⟨-, rfl⟩ | ⟨-, m, rfl, hmanager, -⟩ |
      ⟨text, header, rest, ended, -, -, -, loaded, rfl, hmanager, -⟩
  · exact keptByEntries_current.startSession {}
  · rw [hmanager]
    exact keptByEntries_current.startSession {}
  · rw [hmanager, World.loadEntries_eq]
    show Current (LiveManager.buildIndex _).fileEntries
    rw [(World.buildIndex_eq _).2.2.1]
    exact hmigrate.current header rest

/-- **A file that a manager has on disk is opened** and stays as it is. -/
theorem reopen (hmigrate : Migration migrate) (h : World.Backed F m w.disk)
    (hpath : m.sessionFile = some path) (hcurrent : Current m.fileEntries) : w'.disk = w.disk := by
  obtain ⟨name, hname, hfile⟩ := h.onDisk
  obtain rfl := Option.some.inj (hname.symm.trans hpath)
  obtain ⟨header₀, rest₀, hentries, hversion⟩ := hcurrent
  rcases World.openFile_cases hopen with ⟨-, rfl⟩ | ⟨hempty, -⟩ |
      ⟨text, header, rest, ended, htext, hchunks, hload, loaded, rfl, -, hwrites⟩
  · rfl
  · cases hfile with
    | waiting _ hmissing _ =>
      rw [hmissing] at hempty
      cases hempty
    | flushed _ hheld hholds =>
      obtain rfl := Option.some.inj (hheld.symm.trans hempty)
      rw [← hholds.2] at hentries
      cases hentries
  · cases hfile with
    | waiting _ hmissing _ =>
      rw [hmissing] at htext
      cases htext
    | flushed _ hheld hholds =>
      obtain rfl := Option.some.inj (hheld.symm.trans htext)
      have hheld := hholds.load hentries hchunks
      rw [hheld, hentries] at hload
      obtain ⟨hlist, rfl⟩ := Prod.mk.inj hload
      obtain ⟨rfl, rfl⟩ : header₀ = header ∧ rest₀ = rest := by simpa using hlist
      rw [World.loadEntries_eq, hmigrate.settled _ _ hversion] at hwrites
      exact (Option.some.inj hwrites).symm

end Open

end ReflectivePi.Session
