import ReflectivePi.Replacement.Teardown

/-!
# Replacement — Files

The current session and the targets of calls have in memory what is in their
files: an operation of one is not noticed by the others, and a file that one has is
opened without a change of it.
-/

namespace ReflectivePi.Replacement

open List Option Session AgentSessionRuntime

variable {F : LineFormat} {migrate : List FileEntry → List FileEntry × Bool}
  {s s' : AgentSessionRuntime} {c n : Nat} {call : Call} {place : Place} {env : Environment}
  {chunks : List Text}

/-! ## The invariant -/

/-- What is watched is in memory what it is on the disk. -/
structure Files (F : LineFormat) (s : AgentSessionRuntime) : Prop where
  backed : ∀ n ∈ s.watched, ∃ m, s.managers[n]? = some m ∧
    (m.persist = true → World.Backed F m s.disk)
  current : ∀ m ∈ s.managers, m.persist = true → Current m.fileEntries

theorem Files.congr (h : Files F s) (hwatched : ∀ n ∈ s'.watched, n ∈ s.watched)
    (hmanagers : s'.managers = s.managers) (hdisk : s'.disk = s.disk) : Files F s' := by
  refine ⟨fun n hn => ?_, ?_⟩
  · rw [hmanagers, hdisk]
    exact h.backed n (hwatched n hn)
  · rw [hmanagers]
    exact h.current

theorem mem_watched : n ∈ s.watched ↔
    n ∈ s.liveManager ∨ ∃ call ∈ s.calls, call.place.target? = some n := by
  rw [watched, mem_append, mem_filterMap]

theorem mem_calls_setPlace {other : Call}
    (h : other ∈ (s.setPlace c place).calls) : other ∈ s.calls ∨ other.place = place := by
  obtain ⟨i, hi⟩ := List.mem_iff_getElem?.mp h
  by_cases heq : c = i
  · subst heq
    have hmodified := (getElem?_modify_eq _ _ _).symm.trans hi
    obtain ⟨old, -, rfl⟩ := Option.map_eq_some_iff.mp hmodified
    exact .inr rfl
  · exact .inl (mem_of_getElem? ((getElem?_modify_ne _ _ heq).symm.trans hi))

theorem watched_setPlace (h : n ∈ (s.setPlace c place).watched) :
    n ∈ s.watched ∨ place.target? = some n := by
  rcases mem_watched.mp h with hlive | ⟨other, hother, htarget⟩
  · exact .inl (mem_watched.mpr (.inl hlive))
  · rcases mem_calls_setPlace hother with hold | hnew
    · exact .inl (mem_watched.mpr (.inr ⟨other, hold, htarget⟩))
    · exact .inr (hnew ▸ htarget)

theorem Files.setPlace (h : Files F s)
    (htarget : ∀ n, place.target? = some n → n ∈ s.watched) : Files F (s.setPlace c place) := by
  refine h.congr (fun n hn => ?_) rfl rfl
  rcases watched_setPlace hn with hold | hnew
  · exact hold
  · exact htarget n hnew

theorem Files.fail (h : Files F s) (c : Nat) : Files F (s.fail c) :=
  h.setPlace fun _ htarget => by cases htarget

theorem watched_of_target (hc : s.calls[c]? = some call) (htarget : call.place.target? = some n) :
    n ∈ s.watched :=
  mem_watched.mpr (.inr ⟨call, mem_of_getElem? hc, htarget⟩)

/-- A disk that the watched managers cannot tell apart. -/
theorem Files.disk (h : Files F s) {disk : Disk}
    (hdisk : ∀ n ∈ s.watched, ∀ m, s.managers[n]? = some m → m.persist = true →
      ∀ path, m.sessionFile = some path → disk path = s.disk path) : Files F { s with disk } := by
  refine ⟨fun n hn => ?_, h.current⟩
  obtain ⟨m, hm, hbacked⟩ := h.backed n hn
  exact ⟨m, hm, fun hpersist => (hbacked hpersist).frame (hdisk n hn m hm hpersist)⟩

/-- **A file is opened**, and those who have it do not notice. -/
theorem Files.opened (h : Files F s) (hmigrate : Migration migrate) {path : String} {w : World}
    (hopen : World.openFile F migrate env ⟨.blank true, s.disk⟩ path chunks = some w) :
    Files F { s with disk := w.disk } := by
  refine h.disk fun n hn m hm hpersist name hname => ?_
  by_cases heq : name = path
  · subst heq
    obtain ⟨m', hm', hbacked⟩ := h.backed n hn
    obtain rfl := Option.some.inj (hm.symm.trans hm')
    exact congrFun (reopen hopen hmigrate (hbacked hpersist) hname
      (h.current m (mem_of_getElem? hm) hpersist)) name
  · exact openFile_other hopen heq

/-! ## Targets -/

variable {m : LiveManager}

/-- **A target is there**, and in memory what it is on the disk. -/
theorem Files.target (h : Files F s)
    (hbacked : m.persist = true → World.Backed F m s.disk) (hcurrent : Current m.fileEntries)
    (c : Nat) : Files F (s.target c m) := by
  have hadded : Files F { s with managers := s.managers ++ [m] } := by
    refine ⟨fun n hn => ?_, fun other hother => ?_⟩
    · obtain ⟨old, hold, hback⟩ := h.backed n hn
      have hlt := (List.getElem?_eq_some_iff.mp hold).1
      exact ⟨old, (getElem?_append_left hlt).trans hold, hback⟩
    · rcases List.mem_append.mp hother with hold | hnew
      · exact h.current other hold
      · exact fun _ => List.mem_singleton.mp hnew ▸ hcurrent
  refine ⟨fun n hn => ?_, hadded.current⟩
  rcases watched_setPlace hn with hold | hnew
  · exact hadded.backed n hold
  · obtain rfl : s.managers.length = n := Option.some.inj hnew
    exact ⟨m, getElem?_concat_length, hbacked⟩

theorem Files.openSession (h : Files F s) (hmigrate : Migration migrate) (c : Nat)
    (env : Environment) (path : String) (chunks : List Text) (cwdExists : Bool) :
    Files F (s.openSession F migrate c env path chunks cwdExists) := by
  unfold AgentSessionRuntime.openSession
  split
  case h_1 => exact h.fail c
  case h_2 opened hopen =>
    have hopened := h.opened hmigrate hopen
    split
    · exact hopened.target (fun _ => World.backed_openFile hmigrate.unchanged rfl hopen)
        (current_openFile hopen hmigrate) c
    · exact hopened.fail c

theorem newManager_started (env : Environment) (persist : Bool) (parentSession : Option String) :
    ∃ (m : LiveManager) (options : LiveManager.NewSessionOptions),
      m.persist = persist ∧ newManager env persist parentSession = m.startSession env options := by
  unfold newManager
  cases parentSession with
  | none => exact ⟨_, {}, rfl, rfl⟩
  | some parent =>
    simp only
    split
    · exact ⟨.blank persist, {}, rfl, rfl⟩
    · exact ⟨(LiveManager.blank persist).startSession env {}, _, rfl, rfl⟩

/-- **A new session waits under its new name.** -/
theorem Files.targetNew (h : Files F s) {persist : Bool} {parentSession : Option String}
    (hnew : s.targetNew c (newManager env persist parentSession) = some s') : Files F s' := by
  obtain ⟨m, options, hpersist, hm⟩ := newManager_started env persist parentSession
  rw [hm] at hnew
  unfold AgentSessionRuntime.targetNew at hnew
  split at hnew
  case isFalse => cases hnew
  case isTrue hname =>
    obtain rfl := Option.some.inj hnew
    refine h.target (fun hpersist => ?_) (keptByEntries_current.startSession options) c
    have hpersisted : m.persist = true := hpersist
    refine World.backed_startSession options hpersisted ?_
    have hfile : (m.startSession env options).sessionFile = some (env.newSessionFile
        (env.clock m.fileEntries.length) (options.id.getD env.createSessionId)) :=
      if_pos hpersisted
    rw [hfile] at hname
    simp only [all_some, isNew, Bool.and_eq_true, isNone_iff_eq_none] at hname
    exact hname.1

theorem branched_name {leafId : EntryId} (hpersist : m.persist = true)
    (herror : (m.createBranchedSession env leafId).error.isSome = false) :
    (m.createBranchedSession env leafId).manager.sessionFile = some (env.newSessionFile
      (env.clock m.fileEntries.length) env.createSessionId) := by
  unfold LiveManager.createBranchedSession LiveManager.writeBranched at herror ⊢
  obtain ⟨hpersist', hfile⟩ := World.branched_eq env (m.walk (some leafId)) m
  rw [if_pos hpersist] at hfile
  rw [hpersist] at hpersist'
  simp only at herror ⊢
  split at herror
  case isTrue => cases herror
  case isFalse hempty =>
    rw [if_neg hempty, if_pos hpersist']
    split <;> exact hfile

/-- What a name that is new does not tell apart. -/
theorem isNew_other {name : String} (hnew : s.isNew name = true)
    (hm : m ∈ s.managers) : m.sessionFile ≠ some name := by
  simp only [isNew, Bool.and_eq_true, List.all_eq_true] at hnew
  simpa using hnew.2 m hm

theorem isNew_missing {name : String} (hnew : s.isNew name = true) : s.disk name = none := by
  simp only [isNew, Bool.and_eq_true] at hnew
  simpa using hnew.1

/-- **A branch of the file gets a file of its own.** -/
theorem Files.forkFile (h : Files F s) (hmigrate : Migration migrate) {path : String}
    {leafId : EntryId} (hfork : s.forkFile F migrate c env path leafId chunks = some s') :
    Files F s' := by
  unfold AgentSessionRuntime.forkFile at hfork
  split at hfork
  case isTrue =>
    obtain rfl := Option.some.inj hfork
    exact h.fail c
  case isFalse =>
    split at hfork
    case h_1 =>
      obtain rfl := Option.some.inj hfork
      exact h.fail c
    case h_2 opened hopen =>
      have hopened := h.opened hmigrate hopen
      have hback := World.backed_openFile hmigrate.unchanged rfl hopen
      have hcurrent := current_openFile hopen hmigrate
      simp only at hfork
      split at hfork
      case isTrue =>
        obtain rfl := Option.some.inj hfork
        exact hopened.fail c
      case isFalse herror =>
        split at hfork
        case isFalse => cases hfork
        case isTrue hname =>
          rw [branched_name hback.persist (by simpa using herror), all_some] at hname
          have hmissing := isNew_missing hname
          split at hfork
          case h_2 =>
            obtain rfl := Option.some.inj hfork
            exact hopened.fail c
          case h_1 disk hwrites =>
            obtain rfl := Option.some.inj hfork
            have hown : LiveManager.OwnFile env opened.manager (.createBranchedSession leafId) _ :=
              LiveManager.ownFile_createBranchedSession opened.manager leafId
            have hframe : ∀ name, name ≠ env.newSessionFile
                (env.clock opened.manager.fileEntries.length) env.createSessionId →
                disk name = opened.disk name := by
              intro name hne
              refine applyAll_other (fun write hwrite heq => hne ?_) hwrites
              rcases hown.writes write hwrite with ⟨hnone, -⟩ | hsome
              · cases hnone
              · exact heq.symm.trans (Option.some.inj hsome).symm
            have hdisk : Files F { s with disk } := by
              refine hopened.disk fun n hn m hm hpersist name hfile => hframe name ?_
              rintro rfl
              exact isNew_other hname (mem_of_getElem? hm) hfile
            exact hdisk.target (fun _ => World.backed_createBranchedSession hback hmissing hwrites)
              (keptByEntries_current.createBranchedSession hcurrent leafId) c

theorem Files.fork (h : Files F s) (hmigrate : Migration migrate) {current : LiveManager}
    {entryId : EntryId} {position : Position} (hn : s.managers[n]? = some current)
    (hfork : s.fork F migrate c n current env entryId position chunks = some s') : Files F s' := by
  unfold AgentSessionRuntime.fork at hfork
  split at hfork
  case h_1 =>
    obtain rfl := Option.some.inj hfork
    exact h.fail c
  case h_2 targetLeafId _ =>
    split at hfork
    case isTrue =>
      split at hfork
      case h_1 =>
        obtain rfl := Option.some.inj hfork
        exact h.fail c
      case h_2 path _ =>
        cases targetLeafId with
        | none => exact h.targetNew hfork
        | some leafId => exact h.forkFile hmigrate hfork
    case isFalse hpersist =>
      obtain rfl := Option.some.inj hfork
      refine ⟨fun other hother => ?_, h.current⟩
      rcases watched_setPlace hother with hold | hnew
      · exact h.backed other hold
      · -- a session that is held in memory has no file
        obtain rfl : n = other := Option.some.inj hnew
        exact ⟨current, hn, fun hpersist' => absurd hpersist' hpersist⟩

/-- **A call opens its target.** -/
theorem Files.proceed (h : Files F s) (hmigrate : Migration migrate) {request : Request}
    {cwdExists : Bool}
    (hfree : ∀ resolvedPath destinationPath,
      request = .importFromJsonl resolvedPath destinationPath → resolvedPath ≠ destinationPath →
      ∀ n ∈ s.watched, s.fileOf n ≠ some destinationPath)
    (hproceed : s.proceed F migrate c request env chunks cwdExists = some s') : Files F s' := by
  unfold AgentSessionRuntime.proceed at hproceed
  split at hproceed
  case h_1 => cases hproceed
  case h_2 n hindex =>
    split at hproceed
    case h_1 => cases hproceed
    case h_2 current hn =>
      cases request with
      | switchSession sessionPath =>
        obtain rfl := Option.some.inj hproceed
        exact h.openSession hmigrate c env sessionPath chunks cwdExists
      | newSession parentSession => exact h.targetNew hproceed
      | fork entryId position => exact h.fork hmigrate hn hproceed
      | importFromJsonl resolvedPath destinationPath =>
        simp only at hproceed
        split at hproceed
        case isTrue =>
          obtain rfl := Option.some.inj hproceed
          exact h.openSession hmigrate c env destinationPath chunks cwdExists
        case isFalse hne =>
          split at hproceed
          case h_2 =>
            obtain rfl := Option.some.inj hproceed
            exact h.fail c
          case h_1 text _ _ =>
            obtain rfl := Option.some.inj hproceed
            have hcopied : Files F { s with disk := s.disk.put destinationPath text } := by
              refine h.disk fun other hother m hm hpersist name hname => put_other ?_ _
              rintro rfl
              refine hfree _ _ rfl hne other hother ?_
              rw [fileOf, hm]
              exact hname
            exact hcopied.openSession hmigrate c env destinationPath chunks cwdExists

/-- **A manager does an operation**, which nobody else notices. -/
theorem Files.perform (h : Files F s) {op : LiveManager.Operation} {throws : Bool}
    (hop : ∀ path file, op ≠ .setSessionFile path file)
    (hshared : ∀ m, s.managers[n]? = some m → (m.perform migrate env op).writes = [] ∨
      (∃ name, m.newName env op = some name) ∨
        ∀ other ∈ s.watched, other ≠ n → s.fileOf other ≠ m.sessionFile)
    (hperform : s.perform F migrate n env op = some (s', throws)) :
    Files F s' ∧ s'.watched = s.watched := by
  unfold AgentSessionRuntime.perform at hperform
  split at hperform
  case h_1 => cases hperform
  case h_2 m hm =>
    split at hperform
    case isFalse => cases hperform
    case isTrue hnames =>
      obtain ⟨disk, hwrites, hnext⟩ := Option.map_eq_some_iff.mp hperform
      obtain ⟨rfl, -⟩ := Prod.mk.inj hnext
      have hown : LiveManager.OwnFile env m op (m.perform migrate env op) :=
        LiveManager.ownFile_perform hop
      have hnew : ∀ name, m.newName env op = some name → s.isNew name = true := by
        intro name hname
        rw [hname] at hnames
        exact hnames
      -- what is written is in no file that another one has
      have hother : ∀ other ∈ s.watched, other ≠ n → ∀ m', s.managers[other]? = some m' →
          ∀ name, m'.sessionFile = some name → disk name = s.disk name := by
        intro other hmem hne m' hm' name hname
        refine applyAll_other (fun write hwrite heq => ?_) hwrites
        rcases hown.writes write hwrite with ⟨hnone, hfile⟩ | hsome
        · rcases hshared m hm with hempty | ⟨_, hsome⟩ | hshared
          · rw [hempty] at hwrite
            cases hwrite
          · rw [hnone] at hsome
            cases hsome
          · refine hshared other hmem hne ?_
            rw [fileOf, hm', hfile, heq]
            exact hname
        · rw [heq] at hsome
          exact isNew_other (hnew _ hsome) (mem_of_getElem? hm') hname
      refine ⟨⟨fun other hmem => ?_, fun other hmem => ?_⟩, rfl⟩
      · obtain ⟨old, hold, hback⟩ := h.backed other hmem
        by_cases heq : other = n
        · subst heq
          obtain rfl := Option.some.inj (hm.symm.trans hold)
          refine ⟨(m.perform migrate env op).manager, ?_, fun hpersist => ?_⟩
          · exact getElem?_set_self (List.getElem?_eq_some_iff.mp hm).1
          · refine World.backs_perform (hback (hown.persist.symm.trans hpersist)) ?_ hop disk
              hwrites
            exact LiveManager.takesNewNames_of fun name hname => isNew_missing (hnew name hname)
        · refine ⟨old, ?_, fun hpersist => (hback hpersist).frame ?_⟩
          · exact (getElem?_set_ne (Ne.symm heq)).trans hold
          · exact hother other hmem heq old hold
      · rcases mem_or_eq_of_mem_set hmem with hold | rfl
        · exact h.current other hold
        · intro hpersist
          have hm' := h.current m (mem_of_getElem? hm) (hown.persist.symm.trans hpersist)
          exact keptByEntries_current.perform hm' hop

theorem liveManager_dispose (s : AgentSessionRuntime) (c : Nat) :
    (s.dispose c).liveManager = [] := by
  unfold liveManager AgentSessionRuntime.dispose
  simp

theorem Files.dispose (h : Files F s) (c : Nat) : Files F (s.dispose c) := by
  refine h.congr (fun n hn => ?_) rfl rfl
  rcases mem_watched.mp hn with hlive | hcall
  · rw [liveManager_dispose] at hlive
    cases hlive
  · exact mem_watched.mpr (.inr hcall)

/-- **The current session is torn down**, and cut if it is the target. -/
theorem Files.teardown (h : Files F s) {target : Target} (hc : s.calls[c]? = some call)
    (hplace : call.place = .shuttingDown target)
    (hteardown : s.teardown F migrate c target env = some s') : Files F s' := by
  have hwatched : target.manager ∈ (s.dispose c).watched :=
    watched_of_target (s := s.dispose c) hc (by rw [hplace]; rfl)
  unfold AgentSessionRuntime.teardown at hteardown
  cases target with
  | opened n =>
    obtain rfl := Option.some.inj hteardown
    exact (h.dispose c).setPlace fun other hother => Option.some.inj hother ▸ hwatched
  | inPlace n targetLeafId previousSessionFile =>
    obtain ⟨⟨s₁, throws⟩, hperform, rfl⟩ := Option.map_eq_some_iff.mp hteardown
    have hop : ∀ path file, cut targetLeafId previousSessionFile ≠ .setSessionFile path file := by
      cases targetLeafId <;> exact fun _ _ heq => by cases heq
    obtain ⟨hcut, hsame⟩ := (h.dispose c).perform hop (fun m _ => .inr (.inl (by
      cases targetLeafId <;> exact ⟨_, rfl⟩))) hperform
    cases throws with
    | true => exact hcut.fail c
    | false =>
      refine hcut.setPlace fun other hother => ?_
      rw [hsame]
      exact Option.some.inj hother ▸ hwatched

/-- **The session that was made has the target.** -/
theorem Files.apply (h : Files F s) (hc : s.calls[c]? = some call)
    (hplace : call.place = .creating n) : Files F (s.apply c n) := by
  have hwatched : n ∈ s.watched := watched_of_target hc (by rw [hplace]; rfl)
  refine h.congr (fun other hother => ?_) rfl rfl
  rcases mem_watched.mp hother with hlive | ⟨call', hcall, htarget⟩
  · have hsession : (s.apply c n).sessions[(s.apply c n).session]? = some ⟨n, false⟩ :=
      getElem?_concat_length
    rw [liveManager, hsession] at hlive
    exact List.mem_singleton.mp hlive ▸ hwatched
  · rcases @mem_calls_setPlace s c .finishing _ hcall with hold | hnew
    · exact mem_watched.mpr (.inr ⟨call', hold, htarget⟩)
    · rw [hnew] at htarget
      cases htarget

end ReflectivePi.Replacement
