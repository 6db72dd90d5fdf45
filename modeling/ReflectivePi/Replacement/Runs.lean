import ReflectivePi.Replacement.Files

/-!
# Replacement — Runs

Whenever no call is under way one session is left, the one the runtime returns, and
its file holds what it has in memory. That takes calls that do not tear down at once,
and sessions that do not write to a file which another one has open.
-/

namespace ReflectivePi.Replacement

open List Option Session AgentSessionRuntime

variable {F : LineFormat} {migrate : List FileEntry → List FileEntry × Bool}
  {s s' : AgentSessionRuntime} {c n : Nat} {call : Call} {place : Place}

/-! ## Steps -/

/-- A runtime whose first session has just been made. -/
inductive Started (F : LineFormat) (migrate : List FileEntry → List FileEntry × Bool) :
    AgentSessionRuntime → Prop
  | create {env : Environment} {parentSession : Option String} {disk : Disk}
      (hnew : ∀ name, (newManager env true parentSession).sessionFile = some name →
        disk name = none) :
      Started F migrate ⟨0, [⟨0, false⟩], [newManager env true parentSession], disk, [], []⟩
  | opened {env : Environment} {path : String} {chunks : List Text} {disk : Disk} {w : World}
      (hopen : World.openFile F migrate env ⟨.blank true, disk⟩ path chunks = some w) :
      Started F migrate ⟨0, [⟨0, false⟩], [w.manager], w.disk, [], []⟩
  | inMemory {m : LiveManager} {disk : Disk} (hpersist : m.persist = false) :
      Started F migrate ⟨0, [⟨0, false⟩], [m], disk, [], []⟩

structure Inv (F : LineFormat) (s : AgentSessionRuntime) : Prop where
  told : Told s
  silent : Silent s
  files : Files F s

theorem call_eq (h : s.calls[c]?.map Call.place = some place) :
    ∃ call, s.calls[c]? = some call ∧ call.place = place :=
  Option.map_eq_some_iff.mp h

/-- A step that changes managers and the disk only. -/
structure SameCalls (s s' : AgentSessionRuntime) : Prop where
  session : s'.session = s.session
  sessions : s'.sessions = s.sessions
  calls : s'.calls = s.calls
  log : s'.log = s.log

variable {env : Environment} {op : LiveManager.Operation}

theorem sameCalls_perform {throws : Bool}
    (hperform : s.perform F migrate n env op = some (s', throws)) : SameCalls s s' := by
  unfold AgentSessionRuntime.perform at hperform
  split at hperform
  case h_1 => cases hperform
  case h_2 =>
    split at hperform
    case isFalse => cases hperform
    case isTrue =>
      obtain ⟨disk, -, hnext⟩ := Option.map_eq_some_iff.mp hperform
      obtain ⟨rfl, -⟩ := Prod.mk.inj hnext
      exact ⟨rfl, rfl, rfl, rfl⟩

theorem Told.same (h : Told s) (hsame : SameCalls s s') : Told s' :=
  h.congr hsame.session hsame.sessions hsame.log
    (by rw [AgentSessionRuntime.telling, hsame.calls]; rfl)
    (by rw [AgentSessionRuntime.making, hsame.calls]; rfl)

theorem Silent.same (h : Silent s) (hsame : SameCalls s s') : Silent s' :=
  h.congr hsame.calls hsame.log

/-- Where a call gets to when it opens its target: to the teardown, or nowhere. -/
def Proceeded (s : AgentSessionRuntime) (c : Nat) (s' : AgentSessionRuntime) : Prop :=
  ∃ s₁ place, s' = s₁.setPlace c place ∧ SameCalls s s₁ ∧
    ((∃ target, place = .aborting target) ∨ place = .ended .failed)

theorem proceeded_openSession (s : AgentSessionRuntime) (c : Nat) (env : Environment)
    (path : String) (chunks : List Text) (cwdExists : Bool) :
    Proceeded s c (s.openSession F migrate c env path chunks cwdExists) := by
  unfold AgentSessionRuntime.openSession
  split
  · exact ⟨_, _, rfl, ⟨rfl, rfl, rfl, rfl⟩, .inr rfl⟩
  · split
    · exact ⟨_, _, rfl, ⟨rfl, rfl, rfl, rfl⟩, .inl ⟨_, rfl⟩⟩
    · exact ⟨_, _, rfl, ⟨rfl, rfl, rfl, rfl⟩, .inr rfl⟩

variable {m : LiveManager} {chunks : List Text}

theorem proceeded_targetNew (h : s.targetNew c m = some s') : Proceeded s c s' := by
  unfold AgentSessionRuntime.targetNew at h
  split at h <;> cases h
  exact ⟨_, _, rfl, ⟨rfl, rfl, rfl, rfl⟩, .inl ⟨_, rfl⟩⟩

theorem proceeded_forkFile {path : String} {leafId : EntryId}
    (h : s.forkFile F migrate c env path leafId chunks = some s') : Proceeded s c s' := by
  unfold AgentSessionRuntime.forkFile at h
  split at h
  · cases h
    exact ⟨_, _, rfl, ⟨rfl, rfl, rfl, rfl⟩, .inr rfl⟩
  · split at h
    · cases h
      exact ⟨_, _, rfl, ⟨rfl, rfl, rfl, rfl⟩, .inr rfl⟩
    · simp only at h
      split at h
      · cases h
        exact ⟨_, _, rfl, ⟨rfl, rfl, rfl, rfl⟩, .inr rfl⟩
      · split at h
        · split at h <;> cases h
          · exact ⟨_, _, rfl, ⟨rfl, rfl, rfl, rfl⟩, .inl ⟨_, rfl⟩⟩
          · exact ⟨_, _, rfl, ⟨rfl, rfl, rfl, rfl⟩, .inr rfl⟩
        · cases h

theorem proceeded_fork {current : LiveManager} {entryId : EntryId} {position : Position}
    (h : s.fork F migrate c n current env entryId position chunks = some s') :
    Proceeded s c s' := by
  unfold AgentSessionRuntime.fork at h
  split at h
  · cases h
    exact ⟨_, _, rfl, ⟨rfl, rfl, rfl, rfl⟩, .inr rfl⟩
  · split at h
    · split at h
      · cases h
        exact ⟨_, _, rfl, ⟨rfl, rfl, rfl, rfl⟩, .inr rfl⟩
      · split at h
        · exact proceeded_targetNew h
        · exact proceeded_forkFile h
    · cases h
      exact ⟨_, _, rfl, ⟨rfl, rfl, rfl, rfl⟩, .inl ⟨_, rfl⟩⟩

theorem proceeded {request : Request} {cwdExists : Bool}
    (h : s.proceed F migrate c request env chunks cwdExists = some s') : Proceeded s c s' := by
  unfold AgentSessionRuntime.proceed at h
  split at h
  · cases h
  · split at h
    · cases h
    · cases request with
      | switchSession sessionPath =>
        cases h
        exact proceeded_openSession s c env sessionPath chunks cwdExists
      | newSession parentSession => exact proceeded_targetNew h
      | fork entryId position => exact proceeded_fork h
      | importFromJsonl resolvedPath destinationPath =>
        simp only at h
        split at h
        · cases h
          exact proceeded_openSession s c env destinationPath chunks cwdExists
        · split at h
          case h_2 =>
            cases h
            exact ⟨_, _, rfl, ⟨rfl, rfl, rfl, rfl⟩, .inr rfl⟩
          case h_1 text _ _ =>
            obtain ⟨s₁, place, hnext, hsame, hplace⟩ := @proceeded_openSession F migrate
              { s with disk := s.disk.put destinationPath text } c env destinationPath chunks
              cwdExists
            exact ⟨s₁, place, (Option.some.inj h).symm.trans hnext,
              ⟨hsame.session, hsame.sessions, hsame.calls, hsame.log⟩, hplace⟩

/-! ## The steps keep the invariant -/

variable {env : Environment} {chunks : List Text}

theorem inv_answer (hmigrate : Migration migrate) {cancels cwdExists : Bool} (h : Inv F s)
    (hok : meets migrate s (.answer c cancels env chunks cwdExists) = true)
    (hstep : step F migrate s (.answer c cancels env chunks cwdExists) = some s') : Inv F s' := by
  simp only [step] at hstep
  split at hstep
  case h_2 => cases hstep
  case h_1 request hc =>
    cases cancels with
    | true =>
      obtain rfl := Option.some.inj hstep
      exact ⟨h.told.setPlace hc ⟨rfl, rfl⟩ ⟨rfl, rfl⟩,
        h.silent.setPlace hc fun hacts => (by cases hacts),
        h.files.setPlace fun _ htarget => by cases htarget⟩
    | false =>
      refine ⟨?_, ?_, h.files.proceed hmigrate ?_ hstep⟩
      · obtain ⟨s₁, place, rfl, hsame, hplace⟩ := proceeded hstep
        refine (h.told.same hsame).setPlace (hsame.calls ▸ hc) ⟨rfl, rfl⟩ ?_
        rcases hplace with ⟨target, rfl⟩ | rfl <;> exact ⟨rfl, rfl⟩
      · obtain ⟨s₁, place, rfl, hsame, -⟩ := proceeded hstep
        exact (h.silent.same hsame).setPlace (hsame.calls ▸ hc) fun hacts => by cases hacts
      · rintro resolvedPath destinationPath rfl hne n hn
        simp only [meets, hc, map_some, hne, decide_false, Bool.false_or, List.all_eq_true] at hok
        simpa using hok n hn

theorem inv_aborted (h : Inv F s) (hok : meets migrate s (.aborted c) = true)
    (hstep : step F migrate s (.aborted c) = some s') : Inv F s' := by
  simp only [step] at hstep
  split at hstep
  case h_2 => cases hstep
  case h_1 target hplace =>
    obtain ⟨call, hc, hcall⟩ := call_eq hplace
    obtain rfl := Option.some.inj hstep
    refine ⟨h.told.aborted hc hcall (by simpa [meets] using hok), h.silent.logged hc ?_ rfl rfl, ?_⟩
    · rfl
    · have hlogged : Files F { s with log := s.log ++ [(c, Event.shutdown s.session)] } :=
        h.files.congr (fun _ hn => hn) rfl rfl
      refine hlogged.setPlace fun n htarget => ?_
      exact watched_of_target hc (by rw [hcall]; exact htarget)

theorem SameCalls.setPlace (h : SameCalls s s') (c : Nat) (place : Place) :
    SameCalls (s.setPlace c place) (s'.setPlace c place) :=
  ⟨h.session, h.sessions, congrArg (List.modify · c _) h.calls, h.log⟩

theorem perform_error {throws : Bool}
    (hperform : s.perform F migrate n env op = some (s', throws)) :
    ∃ m, s.managers[n]? = some m ∧ throws = (m.perform migrate env op).error.isSome := by
  unfold AgentSessionRuntime.perform at hperform
  split at hperform
  case h_1 => cases hperform
  case h_2 m hm =>
    split at hperform
    case isFalse => cases hperform
    case isTrue =>
      obtain ⟨disk, -, hnext⟩ := Option.map_eq_some_iff.mp hperform
      exact ⟨m, hm, (Prod.mk.inj hnext).2.symm⟩

theorem createBranchedSession_error {leafId : EntryId}
    (hhas : m.byId.has leafId = true) : (m.createBranchedSession env leafId).error = none := by
  have hpath : (m.walk (some leafId)).isEmpty = false := by
    obtain ⟨e, he⟩ := Option.isSome_iff_exists.mp hhas
    rw [LiveManager.walk, ParentWalk.walkUp]
    simp [he]
  unfold LiveManager.createBranchedSession LiveManager.writeBranched
  simp only [hpath, Bool.false_eq_true, if_false]
  split
  · split <;> rfl
  · rfl

theorem cut_error {targetLeafId : Option EntryId} {previousSessionFile : Option String}
    (hhas : ∀ leafId, targetLeafId = some leafId → m.byId.has leafId = true) :
    (m.perform migrate env (cut targetLeafId previousSessionFile)).error = none := by
  cases targetLeafId with
  | none => rfl
  | some leafId => exact createBranchedSession_error (hhas leafId rfl)

theorem inv_shutDown (h : Inv F s) (hok : meets migrate s (.shutDown c env) = true)
    (hstep : step F migrate s (.shutDown c env) = some s') : Inv F s' := by
  simp only [step] at hstep
  split at hstep
  case h_2 => cases hstep
  case h_1 target hplace =>
    obtain ⟨call, hc, hcall⟩ := call_eq hplace
    refine ⟨?_, ?_, h.files.teardown hc hcall hstep⟩
    · unfold AgentSessionRuntime.teardown at hstep
      cases target with
      | opened n =>
        obtain rfl := Option.some.inj hstep
        exact h.told.torn hc hcall
      | inPlace n targetLeafId previousSessionFile =>
        obtain ⟨⟨s₁, throws⟩, hperform, rfl⟩ := Option.map_eq_some_iff.mp hstep
        have hsame := sameCalls_perform hperform
        obtain ⟨m, hm, hthrows⟩ := perform_error hperform
        have hfound : throws = false := by
          rw [hthrows, cut_error]
          · rfl
          · rintro leafId rfl
            simp only [meets, hplace] at hok
            rw [show s.managers[n]? = some m from hm] at hok
            exact hok
        subst hfound
        exact (h.told.torn hc hcall).same (hsame.setPlace c _)
    · unfold AgentSessionRuntime.teardown at hstep
      cases target with
      | opened n =>
        obtain rfl := Option.some.inj hstep
        exact h.silent.logged hc rfl rfl rfl
      | inPlace n targetLeafId previousSessionFile =>
        obtain ⟨⟨s₁, throws⟩, hperform, rfl⟩ := Option.map_eq_some_iff.mp hstep
        have hsame := sameCalls_perform hperform
        cases throws with
        | true =>
          have hplaced := hsame.setPlace c (.ended .failed)
          exact h.silent.logged hc rfl hplaced.calls hplaced.log
        | false =>
          have hplaced := hsame.setPlace c (.creating n)
          exact h.silent.logged hc rfl hplaced.calls hplaced.log

theorem inv_throws (h : Inv F s) (hok : meets migrate s (.throws c) = true)
    (hstep : step F migrate s (.throws c) = some s') : Inv F s' := by
  simp only [step] at hstep
  split at hstep
  case h_1 target hplace =>
    obtain ⟨call, hc, hcall⟩ := call_eq hplace
    obtain rfl := Option.some.inj hstep
    exact ⟨h.told.setPlace hc (by rw [hcall]; exact ⟨rfl, rfl⟩) ⟨rfl, rfl⟩,
      h.silent.setPlace hc fun _ => rfl, h.files.fail c⟩
  case h_2 target hplace =>
    -- the current session has been told already
    obtain ⟨call, hc, hcall⟩ := call_eq hplace
    simp [meets, hc, hcall, Place.isShuttingDown] at hok
  case h_3 => cases hstep

theorem inv_operate (h : Inv F s) (hok : meets migrate s (.operate n env op) = true)
    (hstep : step F migrate s (.operate n env op) = some s') : Inv F s' := by
  simp only [step] at hstep
  split at hstep
  case isTrue => cases hstep
  case isFalse hopens =>
    obtain ⟨⟨s₁, throws⟩, hperform, rfl⟩ := Option.map_eq_some_iff.mp hstep
    have hsame := sameCalls_perform hperform
    have hop : ∀ path file, op ≠ .setSessionFile path file := by
      rintro path file rfl
      exact hopens rfl
    refine ⟨h.told.same hsame, h.silent.same hsame, (h.files.perform hop ?_ hperform).1⟩
    intro m hm
    simp only [meets, hm, Bool.or_eq_true] at hok
    rcases hok with (hempty | hname) | hshared
    · exact .inl (List.isEmpty_iff.mp hempty)
    · exact .inr (.inl (Option.isSome_iff_exists.mp hname))
    · refine .inr (.inr fun other hother hne hfile => ?_)
      have hshares : s.sharesFile n = true := by
        refine List.any_eq_true.mpr ⟨other, hother, ?_⟩
        have hown : s.fileOf n = m.sessionFile := by rw [fileOf, hm]; rfl
        simp [hne, hfile, hown]
      simp [hshares] at hshared

theorem inv_step (hmigrate : Migration migrate) {label : Label} (h : Inv F s)
    (hok : meets migrate s label = true) (hstep : step F migrate s label = some s') : Inv F s' := by
  cases label with
  | start request =>
    obtain ⟨begins, -, rfl⟩ := Option.map_eq_some_iff.mp hstep
    refine ⟨h.told.congr rfl rfl rfl ?_ ?_, fun entry hentry => ?_, ?_⟩
    · simp only [AgentSessionRuntime.telling, countP_append]
      cases begins <;> rfl
    · simp only [AgentSessionRuntime.making, countP_append]
      cases begins <;> rfl
    · obtain ⟨call, hcall, hacts⟩ := h.silent entry hentry
      have hlt := (List.getElem?_eq_some_iff.mp hcall).1
      exact ⟨call, (getElem?_append_left hlt).trans hcall, hacts⟩
    · refine h.files.congr (fun n hn => ?_) rfl rfl
      rcases mem_watched.mp hn with hlive | ⟨call, hcall, htarget⟩
      · exact mem_watched.mpr (.inl hlive)
      · rcases List.mem_append.mp hcall with hold | hnew
        · exact mem_watched.mpr (.inr ⟨call, hold, htarget⟩)
        · obtain rfl := List.mem_singleton.mp hnew
          cases begins <;> cases htarget
  | answer c cancels env chunks cwdExists => exact inv_answer hmigrate h hok hstep
  | aborted c => exact inv_aborted h hok hstep
  | shutDown c env => exact inv_shutDown h hok hstep
  | created c =>
    simp only [step] at hstep
    split at hstep
    case h_2 => cases hstep
    case h_1 n hplace =>
      obtain ⟨call, hc, hcall⟩ := call_eq hplace
      obtain rfl := Option.some.inj hstep
      exact ⟨h.told.applied hc hcall, h.silent.logged hc rfl rfl rfl, h.files.apply hc hcall⟩
  | finish c throws =>
    simp only [step] at hstep
    split at hstep
    case h_2 => cases hstep
    case h_1 hplace =>
      obtain ⟨call, hc, hcall⟩ := call_eq hplace
      obtain rfl := Option.some.inj hstep
      refine ⟨h.told.setPlace hc (by rw [hcall]; exact ⟨rfl, rfl⟩) ⟨rfl, rfl⟩,
        h.silent.setPlace hc fun _ => ?_, h.files.setPlace fun _ htarget => by cases htarget⟩
      cases throws <;> rfl
  | throws c => exact inv_throws h hok hstep
  | operate n env op => exact inv_operate h hok hstep

theorem inv_started (hmigrate : Migration migrate) (h : Started F migrate s) : Inv F s := by
  have htold : ∀ m disk, Told ⟨0, [⟨0, false⟩], [m], disk, [], []⟩ := by
    intro m disk
    refine ⟨Nat.zero_lt_one, Nat.zero_le 1, fun i session hi => ?_, fun i session hi hdisposed => ?_,
      fun _ => rfl, fun _ _ => rfl⟩
    all_goals
      cases i with
      | zero =>
        obtain rfl := Option.some.inj hi
        first | exact ⟨fun _ => ⟨rfl, rfl⟩, fun _ => rfl⟩ | cases hdisposed
      | succ i => cases hi
  have hfiles : ∀ m disk, (m.persist = true → World.Backed F m disk ∧ Current m.fileEntries) →
      Files F ⟨0, [⟨0, false⟩], [m], disk, [], []⟩ := by
    intro m disk hm
    refine ⟨fun n hn => ?_, fun other hother => ?_⟩
    · obtain rfl := List.mem_singleton.mp hn
      exact ⟨m, rfl, fun hpersist => (hm hpersist).1⟩
    · obtain rfl := List.mem_singleton.mp hother
      exact fun hpersist => (hm hpersist).2
  have hsilent : ∀ m disk, Silent ⟨0, [⟨0, false⟩], [m], disk, [], []⟩ :=
    fun _ _ => forall_mem_nil _
  cases h with
  | @create env parentSession disk hnew =>
    obtain ⟨m, options, hpersist, hm⟩ := newManager_started env true parentSession
    rw [hm] at hnew ⊢
    refine ⟨htold _ _, hsilent _ _, hfiles _ _ fun _ =>
      ⟨World.backed_startSession options hpersist (hnew _ (if_pos hpersist)),
        keptByEntries_current.startSession options⟩⟩
  | opened hopen =>
    exact ⟨htold _ _, hsilent _ _, hfiles _ _ fun _ =>
      ⟨World.backed_openFile hmigrate.unchanged rfl hopen, current_openFile hopen hmigrate⟩⟩
  | inMemory hpersist =>
    exact ⟨htold _ _, hsilent _ _, hfiles _ _ fun hpersist' => by
      rw [hpersist] at hpersist'
      cases hpersist'⟩

/-- No call is under way. -/
def AgentSessionRuntime.Idle (s : AgentSessionRuntime) : Prop :=
  ∀ call ∈ s.calls, ∃ ending, call.place = .ended ending

/-- What the runtime is for: one session at a time, and in its file what it has in
memory, once there is a file. -/
structure Settled (F : LineFormat) (s : AgentSessionRuntime) : Prop where
  current : s.Idle → ∃ session, s.sessions[s.session]? = some session ∧ session.disposed = false
  only : ∀ i session, s.sessions[i]? = some session → session.disposed = false → i = s.session
  told : ∀ i session, s.sessions[i]? = some session → session.disposed = true →
    s.told i = [.shutdown i, .dispose i]
  cancelled : ∀ c call, s.calls[c]? = some call → call.place = .ended .cancelled →
    ∀ entry ∈ s.log, entry.1 ≠ c
  file : s.Idle → ∀ session, s.sessions[s.session]? = some session →
    ∃ m, s.managers[session.manager]? = some m ∧ (m.persist = true →
      ∃ path, m.sessionFile = some path ∧ World.OnDisk F m s.disk path)

theorem settled_of_inv (h : Inv F s) : Settled F s := by
  obtain ⟨session, hsession⟩ : ∃ session, s.sessions[s.session]? = some session :=
    ⟨_, getElem?_eq_getElem h.told.current⟩
  have hlive : s.Idle → session.disposed = false := by
    refine fun hidle => (h.told.live _ _ hsession).mpr ⟨rfl, ?_⟩
    refine List.countP_eq_zero.mpr fun call hcall => ?_
    obtain ⟨ending, hplace⟩ := hidle call hcall
    rw [hplace]
    exact Bool.false_ne_true
  refine ⟨fun hidle => ⟨session, hsession, hlive hidle⟩,
    fun i session hi hlive => ((h.told.live i session hi).mp hlive).1, h.told.disposed, ?_, ?_⟩
  · rintro c call hc hplace entry hentry rfl
    obtain ⟨other, hother, hacts⟩ := h.silent entry hentry
    obtain rfl := Option.some.inj (hc.symm.trans hother)
    rw [hplace] at hacts
    cases hacts
  · intro hidle session' hsession'
    obtain rfl := Option.some.inj (hsession.symm.trans hsession')
    have hwatched : session.manager ∈ s.watched := by
      refine mem_watched.mpr (.inl ?_)
      obtain ⟨n, disposed⟩ := session
      obtain rfl : disposed = false := hlive hidle
      rw [liveManager, hsession]
      exact mem_singleton_self n
    obtain ⟨m, hm, hbacked⟩ := h.files.backed _ hwatched
    exact ⟨m, hm, fun hpersist => (hbacked hpersist).onDisk⟩

/-- **One session is left, and it is what its file says**, in every run in which no call
tells a session to shut down while another one replaces it, and none writes to a file
that the current session or a target has open. -/
theorem runtime_settled (hmigrate : Migration migrate) (h : Run (Started F migrate) (step F migrate)
      (fun s label => meets migrate s label = true) s) : Settled F s :=
  settled_of_inv (h.invariant (fun _ => inv_started hmigrate) fun _ _ _ => inv_step hmigrate)

/-! ## A session and its file -/

/-- A migration that only brings the version up. -/
def versioned : List FileEntry → List FileEntry × Bool
  | .session header :: rest =>
    if LiveManager.currentSessionVersion ≤ header.version then (.session header :: rest, false)
    else (.session { header with version := LiveManager.currentSessionVersion } :: rest, true)
  | entries => (entries, false)

theorem migration_versioned : Migration versioned := by
  refine ⟨fun l h => ?_, fun header rest hversion => ?_, fun header rest => ?_⟩
  · unfold versioned at h ⊢
    split
    · rename_i header rest
      simp only at h
      split at h
      · simp [*]
      · cases h
    · rfl
  · simp [versioned, hversion]
  · by_cases hversion : LiveManager.currentSessionVersion ≤ header.version
    · simp only [versioned, hversion, if_true]
      exact ⟨header, rest, rfl, hversion⟩
    · simp only [versioned, hversion, if_false]
      exact ⟨_, rest, rfl, Nat.le_refl _⟩

/-- The disk with one session, of a header. -/
def headerDisk : Disk := fun path =>
  if path = "0_a.jsonl" then some (unaryFormat.line firstHeader) else none

def openedHeader : World :=
  (World.openFile unaryFormat versioned World.stampedEnvironment ⟨.blank true, headerDisk⟩
    "0_a.jsonl" [unaryFormat.line firstHeader]).getD ⟨.blank true, headerDisk⟩

/-- A runtime that has opened the session. -/
def openedRuntime : AgentSessionRuntime :=
  ⟨0, [⟨0, false⟩], [openedHeader.manager], openedHeader.disk, [], []⟩

theorem started_openedRuntime : Started unaryFormat versioned openedRuntime := by
  have hsome : (World.openFile unaryFormat versioned World.stampedEnvironment
      ⟨.blank true, headerDisk⟩ "0_a.jsonl" [unaryFormat.line firstHeader]).isSome = true := by
    decide +kernel
  obtain ⟨w, hw⟩ := Option.isSome_iff_exists.mp hsome
  have hopened : openedHeader = w := by rw [openedHeader, hw]; rfl
  exact .opened (hopened ▸ hw)

/-- The answer of a model, which a run appends. -/
def answerKind : EntryKind := .message (.assistant ⟨none, "p", "m", "stop", none, 0⟩)

theorem isPlain_answerKind : answerKind.isPlain = true := rfl

def appendAnswer : LiveManager.Operation := .append answerKind isPlain_answerKind

/-- A switch to the file of the current session. -/
def switchToOwn (c : Nat) (chunks : List Text) : List Label :=
  [.start (.switchSession "0_a.jsonl"), .answer c false World.stampedEnvironment chunks true]

def replaces (c : Nat) : List Label :=
  [.aborted c, .shutDown c World.stampedEnvironment, .created c, .finish c false]

/-- A new session that a hook cancels, an answer, and a switch to the current file. -/
def settledRun : List Label :=
  [.start (.newSession none), .answer 0 true World.stampedEnvironment [] true,
    .operate 0 World.stampedEnvironment appendAnswer] ++
  switchToOwn 1 [unaryFormat.line firstHeader ++ unaryFormat.line firstAnswer] ++ replaces 1

theorem runtime_settled_sample :
    Settled unaryFormat (Run.afterAll (step unaryFormat versioned) openedRuntime settledRun) :=
  runtime_settled migration_versioned (.of_check (.init started_openedRuntime) (by decide +kernel))

def Place.isEnded : Place → Bool
  | .ended _ => true
  | _ => false

theorem idle_of_all (h : (s.calls.all fun call => call.place.isEnded) = true) : s.Idle := by
  intro call hcall
  have hended := List.all_eq_true.mp h call hcall
  cases hplace : call.place with
  | ended ending => exact ⟨ending, rfl⟩
  | _ =>
    rw [hplace] at hended
    cases hended

/-- The turn that the switch aborts is appended to the file it has just read. -/
def staleRun : List Label :=
  switchToOwn 0 [unaryFormat.line firstHeader] ++
  [.operate 0 World.stampedEnvironment appendAnswer] ++ replaces 0

/-- Two new sessions at once. -/
def overlappingRun : List Label :=
  [.start (.newSession none), .start (.newSession none),
    .answer 0 false World.stampedEnvironment [] true,
    .answer 1 false World.stampedEnvironment [] true, .aborted 0, .aborted 1,
    .shutDown 0 World.stampedEnvironment, .shutDown 1 World.stampedEnvironment, .created 0,
    .created 1, .finish 0 false, .finish 1 false]

/-- **Two calls leave two sessions**, and have told the first one twice; **a switch to
the session's own file loses the turn it aborts.** -/
theorem runtime_unsettled :
    (∃ s, Run (Started unaryFormat versioned) (step unaryFormat versioned)
        (fun _ _ => True) s ∧ s.Idle ∧
      (s.sessions[1]?.map AgentSession.disposed) = some false ∧
      (s.sessions[2]?.map AgentSession.disposed) = some false ∧
      s.told 0 = [.shutdown 0, .shutdown 0, .dispose 0, .dispose 0]) ∧
    ∃ s, Run (Started unaryFormat versioned) (step unaryFormat versioned)
      (fun _ _ => True) s ∧ s.Idle ∧ ¬ Settled unaryFormat s := by
  have hmemory : Started unaryFormat versioned
      ⟨0, [⟨0, false⟩], [newManager World.stampedEnvironment false none], headerDisk, [], []⟩ :=
    .inMemory rfl
  refine ⟨⟨Run.afterAll (step unaryFormat versioned) _ overlappingRun,
    .of_check (.init hmemory) (by decide +kernel), idle_of_all (by decide +kernel),
    by decide +kernel⟩, Run.afterAll (step unaryFormat versioned) openedRuntime staleRun,
    .of_check (.init started_openedRuntime) (by decide +kernel),
    idle_of_all (by decide +kernel), fun h => ?_⟩
  generalize hs : Run.afterAll (step unaryFormat versioned) openedRuntime staleRun = s at h
  have hidle : s.Idle := hs ▸ idle_of_all (by decide +kernel)
  have hsession : s.sessions[s.session]? = some ⟨1, false⟩ := by
    rw [← hs]
    decide +kernel
  have hmanager : (s.managers[1]?.map fun m => (m.persist, m.sessionFile, m.flushed,
      m.fileEntries.length)) = some (true, some "0_a.jsonl", true, 1) := by
    rw [← hs]
    decide +kernel
  have hdisk : ((s.disk "0_a.jsonl").map fun text =>
      ((Lines.split '\n' text).1.filterMap unaryFormat.parseSessionEntryLine).length) = some 2 := by
    rw [← hs]
    decide +kernel
  obtain ⟨m, hm, hfile⟩ := h.file hidle _ hsession
  rw [hm] at hmanager
  obtain ⟨hpersist, hpath, hflushed, hlength⟩ : m.persist = true ∧
      m.sessionFile = some "0_a.jsonl" ∧ m.flushed = true ∧ m.fileEntries.length = 1 := by
    simpa using hmanager
  obtain ⟨path, hpath', hondisk⟩ := hfile hpersist
  obtain rfl := Option.some.inj (hpath'.symm.trans hpath)
  cases hondisk with
  | waiting hwaiting _ _ =>
    rw [hflushed] at hwaiting
    cases hwaiting
  | flushed _ htext hholds =>
    rw [htext, map_some, hholds.2, hlength] at hdisk
    cases hdisk

end ReflectivePi.Replacement
