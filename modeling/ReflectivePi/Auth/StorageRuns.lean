import Mathlib.Data.List.Induction
import ReflectivePi.Auth.Storage
import ReflectivePi.Lib.LabelledRun

/-!
# Auth — Storage runs

The file is what the calls that were not aborted make of it one after the
other, and a reader sees what the calls of its process did before it began.
This fails when a call writes `{}` over a file that another process has created
meanwhile, and when a promise settles after that of a later holder of the lock.
-/

namespace ReflectivePi.Auth

open List InsertionMap

/-! ## What the events say -/

/-- The content after the calls that have been applied. -/
def replay (data : Credentials) (events : List StorageEvent) : Credentials :=
  events.foldl (fun data event =>
    match event with
    | .applied _ (some change) => change.apply data
    | _ => data) data

/-- The file as some first events have left it. -/
def View (file : AuthFile) (front : List StorageEvent) (data : Credentials) : Prop :=
  file.parse.map (fun first => replay first front) = some data

def Untouched (events : List StorageEvent) (id : Nat) : Prop :=
  ∀ change, .applied id change ∉ events

/-- The calls of a process that have resolved are among the first events. -/
def Seen (events front : List StorageEvent) (process : Nat) : Prop :=
  ∀ id, .resolved process id ∈ events → ∃ change, .applied id change ∈ front

/-- What a call of a kind may change. -/
def OpKind.Makes (kind : OpKind) (events : List StorageEvent) (id : Nat)
    (change : Option Change) : Prop :=
  match kind with
  | .modify provider =>
    ∃ next, .fnReturned id next ∈ events ∧ change = next.map (Change.put provider)
  | .delete provider => change = some (.remove provider)
  | .reload => change = none

/-- A read returns what a call of its process that resolved before it began has
left, or something later. -/
def ReadsFresh (file : AuthFile) (events : List StorageEvent) : Prop :=
  ∀ before process id rest resolved data, events = before ++ .readStarted process id :: rest →
    .resolved process resolved ∈ before → .readReturned id data ∈ rest →
    ∃ front change, front <+: events ∧ View file front data ∧ .applied resolved change ∈ front

def isApplied (id : Nat) : StorageEvent → Bool
  | .applied id' _ => id' = id
  | _ => false

section Events

variable {file : AuthFile} {events more front before after : List StorageEvent}
  {event : StorageEvent} {id process : Nat} {data : Credentials}

theorem replay_concat (data : Credentials) :
    replay data (events ++ [event]) = match event with
        | .applied _ (some change) => change.apply (replay data events)
        | _ => replay data events := by
  rw [replay, foldl_append]
  rfl

theorem split_append (h : events ++ more = before ++ event :: after) (hnew : event ∉ more) :
    ∃ after', after = after' ++ more ∧ events = before ++ event :: after' := by
  rcases List.append_eq_append_iff.mp h with ⟨middle, rfl, hmore⟩ | ⟨middle, hevents, hafter⟩
  · exact absurd (hmore ▸ mem_append_right _ mem_cons_self) hnew
  · cases middle with
    | nil =>
      rw [nil_append] at hafter
      exact absurd (hafter ▸ mem_cons_self) hnew
    | cons first middle =>
      cases hafter
      exact ⟨middle, rfl, hevents⟩

theorem Untouched.append (h : Untouched events id) (hmore : Untouched more id) :
    Untouched (events ++ more) id :=
  fun change hmem => (List.mem_append.mp hmem).elim (h change) (hmore change)

theorem take_append {mark : Nat} (h : mark ≤ events.length) :
    (events ++ more).take mark = events.take mark :=
  take_append_of_le_length h

theorem OpKind.Makes.append {kind : OpKind} {change : Option Change}
    (h : kind.Makes events id change) : kind.Makes (events ++ more) id change := by
  cases kind with
  | modify provider =>
    obtain ⟨next, hmem, heq⟩ := h
    exact ⟨next, mem_append_left _ hmem, heq⟩
  | delete provider => exact h
  | reload => exact h

/-- New results of reads show what the process has done. -/
theorem ReadsFresh.append (h : ReadsFresh file events)
    (hstarted : ∀ process id, .readStarted process id ∉ more)
    (hmore : ∀ before process id rest resolved data, .readReturned id data ∈ more →
      events = before ++ .readStarted process id :: rest → .resolved process resolved ∈ before →
      ∃ front change, front <+: events ∧ View file front data ∧
        .applied resolved change ∈ front) : ReadsFresh file (events ++ more) := by
  intro before process id rest resolved data heq hresolved hreturned
  obtain ⟨rest', rfl, hold⟩ := split_append heq (hstarted process id)
  have hfound : ∃ front change, front <+: events ∧ View file front data ∧
      .applied resolved change ∈ front := by
    rcases List.mem_append.mp hreturned with hmem | hmem
    · exact h before process id rest' resolved data hold hresolved hmem
    · exact hmore before process id rest' resolved data hmem hold hresolved
  obtain ⟨front, change, hfront, hview, happlied⟩ := hfound
  exact ⟨front, change, hfront.trans (prefix_append _ _), hview, happlied⟩

end Events

/-! ## The invariant -/

def OpPhase.entered : OpPhase → Bool
  | .running _ | .ready _ _ _ | .releasing _ => true
  | _ => false

def OpPhase.isFinished : OpPhase → Bool
  | .finished _ => true
  | _ => false

/-- What the promise of a call is to settle with. -/
def Op.shown (op : Op) : Option Credentials :=
  match op.kind, op.phase with
  | .reload, .ready _ data _ => some data
  | _, .releasing (some (data, _)) => some data
  | _, .released (some (data, _)) => some data
  | _, .finished result => result
  | _, _ => none

/-- What a call has come to when it gives the lock back. -/
def Op.Ends (op : Op) (file : AuthFile) (events : List StorageEvent) (id : Nat) :
    Option (Credentials × Option Nat) → Prop
  | none => Untouched events id
  | some (data, _) =>
    View file (events.take op.mark) data ∧ Seen events (events.take op.mark) op.process ∧
      (op.kind ≠ .reload → ∃ change, op.kind.Makes events id change ∧
        .applied id change ∈ events.take op.mark)

def Op.InPhase (op : Op) (file : AuthFile) (s : Storage) (id : Nat) : Prop :=
  match op.phase with
  | .starting | .creating | .waiting | .locked => Untouched s.events id
  | .running current => s.file.parse = some current ∧ Untouched s.events id
  | .ready change data _ =>
    Untouched s.events id ∧ op.kind.Makes s.events id change ∧
      (∃ current, s.file.parse = some current ∧
        data = change.elim current fun change => change.apply current) ∧
      (op.kind = .reload → View file (s.events.take op.mark) data ∧
        Seen s.events (s.events.take op.mark) op.process)
  | .releasing result => op.Ends file s.events id result
  | .released result => op.Ends file s.events id result
  | .finished none => Untouched s.events id
  | .finished (some data) => View file (s.events.take op.mark) data

structure Op.Sound (op : Op) (file : AuthFile) (s : Storage) (id : Nat) : Prop where
  mark_le : op.mark ≤ s.events.length
  lock : op.phase.holds = true → s.lock = some id
  inPhase : op.InPhase file s id

/-- A read state is as new as the calls of its process that have resolved. -/
def ReadState.Sound (state : ReadState) (file : AuthFile) (events : List StorageEvent)
    (process : Nat) : Prop :=
  (∀ id, .resolved process id ∉ events) ∨
    ∃ front, front <+: events ∧ View file front state.data ∧ Seen events front process

/-- What a reader waits for will be as new as the calls that had resolved. -/
def Reader.Sound (reader : Reader) (s : Storage) (id : Nat) : Prop :=
  ∀ reload, reader.joined = some reload → ∃ op, s.ops[reload]? = some op ∧ op.kind = .reload ∧
      ∀ data, op.shown = some data → ∀ before rest resolved,
        s.events = before ++ .readStarted reader.process id :: rest →
        .resolved reader.process resolved ∈ before →
        ∃ change, .applied resolved change ∈ s.events.take op.mark

structure Storage.Inv (file : AuthFile) (s : Storage) : Prop where
  content : s.file.parse = file.parse.map fun data => replay data s.events
  ops : ∀ (id : Nat) (op : Op), s.ops[id]? = some op → op.Sound file s id
  /-- Who has the lock has looked at the file after those who gave it back. -/
  order : ∀ (i j : Nat) (a b : Op), s.ops[i]? = some a → s.ops[j]? = some b → a.phase.isReleased = true →
    b.phase.entered = true → a.mark ≤ b.mark
  states : ∀ process, (s.states process).Sound file s.events process
  reloads : ∀ process reload, (s.states process).reload = some reload →
    ∃ op, s.ops[reload]? = some op ∧ op.kind = .reload ∧ op.process = process ∧
      op.phase.isFinished = false
  readers : ∀ (id : Nat) (reader : Reader), s.readers[id]? = some reader → reader.Sound s id
  started : ∀ process id, .readStarted process id ∈ s.events →
    ∃ reader, s.readers[id]? = some reader ∧ reader.process = process
  once : ∀ id, (s.events.filter (isApplied id)).length ≤ 1
  applied : ∀ id change, .applied id change ∈ s.events →
    ∃ op, s.ops[id]? = some op ∧ op.kind.Makes s.events id change
  resolved : ∀ process id, .resolved process id ∈ s.events →
    ∃ op change, s.ops[id]? = some op ∧ op.process = process ∧ .applied id change ∈ s.events
  rejected : ∀ process id, .rejected process id ∈ s.events →
    ∃ op, s.ops[id]? = some op ∧ op.phase = .finished none
  fresh : ReadsFresh file s.events

namespace Storage

variable {file : AuthFile} {s s' : Storage} {id : Nat} {op op' : Op}

/-- Only one call has the lock. -/
theorem Inv.eq_of_holds (h : s.Inv file) {id' : Nat} (hop : s.ops[id]? = some op)
    (hop' : s.ops[id']? = some op') (hholds : op.phase.holds = true)
    (hholds' : op'.phase.holds = true) : id' = id := by
  have hlock := (h.ops id op hop).lock hholds
  have hlock' := (h.ops id' op' hop').lock hholds'
  exact Option.some.inj (hlock'.symm.trans hlock)

variable {phase : OpPhase} {data : Credentials} {label : StorageStep}

theorem Inv.at_phase (h : s.Inv file) (hop : s.ops[id]? = some op) (hphase : op.phase = phase) :
    ({ op with phase } : Op).InPhase file s id := by
  subst hphase
  exact (h.ops id op hop).inPhase

theorem Inv.lock_of (h : s.Inv file) (j : Nat) (other : Op) (_ : j ≠ id)
    (hother : s.ops[j]? = some other) (hholds : other.phase.holds = true) : s.lock = some j :=
  (h.ops j other hother).lock hholds

theorem holds_of_entered (h : phase.entered = true) : phase.holds = true := by
  cases phase <;> first | rfl | cases h

theorem not_released_of_entered (h : phase.entered = true) : phase.isReleased = false := by
  cases phase <;> first | rfl | cases h

theorem set_cases (hop : s.ops[id]? = some op) {j : Nat} {other : Op}
    (h : (s.ops.set id op')[j]? = some other) :
    (j = id ∧ other = op') ∨ (j ≠ id ∧ s.ops[j]? = some other) := by
  by_cases heq : j = id
  · subst heq
    rw [getElem?_set_self (List.getElem?_eq_some_iff.mp hop).1] at h
    exact Or.inl ⟨rfl, (Option.some.inj h).symm⟩
  · rw [getElem?_set_ne (Ne.symm heq)] at h
    exact Or.inr ⟨heq, h⟩

theorem set_self (hop : s.ops[id]? = some op) : (s.ops.set id op')[id]? = some op' :=
  getElem?_set_self (List.getElem?_eq_some_iff.mp hop).1

theorem set_keeps (hop : s.ops[id]? = some op) (hkind : op'.kind = op.kind)
    (hprocess : op'.process = op.process) {j : Nat} {other : Op} (h : s.ops[j]? = some other) :
    ∃ found, (s.ops.set id op')[j]? = some found ∧ found.kind = other.kind ∧
      found.process = other.process := by
  by_cases heq : j = id
  · subst heq
    cases hop.symm.trans h
    exact ⟨op', set_self hop, hkind, hprocess⟩
  · exact ⟨other, by rw [getElem?_set_ne (Ne.symm heq), h], rfl, rfl⟩

/-- What is known of a call does not depend on what the others do. -/
theorem sound_of_others (h : op.Sound file s id) {more : List StorageEvent}
    (hevents : s'.events = s.events ++ more) (huntouched : Untouched more id)
    (hseen : ∀ m data, .resolved op.process m ∈ more → op.phase.isFinished = false →
      op.shown = some data → ∃ change, .applied m change ∈ s.events.take op.mark)
    (hfile : op.phase.holds = true → s'.file.parse = s.file.parse)
    (hlock : op.phase.holds = true → s'.lock = some id) : op.Sound file s' id := by
  have htake : s'.events.take op.mark = s.events.take op.mark := by
    rw [hevents, take_append h.mark_le]
  have hseen' (data : Credentials) (hopen : op.phase.isFinished = false)
      (hshown : op.shown = some data)
      (hs : Seen s.events (s.events.take op.mark) op.process) :
      Seen s'.events (s'.events.take op.mark) op.process := by
    intro m hm
    rw [htake]
    rw [hevents] at hm
    rcases List.mem_append.mp hm with hm | hm
    · exact hs m hm
    · exact hseen m data hm hopen hshown
  have hnone (hu : Untouched s.events id) : Untouched s'.events id := by
    rw [hevents]
    exact hu.append huntouched
  have hends (result : Option (Credentials × Option Nat)) (hopen : op.phase.isFinished = false)
      (hshown : op.shown = result.map Prod.fst)
      (he : op.Ends file s.events id result) : op.Ends file s'.events id result := by
    cases result with
    | none => exact hnone he
    | some pair =>
      obtain ⟨hview, hs, happlied⟩ := he
      refine ⟨by rw [htake]; exact hview, hseen' _ hopen hshown hs, fun hkind => ?_⟩
      obtain ⟨change, hmakes, hmem⟩ := happlied hkind
      rw [htake, hevents]
      exact ⟨change, hmakes.append, hmem⟩
  have hphase := h.inPhase
  refine ⟨?_, hlock, ?_⟩
  · rw [hevents, length_append]
    exact Nat.le_trans h.mark_le (Nat.le_add_right _ _)
  unfold Op.InPhase at hphase ⊢
  split at hphase
  · exact hnone hphase
  · exact hnone hphase
  · exact hnone hphase
  · exact hnone hphase
  · rename_i current heq
    rw [heq] at hfile
    rw [hfile rfl]
    exact ⟨hphase.1, hnone hphase.2⟩
  · rename_i change data revision heq
    obtain ⟨hu, hmakes, hcurrent, hshows⟩ := hphase
    rw [heq] at hfile
    rw [hfile rfl]
    refine ⟨hnone hu, by rw [hevents]; exact hmakes.append, hcurrent, fun hkind => ?_⟩
    obtain ⟨hview, hs⟩ := hshows hkind
    have hshown : op.shown = some data := by
      rw [Op.shown, hkind, heq]
    exact ⟨by rw [htake]; exact hview, hseen' data (by rw [heq]; rfl) hshown hs⟩
  · rename_i result heq
    refine hends result (by rw [heq]; rfl) ?_ hphase
    rw [Op.shown, heq]
    cases result <;> cases op.kind <;> rfl
  · rename_i result heq
    refine hends result (by rw [heq]; rfl) ?_ hphase
    rw [Op.shown, heq]
    cases result <;> cases op.kind <;> rfl
  · exact hnone hphase
  · rw [htake]
    exact hphase

theorem Inv.content_concat (h : s.Inv file) (event : StorageEvent)
    (hevent : ∀ id change, event ≠ .applied id change) :
    s.file.parse = file.parse.map fun data => replay data (s.events ++ [event]) := by
  rw [h.content]
  congr 1
  funext data
  rw [replay_concat]
  cases event with
  | applied id change => exact absurd rfl (hevent id change)
  | _ => rfl

/-- A call goes on under the lock that it has, or with a view of all that has happened. -/
structure GoesOn (s : Storage) (op op' : Op) : Prop where
  kind : op'.kind = op.kind
  process : op'.process = op.process
  finished : op'.phase = op.phase ∨ op.phase.isFinished = false
  entered : op'.phase.entered = true →
    (op.phase.entered = true ∧ op.mark ≤ op'.mark) ∨ s.events.length ≤ op'.mark
  released : op'.phase.isReleased = true → op.phase.holds = true ∨
    (op.phase.isReleased = true ∧ op'.mark = op.mark)
  shown : op'.kind = .reload → ∀ data, op'.shown = some data →
    (op.shown = some data ∧ op'.mark = op.mark) ∨ op'.mark = s.events.length

/-- What a call may log when it goes on. -/
def Logs (s s' : Storage) (id : Nat) (op op' : Op) : StorageEvent → Prop
  | .fnReturned _ _ => True
  | .applied j change => j = id ∧ Untouched s.events id ∧ op'.kind.Makes s'.events id change
  | .resolved process j => j = id ∧ process = op.process ∧
    (∃ change, .applied id change ∈ s'.events) ∧
    ∀ k other data, k ≠ id → s.ops[k]? = some other → other.process = process →
      other.phase.isFinished = false → other.shown = some data →
      ∃ change, .applied id change ∈ s.events.take other.mark
  | .rejected _ j => j = id ∧ op'.phase = .finished none
  | .readStarted _ _ | .readReturned _ _ => False

/-- A call goes on, and may log what it has come to. -/
theorem Inv.move (h : s.Inv file) (hop : s.ops[id]? = some op) (hgoes : GoesOn s op op')
    (hops : s'.ops = s.ops.set id op')
    {logged : Option StorageEvent} (hevents : s'.events = s.events ++ logged.toList)
    (hreaders : s'.readers = s.readers)
    (hcontent : s'.file.parse = file.parse.map fun data => replay data s'.events)
    (hfile : ∀ j other, j ≠ id → s.ops[j]? = some other → other.phase.holds = true →
      s'.file.parse = s.file.parse ∧ s'.lock = some j)
    (hsound : op'.Sound file s' id)
    (hstates : ∀ process, (s'.states process).Sound file s'.events process)
    (hreloads : ∀ process reload, (s'.states process).reload = some reload →
      (s.states process).reload = some reload ∧
        (reload = id → op.phase.isFinished = false → op'.phase.isFinished = false))
    (hlogs : ∀ event ∈ logged.toList, Logs s s' id op op' event) : s'.Inv file where
  content := hcontent
  ops := by
    intro j other hother
    rw [hops] at hother
    rcases set_cases hop hother with ⟨rfl, rfl⟩ | ⟨hne, hold⟩
    · exact hsound
    · refine sound_of_others (h.ops j other hold) hevents
        (fun change hmem => hne (hlogs _ hmem).1) (fun m data hmem hopen hshown => ?_)
        (fun hholds => (hfile j other hne hold hholds).1)
        (fun hholds => (hfile j other hne hold hholds).2)
      obtain ⟨rfl, _, _, hlater⟩ := hlogs _ hmem
      exact hlater j other data hne hold rfl hopen hshown
  order := by
    intro i j a b ha hb hareleased hbentered
    rw [hops] at ha hb
    rcases set_cases hop ha with ⟨rfl, rfl⟩ | ⟨hi, hold⟩
    · rcases set_cases hop hb with ⟨rfl, rfl⟩ | ⟨hj, hold'⟩
      · exact Nat.le_refl _
      · rcases hgoes.released hareleased with hholds | ⟨hwas, hmark⟩
        · exact absurd (h.eq_of_holds hop hold' hholds (holds_of_entered hbentered)) hj
        · rw [hmark]
          exact h.order i j op b hop hold' hwas hbentered
    · rcases set_cases hop hb with ⟨rfl, rfl⟩ | ⟨_, hold'⟩
      · rcases hgoes.entered hbentered with ⟨hwas, hmark⟩ | hmark
        · exact Nat.le_trans (h.order i j a op hold hop hareleased hwas) hmark
        · exact Nat.le_trans (h.ops i a hold).mark_le hmark
      · exact h.order i j a b hold hold' hareleased hbentered
  states := hstates
  reloads := by
    intro process reload hreload
    obtain ⟨hwas, hopen'⟩ := hreloads process reload hreload
    obtain ⟨found, hfound, hfoundKind, hfoundProcess, hopen⟩ := h.reloads process reload hwas
    rw [hops]
    by_cases heq : reload = id
    · subst heq
      cases hop.symm.trans hfound
      exact ⟨op', set_self hop, hgoes.kind.trans hfoundKind, hgoes.process.trans hfoundProcess,
        hopen' rfl hopen⟩
    · refine ⟨found, ?_, hfoundKind, hfoundProcess, hopen⟩
      rw [getElem?_set_ne (Ne.symm heq), hfound]
  readers := by
    intro b reader hreader reload hjoined
    rw [hreaders] at hreader
    obtain ⟨found, hfound, hfoundKind, hshows⟩ := h.readers b reader hreader reload hjoined
    rw [hops]
    have hmark := (h.ops reload found hfound).mark_le
    by_cases heq : reload = id
    · subst heq
      cases hop.symm.trans hfound
      refine ⟨op', set_self hop, hgoes.kind.trans hfoundKind, fun data hdata before rest m heq hm => ?_⟩
      rw [hevents] at heq
      obtain ⟨rest', _, hold⟩ := split_append heq (hlogs _)
      rcases hgoes.shown (hgoes.kind.trans hfoundKind) data hdata with ⟨hwas, hmark'⟩ | hmark'
      · rw [hmark', hevents, take_append hmark]
        exact hshows data hwas before rest' m hold hm
      · -- it shows all that has happened
        rw [hmark', hevents, take_append (Nat.le_refl _), take_length]
        have hmem : .resolved reader.process m ∈ s.events := by
          rw [hold]
          exact mem_append_left _ hm
        obtain ⟨_, change, _, _, hchange⟩ := h.resolved _ m hmem
        exact ⟨change, hchange⟩
    · refine ⟨found, ?_, hfoundKind, fun data hdata before rest m heq hm => ?_⟩
      · rw [getElem?_set_ne (Ne.symm heq), hfound]
      · rw [hevents] at heq
        obtain ⟨rest', _, hold⟩ := split_append heq (hlogs _)
        rw [hevents, take_append hmark]
        exact hshows data hdata before rest' m hold hm
  started := by
    intro process b hmem
    rw [hevents] at hmem
    rw [hreaders]
    rcases List.mem_append.mp hmem with hmem | hmem
    · exact h.started process b hmem
    · exact (hlogs _ hmem).elim
  once := by
    intro j
    rw [hevents]
    cases logged with
    | none =>
      rw [Option.toList_none, append_nil]
      exact h.once j
    | some event =>
      by_cases happlied : isApplied j event = true
      · cases event with
        | applied j' change =>
          obtain rfl := of_decide_eq_true happlied
          obtain ⟨rfl, huntouched, _⟩ := hlogs _ mem_cons_self
          have hempty : s.events.filter (isApplied j') = [] := by
            refine List.filter_eq_nil_iff.mpr fun event hmem happlied => ?_
            cases event with
            | applied id change =>
              cases of_decide_eq_true happlied
              exact huntouched change hmem
            | _ => cases happlied
          rw [List.filter_append, hempty, nil_append]
          exact length_filter_le _ _
        | _ => cases happlied
      · rw [Option.toList_some, List.filter_append, filter_cons_of_neg happlied, filter_nil,
          append_nil]
        exact h.once j
  applied := by
    intro j change hmem
    rw [hevents] at hmem
    rw [hops]
    rcases List.mem_append.mp hmem with hmem | hmem
    · obtain ⟨found, hfound, hmakes⟩ := h.applied j change hmem
      obtain ⟨found', hfound', hkind', _⟩ := set_keeps hop hgoes.kind hgoes.process hfound
      rw [hevents]
      exact ⟨found', hfound', hkind' ▸ hmakes.append⟩
    · obtain ⟨rfl, _, hmakes⟩ := hlogs _ hmem
      exact ⟨op', set_self hop, hmakes⟩
  resolved := by
    intro process j hmem
    rw [hevents] at hmem
    rw [hops]
    rcases List.mem_append.mp hmem with hmem | hmem
    · obtain ⟨found, change, hfound, hfoundProcess, hchange⟩ := h.resolved process j hmem
      obtain ⟨found', hfound', _, hprocess'⟩ := set_keeps hop hgoes.kind hgoes.process hfound
      rw [hevents]
      exact ⟨found', change, hfound', hprocess'.trans hfoundProcess, mem_append_left _ hchange⟩
    · obtain ⟨rfl, rfl, ⟨change, hchange⟩, _⟩ := hlogs _ hmem
      exact ⟨op', change, set_self hop, hgoes.process, hchange⟩
  rejected := by
    intro process j hmem
    rw [hevents] at hmem
    rw [hops]
    rcases List.mem_append.mp hmem with hmem | hmem
    · obtain ⟨found, hfound, hphase⟩ := h.rejected process j hmem
      by_cases heq : j = id
      · subst heq
        cases hop.symm.trans hfound
        refine ⟨op', set_self hop, ?_⟩
        rcases hgoes.finished with hsame | hopen
        · exact hsame.trans hphase
        · rw [hphase] at hopen
          cases hopen
      · exact ⟨found, by rw [getElem?_set_ne (Ne.symm heq), hfound], hphase⟩
    · obtain ⟨rfl, hphase⟩ := hlogs _ hmem
      exact ⟨op', set_self hop, hphase⟩
  fresh := by
    rw [hevents]
    exact h.fresh.append (fun _ _ => hlogs _) fun _ _ _ _ _ _ hmem => (hlogs _ hmem).elim

theorem Inv.quiet (h : s.Inv file) (hop : s.ops[id]? = some op) (hgoes : GoesOn s op op')
    (hops : s'.ops = s.ops.set id op')
    (hevents : s'.events = s.events) (hreaders : s'.readers = s.readers)
    (hparse : s'.file.parse = s.file.parse)
    (hlock : ∀ j other, j ≠ id → s.ops[j]? = some other → other.phase.holds = true →
      s'.lock = some j) (hsound : op'.Sound file s' id)
    (hstates : ∀ process, (s'.states process).Sound file s.events process)
    (hreloads : ∀ process reload, (s'.states process).reload = some reload →
      (s.states process).reload = some reload ∧
        (reload = id → op.phase.isFinished = false → op'.phase.isFinished = false)) :
    s'.Inv file := by
  refine @Inv.move file s s' id op op' h hop hgoes hops none
    (hevents.trans (append_nil _).symm) hreaders ?_
    (fun j other hne hother hholds => ⟨hparse, hlock j other hne hother hholds⟩) hsound ?_ hreloads
    fun _ hmem => absurd hmem not_mem_nil
  · rw [hparse, hevents]
    exact h.content
  · rw [hevents]
    exact hstates

theorem Inv.setOp (h : s.Inv file) (hop : s.ops[id]? = some op) (hgoes : GoesOn s op op')
    {lock : Option Nat}
    (hlock : ∀ j other, j ≠ id → s.ops[j]? = some other → other.phase.holds = true →
      lock = some j) (hsound : op'.Sound file { s with lock } id)
    (hopen : op'.phase = op.phase ∨ op'.phase.isFinished = false) :
    { s.setOp id op' with lock }.Inv file := by
  refine h.quiet hop hgoes rfl rfl rfl rfl hlock ⟨hsound.mark_le, hsound.lock, hsound.inPhase⟩
    h.states fun _ _ hreload => ⟨hreload, fun _ hwas => ?_⟩
  rcases hopen with hsame | hopen
  · rw [hsame]
    exact hwas
  · exact hopen

/-- A call goes on, and keeps the lock or does without it. -/
theorem Inv.setPhase (h : s.Inv file) (hop : s.ops[id]? = some op)
    (hholds : phase.holds = op.phase.holds) (hinPhase : ({ op with phase } : Op).InPhase file s id)
    (hopen : op.phase.isFinished = false) (hopen' : phase.isFinished = false)
    (hentered : phase.entered = true → op.phase.entered = true)
    (hreleased : phase.isReleased = false)
    (hshown : op.kind = .reload → ∀ data, ({ op with phase } : Op).shown = some data →
      op.shown = some data) : (s.setOp id { op with phase }).Inv file := by
  have hsound := h.ops id op hop
  refine @Inv.setOp file s id op { op with phase } h hop ⟨rfl, rfl, Or.inr hopen,
    fun hnow => Or.inl ⟨hentered hnow, Nat.le_refl _⟩, fun hnow => ?_,
    fun hkind data hdata => Or.inl ⟨hshown hkind data hdata, rfl⟩⟩ s.lock h.lock_of
    ⟨hsound.mark_le, fun hnow => hsound.lock (hholds ▸ hnow), hinPhase⟩ (Or.inr hopen')
  rw [show phase.isReleased = true from hnow] at hreleased
  cases hreleased

/-! ## Steps without an event -/

theorem updateReadState_reload (process process' : Nat) (revision : Option Nat) :
    ((s.updateReadState process data revision).states process').reload
      = (s.states process').reload := by
  by_cases heq : process' = process <;> simp [updateReadState, setState, heq]

theorem Inv.setFlags (h : s.Inv file) (hop : s.ops[id]? = some op) (aborted : Bool)
    (readers : Nat) : (s.setOp id { op with aborted, readers }).Inv file := by
  have hsound := h.ops id op hop
  exact @Inv.setOp file s id op { op with aborted, readers } h hop ⟨rfl, rfl, Or.inl rfl,
    fun hnow => Or.inl ⟨hnow, Nat.le_refl _⟩, fun hnow => Or.inr ⟨hnow, rfl⟩,
    fun _ data hdata => Or.inl ⟨hdata, rfl⟩⟩ s.lock h.lock_of
    ⟨hsound.mark_le, hsound.lock, hsound.inPhase⟩ (Or.inl rfl)

theorem Inv.create (h : s.Inv file) (hop : s.ops[id]? = some op) (hphase : op.phase = .creating)
    (hmissing : s.file = .missing) (revision : Nat) :
    { s.setOp id { op with phase := .waiting } with
      file := .holding InsertionMap.empty, revision }.Inv file := by
  have hsound := h.ops id op hop
  have hparse : AuthFile.parse (.holding InsertionMap.empty) = s.file.parse := by
    rw [hmissing]
    rfl
  have hin := h.at_phase hop hphase
  refine @Inv.quiet file s _ id op { op with phase := .waiting } h hop
    ⟨rfl, rfl, Or.inr (by rw [hphase]; rfl), nofun, nofun, fun hkind data hdata => ?_⟩ rfl rfl rfl
    hparse h.lock_of ⟨hsound.mark_le, nofun, hin⟩ h.states fun _ _ hreload =>
      ⟨hreload, fun _ _ => rfl⟩
  simp [Op.shown] at hdata

theorem Inv.acquire (h : s.Inv file) (hop : s.ops[id]? = some op) (hphase : op.phase = .waiting)
    (hfree : s.lock = none) :
    { s.setOp id { op with phase := .locked } with lock := some id }.Inv file := by
  have hsound := h.ops id op hop
  have hin := h.at_phase hop hphase
  refine @Inv.setOp file s id op { op with phase := .locked } h hop
    ⟨rfl, rfl, Or.inr (by rw [hphase]; rfl), nofun, nofun, fun hkind data hdata => ?_⟩ (some id) ?_
    ⟨hsound.mark_le, fun _ => rfl, hin⟩ (Or.inr rfl)
  · simp [Op.shown] at hdata
  · intro j other _ hother hother'
    rw [(h.ops j other hother).lock hother'] at hfree
    cases hfree

theorem seen_all (h : s.Inv file) (process : Nat) : Seen s.events s.events process := by
  intro m hm
  obtain ⟨_, change, _, _, happlied⟩ := h.resolved process m hm
  exact ⟨change, happlied⟩

theorem Inv.enter (h : s.Inv file) (hop : s.ops[id]? = some op) (hphase : op.phase = .locked) :
    (s.enterOp id op).Inv file := by
  have hsound := h.ops id op hop
  have hholds : op.phase.holds = true := by rw [hphase]; rfl
  have hlock := hsound.lock hholds
  have hin := h.at_phase hop hphase
  have hopen : op.phase.isFinished = false := by rw [hphase]; rfl
  have hview (data : Credentials) (hdata : s.file.parse = some data) :
      View file (s.events.take s.events.length) data := by
    rw [take_length]
    exact h.content.symm.trans hdata
  -- the call with its new mark, in a phase under the lock
  have hset (phase : OpPhase) (hentered : phase.entered = true)
      (hinPhase : ({ op with mark := s.events.length, phase } : Op).InPhase file s id) :
      (s.setOp id { op with mark := s.events.length, phase }).Inv file := by
    refine @Inv.setOp file s id op { op with mark := s.events.length, phase } h hop
      ⟨rfl, rfl, Or.inr hopen, fun _ => Or.inr (Nat.le_refl _), fun hreleased => ?_,
        fun _ _ _ => Or.inr rfl⟩ s.lock h.lock_of ⟨Nat.le_refl _, fun _ => hlock, hinPhase⟩
      (Or.inr ?_)
    · rw [not_released_of_entered hentered] at hreleased
      cases hreleased
    · show phase.isFinished = false
      cases phase <;> first | rfl | cases hentered
  unfold enterOp
  dsimp only
  split
  · rename_i current haborted hparse
    split
    · exact hset (.running current) rfl ⟨hparse, hin⟩
    · rename_i provider hkind
      refine hset (.ready (some (.remove provider)) _ none) rfl ⟨hin, ?_, ⟨current, hparse, rfl⟩, ?_⟩
      · show op.kind.Makes _ _ _
        rw [hkind]
        rfl
      · intro hreload
        rw [hkind] at hreload
        cases hreload
    · rename_i hkind
      have hshows : View file (s.events.take s.events.length) current ∧
          Seen s.events (s.events.take s.events.length) op.process := by
        refine ⟨hview current hparse, ?_⟩
        rw [take_length]
        exact seen_all h op.process
      have hinPhase : ({ op with
          mark := s.events.length
          phase := .ready none current s.fileRevision } : Op).InPhase file s id := by
        refine ⟨hin, ?_, ⟨current, hparse, rfl⟩, fun _ => hshows⟩
        show op.kind.Makes _ _ _
        rw [hkind]
        rfl
      refine @Inv.quiet file s _ id op
        { op with mark := s.events.length, phase := .ready none current s.fileRevision } h hop
        ⟨rfl, rfl, Or.inr hopen, fun _ => Or.inr (Nat.le_refl _), nofun, fun _ _ _ => Or.inr rfl⟩
        rfl rfl rfl rfl h.lock_of ⟨Nat.le_refl _, fun _ => hlock, hinPhase⟩ ?_ ?_
      · intro process
        by_cases heq : process = op.process
        · subst heq
          right
          refine ⟨s.events, prefix_refl _, ?_, seen_all h op.process⟩
          simp only [updateReadState, setState, Function.update_self]
          exact h.content.symm.trans hparse
        · simp only [updateReadState, setState, Function.update_of_ne heq]
          exact h.states process
      · intro process reload hreload
        exact ⟨(updateReadState_reload ..).symm.trans hreload, fun _ _ => rfl⟩
  · exact hset (.releasing none) rfl hin

variable {result : Option (Credentials × Option Nat)}

theorem Inv.release (h : s.Inv file) (hop : s.ops[id]? = some op)
    (hphase : op.phase = .releasing result) :
    { s.setOp id { op with phase := .released result } with lock := none }.Inv file := by
  have hsound := h.ops id op hop
  have hholds : op.phase.holds = true := by rw [hphase]; rfl
  have hin := h.at_phase hop hphase
  refine @Inv.setOp file s id op { op with phase := .released result } h hop
    ⟨rfl, rfl, Or.inr (by rw [hphase]; rfl), nofun, fun _ => Or.inl hholds,
      fun hkind data hdata => Or.inl ⟨?_, rfl⟩⟩ none ?_ ⟨hsound.mark_le, nofun, hin⟩ (Or.inr rfl)
  · rw [← hdata, Op.shown, Op.shown, hkind, hphase]
    cases result <;> rfl
  · intro j other hne hother hother'
    exact absurd (h.eq_of_holds hop hother hholds hother') hne

theorem filter_applied_le (h : s.Inv file) {more : List StorageEvent}
    (hnone : ∀ j change, .applied j change ∉ more) (j : Nat) :
    ((s.events ++ more).filter (isApplied j)).length ≤ 1 := by
  have hempty : more.filter (isApplied j) = [] := by
    refine List.filter_eq_nil_iff.mpr fun event hmem happlied => ?_
    cases event with
    | applied id change => exact hnone id change hmem
    | _ => cases happlied
  rw [List.filter_append, hempty, append_nil]
  exact h.once j

theorem readState_append {state : ReadState} {events more : List StorageEvent} {process : Nat}
    (h : state.Sound file events process)
    (hmore : ∀ id, .resolved process id ∉ more) : state.Sound file (events ++ more) process := by
  have hold (id : Nat) (hmem : .resolved process id ∈ events ++ more) :
      .resolved process id ∈ events :=
    (List.mem_append.mp hmem).resolve_right (hmore id)
  rcases h with hnone | ⟨front, hfront, hview, hseen⟩
  · exact Or.inl fun id hmem => hnone id (hold id hmem)
  · exact Or.inr ⟨front, hfront.trans (prefix_append _ _), hview,
      fun id hmem => hseen id (hold id hmem)⟩

theorem Inv.fnReturns (h : s.Inv file) (hop : s.ops[id]? = some op) {current : Credentials}
    {provider : String} (hphase : op.phase = .running current)
    (hkind : op.kind = .modify provider) (next : Option Credential) {revision : Option Nat} :
    ((s.log [.fnReturned id next]).setOp id { op with
      phase := .ready (next.map (Change.put provider))
        ((next.map (Change.put provider)).elim current fun change => change.apply current)
        revision }).Inv file := by
  have hsound := h.ops id op hop
  have hlock := hsound.lock (by rw [hphase]; rfl)
  have hin := h.at_phase hop hphase
  have hno {event : StorageEvent} (hne : event ≠ .fnReturned id next) :
      event ∉ [.fnReturned id next] := fun hmem => hne (List.mem_singleton.mp hmem)
  have hmap := h.content_concat (.fnReturned id next) nofun
  refine @Inv.move file s _ id op { op with
      phase := .ready (next.map (Change.put provider))
        ((next.map (Change.put provider)).elim current fun change => change.apply current)
        revision } h hop
    ⟨rfl, rfl, Or.inr (by rw [hphase]; rfl), fun _ => Or.inl ⟨by rw [hphase]; rfl, Nat.le_refl _⟩,
      nofun, fun hreload => ?_⟩ rfl (some (.fnReturned id next)) rfl rfl hmap
    (fun j other hne hother hholds => ⟨rfl, h.lock_of j other hne hother hholds⟩) ?_
    (fun process => readState_append (h.states process)
      fun j => hno nofun)
    (fun _ _ hreload => ⟨hreload, fun _ _ => rfl⟩) fun event hmem => ?_
  · rw [show op.kind = .reload from hreload] at hkind
    cases hkind
  · refine ⟨?_, fun _ => hlock, ?_, ?_, ⟨current, hin.1, rfl⟩, ?_⟩
    · show op.mark ≤ (s.events ++ [_]).length
      rw [length_append]
      exact Nat.le_trans hsound.mark_le (Nat.le_add_right _ _)
    · exact hin.2.append fun _ => hno nofun
    · show op.kind.Makes (s.events ++ [_]) id _
      rw [hkind]
      exact ⟨next, mem_append_right _ mem_cons_self, rfl⟩
    · intro hreload
      rw [hkind] at hreload
      cases hreload
  · cases List.mem_singleton.mp hmem
    trivial

theorem Inv.commit (h : s.Inv file) (hop : s.ops[id]? = some op) {change : Option Change}
    {dataRevision : Option Nat}
    (hphase : op.phase = .ready change data dataRevision) (hkind : op.kind ≠ .reload)
    (revision : Nat) (hlive : op.aborted = false) :
    (s.commitOp id revision op change data dataRevision).Inv file := by
  have hsound := h.ops id op hop
  have hholds : op.phase.holds = true := by rw [hphase]; rfl
  have hlock := hsound.lock hholds
  have hin := h.at_phase hop hphase
  obtain ⟨huntouched, hmakes, ⟨current, hcurrent, hdata⟩, _⟩ := hin
  have hno {event : StorageEvent} (hne : event ≠ .applied id change) :
      event ∉ [.applied id change] := fun hmem => hne (List.mem_singleton.mp hmem)
  -- the content after the change
  have hcontent : some data = file.parse.map fun first =>
      replay first (s.events ++ [.applied id change]) := by
    have hmap := h.content.symm.trans hcurrent
    obtain ⟨first, hfirst, hreplay⟩ := Option.map_eq_some_iff.mp hmap
    rw [hfirst, Option.map_some, replay_concat, hreplay, hdata]
    cases change <;> rfl
  have hsame : change = none → s.file.parse = some data := by
    rintro rfl
    rw [hdata]
    exact hcurrent
  -- whatever the file is written as, it holds the data
  have hmove (content : AuthFile) (newRevision : Nat) (hparse : content.parse = some data) :
      { (s.setOp id { op with
          phase := .releasing (some (data, dataRevision))
          mark := s.events.length + 1 }).log [.applied id change] with
        file := content, revision := newRevision }.Inv file := by
    have hlength : (s.events ++ [StorageEvent.applied id change]).length = s.events.length + 1 := by
      simp
    refine @Inv.move file s _ id op { op with
        phase := .releasing (some (data, dataRevision))
        mark := s.events.length + 1 } h hop
      ⟨rfl, rfl, Or.inr (by rw [hphase]; rfl), fun _ => Or.inr (Nat.le_succ _), nofun,
        fun hreload => absurd hreload hkind⟩ rfl (some (.applied id change)) rfl rfl
      (hparse.trans hcontent) ?_ ?_ (fun process => readState_append (h.states process) fun j => hno nofun)
      (fun _ _ hreload => ⟨hreload, fun _ _ => rfl⟩) fun event hmem => ?_
    · intro j other hne hother hother'
      exact absurd (h.eq_of_holds hop hother hholds hother') hne
    · refine ⟨Nat.le_of_eq hlength.symm, fun _ => hlock, ?_, ?_, fun _ => ⟨change, ?_, ?_⟩⟩
      · show View file ((s.events ++ [_]).take (s.events.length + 1)) data
        rw [← hlength, take_length]
        exact hcontent.symm
      · show Seen (s.events ++ [_]) ((s.events ++ [_]).take (s.events.length + 1)) op.process
        rw [← hlength, take_length]
        intro m hm
        obtain ⟨change', hmem⟩ := seen_all h op.process m
          ((List.mem_append.mp hm).resolve_right (hno nofun))
        exact ⟨change', mem_append_left _ hmem⟩
      · exact hmakes.append
      · show _ ∈ (s.events ++ [_]).take (s.events.length + 1)
        rw [← hlength, take_length]
        simp
    · cases List.mem_singleton.mp hmem
      exact ⟨rfl, huntouched, hmakes.append⟩
  unfold commitOp
  rw [if_neg (Bool.eq_false_iff.mp hlive)]
  split
  · rename_i heq
    exact absurd heq hkind
  · split
    · exact hmove (.holding data) revision rfl
    · exact hmove s.file s.revision (hsame rfl)

/-! ## Promises settle -/

theorem shown_cases (hshown : op.shown = some data) (hopen : op.phase.isFinished = false) :
    op.phase.entered = true ∨ op.phase.isReleased = true := by
  cases hphase : op.phase with
  | running current => exact Or.inl rfl
  | ready change data revision => exact Or.inl rfl
  | releasing result => exact Or.inl rfl
  | released result => exact Or.inr rfl
  | finished result =>
    rw [hphase] at hopen
    cases hopen
  | _ =>
    rw [Op.shown, hphase] at hshown
    cases hkind : op.kind <;> (rw [hkind] at hshown; cases hshown)

/-- A call that was not given the lock, or has given it back. -/
structure Settles (file : AuthFile) (s : Storage) (id : Nat) (op : Op)
    (result : Option (Credentials × Option Nat)) : Prop where
  released : result.isSome = true → op.phase.isReleased = true
  holds : op.phase.holds = false
  unfinished : op.phase.isFinished = false
  ends : op.Ends file s.events id result
  shown : op.shown = result.map Prod.fst

theorem clearReload_states (process id p : Nat) :
    ((s.clearReload process id).states p).data = (s.states p).data ∧
      (((s.clearReload process id).states p).reload = (s.states p).reload ∨
        ((s.clearReload process id).states p).reload = none) ∧
      (p = process → ((s.clearReload process id).states p).reload ≠ some id) := by
  unfold clearReload
  split
  · rename_i heq
    by_cases hp : p = process
    · subst hp
      simp only [setState, Function.update_self]
      simp
    · simp only [setState, Function.update_of_ne hp]
      exact ⟨trivial, Or.inl trivial, fun hsame => absurd hsame hp⟩
  · rename_i hne
    refine ⟨rfl, Or.inl rfl, ?_⟩
    rintro rfl
    exact hne

theorem Settles.sound (h : Settles file s id op result) (hsound : op.Sound file s id)
    {more : List StorageEvent} (hevents : s'.events = s.events ++ more)
    (hmore : Untouched more id) :
    ({ op with phase := .finished (result.map Prod.fst) } : Op).Sound file s' id := by
  refine ⟨?_, nofun, ?_⟩
  · rw [hevents, length_append]
    exact Nat.le_trans hsound.mark_le (Nat.le_add_right _ _)
  · have hends := h.ends
    cases result with
    | none =>
      show Untouched s'.events id
      rw [hevents]
      exact Untouched.append hends hmore
    | some pair =>
      show View file (s'.events.take op.mark) pair.1
      rw [hevents, take_append hsound.mark_le]
      exact hends.1

theorem Inv.settleReload (h : s.Inv file) (hop : s.ops[id]? = some op)
    (hsettles : Settles file s id op result) :
    ((s.setOp id { op with phase := .finished (result.map Prod.fst) }).clearReload op.process
      id).Inv file := by
  have hsound := h.ops id op hop
  have hstates := @clearReload_states
    (s.setOp id { op with phase := .finished (result.map Prod.fst) }) op.process id
  have hrest : ∀ t : Storage, (t.clearReload op.process id).ops = t.ops ∧
      (t.clearReload op.process id).events = t.events ∧
      (t.clearReload op.process id).readers = t.readers ∧
      (t.clearReload op.process id).file = t.file ∧
      (t.clearReload op.process id).lock = t.lock := by
    intro t
    unfold clearReload
    split <;> exact ⟨rfl, rfl, rfl, rfl, rfl⟩
  obtain ⟨hops, hevents, hreaders, hfile, hlock⟩ := hrest
    (s.setOp id { op with phase := .finished (result.map Prod.fst) })
  refine @Inv.quiet file s _ id op { op with phase := .finished (result.map Prod.fst) } h hop
    ⟨rfl, rfl, Or.inr hsettles.unfinished, nofun, nofun, fun hkind data hdata => Or.inl ⟨?_, rfl⟩⟩
    hops hevents hreaders (congrArg AuthFile.parse hfile)
    (fun j other hne hother hholds => hlock.trans (h.lock_of j other hne hother hholds))
    (hsettles.sound hsound (hevents.trans (append_nil _).symm)
      fun _ hmem => absurd hmem not_mem_nil) ?_ ?_
  · rw [hsettles.shown]
    rw [Op.shown, show ({ op with phase := OpPhase.finished (result.map Prod.fst) } : Op).kind
      = .reload from hkind] at hdata
    exact hdata
  · intro process
    rcases h.states process with hnone | ⟨front, hfront, hview, hseen⟩
    · exact Or.inl hnone
    · refine Or.inr ⟨front, hfront, ?_, hseen⟩
      rw [(hstates process).1]
      exact hview
  · intro process reload hreload
    have hwas : (s.states process).reload = some reload := by
      rcases (hstates process).2.1 with hsame | hnone
      · exact hsame.symm.trans hreload
      · rw [hnone] at hreload
        cases hreload
    refine ⟨hwas, ?_⟩
    rintro rfl
    obtain ⟨found, hfound, _, hprocess, _⟩ := h.reloads process reload hwas
    cases hop.symm.trans hfound
    exact absurd hreload ((hstates process).2.2 hprocess.symm)

/-- A call that changes the file settles: the read state learns of it. -/
theorem Inv.settleResolved (h : s.Inv file) (hop : s.ops[id]? = some op)
    (hkind : op.kind ≠ .reload) {revision : Option Nat}
    (hsettles : Settles file s id op (some (data, revision)))
    (hinOrder : ∀ (j : Nat) (other : Op), s.ops[j]? = some other → other.process = op.process →
      other.phase.isReleased = true → op.mark ≤ other.mark) :
    (((s.setOp id { op with phase := .finished (some data) }).updateReadState op.process data
      revision).log [.resolved op.process id]).Inv file := by
  have hsound := h.ops id op hop
  obtain ⟨hview, hseen, happlied⟩ := hsettles.ends
  obtain ⟨change, hmakes, hmem⟩ := happlied hkind
  have hno {event : StorageEvent} (hne : event ≠ .resolved op.process id) :
      event ∉ [.resolved op.process id] := fun hmem => hne (List.mem_singleton.mp hmem)
  have hmap := h.content_concat (.resolved op.process id) nofun
  have hreloads (process reload : Nat)
      (hreload : (s.states process).reload = some reload) : reload ≠ id := by
    rintro rfl
    obtain ⟨found, hfound, hfoundKind, _⟩ := h.reloads process reload hreload
    cases hop.symm.trans hfound
    exact hkind hfoundKind
  refine @Inv.move file s _ id op { op with phase := .finished (some data) } h hop
    ⟨rfl, rfl, Or.inr hsettles.unfinished, nofun, nofun, fun hreload => absurd hreload hkind⟩ rfl
    (some (.resolved op.process id)) rfl rfl hmap
    (fun j other hne hother hholds => ⟨rfl, h.lock_of j other hne hother hholds⟩)
    (hsettles.sound hsound rfl fun _ => hno nofun) ?_ ?_ fun event hevent => ?_
  · intro process
    by_cases heq : process = op.process
    · subst heq
      right
      refine ⟨s.events.take op.mark, ?_, ?_, ?_⟩
      · exact ( take_prefix _ _).trans (prefix_append _ _)
      · simp only [log, updateReadState, setState, Function.update_self]
        exact hview
      · intro m hm
        rcases List.mem_append.mp hm with hm | hm
        · exact hseen m hm
        · cases List.mem_singleton.mp hm
          exact ⟨change, hmem⟩
    · simp only [log, updateReadState, setState, Function.update_of_ne heq]
      refine readState_append (h.states process) fun j => hno fun hsame => ?_
      cases hsame
      exact heq rfl
  · intro process reload hreload
    have hwas : (s.states process).reload = some reload :=
      (updateReadState_reload ..).symm.trans hreload
    exact ⟨hwas, fun heq => absurd heq (hreloads process reload hwas)⟩
  · cases List.mem_singleton.mp hevent
    refine ⟨rfl, rfl, ⟨change, mem_append_left _ (mem_of_mem_take hmem)⟩, ?_⟩
    intro j other shown _ hother hprocess hopen hshown
    -- the other call had the lock later
    have hle : op.mark ≤ other.mark := by
      rcases shown_cases hshown hopen with hentered | hreleased
      · exact h.order id j op other hop hother (hsettles.released rfl) hentered
      · exact hinOrder j other hother hprocess hreleased
    exact ⟨change, take_subset_take_left _ hle hmem⟩

theorem Inv.settleRejected (h : s.Inv file) (hop : s.ops[id]? = some op)
    (hkind : op.kind ≠ .reload) (hsettles : Settles file s id op none) :
    ((s.setOp id { op with phase := .finished none }).log [.rejected op.process id]).Inv file := by
  have hsound := h.ops id op hop
  have hno {event : StorageEvent} (hne : event ≠ .rejected op.process id) :
      event ∉ [.rejected op.process id] := fun hmem => hne (List.mem_singleton.mp hmem)
  have hmap := h.content_concat (.rejected op.process id) nofun
  refine @Inv.move file s _ id op { op with phase := .finished none } h hop
    ⟨rfl, rfl, Or.inr hsettles.unfinished, nofun, nofun, fun hreload => absurd hreload hkind⟩ rfl
    (some (.rejected op.process id)) rfl rfl hmap
    (fun j other hne hother hholds => ⟨rfl, h.lock_of j other hne hother hholds⟩)
    (hsettles.sound hsound rfl fun _ => hno nofun)
    (fun process => readState_append (h.states process) fun j => hno nofun) ?_
    fun event hevent => ?_
  · intro process reload hreload
    refine ⟨hreload, ?_⟩
    rintro rfl
    obtain ⟨found, hfound, hfoundKind, _⟩ := h.reloads process reload hreload
    cases hop.symm.trans hfound
    exact absurd hfoundKind hkind
  · cases List.mem_singleton.mp hevent
    exact ⟨rfl, rfl⟩

theorem Inv.settle (h : s.Inv file) (hop : s.ops[id]? = some op)
    (hsettles : Settles file s id op result)
    (hinOrder : ∀ (j : Nat) (other : Op), s.ops[j]? = some other → other.process = op.process →
      other.phase.isReleased = true → op.mark ≤ other.mark) :
    (s.settleOp id op result).Inv file := by
  unfold settleOp
  split
  · exact h.settleReload hop hsettles
  · rename_i data revision hkind
    exact h.settleResolved hop hkind hsettles hinOrder
  · rename_i hkind
    exact h.settleRejected hop hkind hsettles

/-! ## New calls and readers -/

theorem Inv.newOp (h : s.Inv file) (process : Nat) (kind : OpKind) (readers : Nat) :
    (s.newOp process kind readers).Inv file := by
  have hcases (j : Nat) (other : Op)
      (hother : (s.newOp process kind readers).ops[j]? = some other) :
      s.ops[j]? = some other ∨ (j = s.ops.length ∧ other = { process, kind, readers }) := by
    rcases Nat.lt_trichotomy j s.ops.length with hlt | rfl | hgt
    · left
      rw [Storage.newOp, getElem?_append_left hlt] at hother
      exact hother
    · right
      rw [Storage.newOp, getElem?_append_right (Nat.le_refl _), Nat.sub_self] at hother
      cases hother
      exact ⟨rfl, rfl⟩
    · rw [Storage.newOp, List.getElem?_eq_none_iff.mpr] at hother
      · cases hother
      · rw [length_append, length_singleton]
        exact hgt
  have hold (j : Nat) (other : Op) (hother : s.ops[j]? = some other) :
      (s.newOp process kind readers).ops[j]? = some other := by
    rw [Storage.newOp, getElem?_append_left (List.getElem?_eq_some_iff.mp hother).1, hother]
  refine ⟨h.content, ?_, ?_, h.states, ?_, ?_, h.started, h.once, ?_, ?_, ?_, h.fresh⟩
  · intro j other hother
    rcases hcases j other hother with hwas | ⟨rfl, rfl⟩
    · have hsound := h.ops j other hwas
      exact ⟨hsound.mark_le, hsound.lock, hsound.inPhase⟩
    · refine ⟨Nat.zero_le _, nofun, fun change hmem => ?_⟩
      obtain ⟨found, hfound, _⟩ := h.applied _ change hmem
      exact absurd (List.getElem?_eq_some_iff.mp hfound).1 (Nat.lt_irrefl _)
  · intro i j a b ha hb hreleased hentered
    rcases hcases i a ha with ha | ⟨_, rfl⟩
    · rcases hcases j b hb with hb | ⟨_, rfl⟩
      · exact h.order i j a b ha hb hreleased hentered
      · cases hentered
    · cases hreleased
  · intro process' reload hreload
    obtain ⟨found, hfound, hrest⟩ := h.reloads process' reload hreload
    exact ⟨found, hold _ _ hfound, hrest⟩
  · intro b reader hreader reload hjoined
    obtain ⟨found, hfound, hrest⟩ := h.readers b reader hreader reload hjoined
    exact ⟨found, hold _ _ hfound, hrest⟩
  · intro j change hmem
    obtain ⟨found, hfound, hmakes⟩ := h.applied j change hmem
    exact ⟨found, hold _ _ hfound, hmakes⟩
  · intro process' j hmem
    obtain ⟨found, change, hfound, hrest⟩ := h.resolved process' j hmem
    exact ⟨found, change, hold _ _ hfound, hrest⟩
  · intro process' j hmem
    obtain ⟨found, hfound, hphase⟩ := h.rejected process' j hmem
    exact ⟨found, hold _ _ hfound, hphase⟩

theorem Inv.setReload (h : s.Inv file) (process : Nat) (shared : Option Nat)
    (hshared : ∀ reload, shared = some reload → ∃ op, s.ops[reload]? = some op ∧
      op.kind = .reload ∧ op.process = process ∧ op.phase.isFinished = false) :
    (s.setState process { s.states process with reload := shared }).Inv file := by
  refine ⟨h.content, ?_, h.order, ?_, ?_, h.readers, h.started, h.once, h.applied, h.resolved,
    h.rejected, h.fresh⟩
  · intro j other hother
    have hsound := h.ops j other hother
    exact ⟨hsound.mark_le, hsound.lock, hsound.inPhase⟩
  · intro process'
    by_cases heq : process' = process
    · subst heq
      simp only [setState, Function.update_self]
      exact h.states process'
    · simp only [setState, Function.update_of_ne heq]
      exact h.states process'
  · intro process' reload hreload
    by_cases heq : process' = process
    · subst heq
      simp only [setState, Function.update_self] at hreload
      exact hshared reload hreload
    · simp only [setState, Function.update_of_ne heq] at hreload
      exact h.reloads process' reload hreload

theorem Inv.clearReload (h : s.Inv file) (process id : Nat) :
    (s.clearReload process id).Inv file := by
  unfold Storage.clearReload
  split
  · exact h.setReload process none fun _ hnone => by cases hnone
  · exact h

/-- The readers change, with an event of theirs. -/
theorem Inv.read (h : s.Inv file) {event : StorageEvent} {readers : List Reader}
    (happlied : ∀ id change, event ≠ .applied id change)
    (hresolved : ∀ process id, event ≠ .resolved process id)
    (hrejected : ∀ process id, event ≠ .rejected process id)
    (hreaders : ∀ (b : Nat) (reader : Reader), readers[b]? = some reader →
      reader.Sound (s.log [event]) b)
    (hstarted : ∀ process b, .readStarted process b ∈ s.events ++ [event] →
      ∃ reader, readers[b]? = some reader ∧ reader.process = process)
    (hfresh : ReadsFresh file (s.events ++ [event])) :
    ({ s with readers } : Storage).log [event] |>.Inv file := by
  have hno {other : StorageEvent} (hne : event ≠ other) : other ∉ [event] :=
    fun hmem => hne (List.mem_singleton.mp hmem).symm
  have hold {other : StorageEvent} (hmem : other ∈ s.events ++ [event]) (hne : event ≠ other) :
      other ∈ s.events := (List.mem_append.mp hmem).resolve_right (hno hne)
  refine ⟨?_, ?_, h.order, ?_, h.reloads, hreaders, hstarted, ?_, ?_, ?_, ?_, hfresh⟩
  · show s.file.parse = file.parse.map fun data => replay data (s.events ++ [event])
    rw [h.content]
    congr 1
    funext data
    rw [replay_concat]
    split
    · exact absurd rfl (happlied _ _)
    · rfl
  · intro j other hother
    exact sound_of_others (h.ops j other hother) rfl (fun change => hno (happlied j change))
      (fun m _ hm => absurd hm (hno (hresolved _ m))) (fun _ => rfl)
      fun hholds => (h.ops j other hother).lock hholds
  · exact fun process => readState_append (h.states process) fun j => hno (hresolved process j)
  · exact filter_applied_le h fun j change => hno (happlied j change)
  · intro j change hmem
    obtain ⟨found, hfound, hmakes⟩ := h.applied j change (hold hmem (happlied j change))
    exact ⟨found, hfound, hmakes.append⟩
  · intro process j hmem
    obtain ⟨found, change, hfound, hprocess, hchange⟩ :=
      h.resolved process j (hold hmem (hresolved process j))
    exact ⟨found, change, hfound, hprocess, mem_append_left _ hchange⟩
  · exact fun process j hmem => h.rejected process j (hold hmem (hrejected process j))

theorem reader_sound_append (h : s.Inv file) {reader : Reader} {b : Nat}
    (hreader : reader.Sound s b) {event : StorageEvent}
    (hstarted : event ≠ .readStarted reader.process b) : reader.Sound (s.log [event]) b := by
  intro reload hjoined
  obtain ⟨found, hfound, hkind, hshows⟩ := hreader reload hjoined
  refine ⟨found, hfound, hkind, fun data hdata before rest m heq hm => ?_⟩
  obtain ⟨rest', _, hold⟩ := split_append heq fun hmem =>
    hstarted (List.mem_singleton.mp hmem).symm
  show ∃ change, _ ∈ (s.events ++ [event]).take found.mark
  rw [take_append (h.ops reload found hfound).mark_le]
  exact hshows data hdata before rest' m hold hm

/-- A reader begins, and may wait for a reload that shows what the process has done. -/
theorem Inv.startReader (h : s.Inv file) (process : Nat) (hasSignal : Bool) (joined : Option Nat)
    (hjoined : ∀ reload, joined = some reload → ∃ op, s.ops[reload]? = some op ∧
      op.kind = .reload ∧ ∀ data, op.shown = some data →
        Seen s.events (s.events.take op.mark) process) :
    (({ s with readers := s.readers ++ [{ process, hasSignal, joined }] } : Storage).log
      [.readStarted process s.readers.length]).Inv file := by
  have hfuture (process' b : Nat) (hmem : .readStarted process' b ∈ s.events) :
      b < s.readers.length := by
    obtain ⟨reader, hreader, _⟩ := h.started process' b hmem
    exact (List.getElem?_eq_some_iff.mp hreader).1
  refine h.read (fun _ _ heq => by cases heq) (fun _ _ heq => by cases heq)
    (fun _ _ heq => by cases heq) ?_ ?_ ?_
  · intro b reader hreader
    rcases Nat.lt_trichotomy b s.readers.length with hlt | rfl | hgt
    · rw [getElem?_append_left hlt] at hreader
      refine reader_sound_append h (h.readers b reader hreader) fun heq => ?_
      injection heq with _ hsame
      omega
    · rw [getElem?_append_right (Nat.le_refl _), Nat.sub_self] at hreader
      cases hreader
      intro reload heq
      obtain ⟨op, hop, hkind, hseen⟩ := hjoined reload heq
      refine ⟨op, hop, hkind, fun data hdata before rest m heq hm => ?_⟩
      have hmem : .resolved process m ∈ s.events := by
        have hmem' : .resolved process m ∈ s.events ++ [.readStarted process s.readers.length] := by
          rw [show s.events ++ [.readStarted process s.readers.length]
            = before ++ .readStarted process s.readers.length :: rest from heq]
          exact mem_append_left _ hm
        refine (List.mem_append.mp hmem').resolve_right fun hlast => ?_
        cases List.mem_singleton.mp hlast
      obtain ⟨change, hchange⟩ := hseen data hdata m hmem
      refine ⟨change, ?_⟩
      show _ ∈ (s.events ++ [_]).take op.mark
      rw [take_append (h.ops reload op hop).mark_le]
      exact hchange
    · rw [List.getElem?_eq_none_iff.mpr] at hreader
      · cases hreader
      · rw [length_append, length_singleton]
        exact hgt
  · intro process' b hmem
    rcases List.mem_append.mp hmem with hmem | hmem
    · obtain ⟨reader, hreader, hprocess⟩ := h.started process' b hmem
      refine ⟨reader, ?_, hprocess⟩
      rw [getElem?_append_left (List.getElem?_eq_some_iff.mp hreader).1, hreader]
    · cases List.mem_singleton.mp hmem
      simp
  · -- nothing has been returned to it yet
    intro before process' b rest m data heq hm hreturned
    by_cases hlast : StorageEvent.readStarted process' b ∈ [.readStarted process s.readers.length]
    · rcases eq_nil_or_concat rest with rfl | ⟨rest', last, rfl⟩
      · cases hreturned
      · rw [concat_eq_append, ← cons_append, ← append_assoc] at heq
        obtain ⟨hold, _⟩ := append_inj' heq rfl
        have hmem : .readStarted process' b ∈ s.events := by
          rw [hold]
          simp
        have hlt := hfuture process' b hmem
        injection List.mem_singleton.mp hlast with _ hb
        omega
    · obtain ⟨rest', rfl, hold⟩ := split_append heq hlast
      have hreturned' := (List.mem_append.mp hreturned).resolve_right fun hmem => by
        cases List.mem_singleton.mp hmem
      obtain ⟨front, change, hfront, hrest⟩ := h.fresh before process' b rest' m data hold hm
        hreturned'
      exact ⟨front, change, hfront.trans (prefix_append _ _), hrest⟩

theorem Inv.logReturned (h : s.Inv file) (id : Nat) (data : Credentials)
    (hfresh : ∀ before process rest m, s.events = before ++ .readStarted process id :: rest →
      .resolved process m ∈ before → ∃ front change, front <+: s.events ∧
        View file front data ∧ .applied m change ∈ front) :
    (s.log [.readReturned id data]).Inv file := by
  refine @Inv.read file s h _ s.readers (fun _ _ heq => by cases heq) (fun _ _ heq => by cases heq)
    (fun _ _ heq => by cases heq) ?_ ?_ ?_
  · intro b reader hreader
    exact reader_sound_append h (h.readers b reader hreader) nofun
  · intro process b hmem
    refine h.started process b ((List.mem_append.mp hmem).resolve_right fun hmem => ?_)
    cases List.mem_singleton.mp hmem
  · refine h.fresh.append (fun _ _ hmem => by cases List.mem_singleton.mp hmem) ?_
    intro before process b rest m data' hmem heq hm
    cases List.mem_singleton.mp hmem
    exact hfresh before process rest m heq hm

/-- The read state is as new as what its process has done. -/
theorem Inv.state_fresh (h : s.Inv file) {process : Nat} {reader : Reader}
    (hreader : s.readers[id]? = some reader) (hprocess : reader.process = process) :
    ∀ before process' rest m, s.events = before ++ .readStarted process' id :: rest →
      .resolved process' m ∈ before → ∃ front change, front <+: s.events ∧
        View file front (s.states process).data ∧ .applied m change ∈ front := by
  intro before process' rest m heq hm
  have hmem : .readStarted process' id ∈ s.events := by
    rw [heq]
    simp
  obtain ⟨reader', hreader', hprocess'⟩ := h.started process' id hmem
  cases hreader.symm.trans hreader'
  obtain rfl : process = process' := hprocess.symm.trans hprocess'
  have hresolved : .resolved process m ∈ s.events := by
    rw [heq]
    exact mem_append_left _ hm
  rcases h.states process with hnone | ⟨front, hfront, hview, hseen⟩
  · exact absurd hresolved (hnone m)
  · obtain ⟨change, hchange⟩ := hseen m hresolved
    exact ⟨front, change, hfront, hview, hchange⟩

theorem Inv.startRead (h : s.Inv file) (process : Nat) (hasSignal : Bool) :
    (s.startRead process hasSignal).Inv file := by
  unfold Storage.startRead
  dsimp only
  split
  · -- the read state still is that of the file
    have hbegun := h.startReader process hasSignal none fun _ hnone => by cases hnone
    refine hbegun.logReturned s.readers.length _ ?_
    have hreader : (s.readers ++ [{ process, hasSignal, joined := none }])[s.readers.length]?
        = some { process, hasSignal, joined := none } := by
      simp
    exact hbegun.state_fresh hreader rfl
  · split
    · rename_i reload hreload
      obtain ⟨op, hop, hkind, hprocess, hopen⟩ := h.reloads process reload hreload
      have hbegun := h.startReader process hasSignal (some reload) fun reload' heq => by
        cases heq
        refine ⟨op, hop, hkind, fun data hdata => ?_⟩
        have hin := (h.ops reload op hop).inPhase
        unfold Op.InPhase at hin
        rw [Op.shown, hkind] at hdata
        cases hphase : op.phase with
        | ready change data' revision =>
          rw [hphase] at hin
          exact hprocess ▸ (hin.2.2.2 hkind).2
        | releasing result =>
          rw [hphase] at hin hdata
          cases result with
          | none => cases hdata
          | some pair => exact hprocess ▸ hin.2.1
        | released result =>
          rw [hphase] at hin hdata
          cases result with
          | none => cases hdata
          | some pair => exact hprocess ▸ hin.2.1
        | finished result =>
          rw [hphase] at hopen
          cases hopen
        | _ =>
          rw [hphase] at hdata
          cases hdata
      have hop' : ((s.log [.readStarted process s.readers.length]).addReader
          { process, hasSignal, joined := some reload }).ops[reload]? = some op := hop
      rw [hop']
      exact hbegun.setFlags hop op.aborted (op.readers + 1)
    · -- a new reload
      have hop : (s.newOp process .reload 1).ops[s.ops.length]?
          = some { process, kind := .reload, readers := 1 } := by
        rw [Storage.newOp, getElem?_append_right (Nat.le_refl _), Nat.sub_self]
        rfl
      have hregistered := (h.newOp process .reload 1).setReload process (some s.ops.length)
        fun reload heq => by
          cases heq
          exact ⟨_, hop, rfl, rfl, rfl⟩
      refine hregistered.startReader process hasSignal (some s.ops.length) fun reload heq => ?_
      cases heq
      exact ⟨_, hop, rfl, fun _ hdata => by cases hdata⟩

theorem Inv.dropReader (h : s.Inv file) {reader : Reader} (hreader : s.readers[id]? = some reader) :
    ({ s with readers := s.readers.set id { reader with joined := none } } : Storage).Inv
      file := by
  have hcases (b : Nat) (other : Reader)
      (hother : (s.readers.set id { reader with joined := none })[b]? = some other) :
      other.joined = none ∨ s.readers[b]? = some other := by
    by_cases heq : b = id
    · subst heq
      rw [getElem?_set_self (List.getElem?_eq_some_iff.mp hreader).1] at hother
      cases hother
      exact Or.inl rfl
    · rw [getElem?_set_ne (Ne.symm heq)] at hother
      exact Or.inr hother
  refine ⟨h.content, ?_, h.order, h.states, h.reloads, ?_, ?_, h.once, h.applied, h.resolved,
    h.rejected, h.fresh⟩
  · intro j other hother
    have hsound := h.ops j other hother
    exact ⟨hsound.mark_le, hsound.lock, hsound.inPhase⟩
  · intro b other hother reload hjoined
    rcases hcases b other hother with hnone | hwas
    · rw [hnone] at hjoined
      cases hjoined
    · exact h.readers b other hwas reload hjoined
  · intro process b hmem
    obtain ⟨other, hother, hprocess⟩ := h.started process b hmem
    by_cases heq : b = id
    · subst heq
      cases hreader.symm.trans hother
      exact ⟨_, getElem?_set_self (List.getElem?_eq_some_iff.mp hreader).1, hprocess⟩
    · exact ⟨other, by rw [getElem?_set_ne (Ne.symm heq), hother], hprocess⟩

theorem Inv.leave (h : s.Inv file) {reader : Reader} {reload : Nat}
    (hreader : s.readers[id]? = some reader) (hop : s.ops[reload]? = some op) :
    (s.leave id reader reload op).Inv file := by
  have hdropped := h.dropReader hreader
  unfold Storage.leave
  dsimp only
  split
  · exact (hdropped.setFlags hop true (op.readers - 1)).clearReload _ _
  · exact hdropped.setFlags hop op.aborted (op.readers - 1)

/-! ## Runs -/

/-- `{}` is written over a missing file only, and the promises of a process
settle in the order in which their calls had the lock. -/
def undisturbed (s : Storage) : StorageStep → Bool
  | .create _ _ =>
    match s.file with
    | .missing => true
    | _ => false
  | .settle id =>
    match s.ops[id]? with
    | some op => s.ops.all fun other =>
      other.process ≠ op.process || !other.phase.isReleased || op.mark ≤ other.mark
    | none => true
  | _ => true

theorem Inv.settleEarly (h : s.Inv file) (hop : s.ops[id]? = some op)
    (hphase : op.phase = .starting ∨ op.phase = .waiting) : (s.settleOp id op none).Inv file := by
  have hsettles : Settles file s id op none := by
    rcases hphase with hphase | hphase
    all_goals
      refine ⟨nofun, by rw [hphase]; rfl, by rw [hphase]; rfl, h.at_phase hop hphase, ?_⟩
      rw [Op.shown, hphase]
      cases op.kind <;> rfl
  unfold settleOp
  split
  · exact h.settleReload hop hsettles
  · rename_i hnone _
    cases hnone
  · rename_i hkind
    exact h.settleRejected hop hkind hsettles

theorem Inv.advance (h : s.Inv file) (hop : s.ops[id]? = some op)
    (hcreate : ∀ id' revision, label = .create id' revision → s.file = .missing)
    (hinOrder : ∀ id', label = .settle id' → ∀ (j : Nat) (other : Op), s.ops[j]? = some other →
      other.process = op.process → other.phase.isReleased = true → op.mark ≤ other.mark)
    (hs : s.advance id op label = some s') : s'.Inv file := by
  have hin {phase : OpPhase} (hphase : op.phase = phase) := h.at_phase hop hphase
  cases label with
  | abort id' =>
    rw [Storage.advance] at hs
    split at hs
    · cases hs
    · cases hs
      exact h.setFlags hop true op.readers
  | checkExists id' =>
    rw [Storage.advance] at hs
    split at hs
    · rename_i hphase
      have hset (phase : OpPhase) (hnext : phase = .creating ∨ phase = .waiting) :
          (s.setOp id { op with phase }).Inv file := by
        rcases hnext with rfl | rfl
        all_goals
          refine h.setPhase hop (by rw [hphase]; rfl) (hin hphase :) (by rw [hphase]; rfl) rfl
            nofun rfl fun hkind data hdata => ?_
          simp [Op.shown, hkind] at hdata
      split at hs
      · cases hs
        exact h.settleEarly hop (Or.inl hphase)
      · split at hs
        · cases hs
          exact hset _ (Or.inl rfl)
        · cases hs
          exact hset _ (Or.inr rfl)
    · cases hs
  | create id' revision =>
    rw [Storage.advance] at hs
    split at hs
    · rename_i hphase
      cases hs
      exact h.create hop hphase (hcreate id' revision rfl) revision
    · cases hs
  | acquire id' =>
    rw [Storage.advance] at hs
    split at hs
    · rename_i hphase
      split at hs
      · cases hs
        exact h.settleEarly hop (Or.inr hphase)
      · split at hs
        · rename_i hfree
          cases hs
          exact h.acquire hop hphase hfree
        · cases hs
    · cases hs
  | lockTimeout id' =>
    rw [Storage.advance] at hs
    split at hs
    · rename_i hphase
      cases hs
      exact h.settleEarly hop (Or.inr hphase)
    · cases hs
  | enter id' =>
    rw [Storage.advance] at hs
    split at hs
    · rename_i hphase
      cases hs
      exact h.enter hop hphase
    · cases hs
  | fnReturns id' next =>
    rw [Storage.advance] at hs
    split at hs
    · rename_i current provider hphase hkind
      cases next with
      | none =>
        cases hs
        exact h.fnReturns hop hphase hkind none
      | some credential =>
        cases hs
        exact h.fnReturns hop hphase hkind (some credential)
    · cases hs
  | fnFails id' =>
    rw [Storage.advance] at hs
    split at hs
    · rename_i current hphase
      cases hs
      refine h.setPhase hop (by rw [hphase]; rfl) (hin hphase).2 (by rw [hphase]; rfl) rfl
        (fun _ => by rw [hphase]; rfl) rfl fun hkind data hdata => ?_
      simp [Op.shown, hkind] at hdata
    · cases hs
  | commit id' revision =>
    rw [Storage.advance] at hs
    split at hs
    · rename_i change data dataRevision hphase
      cases hs
      cases haborted : op.aborted with
      | true =>
        unfold commitOp
        rw [if_pos haborted]
        refine h.setPhase hop (by rw [hphase]; rfl) (hin hphase).1 (by rw [hphase]; rfl) rfl
          (fun _ => by rw [hphase]; rfl) rfl fun hkind data hdata => ?_
        simp [Op.shown, hkind] at hdata
      | false =>
        by_cases hkind : op.kind = .reload
        · have hcommit : s.commitOp id revision op change data dataRevision =
              s.setOp id { op with phase := .releasing (some (data, dataRevision)) } := by
            unfold commitOp
            rw [if_neg (Bool.eq_false_iff.mp haborted)]
            split
            · rfl
            · contradiction
          rw [hcommit]
          obtain ⟨hview, hseen⟩ := (hin hphase).2.2.2 hkind
          have hends : ({ op with phase := .releasing (some (data, dataRevision)) } : Op).InPhase
              file s id := ⟨hview, hseen, fun hne => absurd hkind hne⟩
          refine h.setPhase hop (by rw [hphase]; rfl) hends (by rw [hphase]; rfl) rfl
            (fun _ => by rw [hphase]; rfl) rfl fun _ data' hdata => ?_
          rw [Op.shown, hkind, hphase]
          simp only [hkind] at hdata
          exact hdata
        · exact h.commit hop hphase hkind revision haborted
    · cases hs
  | release id' =>
    rw [Storage.advance] at hs
    split at hs
    · rename_i result hphase
      cases hs
      exact h.release hop hphase
    · cases hs
  | settle id' =>
    rw [Storage.advance] at hs
    split at hs
    · rename_i result hphase
      cases hs
      refine h.settle hop ⟨(fun _ => by rw [hphase]; rfl), by rw [hphase]; rfl,
        by rw [hphase]; rfl, hin hphase, ?_⟩ (hinOrder id' rfl)
      rw [Op.shown, hphase]
      cases result <;> cases op.kind <;> rfl
    · cases hs
  | _ => cases hs

theorem Inv.advanceReader (h : s.Inv file) {reader : Reader} {reload : Nat}
    (hreader : s.readers[id]? = some reader) (hjoined : reader.joined = some reload)
    (hop : s.ops[reload]? = some op)
    (hs : s.advanceReader id reader reload op label = some s') : s'.Inv file := by
  have hleft := @Inv.leave file s id op h reader reload hreader hop
  have hevents : (s.leave id reader reload op).events = s.events := by
    unfold Storage.leave Storage.clearReload
    dsimp only
    split
    · split <;> rfl
    · rfl
  cases label with
  | readAbort id' =>
    rw [Storage.advanceReader] at hs
    split at hs
    · cases hs
      exact hleft
    · cases hs
  | readFinish id' =>
    rw [Storage.advanceReader] at hs
    split at hs
    · rename_i data hphase
      cases hs
      refine hleft.logReturned id data fun before process rest m heq hm => ?_
      rw [hevents] at heq ⊢
      obtain ⟨found, hfound, _, hshows⟩ := h.readers id reader hreader reload hjoined
      cases hop.symm.trans hfound
      have hmem : .readStarted process id ∈ s.events := by
        rw [heq]
        simp
      obtain ⟨reader', hreader', hprocess⟩ := h.started process id hmem
      cases hreader.symm.trans hreader'
      have hshown : op.shown = some data := by
        rw [Op.shown, hphase]
        cases op.kind <;> rfl
      subst hprocess
      obtain ⟨change, hchange⟩ := hshows data hshown before rest m heq hm
      exact ⟨_, change, take_prefix _ _, h.at_phase hop hphase, hchange⟩
    · split at hs
      · cases hs
        exact hleft
      · cases hs
        refine hleft.logReturned id _ ?_
        have hreader' : (s.leave id reader reload op).readers[id]?
            = some { reader with joined := none } := by
          have hreaders : (s.leave id reader reload op).readers
              = s.readers.set id { reader with joined := none } := by
            unfold Storage.leave Storage.clearReload
            dsimp only
            split
            · split <;> rfl
            · rfl
          rw [hreaders, getElem?_set_self (List.getElem?_eq_some_iff.mp hreader).1]
        exact fun before process rest m heq hm =>
          hleft.state_fresh hreader' rfl before process rest m heq hm
    · cases hs
  | _ => cases hs

theorem Inv.step (h : s.Inv file) (hok : s.undisturbed label = true)
    (hs : s.step label = some s') : s'.Inv file := by
  have hadvance {id : Nat} (hcreate : ∀ id' revision, label = .create id' revision →
        s.file = .missing)
      (hinOrder : ∀ op, s.ops[id]? = some op → ∀ id', label = .settle id' →
        ∀ (j : Nat) (other : Op), s.ops[j]? = some other → other.process = op.process →
        other.phase.isReleased = true → op.mark ≤ other.mark)
      (hs : ((s.ops[id]?).bind fun op => s.advance id op label) = some s') : s'.Inv file := by
    obtain ⟨op, hop, hadvanced⟩ := Option.bind_eq_some_iff.mp hs
    exact h.advance hop hcreate (hinOrder op hop) hadvanced
  have hread {id : Nat} (hs : ((s.readers[id]?).bind fun reader => reader.joined.bind fun reload =>
      (s.ops[reload]?).bind fun op => s.advanceReader id reader reload op label) = some s') :
      s'.Inv file := by
    obtain ⟨reader, hreader, hs⟩ := Option.bind_eq_some_iff.mp hs
    obtain ⟨reload, hjoined, hs⟩ := Option.bind_eq_some_iff.mp hs
    obtain ⟨op, hop, hs⟩ := Option.bind_eq_some_iff.mp hs
    exact h.advanceReader hreader hjoined hop hs
  cases label with
  | modify process provider =>
    cases hs
    exact h.newOp process (.modify provider) 0
  | delete process provider =>
    cases hs
    exact h.newOp process (.delete provider) 0
  | reload process =>
    cases hs
    exact h.newOp process .reload 0
  | read process hasSignal =>
    cases hs
    exact h.startRead process hasSignal
  | readAbort id => exact hread hs
  | readFinish id => exact hread hs
  | create id revision =>
    refine hadvance (fun _ _ _ => ?_) (fun _ _ _ heq => by cases heq) hs
    rw [undisturbed] at hok
    split at hok
    · assumption
    · cases hok
  | settle id =>
    refine hadvance (fun _ _ heq => by cases heq) ?_ hs
    intro op hop id' _ j other hother hprocess hreleased
    rw [undisturbed, hop] at hok
    have hall := List.all_eq_true.mp hok other (mem_of_getElem? hother)
    simpa [hprocess, hreleased] using hall
  | _ =>
    exact hadvance (fun _ _ heq => by cases heq) (fun _ _ _ heq => by cases heq) hs

theorem inv_start (file : AuthFile) (revision : Nat) : (start file revision).Inv file where
  content := by
    show file.parse = file.parse.map id
    rw [Option.map_id]
    rfl
  ops := fun _ _ hop => by cases hop
  order := fun _ _ _ _ ha => by cases ha
  states := fun _ => Or.inl fun _ => not_mem_nil
  reloads := fun _ _ hreload => by cases hreload
  readers := fun _ _ hreader => by cases hreader
  started := fun _ _ hmem => absurd hmem not_mem_nil
  once := fun _ => Nat.zero_le 1
  applied := fun _ _ hmem => absurd hmem not_mem_nil
  resolved := fun _ _ hmem => absurd hmem not_mem_nil
  rejected := fun _ _ hmem => absurd hmem not_mem_nil
  fresh := by
    intro before _ _ _ _ _ heq
    cases before <;> cases heq

/-- The states that the processes come to by steps that meet a condition. -/
abbrev Reaches (file : AuthFile) (revision : Nat) (ok : Storage → StorageStep → Prop) :
    Storage → Prop :=
  Run (· = start file revision) step ok

end Storage

def Change.provider : Change → String
  | .put provider _ => provider
  | .remove provider => provider

theorem Change.apply_other (change : Change) (data : Credentials) {provider : String}
    (h : provider ≠ change.provider) : (change.apply data).get? provider = data.get? provider := by
  cases change with
  | put provider' credential =>
    have h' : provider' ≠ provider := fun heq => h heq.symm
    rw [Change.apply, get?_set, if_neg h']
  | remove provider' =>
    have h' : provider' ≠ provider := fun heq => h heq.symm
    rw [Change.apply, get?_delete, if_neg h']

/-- The file is the work of the calls one after the other, and reads are fresh. -/
structure Serial (file : AuthFile) (s : Storage) : Prop where
  content : s.file.parse = file.parse.map fun data => replay data s.events
  /-- No call is applied twice. -/
  once : ∀ id, (s.events.filter (isApplied id)).length ≤ 1
  /-- A call changes the entry that it is about, to what its function returned. -/
  makes : ∀ id change, .applied id change ∈ s.events →
    ∃ op, s.ops[id]? = some op ∧ op.kind.Makes s.events id change
  /-- The other entries stay. -/
  others : ∀ (change : Change) data provider, provider ≠ change.provider →
    (change.apply data).get? provider = data.get? provider
  resolved : ∀ process id, .resolved process id ∈ s.events →
    ∃ op change, s.ops[id]? = some op ∧ op.process = process ∧ .applied id change ∈ s.events
  /-- A call that rejects has changed nothing. -/
  rejected : ∀ process id, .rejected process id ∈ s.events → Untouched s.events id
  fresh : ReadsFresh file s.events

/-- **Calls of all processes are serial, and reads are fresh**, in the runs
whose steps are undisturbed. -/
theorem storage_serial (file : AuthFile) (revision : Nat) (s : Storage)
    (h : Storage.Reaches file revision (fun s label => s.undisturbed label = true) s) :
    Serial file s := by
  have hinv : s.Inv file := by
    refine h.invariant ?_ fun s label s' hinv hok hs => hinv.step hok hs
    rintro s rfl
    exact Storage.inv_start file revision
  refine ⟨hinv.content, hinv.once, hinv.applied,
    fun change data _ hne => change.apply_other data hne, hinv.resolved, ?_, hinv.fresh⟩
  intro process id hmem
  obtain ⟨op, hop, hphase⟩ := hinv.rejected process id hmem
  have hin := (hinv.ops id op hop).inPhase
  unfold Op.InPhase at hin
  rw [hphase] at hin
  exact hin

def sampleKey : Credential := .apiKey (some "k") []

/-- Two processes find that the file is missing; the second one has written its
credential when the first creates the file. -/
def sampleCreations : List StorageStep :=
  [.modify 0 "openai", .checkExists 0, .modify 1 "anthropic", .checkExists 1, .create 1 1,
    .acquire 1, .enter 1, .fnReturns 1 (some sampleKey), .commit 1 2, .create 0 3]

def sampleWrite : List StorageStep :=
  [.modify 0 "openai", .checkExists 0, .create 0 1, .acquire 0, .enter 0,
    .fnReturns 0 (some sampleKey), .commit 0 2, .release 0, .settle 0, .read 0 false]

theorem storage_serial_sample :
    Serial .missing (Run.afterAll Storage.step (.start .missing 0) sampleWrite) :=
  storage_serial .missing 0 _ (Run.of_check (.init rfl) (by decide))

theorem storage_not_serial :
    ¬ ∀ (file : AuthFile) (revision : Nat) (s : Storage),
      Storage.Reaches file revision (fun _ _ => True) s → Serial file s := by
  intro h
  have hserial := h .missing 0 (Run.afterAll Storage.step (.start .missing 0) sampleCreations)
    (Run.of_check (.init rfl) (by decide))
  have hlost := congrArg (fun data : Option Credentials =>
    data.bind fun data => data.get? "anthropic") hserial.content
  exact absurd hlost (by decide)

end ReflectivePi.Auth
