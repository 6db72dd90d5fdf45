import ReflectivePi.Replacement.Runtime

/-!
# Replacement — Teardown

The condition on steps, and what it makes of the sessions: one call at a time is
between telling the current session to shut down and the session it has made, so
each session is told once and then disposed, and one is left.
-/

namespace ReflectivePi.Replacement

open List Session AgentSessionRuntime

variable {F : LineFormat} {migrate : List FileEntry → List FileEntry × Bool}
  {s s' : AgentSessionRuntime} {c n : Nat} {call : Call} {place : Place} {target : Target}

/-! ## The condition -/

def Place.isShuttingDown : Place → Bool
  | .shuttingDown _ => true
  | _ => false

def Place.isCreating : Place → Bool
  | .creating _ => true
  | _ => false

/-- The manager of a call's target. -/
def Place.target? : Place → Option Nat
  | .aborting target => some target.manager
  | .shuttingDown target => some target.manager
  | .creating n => some n
  | _ => none

namespace AgentSessionRuntime

def telling (s : AgentSessionRuntime) : Nat := s.calls.countP fun call => call.place.isShuttingDown

def making (s : AgentSessionRuntime) : Nat := s.calls.countP fun call => call.place.isCreating

/-- The manager of the current session, until it is disposed. -/
def liveManager (s : AgentSessionRuntime) : List Nat :=
  match s.sessions[s.session]? with
  | some ⟨n, false⟩ => [n]
  | _ => []

/-- The managers of the current session and of the targets. -/
def watched (s : AgentSessionRuntime) : List Nat :=
  s.liveManager ++ s.calls.filterMap fun call => call.place.target?

def fileOf (s : AgentSessionRuntime) (n : Nat) : Option String :=
  s.managers[n]?.bind LiveManager.sessionFile

/-- Another manager that is watched has the same file. -/
def sharesFile (s : AgentSessionRuntime) (n : Nat) : Bool :=
  s.watched.any fun other => other ≠ n && s.fileOf other = s.fileOf n

end AgentSessionRuntime

/-- What a step must not do. -/
def meets (migrate : List FileEntry → List FileEntry × Bool) (s : AgentSessionRuntime) :
    Label → Bool
  | .answer c false _ _ _ =>
    match s.calls[c]?.map Call.request with
    | some (.importFromJsonl resolvedPath destinationPath) =>
      resolvedPath = destinationPath || s.watched.all fun n => s.fileOf n ≠ some destinationPath
    | _ => true
  | .aborted _ => s.telling + s.making = 0
  | .shutDown c _ =>
    match s.calls[c]?.map Call.place with
    | some (.shuttingDown (.inPlace n (some leafId) _)) =>
      s.managers[n]?.any fun m => m.byId.has leafId
    | _ => true
  | .throws c => !(s.calls[c]?.any fun call => call.place.isShuttingDown)
  | .operate n env op =>
    match s.managers[n]? with
    | some m => (m.perform migrate env op).writes.isEmpty || (m.newName env op).isSome ||
        !s.sharesFile n
    | none => true
  | _ => true

/-- The call may have told or disposed a session. -/
def Place.acts : Place → Bool
  | .shuttingDown _ | .creating _ | .finishing | .ended .failed | .ended .replaced => true
  | _ => false

theorem countP_modify {α : Type} (p : α → Bool) (f : α → α) {l : List α} {i : Nat} {x : α}
    (hx : l[i]? = some x) :
    (l.modify i f).countP p + (if p x then 1 else 0) = l.countP p + if p (f x) then 1 else 0 := by
  induction l generalizing i with
  | nil => cases hx
  | cons y l ih =>
    cases i with
    | zero =>
      obtain rfl := Option.some.inj hx
      simp only [modify_zero_cons, countP_cons]
      omega
    | succ i =>
      have hrest := ih hx
      simp only [modify_succ_cons, countP_cons]
      omega

theorem telling_setPlace (place : Place) (hc : s.calls[c]? = some call) :
    (s.setPlace c place).telling + (if call.place.isShuttingDown then 1 else 0) =
      s.telling + if place.isShuttingDown then 1 else 0 :=
  countP_modify _ _ hc

theorem making_setPlace (place : Place) (hc : s.calls[c]? = some call) :
    (s.setPlace c place).making + (if call.place.isCreating then 1 else 0) =
      s.making + if place.isCreating then 1 else 0 :=
  countP_modify _ _ hc

/-! ## What sessions are told -/

namespace AgentSessionRuntime

/-- What a session is told, in order. -/
def told (s : AgentSessionRuntime) (i : Nat) : List Event :=
  (s.log.map Prod.snd).filter fun event => event = .shutdown i || event = .dispose i

end AgentSessionRuntime

/-- One session is not disposed, but while another is made; the others were told to
shut down, once, and disposed. -/
structure Told (s : AgentSessionRuntime) : Prop where
  current : s.session < s.sessions.length
  alone : s.telling + s.making ≤ 1
  live : ∀ i session, s.sessions[i]? = some session →
    (session.disposed = false ↔ i = s.session ∧ s.making = 0)
  disposed : ∀ i session, s.sessions[i]? = some session → session.disposed = true →
    s.told i = [.shutdown i, .dispose i]
  telling : s.making = 0 → s.told s.session = if s.telling = 0 then [] else [.shutdown s.session]
  fresh : ∀ i, s.sessions.length ≤ i → s.told i = []

/-- A cancelled call has done nothing. -/
def Silent (s : AgentSessionRuntime) : Prop :=
  ∀ entry ∈ s.log, ∃ call, s.calls[entry.1]? = some call ∧ call.place.acts = true

theorem Told.congr (h : Told s) (hsession : s'.session = s.session)
    (hsessions : s'.sessions = s.sessions) (hlog : s'.log = s.log)
    (htelling : s'.telling = s.telling) (hmaking : s'.making = s.making) : Told s' := by
  have htold : ∀ i, s'.told i = s.told i := fun i => by rw [told, hlog]; rfl
  refine ⟨?_, ?_, ?_, ?_, ?_, ?_⟩
  · rw [hsession, hsessions]
    exact h.current
  · rw [htelling, hmaking]
    exact h.alone
  · rw [hsession, hsessions, hmaking]
    exact h.live
  · rw [hsessions]
    exact fun i session hi hdisposed => (htold i).trans (h.disposed i session hi hdisposed)
  · rw [hmaking, hsession, htelling, htold]
    exact h.telling
  · rw [hsessions]
    exact fun i hi => (htold i).trans (h.fresh i hi)

theorem Told.setPlace (h : Told s) (hc : s.calls[c]? = some call)
    (hold : call.place.isShuttingDown = false ∧ call.place.isCreating = false)
    (hnew : place.isShuttingDown = false ∧ place.isCreating = false) :
    Told (s.setPlace c place) := by
  have htelling := telling_setPlace place hc
  have hmaking := making_setPlace place hc
  rw [hold.1, hnew.1] at htelling
  rw [hold.2, hnew.2] at hmaking
  exact h.congr rfl rfl rfl (by simpa using htelling) (by simpa using hmaking)

theorem Silent.congr (h : Silent s) (hcalls : s'.calls = s.calls) (hlog : s'.log = s.log) :
    Silent s' := by
  rw [Silent, hcalls, hlog]
  exact h

theorem Silent.setPlace (h : Silent s) (hc : s.calls[c]? = some call)
    (hacts : call.place.acts = true → place.acts = true) : Silent (s.setPlace c place) := by
  intro entry hentry
  obtain ⟨other, hother, hdone⟩ := h entry hentry
  by_cases heq : c = entry.1
  · subst heq
    rw [hc] at hother
    obtain rfl := Option.some.inj hother
    refine ⟨{ call with place }, ?_, hacts hdone⟩
    refine (getElem?_modify_eq _ _ _).trans ?_
    rw [hc]
    rfl
  · exact ⟨other, (getElem?_modify_ne _ _ heq).trans hother, hdone⟩

theorem Silent.logged (h : Silent s) (hc : s.calls[c]? = some call) (hacts : place.acts = true)
    (hcalls : s'.calls = (s.setPlace c place).calls) {event : Event}
    (hlog : s'.log = s.log ++ [(c, event)]) : Silent s' := by
  have hplaced := h.setPlace hc fun _ => hacts
  intro entry hentry
  rw [hlog] at hentry
  rw [hcalls]
  rcases List.mem_append.mp hentry with hold | hnew
  · exact hplaced entry hold
  · obtain rfl := List.mem_singleton.mp hnew
    refine ⟨{ call with place }, ?_, hacts⟩
    refine (getElem?_modify_eq _ _ _).trans ?_
    rw [hc]
    rfl

/-! ## The teardown -/

theorem told_concat {event : Event} (hlog : s'.log = s.log ++ [(c, event)]) (i : Nat) :
    s'.told i = s.told i ++ if event = .shutdown i ∨ event = .dispose i then [event] else [] := by
  rw [told, hlog]
  simp only [map_append, List.filter_append, map_cons, map_nil, told]
  congr 1
  by_cases hevent : event = .shutdown i ∨ event = .dispose i
  · rw [if_pos hevent]
    simpa using hevent
  · rw [if_neg hevent]
    simpa using hevent

/-- **The current session is told to shut down**, by one call at a time. -/
theorem Told.aborted (h : Told s) (hc : s.calls[c]? = some call)
    (hplace : call.place = .aborting target) (hok : s.telling + s.making = 0) :
    Told ({ s with log := s.log ++ [(c, Event.shutdown s.session)] }.setPlace c
      (.shuttingDown target)) := by
  have htelling := telling_setPlace (.shuttingDown target) hc
  have hmaking := making_setPlace (.shuttingDown target) hc
  rw [hplace] at htelling hmaking
  have htelling' : (s.setPlace c (.shuttingDown target)).telling = 1 := by
    simp only [Place.isShuttingDown] at htelling
    simp at htelling
    omega
  have hmaking' : (s.setPlace c (.shuttingDown target)).making = 0 := by
    simp only [Place.isCreating] at hmaking
    simp at hmaking
    omega
  generalize hnext : ({ s with log := s.log ++ [(c, Event.shutdown s.session)] }.setPlace c
      (.shuttingDown target)) = next
  have hsession : next.session = s.session := by rw [← hnext]; rfl
  have hsessions : next.sessions = s.sessions := by rw [← hnext]; rfl
  have hlog : next.log = s.log ++ [(c, .shutdown s.session)] := by rw [← hnext]; rfl
  have ht : next.telling = 1 := by rw [← hnext]; exact htelling'
  have hm : next.making = 0 := by rw [← hnext]; exact hmaking'
  have htold := told_concat hlog
  have hquiet : s.telling = 0 ∧ s.making = 0 := by omega
  refine ⟨by rw [hsession, hsessions]; exact h.current, by omega, ?_, ?_, ?_, ?_⟩
  · intro i session hi
    rw [hsessions] at hi
    rw [h.live i session hi, hsession, hm, hquiet.2]
  · intro i session hi hdisposed
    rw [hsessions] at hi
    have hne : s.session ≠ i := by
      rintro rfl
      have hlive := (h.live _ _ hi).mpr ⟨rfl, hquiet.2⟩
      rw [hdisposed] at hlive
      cases hlive
    rw [htold, h.disposed i session hi hdisposed]
    simp [hne]
  · intro _
    rw [hsession, htold, h.telling hquiet.2, ht, hquiet.1]
    simp
  · intro i hi
    rw [hsessions] at hi
    have hcurrent := h.current
    rw [htold, h.fresh i hi]
    simp
    omega

theorem telling_pos (hc : s.calls[c]? = some call) (hplace : call.place.isShuttingDown = true) :
    0 < s.telling :=
  List.countP_pos_iff.mpr ⟨call, mem_of_getElem? hc, hplace⟩

theorem making_pos (hc : s.calls[c]? = some call) (hplace : call.place.isCreating = true) :
    0 < s.making :=
  List.countP_pos_iff.mpr ⟨call, mem_of_getElem? hc, hplace⟩

/-- **The current session is disposed**: it has been told, and none is left. -/
theorem Told.torn (h : Told s) (hc : s.calls[c]? = some call)
    (hplace : call.place = .shuttingDown target) :
    Told ((s.dispose c).setPlace c (.creating n)) := by
  have htelling := telling_setPlace (s := s.dispose c) (.creating n) hc
  have hmaking := making_setPlace (s := s.dispose c) (.creating n) hc
  have hpos := telling_pos hc (by rw [hplace]; rfl)
  have halone := h.alone
  have hone : s.telling = 1 ∧ s.making = 0 := by omega
  rw [hplace] at htelling hmaking
  simp only [Place.isShuttingDown, Place.isCreating] at htelling hmaking
  generalize hnext : (s.dispose c).setPlace c (.creating n) = next at htelling hmaking ⊢
  have hsession : next.session = s.session := by rw [← hnext]; rfl
  have hsessions : next.sessions = s.sessions.modify s.session fun session =>
      { session with disposed := true } := by rw [← hnext]; rfl
  have hlog : next.log = s.log ++ [(c, .dispose s.session)] := by rw [← hnext]; rfl
  have ht : next.telling = 0 := by
    have hsame : (s.dispose c).telling = s.telling := rfl
    simp at htelling
    omega
  have hm : next.making = 1 := by
    have hsame : (s.dispose c).making = s.making := rfl
    simp at hmaking
    omega
  have htold := told_concat hlog
  have hgone : ∀ i session, next.sessions[i]? = some session →
      session.disposed = true ∧ next.told i = [.shutdown i, .dispose i] := by
    intro i session hi
    rw [hsessions] at hi
    by_cases heq : s.session = i
    · subst heq
      rw [getElem?_modify_eq] at hi
      obtain ⟨old, -, rfl⟩ := Option.map_eq_some_iff.mp hi
      refine ⟨rfl, ?_⟩
      rw [htold, h.telling hone.2, hone.1]
      simp
    · rw [getElem?_modify_ne _ _ heq] at hi
      have hdisposed : session.disposed = true := by
        cases hlive : session.disposed with
        | true => rfl
        | false => exact absurd ((h.live i session hi).mp hlive).1.symm heq
      refine ⟨hdisposed, ?_⟩
      rw [htold, h.disposed i session hi hdisposed]
      simp [heq]
  refine ⟨?_, by omega, ?_, fun i session hi _ => (hgone i session hi).2, ?_, ?_⟩
  · rw [hsession, hsessions, length_modify]
    exact h.current
  · intro i session hi
    rw [(hgone i session hi).1, hm]
    simp
  · intro hc
    omega
  · intro i hi
    rw [hsessions, length_modify] at hi
    have hcurrent := h.current
    rw [htold, h.fresh i hi]
    simp
    omega

/-- **The session that was made is the one that is left.** -/
theorem Told.applied (h : Told s) (hc : s.calls[c]? = some call)
    (hplace : call.place = .creating n) : Told (s.apply c n) := by
  have htelling := telling_setPlace (.finishing) hc
  have hmaking := making_setPlace (.finishing) hc
  have hpos := making_pos hc (by rw [hplace]; rfl)
  have halone := h.alone
  have hone : s.making = 1 ∧ s.telling = 0 := by omega
  rw [hplace] at htelling hmaking
  simp only [Place.isShuttingDown, Place.isCreating] at htelling hmaking
  have ht : (s.apply c n).telling = 0 := by
    have hsame : (s.apply c n).telling = (s.setPlace c .finishing).telling := rfl
    simp at htelling
    omega
  have hm : (s.apply c n).making = 0 := by
    have hsame : (s.apply c n).making = (s.setPlace c .finishing).making := rfl
    simp at hmaking
    omega
  have hsession : (s.apply c n).session = s.sessions.length := rfl
  have hsessions : (s.apply c n).sessions = s.sessions ++ [{ manager := n }] := rfl
  have htold : ∀ i, (s.apply c n).told i = s.told i := by
    intro i
    have hlog : (s.apply c n).log = s.log ++ [(c, .create s.sessions.length)] := rfl
    rw [told_concat hlog]
    simp
  refine ⟨?_, by omega, ?_, ?_, ?_, ?_⟩
  · rw [hsession, hsessions]
    simp
  · intro i session hi
    rw [hsessions] at hi
    rw [hsession, hm]
    rcases Nat.lt_trichotomy i s.sessions.length with hlt | rfl | hgt
    · -- the others were disposed before
      rw [getElem?_append_left hlt] at hi
      rw [h.live i session hi, hone.1]
      omega
    · rw [getElem?_concat_length] at hi
      obtain rfl := Option.some.inj hi
      simp
    · rw [getElem?_eq_none (by simp; omega)] at hi
      cases hi
  · intro i session hi hdisposed
    rw [hsessions] at hi
    rw [htold]
    rcases Nat.lt_trichotomy i s.sessions.length with hlt | rfl | hgt
    · rw [getElem?_append_left hlt] at hi
      exact h.disposed i session hi hdisposed
    · rw [getElem?_concat_length] at hi
      obtain rfl := Option.some.inj hi
      cases hdisposed
    · rw [getElem?_eq_none (by simp; omega)] at hi
      cases hi
  · intro _
    rw [ht, hsession, htold, h.fresh _ (Nat.le_refl _)]
    rfl
  · intro i hi
    rw [hsessions, length_append] at hi
    rw [htold]
    exact h.fresh i (by omega)

end ReflectivePi.Replacement
