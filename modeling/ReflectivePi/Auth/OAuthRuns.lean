import Mathlib.Data.List.Induction
import ReflectivePi.Auth.OAuth
import ReflectivePi.Lib.LabelledRun

/-!
# Auth — OAuth runs

Over the runs of any number of processes, a refresh is given the token of the
credential that the last successful one returned, and what a refresh returned
is what the store holds when the lock is released. A caller that is aborted
after its refresh has returned makes the exception: nothing is written then.
-/

namespace ReflectivePi.Auth

open List InsertionMap

/-! ## What the events say -/

/-- The credential that the last refresh for the provider returned. -/
def lastReturned (providerId : String) (events : List AuthEvent) : Option OAuthCredential :=
  events.foldl (fun last event =>
    match event with
    | .refreshReturned _ id _ credential => if id = providerId then some credential else last
    | _ => last) none

/-- The content of the store after the writes. -/
def storedAfter (credentials : Credentials) (events : List AuthEvent) : Credentials :=
  events.foldl (fun credentials event =>
    match event with
    | .wrote _ providerId credential => credentials.set providerId (.oauth credential)
    | _ => credentials) credentials

/-- A refresh is given the token of the credential that was returned last. -/
def GivenLatest (events : List AuthEvent) : Prop :=
  ∀ before after id providerId token credential,
    events = before ++ .refreshStarted id providerId token :: after →
    lastReturned providerId before = some credential → token = credential.refresh

/-- When the lock is released, the store holds what the refresh under it returned. -/
def HeldAtRelease (credentials : Credentials) (events : List AuthEvent) : Prop :=
  ∀ before after id providerId token credential, events = before ++ .released id :: after →
    .refreshReturned id providerId token credential ∈ before →
    (storedAfter credentials before).get? providerId = some (.oauth credential)

section Events

variable {events before after : List AuthEvent} {event event' : AuthEvent}
  {credentials : Credentials} {providerId : String} {credential : OAuthCredential}

theorem split_concat (h : events ++ [event'] = before ++ event :: after) :
    (before = events ∧ event = event' ∧ after = []) ∨
      ∃ after', after = after' ++ [event'] ∧ events = before ++ event :: after' := by
  rcases eq_nil_or_concat after with rfl | ⟨after', last, rfl⟩
  · obtain ⟨hbefore, hevent⟩ := append_inj' h rfl
    cases hevent
    exact Or.inl ⟨hbefore.symm, rfl, rfl⟩
  · right
    rw [concat_eq_append, ← cons_append, ← append_assoc] at h
    obtain ⟨hevents, hlast⟩ := append_inj' h rfl
    cases hlast
    exact ⟨after', concat_eq_append, hevents⟩

theorem storedAfter_concat :
    storedAfter credentials (events ++ [event]) = match event with
        | .wrote _ providerId credential =>
          (storedAfter credentials events).set providerId (.oauth credential)
        | _ => storedAfter credentials events := by
  rw [storedAfter, foldl_append]
  rfl

theorem lastReturned_concat :
    lastReturned providerId (events ++ [event]) = match event with
        | .refreshReturned _ id _ credential =>
          if id = providerId then some credential else lastReturned providerId events
        | _ => lastReturned providerId events := by
  rw [lastReturned, foldl_append]
  rfl

theorem GivenLatest.concat (h : GivenLatest events)
    (hevent : ∀ id providerId token credential, event = .refreshStarted id providerId token →
      lastReturned providerId events = some credential → token = credential.refresh) :
    GivenLatest (events ++ [event]) := by
  intro before after id providerId token credential heq hlast
  rcases split_concat heq with ⟨rfl, hnew, _⟩ | ⟨after', _, hold⟩
  · exact hevent id providerId token credential hnew.symm hlast
  · exact h before after' id providerId token credential hold hlast

theorem HeldAtRelease.concat (h : HeldAtRelease credentials events)
    (hevent : ∀ id providerId token credential, event = .released id →
      .refreshReturned id providerId token credential ∈ events →
      (storedAfter credentials events).get? providerId = some (.oauth credential)) :
    HeldAtRelease credentials (events ++ [event]) := by
  intro before after id providerId token credential heq hmem
  rcases split_concat heq with ⟨rfl, hnew, _⟩ | ⟨after', _, hold⟩
  · exact hevent id providerId token credential hnew.symm hmem
  · exact h before after' id providerId token credential hold hmem

end Events

/-! ## The invariant -/

/-- Where a call is whose refresh has returned the credential. -/
def Phase.PastRefresh (credential : OAuthCredential) (stored : Option Credential) : Phase → Prop
  | .settled next _ => next = some credential
  | .releasing _ => stored = some (.oauth credential)
  | .finished _ => True
  | _ => False

structure AuthCall.Sound (call : AuthCall) (s : AuthState) (id : Nat) : Prop where
  lock : call.phase.holds = true → s.lock = some id
  refreshing : ∀ current, call.phase = .refreshing current →
    s.credentials.get? call.providerId = some (.oauth current) ∧
      .refreshStarted id call.providerId current.refresh ∈ s.events
  settled : ∀ credential result, call.phase = .settled (some credential) result →
    lastReturned call.providerId s.events = some credential

structure AuthState.Inv (credentials : Credentials) (s : AuthState) : Prop where
  contents : s.credentials = storedAfter credentials s.events
  given : GivenLatest s.events
  held : HeldAtRelease credentials s.events
  started : ∀ before after id providerId token credential,
    s.events = before ++ .refreshReturned id providerId token credential :: after →
    .refreshStarted id providerId token ∈ before
  calls : ∀ id call, s.calls id = some call → call.Sound s id
  /-- What was returned last is stored, or about to be written. -/
  kept : ∀ providerId credential, lastReturned providerId s.events = some credential →
    s.credentials.get? providerId = some (.oauth credential) ∨
      ∃ id call result, s.calls id = some call ∧ call.providerId = providerId ∧
        call.phase = .settled (some credential) result
  own : ∀ id providerId token credential,
    .refreshReturned id providerId token credential ∈ s.events →
    ∃ call, s.calls id = some call ∧ call.providerId = providerId ∧
      call.phase.PastRefresh credential (s.credentials.get? providerId)

namespace AuthState

variable {credentials : Credentials} {s : AuthState} {id : Nat} {call call' : AuthCall}

/-- Only one call has the lock. -/
theorem Inv.eq_of_holds (h : s.Inv credentials) {id' : Nat} (hcall : s.calls id = some call)
    (hcall' : s.calls id' = some call') (hholds : call.phase.holds = true)
    (hholds' : call'.phase.holds = true) : id' = id := by
  have hlock := (h.calls id call hcall).lock hholds
  have hlock' := (h.calls id' call' hcall').lock hholds'
  exact Option.some.inj (hlock'.symm.trans hlock)

@[simp] theorem put_self : (s.put id call).calls id = some call := by
  simp only [put, Function.update_self]

theorem put_of_ne {id' : Nat} (h : id' ≠ id) : (s.put id call).calls id' = s.calls id' := by
  simp only [put, Function.update_of_ne h]

theorem put_calls {id' : Nat} {found : AuthCall} (h : (s.put id call).calls id' = some found) :
    (id' = id ∧ found = call) ∨ (id' ≠ id ∧ s.calls id' = some found) := by
  by_cases heq : id' = id
  · subst heq
    rw [put_self] at h
    exact Or.inl ⟨rfl, (Option.some.inj h).symm⟩
  · rw [put_of_ne heq] at h
    exact Or.inr ⟨heq, h⟩

/-- A call goes on: the lock stays, is taken or is given back. -/
theorem Inv.put (h : s.Inv credentials) (hcall : s.calls id = some call)
    (hprovider : call'.providerId = call.providerId) {lock : Option Nat}
    (hothers : ∀ id' other, id' ≠ id → s.calls id' = some other → other.phase.holds = true →
      lock = some id') (hsound : call'.Sound { s with lock } id)
    (hsettled : ∀ credential result, call.phase = .settled (some credential) result →
      call'.phase = .settled (some credential) result)
    (hpast : ∀ credential stored, call.phase.PastRefresh credential stored →
      call'.phase.PastRefresh credential stored) :
    { s.put id call' with lock }.Inv credentials where
  contents := h.contents
  given := h.given
  held := h.held
  started := h.started
  calls := by
    intro id' other hother
    rcases put_calls hother with ⟨rfl, rfl⟩ | ⟨hne, hold⟩
    · exact ⟨hsound.lock, hsound.refreshing, hsound.settled⟩
    · have hsound' := h.calls id' other hold
      exact ⟨hothers id' other hne hold, hsound'.refreshing, hsound'.settled⟩
  kept := by
    intro providerId credential hlast
    rcases h.kept providerId credential hlast with hstored | ⟨id', other, result, hother, hid, hphase⟩
    · exact Or.inl hstored
    · right
      by_cases heq : id' = id
      · subst heq
        cases hcall.symm.trans hother
        exact ⟨id', call', result, put_self, hprovider.trans hid, hsettled _ _ hphase⟩
      · exact ⟨id', other, result, (put_of_ne heq).trans hother, hid, hphase⟩
  own := by
    intro id' providerId token credential hmem
    obtain ⟨other, hother, hid, hphase⟩ := h.own id' providerId token credential hmem
    by_cases heq : id' = id
    · subst heq
      cases hcall.symm.trans hother
      exact ⟨call', put_self, hprovider.trans hid, hpast _ _ hphase⟩
    · exact ⟨other, (put_of_ne heq).trans hother, hid, hphase⟩

theorem Inv.log (h : s.Inv credentials) {event : AuthEvent}
    (hquiet : ∀ id providerId token credential,
      event ≠ .refreshReturned id providerId token credential)
    (hwrote : ∀ id providerId credential, event ≠ .wrote id providerId credential)
    (hgiven : ∀ id providerId token credential, event = .refreshStarted id providerId token →
      lastReturned providerId s.events = some credential → token = credential.refresh)
    (hheld : ∀ id providerId token credential, event = .released id →
      .refreshReturned id providerId token credential ∈ s.events →
      s.credentials.get? providerId = some (.oauth credential)) :
    (s.log [event]).Inv credentials := by
  have hlast (providerId : String) : lastReturned providerId (s.events ++ [event])
      = lastReturned providerId s.events := by
    rw [lastReturned_concat]
    simp
  have hcontents : s.credentials = storedAfter credentials (s.events ++ [event]) := by
    rw [storedAfter_concat]
    split
    · exact absurd rfl (hwrote _ _ _)
    · exact h.contents
  refine ⟨hcontents, h.given.concat hgiven, h.held.concat ?_, ?_, ?_, ?_, ?_⟩
  · intro id providerId token credential hevent hmem
    rw [← h.contents]
    exact hheld id providerId token credential hevent hmem
  · intro before after id providerId token credential heq
    rcases split_concat heq with ⟨_, hnew, _⟩ | ⟨after', _, hold⟩
    · exact absurd hnew.symm (hquiet _ _ _ _)
    · exact h.started before after' id providerId token credential hold
  · intro id call hcall
    have hsound := h.calls id call hcall
    refine ⟨hsound.lock, fun current hphase => ?_, fun credential result hphase => ?_⟩
    · obtain ⟨hstored, hmem⟩ := hsound.refreshing current hphase
      exact ⟨hstored, mem_append_left _ hmem⟩
    · show lastReturned call.providerId (s.events ++ [event]) = some credential
      rw [hlast]
      exact hsound.settled credential result hphase
  · intro providerId credential hlast'
    have hlast' : lastReturned providerId (s.events ++ [event]) = some credential := hlast'
    rw [hlast] at hlast'
    exact h.kept providerId credential hlast'
  · intro id providerId token credential hmem
    rcases List.mem_append.mp hmem with hmem | hmem
    · exact h.own id providerId token credential hmem
    · exact absurd (List.mem_singleton.mp hmem).symm (hquiet _ _ _ _)

/-! ## The steps keep it -/

/-- A call goes on and has the lock only if it had it before. -/
theorem Inv.hold (h : s.Inv credentials) (hcall : s.calls id = some call) {phase : Phase}
    (hholds : phase.holds = true → call.phase.holds = true)
    (hrefreshing : ∀ current, phase = .refreshing current →
      s.credentials.get? call.providerId = some (.oauth current) ∧
        .refreshStarted id call.providerId current.refresh ∈ s.events)
    (hnext : ∀ credential result, phase ≠ .settled (some credential) result)
    (hfresh : ∀ credential stored, ¬ call.phase.PastRefresh credential stored) :
    (s.put id { call with phase }).Inv credentials := by
  refine @Inv.put credentials s id call { call with phase } h hcall rfl s.lock
    (fun id' other _ hother => (h.calls id' other hother).lock) ?_ ?_ ?_
  · exact ⟨fun hafter => (h.calls id call hcall).lock (hholds hafter), hrefreshing,
      fun credential result hphase => absurd hphase (hnext credential result)⟩
  · intro credential result hphase
    exact absurd (by rw [hphase]; rfl) (hfresh credential none)
  · intro credential stored hpast
    exact absurd hpast (hfresh credential stored)

theorem Inv.move (h : s.Inv credentials) (hcall : s.calls id = some call) {phase : Phase}
    (hafter : phase.holds = false)
    (hfresh : ∀ credential stored, ¬ call.phase.PastRefresh credential stored) :
    (s.put id { call with phase }).Inv credentials := by
  have hfree : phase.holds ≠ true := Bool.eq_false_iff.mp hafter
  refine h.hold hcall (fun hholds => absurd hholds hfree) ?_ ?_ hfresh
  · rintro current rfl
    exact absurd rfl hfree
  · rintro credential result rfl
    exact hfree rfl

theorem Inv.enter (h : s.Inv credentials) (hcall : s.calls id = some call)
    (hphase : call.phase = .locked) {s' : AuthState}
    (hs : s.advance id call (.enter id) = some s') : s'.Inv credentials := by
  have hholds : call.phase.holds = true := by rw [hphase]; rfl
  have hfresh : ∀ credential stored, ¬ call.phase.PastRefresh credential stored := by
    rw [hphase]
    exact fun _ _ => False.elim
  rw [advance, hphase] at hs
  dsimp only at hs
  split at hs
  · -- a refresh starts with the token that is stored
    rename_i current hentered
    cases hs
    have hstored : s.credentials.get? call.providerId = some (.oauth current) := by
      unfold AuthCall.enter at hentered
      split at hentered
      · cases hentered
      · split at hentered
        · rename_i credential hcredential
          split at hentered
          · cases hentered
            exact hcredential
          · cases hentered
        · cases hentered
    rw [hentered]
    have hlogged : (s.log [.refreshStarted id call.providerId current.refresh]).Inv
        credentials := by
      refine h.log (fun _ _ _ _ heq => by cases heq) (fun _ _ _ heq => by cases heq) ?_
        (fun _ _ _ _ heq => by cases heq)
      intro id' providerId token credential heq hlast
      cases heq
      rcases h.kept _ credential hlast with hkept | ⟨id', other, result, hother, _, hsettled⟩
      · cases hstored.symm.trans hkept
        rfl
      · have hother' : other.phase.holds = true := by rw [hsettled]; rfl
        obtain rfl := h.eq_of_holds hcall hother hholds hother'
        cases hcall.symm.trans hother
        rw [hphase] at hsettled
        cases hsettled
    refine hlogged.hold hcall (fun _ => hholds) ?_ (fun _ _ heq => by cases heq) hfresh
    intro found hfound
    cases hfound
    exact ⟨hstored, mem_append_right _ mem_cons_self⟩
  · rename_i hentered
    cases hs
    refine h.hold hcall (fun _ => hholds) (fun current heq => absurd heq (hentered current)) ?_ hfresh
    intro credential result heq
    unfold AuthCall.enter at heq
    split at heq
    · cases heq
    · split at heq
      · split at heq
        · cases heq
        · cases heq
      · cases heq

theorem Inv.sound_of_ne (h : s.Inv credentials) {id' : Nat} {other : AuthCall} {s' : AuthState}
    (hcall : s.calls id = some call) (hholds : call.phase.holds = true)
    (hother : s.calls id' = some other) (hne : id' ≠ id) :
    other.phase.holds ≠ true ∧ other.Sound s' id' := by
  have hfree : other.phase.holds ≠ true := fun hholds' =>
    hne (h.eq_of_holds hcall hother hholds hholds')
  refine ⟨hfree, fun hother => absurd hother hfree, fun found heq => ?_, fun found result heq => ?_⟩
  · exact absurd (by rw [heq]; rfl) hfree
  · exact absurd (by rw [heq]; rfl) hfree

theorem Inv.kept_of_ne (h : s.Inv credentials) (hcall : s.calls id = some call)
    (hholds : call.phase.holds = true) {providerId : String} {last : OAuthCredential}
    (hprovider : call.providerId ≠ providerId)
    (hlast : lastReturned providerId s.events = some last) :
    s.credentials.get? providerId = some (.oauth last) := by
  rcases h.kept providerId last hlast with hkept | ⟨id', other, result, hother, hid, hsettled⟩
  · exact hkept
  · have hother' : other.phase.holds = true := by rw [hsettled]; rfl
    obtain rfl := h.eq_of_holds hcall hother hholds hother'
    cases hcall.symm.trans hother
    exact absurd hid hprovider

theorem Inv.refreshReturns (h : s.Inv credentials) (hcall : s.calls id = some call)
    {current credential : OAuthCredential} (hphase : call.phase = .refreshing current) :
    ((s.put id { call with phase := .settled (some credential) (some (.oauth credential)) }).log
      [.refreshReturned id call.providerId current.refresh credential]).Inv credentials := by
  have hholds : call.phase.holds = true := by rw [hphase]; rfl
  have hlock := (h.calls id call hcall).lock hholds
  obtain ⟨hstored, hstarted⟩ := (h.calls id call hcall).refreshing current hphase
  refine ⟨?_, ?_, ?_, ?_, ?_, ?_, ?_⟩
  · show s.credentials = storedAfter credentials (s.events ++ [_])
    rw [storedAfter_concat]
    exact h.contents
  · exact h.given.concat fun _ _ _ _ heq => by cases heq
  · exact h.held.concat fun _ _ _ _ heq => by cases heq
  · intro before after id' providerId token credential' heq
    rcases split_concat heq with ⟨rfl, hnew, _⟩ | ⟨after', _, hold⟩
    · cases hnew
      exact hstarted
    · exact h.started before after' id' providerId token credential' hold
  · intro id' other hother
    rcases put_calls hother with ⟨rfl, rfl⟩ | ⟨hne, hold⟩
    · refine ⟨fun _ => hlock, (fun _ heq => by cases heq), fun credential' result heq => ?_⟩
      cases heq
      show lastReturned call.providerId (s.events ++ [_]) = some credential
      rw [lastReturned_concat]
      exact if_pos rfl
    · exact (h.sound_of_ne hcall hholds hold hne).2
  · intro providerId last hlast
    have hlast : lastReturned providerId (s.events ++ [_]) = some last := hlast
    rw [lastReturned_concat] at hlast
    dsimp only at hlast
    by_cases hprovider : call.providerId = providerId
    · rw [if_pos hprovider] at hlast
      cases hlast
      exact Or.inr ⟨id, _, some (.oauth credential), put_self, hprovider, rfl⟩
    · rw [if_neg hprovider] at hlast
      exact Or.inl (h.kept_of_ne hcall hholds hprovider hlast)
  · intro id' providerId token credential' hmem
    rcases List.mem_append.mp hmem with hmem | hmem
    · obtain ⟨other, hother, hid, hpast⟩ := h.own id' providerId token credential' hmem
      have hne : id' ≠ id := by
        rintro rfl
        cases hcall.symm.trans hother
        rw [hphase] at hpast
        exact hpast
      exact ⟨other, (put_of_ne hne).trans hother, hid, hpast⟩
    · cases List.mem_singleton.mp hmem
      exact ⟨_, put_self, rfl, rfl⟩

theorem Inv.write (h : s.Inv credentials) (hcall : s.calls id = some call)
    {credential : OAuthCredential} {result : Option Credential}
    (hphase : call.phase = .settled (some credential) result) :
    ({ s.put id { call with phase := .releasing (some result) } with
        credentials := s.credentials.set call.providerId (.oauth credential) }.log
      [.wrote id call.providerId credential]).Inv credentials := by
  have hholds : call.phase.holds = true := by rw [hphase]; rfl
  have hlock := (h.calls id call hcall).lock hholds
  have hlast := (h.calls id call hcall).settled credential result hphase
  refine ⟨?_, ?_, ?_, ?_, ?_, ?_, ?_⟩
  · show s.credentials.set _ _ = storedAfter credentials (s.events ++ [_])
    rw [storedAfter_concat, ← h.contents]
  · exact h.given.concat fun _ _ _ _ heq => by cases heq
  · exact h.held.concat fun _ _ _ _ heq => by cases heq
  · intro before after id' providerId token credential' heq
    rcases split_concat heq with ⟨_, hnew, _⟩ | ⟨after', _, hold⟩
    · cases hnew
    · exact h.started before after' id' providerId token credential' hold
  · intro id' other hother
    rcases put_calls hother with ⟨rfl, rfl⟩ | ⟨hne, hold⟩
    · exact ⟨fun _ => hlock, (fun _ heq => by cases heq), fun _ _ heq => by cases heq⟩
    · exact (h.sound_of_ne hcall hholds hold hne).2
  · intro providerId last hlast'
    have hlast' : lastReturned providerId (s.events ++ [_]) = some last := hlast'
    rw [lastReturned_concat] at hlast'
    left
    show (s.credentials.set call.providerId (.oauth credential)).get? providerId = _
    rw [get?_set]
    by_cases hprovider : call.providerId = providerId
    · rw [if_pos hprovider]
      rw [← hprovider] at hlast'
      cases hlast.symm.trans hlast'
      rfl
    · rw [if_neg hprovider]
      exact h.kept_of_ne hcall hholds hprovider hlast'
  · intro id' providerId token credential' hmem
    rcases List.mem_append.mp hmem with hmem | hmem
    · obtain ⟨other, hother, hid, hpast⟩ := h.own id' providerId token credential' hmem
      by_cases heq : id' = id
      · subst heq
        cases hcall.symm.trans hother
        rw [hphase] at hpast
        cases hpast
        refine ⟨_, put_self, hid, ?_⟩
        show (s.credentials.set call.providerId (.oauth credential)).get? providerId = _
        rw [get?_set, if_pos hid]
      · refine ⟨other, (put_of_ne heq).trans hother, hid, ?_⟩
        -- the other call has no lock, so it has finished
        have hfree := (@sound_of_ne credentials s id call h id' other s hcall hholds hother heq).1
        cases hother' : other.phase with
        | finished outcome => trivial
        | reading | waiting =>
          rw [hother'] at hpast
          exact hpast
        | _ => exact absurd (by rw [hother']; rfl) hfree
    · cases List.mem_singleton.mp hmem

theorem Inv.release (h : s.Inv credentials) (hcall : s.calls id = some call)
    {result : Option (Option Credential)} (hphase : call.phase = .releasing result) :
    ({ s.put id { call with phase := .finished (call.outcome s.now result) } with
      lock := none }.log [.released id]).Inv credentials := by
  have hholds : call.phase.holds = true := by rw [hphase]; rfl
  have hlogged : (s.log [.released id]).Inv credentials := by
    refine h.log (fun _ _ _ _ heq => by cases heq) (fun _ _ _ heq => by cases heq)
      (fun _ _ _ _ heq => by cases heq) ?_
    intro id' providerId token credential heq hmem
    cases heq
    obtain ⟨other, hother, _, hpast⟩ := h.own id providerId token credential hmem
    cases hcall.symm.trans hother
    rw [hphase] at hpast
    exact hpast
  refine @Inv.put credentials (s.log [.released id]) id call
    { call with phase := .finished (call.outcome s.now result) } hlogged hcall rfl none ?_ ?_ ?_ ?_
  · intro id' other hne hother hother'
    exact absurd (h.eq_of_holds hcall hother hholds hother') hne
  · exact ⟨nofun, (fun _ heq => by cases heq), fun _ _ heq => by cases heq⟩
  · intro credential result' hsettled
    rw [hphase] at hsettled
    cases hsettled
  · intro credential stored _
    trivial

/-! ## Runs -/

/-- An aborted caller comes to where what its refresh has returned would be written. -/
def losesRefreshed (s : AuthState) : AuthStep → Bool
  | .write id =>
    match s.calls id with
    | some call =>
      match call.phase with
      | .settled (some _) _ => call.aborted
      | _ => false
    | none => false
  | _ => false

theorem checked_holds (call : AuthCall) (now : Int) (stored : Option Credential) :
    (call.checked now stored).holds = false := by
  unfold AuthCall.checked
  split
  · split
    · rfl
    · split <;> rfl
  · rfl

theorem Inv.advance (h : s.Inv credentials) (hcall : s.calls id = some call) {label : AuthStep}
    (hkeeps : ∀ credential result, (∃ id', label = .write id') →
      call.phase = .settled (some credential) result → call.aborted = false)
    {s' : AuthState} (hs : s.advance id call label = some s') : s'.Inv credentials := by
  have hsound := h.calls id call hcall
  cases label with
  | call id' providerId purpose => cases hs
  | tick now => cases hs
  | abort id' =>
    cases hs
    exact @Inv.put credentials s id call { call with aborted := true } h hcall rfl s.lock
      (fun id' other _ hother => (h.calls id' other hother).lock)
      ⟨hsound.lock, hsound.refreshing, hsound.settled⟩ (fun _ _ h => h) fun _ _ h => h
  | read id' stored =>
    rw [AuthState.advance] at hs
    split at hs
    · rename_i hphase
      cases hs
      refine h.move hcall (checked_holds call s.now stored) ?_
      rw [hphase]
      exact fun _ _ => False.elim
    · cases hs
  | acquire id' =>
    rw [AuthState.advance] at hs
    split at hs
    · rename_i hphase
      have hfresh : ∀ credential stored, ¬ call.phase.PastRefresh credential stored := by
        rw [hphase]
        exact fun _ _ => False.elim
      split at hs
      · cases hs
        exact h.move hcall rfl hfresh
      · split at hs
        · rename_i hlock
          cases hs
          refine @Inv.put credentials s id call { call with phase := .locked } h hcall rfl
            (some id) ?_ ?_ ?_ ?_
          · intro id' other _ hother hholds
            rw [(h.calls id' other hother).lock hholds] at hlock
            cases hlock
          · exact ⟨fun _ => rfl, (fun _ heq => by cases heq), fun _ _ heq => by cases heq⟩
          · intro credential result hsettled
            rw [hphase] at hsettled
            cases hsettled
          · intro credential stored hpast
            exact absurd hpast (hfresh credential stored)
        · cases hs
    · cases hs
  | lockTimeout id' =>
    rw [AuthState.advance] at hs
    split at hs
    · rename_i hphase
      cases hs
      refine h.move hcall rfl ?_
      rw [hphase]
      exact fun _ _ => False.elim
    · cases hs
  | enter id' =>
    cases hphase : call.phase with
    | locked => exact h.enter hcall hphase hs
    | _ =>
      rw [AuthState.advance, hphase] at hs
      cases hs
  | refreshReturns id' credential =>
    rw [AuthState.advance] at hs
    split at hs
    · rename_i current hphase
      cases hs
      exact h.refreshReturns hcall hphase
    · cases hs
  | refreshFails id' =>
    rw [AuthState.advance] at hs
    split at hs
    · rename_i current hphase
      cases hs
      refine h.hold hcall (fun _ => by rw [hphase]; rfl) (fun _ heq => by cases heq)
        (fun _ _ heq => by cases heq) ?_
      rw [hphase]
      exact fun _ _ => False.elim
    · cases hs
  | write id' =>
    rw [AuthState.advance] at hs
    split at hs
    · rename_i next result hphase
      cases next with
      | none =>
        have hnothing (result' : Option (Option Credential)) :
            (s.put id { call with phase := .releasing result' }).Inv credentials := by
          refine h.hold hcall (fun _ => by rw [hphase]; rfl) (fun _ heq => by cases heq)
            (fun _ _ heq => by cases heq) ?_
          rw [hphase]
          exact fun _ _ hpast => by cases hpast
        split at hs
        · cases hs
          exact hnothing none
        · cases hs
          exact hnothing (some result)
      | some credential =>
        rw [if_neg (Bool.eq_false_iff.mp (hkeeps credential result ⟨id', rfl⟩ hphase))] at hs
        cases hs
        exact h.write hcall hphase
    · cases hs
  | release id' =>
    rw [AuthState.advance] at hs
    split at hs
    · rename_i result hphase
      cases hs
      exact h.release hcall hphase
    · cases hs

theorem Inv.newCall (h : s.Inv credentials) (hfree : s.calls id = none) (providerId : String)
    (purpose : Purpose) : (s.put id { providerId, purpose }).Inv credentials := by
  refine ⟨h.contents, h.given, h.held, h.started, ?_, ?_, ?_⟩
  · intro id' other hother
    rcases put_calls hother with ⟨rfl, rfl⟩ | ⟨_, hold⟩
    · exact ⟨nofun, (fun _ heq => by cases heq), fun _ _ heq => by cases heq⟩
    · have hsound := h.calls id' other hold
      exact ⟨hsound.lock, hsound.refreshing, hsound.settled⟩
  · intro providerId' credential hlast
    rcases h.kept providerId' credential hlast with hkept | ⟨id', other, result, hother, hrest⟩
    · exact Or.inl hkept
    · have hne : id' ≠ id := by
        rintro rfl
        cases hfree.symm.trans hother
      exact Or.inr ⟨id', other, result, (put_of_ne hne).trans hother, hrest⟩
  · intro id' providerId' token credential hmem
    obtain ⟨other, hother, hrest⟩ := h.own id' providerId' token credential hmem
    have hne : id' ≠ id := by
      rintro rfl
      cases hfree.symm.trans hother
    exact ⟨other, (put_of_ne hne).trans hother, hrest⟩

theorem Inv.step (h : s.Inv credentials) {label : AuthStep} (hok : s.losesRefreshed label = false)
    {s' : AuthState} (hs : s.step label = some s') : s'.Inv credentials := by
  have hadvance {id : Nat} (hkeeps : ∀ call credential result, s.calls id = some call →
        (∃ id', label = .write id') → call.phase = .settled (some credential) result →
        call.aborted = false)
      (hs : ((s.calls id).bind fun call => s.advance id call label) = some s') :
      s'.Inv credentials := by
    obtain ⟨call, hcall, hadvanced⟩ := Option.bind_eq_some_iff.mp hs
    exact h.advance hcall (fun credential result => hkeeps call credential result hcall) hadvanced
  cases label with
  | call id providerId purpose =>
    rw [AuthState.step] at hs
    split at hs
    · rename_i hfree
      cases hs
      exact h.newCall hfree providerId purpose
    · cases hs
  | tick now =>
    cases hs
    refine ⟨h.contents, h.given, h.held, h.started, fun id call hcall => ?_, h.kept, h.own⟩
    have hsound := h.calls id call hcall
    exact ⟨hsound.lock, hsound.refreshing, hsound.settled⟩
  | write id =>
    refine hadvance (fun call credential result hcall _ hphase => ?_) hs
    simpa only [losesRefreshed, hcall, hphase] using hok
  | _ => exact hadvance (fun _ _ _ _ hwrite => by obtain ⟨_, heq⟩ := hwrite; cases heq) hs

/-- Nothing has happened yet. -/
def start (credentials : Credentials) (now : Int) : AuthState := { credentials, now }

theorem inv_start (credentials : Credentials) (now : Int) :
    (start credentials now).Inv credentials where
  contents := rfl
  given := by
    intro before after _ _ _ _ heq
    cases before <;> cases heq
  held := by
    intro before after _ _ _ _ heq
    cases before <;> cases heq
  started := by
    intro before after _ _ _ _ heq
    cases before <;> cases heq
  calls := fun _ _ hcall => by cases hcall
  kept := fun _ _ hlast => by cases hlast
  own := fun _ _ _ _ hmem => absurd hmem not_mem_nil

/-- The states that the processes come to by steps that meet a condition. -/
abbrev Reaches (credentials : Credentials) (now : Int) (ok : AuthState → AuthStep → Prop) :
    AuthState → Prop :=
  Run (· = start credentials now) step ok

end AuthState

end ReflectivePi.Auth
