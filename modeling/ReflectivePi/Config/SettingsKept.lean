import ReflectivePi.Config.SettingsRuns

/-!
# Config — no settings update is lost

What the events of a run say of a setting, and the invariant of one scope of
one manager: a setting that was set is still marked, is carried by a queued
write, is in the file, was changed there by somebody else, or was carried by a
failed write that had lost its mark.
-/

namespace ReflectivePi.Config

open List
open Delta (Json JsString js)
open InsertionMap (findEntry setEntry)

/-! ## What the events say -/

/-- The value of the last setter of a setting, since the scope was loaded. -/
def lastSet (id : Nat) (scope : SettingsScope) (x : Setting) :
    List SettingsEvent → Option (Option Json)
  | [] => none
  | .loaded id' scope' :: events =>
    if id' = id ∧ scope' = scope then none else lastSet id scope x events
  | .set id' scope' x' value :: events =>
    if id' = id ∧ scope' = scope ∧ x' = x then some value else lastSet id scope x events
  | _ :: events => lastSet id scope x events

/-- Somebody else has changed the setting in the file since it was last set. -/
def ChangedSince (id : Nat) (scope : SettingsScope) (x : Setting) : List SettingsEvent → Prop
  | [] => False
  | .set id' scope' x' _ :: events =>
    ¬ (id' = id ∧ scope' = scope ∧ x' = x) ∧ ChangedSince id scope x events
  | .wrote id' scope' _ before after :: events =>
    (id' ≠ id ∧ scope' = scope ∧ x.get before ≠ x.get after) ∨ ChangedSince id scope x events
  | .edited scope' before after :: events =>
    (scope' = scope ∧ x.get before ≠ x.get after) ∨ ChangedSince id scope x events
  | _ :: events => ChangedSince id scope x events

/-- Since it was last set, a write has failed that carried the setting when it
was not marked any more. -/
def LostSince (id : Nat) (scope : SettingsScope) (x : Setting) : List SettingsEvent → Prop
  | [] => False
  | .set id' scope' x' _ :: events =>
    ¬ (id' = id ∧ scope' = scope ∧ x' = x) ∧ LostSince id scope x events
  | .failed id' scope' unmarked :: events =>
    (id' = id ∧ scope' = scope ∧ x ∈ unmarked) ∨ LostSince id scope x events
  | _ :: events => LostSince id scope x events

/-- The last write of the scope has failed. -/
def LastFailed (id : Nat) (scope : SettingsScope) : List SettingsEvent → Prop
  | [] => False
  | .wrote id' scope' _ _ _ :: events =>
    ¬ (id' = id ∧ scope' = scope) ∧ LastFailed id scope events
  | .failed id' scope' _ :: events =>
    (id' = id ∧ scope' = scope) ∨ LastFailed id scope events
  | _ :: events => LastFailed id scope events

/-- The events as they were when there were `n`. -/
def eventsAt (events : List SettingsEvent) (n : Nat) : List SettingsEvent :=
  events.drop (events.length - n)

theorem eventsAt_append (newer events : List SettingsEvent) {n : Nat} (h : n ≤ events.length) :
    eventsAt (newer ++ events) n = eventsAt events n := by
  unfold eventsAt
  rw [length_append, Nat.add_sub_assoc h, drop_length_add_append]

theorem eventsAt_length (events : List SettingsEvent) : eventsAt events events.length = events := by
  unfold eventsAt
  rw [Nat.sub_self]
  rfl

namespace SettingsEvent

/-- The event is about this scope of this manager. -/
def Concerns (id : Nat) (scope : SettingsScope) : SettingsEvent → Prop
  | .loaded id' scope' | .set id' scope' _ _ | .wrote id' scope' _ _ _ | .failed id' scope' _ =>
    id' = id ∧ scope' = scope
  | .edited _ _ _ => False

/-- Somebody else changes the setting in the file. -/
def Changes (id : Nat) (scope : SettingsScope) (x : Setting) : SettingsEvent → Prop
  | .wrote id' scope' _ before after =>
    id' ≠ id ∧ scope' = scope ∧ x.get before ≠ x.get after
  | .edited scope' before after => scope' = scope ∧ x.get before ≠ x.get after
  | _ => False

variable {id : Nat} {scope : SettingsScope} {x : Setting} {event : SettingsEvent}

section

variable (h : ¬ event.Concerns id scope) (events : List SettingsEvent)

include h events

theorem lastSet_cons :
    lastSet id scope x (event :: events) = lastSet id scope x events := by
  cases event with
  | loaded id' scope' => exact if_neg h
  | set id' scope' x' value => exact if_neg fun hc => h ⟨hc.1, hc.2.1⟩
  | _ => rfl

theorem changedSince_cons :
    ChangedSince id scope x (event :: events) ↔
      event.Changes id scope x ∨ ChangedSince id scope x events := by
  cases event with
  | set id' scope' x' value =>
    have hne : ¬ (id' = id ∧ scope' = scope ∧ x' = x) := fun hc => h ⟨hc.1, hc.2.1⟩
    exact ⟨fun hc => .inr hc.2, fun hc => ⟨hne, hc.resolve_left fun hf => hf.elim⟩⟩
  | wrote id' scope' queuedAt before after => exact Iff.rfl
  | edited scope' before after => exact Iff.rfl
  | _ => exact ⟨.inr, fun hc => hc.resolve_left fun hf => hf.elim⟩

theorem lostSince_cons :
    LostSince id scope x (event :: events) ↔ LostSince id scope x events := by
  cases event with
  | set id' scope' x' value =>
    have hne : ¬ (id' = id ∧ scope' = scope ∧ x' = x) := fun hc => h ⟨hc.1, hc.2.1⟩
    exact ⟨fun hc => hc.2, fun hc => ⟨hne, hc⟩⟩
  | failed id' scope' unmarked =>
    exact ⟨fun hc => hc.resolve_left fun hc => h ⟨hc.1, hc.2.1⟩, .inr⟩
  | _ => exact Iff.rfl

theorem lastFailed_cons :
    LastFailed id scope (event :: events) ↔ LastFailed id scope events := by
  cases event with
  | wrote id' scope' queuedAt before after => exact ⟨fun hc => hc.2, fun hc => ⟨h, hc⟩⟩
  | failed id' scope' unmarked => exact ⟨fun hc => hc.resolve_left h, .inr⟩
  | _ => exact Iff.rfl

end

end SettingsEvent

section setEvents

variable {id : Nat} {scope : SettingsScope} (x : Setting) (value : Setting → Option Json)
  (marks : List Setting) (events : List SettingsEvent)

def setEvents (id : Nat) (scope : SettingsScope) (value : Setting → Option Json)
    (marks : List Setting) : List SettingsEvent :=
  marks.map fun x => .set id scope x (value x)

theorem lastSet_setEvents :
    lastSet id scope x (setEvents id scope value marks ++ events) =
      if x ∈ marks then some (value x) else lastSet id scope x events := by
  induction marks with
  | nil => rfl
  | cons y marks ih =>
    show (if id = id ∧ scope = scope ∧ y = x then some (value y)
      else lastSet id scope x (setEvents id scope value marks ++ events)) = _
    by_cases hyx : y = x
    · subst hyx
      simp
    · rw [if_neg fun hc => hyx hc.2.2, ih]
      have hiff : x ∈ y :: marks ↔ x ∈ marks := by
        rw [mem_cons]
        exact ⟨fun hc => hc.resolve_left fun heq => hyx heq.symm, .inr⟩
      by_cases hmem : x ∈ marks
      · rw [if_pos hmem, if_pos (hiff.mpr hmem)]
      · rw [if_neg hmem, if_neg fun hc => hmem (hiff.mp hc)]

theorem changedSince_setEvents (hx : x ∉ marks) (h : ChangedSince id scope x events) :
    ChangedSince id scope x (setEvents id scope value marks ++ events) := by
  induction marks with
  | nil => exact h
  | cons y marks ih =>
    rw [mem_cons, not_or] at hx
    exact ⟨fun hc => hx.1 hc.2.2.symm, ih hx.2⟩

theorem lostSince_setEvents (hx : x ∉ marks) (h : LostSince id scope x events) :
    LostSince id scope x (setEvents id scope value marks ++ events) := by
  induction marks with
  | nil => exact h
  | cons y marks ih =>
    rw [mem_cons, not_or] at hx
    exact ⟨fun hc => hx.1 hc.2.2.symm, ih hx.2⟩

end setEvents

/-! ## One scope of one manager -/

theorem not_contains_empty (x : Setting) : ¬ ({} : Modified).Contains x := by
  intro hc
  cases x with
  | field name => exact absurd hc not_mem_nil
  | key record key => exact absurd hc.1 not_mem_nil

/-- The last of the writes that carry the setting has its value. -/
def Latest (x : Setting) (value : Option Json) : List Write → Prop
  | [] => True
  | write :: writes =>
    (write.modified.Contains x →
      x.get write.snapshotSettings = value ∨ ∃ later ∈ writes, later.modified.Contains x) ∧
    Latest x value writes

theorem Latest.append {x : Setting} {value : Option Json} {writes : List Write} {new : Write}
    (h : Latest x value writes ∨ new.modified.Contains x)
    (hnew : new.modified.Contains x → x.get new.snapshotSettings = value) :
    Latest x value (writes ++ [new]) := by
  induction writes with
  | nil => exact ⟨fun hc => .inl (hnew hc), trivial⟩
  | cons write writes ih =>
    refine ⟨fun hc => ?_, ih (h.imp_left fun h => h.2)⟩
    rcases h with h | h
    · rcases h.1 hc with heq | ⟨later, hmem, hlater⟩
      · exact .inl heq
      · exact .inr ⟨later, mem_append_left _ hmem, hlater⟩
    · exact .inr ⟨new, mem_append_right _ (mem_singleton_self _), h⟩

/-- What a queued write carries is sound, and was set before it was queued. -/
def Queued (events : List SettingsEvent) (id : Nat) (scope : SettingsScope) (write : Write) : Prop :=
  write.modified.Sound write.snapshotSettings ∧ write.queuedAt ≤ events.length ∧
    ∀ x : Setting, x.Proper → write.modified.Contains x →
      (lastSet id scope x (eventsAt events write.queuedAt)).isSome = true

theorem Queued.append {events : List SettingsEvent} {id : Nat} {scope : SettingsScope}
    {write : Write} (h : Queued events id scope write) (newer : List SettingsEvent) :
    Queued (newer ++ events) id scope write := by
  obtain ⟨hsound, hle, howned⟩ := h
  rw [Queued, length_append, eventsAt_append newer events hle]
  exact ⟨hsound, Nat.le_add_left_of_le hle, howned⟩

/-- What holds of a scope of a manager, with its queued writes. -/
structure Good (file : SettingsFile) (events : List SettingsEvent) (id : Nat)
    (scope : SettingsScope) (known : ScopeSettings) (writes : List Write) : Prop where
  sound : known.modified.Sound known.settings
  memory : ∀ x value, lastSet id scope x events = some value →
    x.get known.settings = value ∧ isMigrated x value = true
  owned : ∀ x : Setting, x.Proper → known.modified.Contains x →
    (lastSet id scope x events).isSome = true
  queued : ∀ write ∈ writes, write.modified.Sound write.snapshotSettings ∧
    write.queuedAt ≤ events.length ∧
    ∀ x : Setting, x.Proper → write.modified.Contains x →
      (lastSet id scope x (eventsAt events write.queuedAt)).isSome = true
  last : known.loadError = false → ∀ x : Setting, x.Proper → known.modified.Contains x →
    ∀ write, writes.getLast? = some write → write.modified.Contains x
  pending : known.loadError = false → ∀ x : Setting, x.Proper → known.modified.Contains x →
    writes ≠ [] ∨ LastFailed id scope events
  latest : known.loadError = false → ∀ x value, lastSet id scope x events = some value →
    Latest x value writes
  kept : known.loadError = false → ∀ x value, lastSet id scope x events = some value →
    known.modified.Contains x ∨ (∃ write ∈ writes, write.modified.Contains x) ∨
      (x.get file.settings = value ∨ ChangedSince id scope x events) ∨
      LostSince id scope x events

section good

variable {file file' : SettingsFile} {events : List SettingsEvent} {id : Nat}
  {scope : SettingsScope} {known : ScopeSettings} {writes : List Write} {write : Write}

theorem Good.event (h : Good file events id scope known writes) {event : SettingsEvent}
    (hnot : ¬ event.Concerns id scope)
    (hfile : ∀ x : Setting, x.get file'.settings = x.get file.settings ∨
      event.Changes id scope x) : Good file' (event :: events) id scope known writes := by
  refine ⟨h.sound, fun x value => ?_, fun x hx hmarked => ?_, fun write hmem => ?_, h.last,
    fun hload x hx hmarked => ?_, fun hload x value => ?_, fun hload x value hset => ?_⟩
  · rw [SettingsEvent.lastSet_cons hnot]
    exact h.memory x value
  · rw [SettingsEvent.lastSet_cons hnot]
    exact h.owned x hx hmarked
  · exact Queued.append (h.queued write hmem) [event]
  · rw [SettingsEvent.lastFailed_cons hnot]
    exact h.pending hload x hx hmarked
  · rw [SettingsEvent.lastSet_cons hnot]
    exact h.latest hload x value
  · rw [SettingsEvent.lastSet_cons hnot] at hset
    rw [SettingsEvent.changedSince_cons hnot, SettingsEvent.lostSince_cons hnot]
    rcases h.kept hload x value hset with hmarked | hqueued | (heq | hchanged) | hlost
    · exact .inl hmarked
    · exact .inr (.inl hqueued)
    · rcases hfile x with hsame | hchanges
      · exact .inr (.inr (.inl (.inl (hsame.trans heq))))
      · exact .inr (.inr (.inl (.inr (.inl hchanges))))
    · exact .inr (.inr (.inl (.inr (.inr hchanged))))
    · exact .inr (.inr (.inr hlost))

theorem Good.load (hqueued : ∀ write ∈ writes, Queued events id scope write) (settings : Settings) (loadError : Bool) :
    Good file (.loaded id scope :: events) id scope { settings, loadError } writes := by
  have hnone : ∀ x, lastSet id scope x (.loaded id scope :: events) = none :=
    fun x => if_pos ⟨rfl, rfl⟩
  refine ⟨.empty settings, fun x value hset => ?_, fun x _ hmarked => absurd hmarked (not_contains_empty x),
    fun write hmem => ?_, fun _ x _ hmarked => absurd hmarked (not_contains_empty x),
    fun _ x _ hmarked => absurd hmarked (not_contains_empty x), fun _ x value hset => ?_,
    fun _ x value hset => ?_⟩
  · rw [hnone] at hset
    cases hset
  · exact (hqueued write hmem).append [_]
  · rw [hnone] at hset
    cases hset
  · rw [hnone] at hset
    cases hset

/-- A setter, where the scope was loaded and the write is queued, or not. -/
theorem Good.set (h : Good file events id scope known writes) {settings' : Settings}
    {marks : List Setting} (hspec : Change.Spec known.settings settings' marks) :
    Good file (setEvents id scope (fun x => x.get settings') marks ++ events) id scope
      { known with
        settings := settings'
        modified := marks.foldl Modified.markSetting known.modified }
      (if known.loadError then writes
        else writes ++ [{
          scope
          snapshotSettings := settings'
          modified := marks.foldl Modified.markSetting known.modified
          queuedAt := events.length + marks.length }]) := by
  have hproper : ∀ y ∈ marks, y.Proper := fun y hmem =>
    proper_of_isMigrated (hspec.migrated y hmem)
  have hsound' : known.modified.Sound settings' :=
    ⟨fun field hmem hfield => ⟨(h.sound.record field hmem hfield).1,
      hspec.kept field hfield (h.sound.record field hmem hfield).2⟩, h.sound.plain,
      h.sound.listed⟩
  have hsound := hsound'.markAll hproper hspec.records
  have hcontains : ∀ x : Setting, x.Proper →
      ((marks.foldl Modified.markSetting known.modified).Contains x ↔
        x ∈ marks ∨ known.modified.Contains x) := fun x hx =>
    Modified.contains_markAll hsound' hproper hspec.records hx
  have hlength : (setEvents id scope (fun x => x.get settings') marks ++ events).length =
      events.length + marks.length := by
    rw [length_append, setEvents, length_map, Nat.add_comm]
  have hmemory : ∀ x value,
      lastSet id scope x (setEvents id scope (fun x => x.get settings') marks ++ events) =
        some value → x.get settings' = value ∧ isMigrated x value = true := by
    intro x value hset
    rw [lastSet_setEvents] at hset
    by_cases hmem : x ∈ marks
    · rw [if_pos hmem] at hset
      cases hset
      exact ⟨rfl, hspec.migrated x hmem⟩
    · rw [if_neg hmem] at hset
      obtain ⟨heq, hmigrated⟩ := h.memory x value hset
      exact ⟨(hspec.others x (proper_of_isMigrated hmigrated) hmem).trans heq, hmigrated⟩
  have howned : ∀ x : Setting, x.Proper →
      (marks.foldl Modified.markSetting known.modified).Contains x →
      (lastSet id scope x
        (setEvents id scope (fun x => x.get settings') marks ++ events)).isSome = true := by
    intro x hx hmarked
    rw [lastSet_setEvents]
    split
    · rfl
    · rename_i hmem
      exact h.owned x hx (((hcontains x hx).mp hmarked).resolve_left hmem)
  have hqueued : ∀ write ∈ writes,
      Queued (setEvents id scope (fun x => x.get settings') marks ++ events) id scope write :=
    fun write hmem => Queued.append (h.queued write hmem) _
  cases hload : known.loadError with
  | true =>
    have hnot : ¬ true = false := by decide
    exact ⟨hsound, hmemory, howned, hqueued, fun hc => absurd hc hnot,
      fun hc => absurd hc hnot, fun hc => absurd hc hnot, fun hc => absurd hc hnot⟩
  | false =>
    refine ⟨hsound, hmemory, howned, fun write hmem => ?_, fun _ x hx hmarked write hlast => ?_,
      fun _ x hx hmarked => .inl fun hc => ?_, fun _ x value hset => ?_,
      fun _ x value hset => ?_⟩
    · rcases List.mem_append.mp hmem with hmem | hmem
      · exact hqueued write hmem
      · cases List.mem_singleton.mp hmem
        refine ⟨hsound, Nat.le_of_eq hlength.symm, ?_⟩
        show ∀ x : Setting, x.Proper → _ → (lastSet id scope x (eventsAt _
          (events.length + marks.length))).isSome = true
        rw [← hlength, eventsAt_length]
        exact howned
    · rw [if_neg (by decide), getLast?_concat] at hlast
      cases hlast
      exact hmarked
    · rw [if_neg (by decide)] at hc
      exact absurd hc (append_ne_nil_of_right_ne_nil _ (cons_ne_nil _ _))
    · obtain ⟨heq, hmigrated⟩ := hmemory x value hset
      refine Latest.append ?_ fun _ => heq
      by_cases hmem : x ∈ marks
      · exact .inr ((hcontains x (proper_of_isMigrated hmigrated)).mpr (.inl hmem))
      · rw [lastSet_setEvents, if_neg hmem] at hset
        exact .inl (h.latest hload x value hset)
    · obtain ⟨-, hmigrated⟩ := hmemory x value hset
      have hx := proper_of_isMigrated hmigrated
      by_cases hmem : x ∈ marks
      · exact .inl ((hcontains x hx).mpr (.inl hmem))
      · rw [lastSet_setEvents, if_neg hmem] at hset
        rcases h.kept hload x value hset with
          hmarked | ⟨write, hwrite, hc⟩ | (heq | hchanged) | hlost
        · exact .inl ((hcontains x hx).mpr (.inr hmarked))
        · exact .inr (.inl ⟨write, mem_append_left _ hwrite, hc⟩)
        · exact .inr (.inr (.inl (.inl heq)))
        · exact .inr (.inr (.inl (.inr (changedSince_setEvents x _ marks events hmem hchanged))))
        · exact .inr (.inr (.inr (lostSince_setEvents x _ marks events hmem hlost)))

theorem SettingsFile.load_eq {current : Settings} (h : file.load = some current) :
    current = migrateSettings file.settings := by
  cases file with
  | missing =>
    cases h
    rfl
  | invalid => cases h
  | holding settings =>
    cases h
    rfl

theorem Good.succeed (h : Good file events id scope known (write :: writes))
    (queuedAt : Nat) {current : Settings} (hcurrent : file.load = some current) :
    Good (.holding (mergeSettings current write.snapshotSettings write.modified))
      (.wrote id scope queuedAt file.settings
        (mergeSettings current write.snapshotSettings write.modified) :: events)
      id scope { known with modified := {} } writes := by
  obtain ⟨hwrite, -, -⟩ := h.queued write mem_cons_self
  refine ⟨.empty known.settings, h.memory, fun x _ hc => absurd hc (not_contains_empty x),
    fun write' hmem => ?_, fun _ x _ hc => absurd hc (not_contains_empty x),
    fun _ x _ hc => absurd hc (not_contains_empty x),
    fun hload x value hset => (h.latest hload x value hset).2, fun hload x value hset => ?_⟩
  · exact Queued.append (h.queued write' (mem_cons_of_mem _ hmem)) [_]
  · have hset' : lastSet id scope x events = some value := hset
    obtain ⟨-, hmigrated⟩ := h.memory x value hset'
    have hx := proper_of_isMigrated hmigrated
    have hfile := get_mergeSettings hwrite current hx
    by_cases hlater : ∃ later ∈ writes, later.modified.Contains x
    · exact .inr (.inl hlater)
    · by_cases hcontains : write.modified.Contains x
      · refine .inr (.inr (.inl (.inl ?_)))
        show x.get (mergeSettings current write.snapshotSettings write.modified) = value
        rw [hfile, if_pos hcontains]
        exact ((h.latest hload x value hset').1 hcontains).resolve_right hlater
      · rw [if_neg hcontains] at hfile
        rcases h.kept hload x value hset' with
          hmarked | ⟨write', hmem, hc⟩ | (heq | hchanged) | hlost
        · -- the last write carries all that is marked
          have hne : (write :: writes) ≠ [] := cons_ne_nil _ _
          have hc := h.last hload x hx hmarked _ (getLast?_eq_getLast_of_ne_nil hne)
          rcases List.mem_cons.mp (getLast_mem hne) with heq | hmem
          · rw [heq] at hc
            exact absurd hc hcontains
          · exact absurd ⟨_, hmem, hc⟩ hlater
        · rcases List.mem_cons.mp hmem with rfl | hmem
          · exact absurd hc hcontains
          · exact absurd ⟨write', hmem, hc⟩ hlater
        · refine .inr (.inr (.inl (.inl ?_)))
          show x.get (mergeSettings current write.snapshotSettings write.modified) = value
          rw [hfile, SettingsFile.load_eq hcurrent]
          exact get_migrateSettings hmigrated file.settings heq
        · exact .inr (.inr (.inl (.inr (.inr hchanged))))
        · exact .inr (.inr (.inr hlost))

theorem Good.fail (h : Good file events id scope known (write :: writes)) :
    Good file (.failed id scope (write.modified.settings.filter fun x =>
      !decide (known.modified.Contains x)) :: events) id scope known writes := by
  refine ⟨h.sound, h.memory, h.owned, fun write' hmem => ?_,
    fun hload x hx hmarked last hlast => ?_, fun _ _ _ _ => .inr (.inl ⟨rfl, rfl⟩),
    fun hload x value hset => (h.latest hload x value hset).2, fun hload x value hset => ?_⟩
  · exact Queued.append (h.queued write' (mem_cons_of_mem _ hmem)) [_]
  · refine h.last hload x hx hmarked last ?_
    cases writes with
    | nil => cases hlast
    | cons write' writes => exact hlast
  · have hset' : lastSet id scope x events = some value := hset
    obtain ⟨-, hmigrated⟩ := h.memory x value hset'
    have hx := proper_of_isMigrated hmigrated
    rcases h.kept hload x value hset' with
      hmarked | ⟨write', hmem, hc⟩ | hfile | hlost
    · exact .inl hmarked
    · rcases List.mem_cons.mp hmem with rfl | hmem
      · by_cases hmarked : known.modified.Contains x
        · exact .inl hmarked
        · refine .inr (.inr (.inr (.inl ⟨rfl, rfl, ?_⟩)))
          rw [mem_filter]
          refine ⟨Modified.mem_settings (h.queued _ mem_cons_self).1 hx hc, ?_⟩
          rw [decide_eq_false hmarked]
          rfl
      · exact .inr (.inl ⟨write', hmem, hc⟩)
    · exact .inr (.inr (.inl hfile))
    · exact .inr (.inr (.inr (.inr hlost)))

end good

theorem Good.events {file : SettingsFile} {events : List SettingsEvent} {id : Nat}
    {scope : SettingsScope} {known : ScopeSettings} {writes : List Write}
    (h : Good file events id scope known writes) (newer : List SettingsEvent)
    (hnot : ∀ event ∈ newer, ¬ event.Concerns id scope) :
    Good file (newer ++ events) id scope known writes := by
  induction newer with
  | nil => exact h
  | cons event newer ih =>
    exact (ih fun event' hmem => hnot event' (mem_cons_of_mem _ hmem)).event
      (hnot event mem_cons_self) fun _ => .inl rfl

theorem Good.loadedElsewhere {file : SettingsFile} {events : List SettingsEvent} {id other : Nat}
    {scope : SettingsScope} {known : ScopeSettings} {writes : List Write}
    (h : Good file events id scope known writes) (hne : other ≠ id) :
    Good file (.loaded other .project :: .loaded other .global :: events) id scope known writes :=
  h.events [.loaded other .project, .loaded other .global] (by simp [SettingsEvent.Concerns, hne])

/-! ## The invariant -/

/-- The queued writes of one scope. -/
def writesOf (scope : SettingsScope) (writeQueue : List Task) : List Write :=
  writeQueue.filterMap fun
    | .write write => if write.scope = scope then some write else none
    | .reload => none

theorem writesOf_append (scope : SettingsScope) (tasks tasks' : List Task) :
    writesOf scope (tasks ++ tasks') = writesOf scope tasks ++ writesOf scope tasks' :=
  filterMap_append

theorem writesOf_write (scope : SettingsScope) (write : Write) (queue : List Task) :
    writesOf scope (.write write :: queue) =
      if write.scope = scope then write :: writesOf scope queue else writesOf scope queue := by
  rw [writesOf, filterMap_cons]
  by_cases h : write.scope = scope
  · simp only [h, if_true]
    rfl
  · simp only [if_neg h]
    rfl

/-- What a write changes, besides migration, was set by its manager before it
was queued, and since the scope was loaded. -/
def OnlySet (events : List SettingsEvent) : Prop :=
  ∀ newer older id scope queuedAt before after,
    events = newer ++ .wrote id scope queuedAt before after :: older →
    ∀ x : Setting, x.Proper → lastSet id scope x (eventsAt older queuedAt) = none →
      x.get after = x.get (migrateSettings before)

theorem OnlySet.cons {events : List SettingsEvent} (h : OnlySet events) {event : SettingsEvent}
    (hevent : ∀ id scope queuedAt before after, event = .wrote id scope queuedAt before after →
      ∀ x : Setting, x.Proper → lastSet id scope x (eventsAt events queuedAt) = none →
        x.get after = x.get (migrateSettings before)) : OnlySet (event :: events) := by
  intro newer older id scope queuedAt before after heq
  cases newer with
  | nil =>
    cases heq
    exact hevent id scope queuedAt before after rfl
  | cons event' newer =>
    exact h newer older id scope queuedAt before after (List.cons.inj heq).2

theorem OnlySet.setEvents {events : List SettingsEvent} (h : OnlySet events) (id : Nat)
    (scope : SettingsScope) (value : Setting → Option Json) (marks : List Setting) :
    OnlySet (setEvents id scope value marks ++ events) := by
  induction marks with
  | nil => exact h
  | cons x marks ih => exact ih.cons fun _ _ _ _ _ heq => by cases heq

structure SettingsSystem.Inv (s : SettingsSystem) : Prop where
  good : ∀ (id : Nat) (m : SettingsManager), s.managers[id]? = some m → ∀ scope,
    Good (s.files scope) s.events id scope (m.scopes scope) (writesOf scope m.writeQueue)
  onlySet : OnlySet s.events

namespace SettingsSystem

variable {s s' : SettingsSystem} {id : Nat} {m : SettingsManager}

theorem of_setManager (hm : s.managers[id]? = some m) (new : SettingsManager) {j : Nat}
    {mj : SettingsManager} (hj : (s.setManager id new).managers[j]? = some mj) :
    (j = id ∧ mj = new) ∨ (j ≠ id ∧ s.managers[j]? = some mj) := by
  have hlt := (List.getElem?_eq_some_iff.mp hm).1
  rw [setManager, getElem?_set] at hj
  by_cases hid : id = j
  · subst hid
    rw [if_pos rfl, if_pos hlt] at hj
    cases hj
    exact .inl ⟨rfl, rfl⟩
  · rw [if_neg hid] at hj
    exact .inr ⟨fun heq => hid heq.symm, hj⟩

theorem scopes_setScope (m : SettingsManager) (scope other : SettingsScope)
    (value : ScopeSettings) :
    (m.setScope scope value).scopes other = if other = scope then value else m.scopes other :=
  Function.update_apply ..

theorem files_setFile (s : SettingsSystem) (scope other : SettingsScope) (settings : Settings) :
    (s.setFile scope settings).files other =
      if other = scope then .holding settings else s.files other :=
  Function.update_apply ..

/-! ### Setters -/

theorem Inv.set (h : s.Inv) (hm : s.managers[id]? = some m) {scope : SettingsScope}
    {settings : Settings} {marks : List Setting}
    (hspec : Change.Spec (m.scopes scope).settings settings marks) :
    ((s.setManager id (m.set scope settings marks (s.events.length + marks.length))).log
      (setEvents id scope (fun x => x.get settings) marks)).Inv := by
  refine ⟨fun j mj hj scope' => ?_, h.onlySet.setEvents id scope _ marks⟩
  have hnot : ∀ (j : Nat) (scope' : SettingsScope), ¬ (j = id ∧ scope' = scope) →
      ∀ event ∈ setEvents id scope (fun x => x.get settings) marks, ¬ event.Concerns j scope' := by
    intro j scope' hne event hmem
    obtain ⟨x, -, rfl⟩ := List.mem_map.mp hmem
    exact fun hc => hne ⟨hc.1.symm, hc.2.symm⟩
  rcases of_setManager hm _ hj with ⟨rfl, rfl⟩ | ⟨hne, hj⟩
  · by_cases hscope : scope' = scope
    · subst hscope
      have hgood := (h.good j m hm scope').set hspec
      unfold SettingsManager.set
      dsimp only
      rw [scopes_setScope, if_pos rfl]
      cases hload : (m.scopes scope').loadError with
      | true =>
        rw [if_pos rfl, scopes_setScope, if_pos rfl]
        rw [hload, if_pos rfl] at hgood
        exact hgood
      | false =>
        rw [hload, if_neg (by decide)] at hgood
        show Good _ _ j scope' ((m.setScope scope' _).scopes scope')
          (writesOf scope' (m.writeQueue ++ _))
        rw [scopes_setScope, if_pos rfl, writesOf_append, writesOf_write, if_pos rfl]
        exact hgood
    · have hgood := (h.good j m hm scope').events _ (hnot j scope' fun hc => hscope hc.2)
      unfold SettingsManager.set
      dsimp only
      rw [scopes_setScope, if_pos rfl]
      cases hload : (m.scopes scope).loadError with
      | true =>
        rw [if_pos rfl, scopes_setScope, if_neg hscope]
        exact hgood
      | false =>
        show Good _ _ j scope' ((m.setScope scope _).scopes scope')
          (writesOf scope' (m.writeQueue ++ _))
        rw [scopes_setScope, if_neg hscope, writesOf_append, writesOf_write,
          if_neg (Ne.symm hscope), show writesOf scope' [] = [] from rfl, append_nil]
        exact hgood
  · exact (h.good j mj hj scope').events _ (hnot j scope' fun hc => hne hc.1)

/-! ### Loading -/

theorem ofLoad_eq (load : Option Settings) :
    ∃ settings loadError, ScopeSettings.ofLoad load = { settings, loadError } := by
  cases load with
  | none => exact ⟨_, _, rfl⟩
  | some settings => exact ⟨settings, false, rfl⟩

theorem reload_eq (known : ScopeSettings) (load : Option Settings) :
    ∃ settings loadError, known.reload load = { settings, loadError } := by
  cases load with
  | none => exact ⟨_, _, rfl⟩
  | some settings => exact ⟨settings, false, rfl⟩

theorem loadedBoth {file : SettingsFile} {events : List SettingsEvent} {writes : List Write}
    {scope : SettingsScope}
    (hqueued : ∀ write ∈ writes, Queued events id scope write) (settings : Settings) (loadError : Bool) :
    Good file (.loaded id .project :: .loaded id .global :: events) id scope
      { settings, loadError } writes := by
  cases scope with
  | global =>
    exact (Good.load hqueued settings loadError).event (fun hc => by cases hc.2) fun _ => .inl rfl
  | project =>
    exact Good.load (fun write hmem => (hqueued write hmem).append [_]) settings loadError

theorem Inv.runReload (h : s.Inv) (hm : s.managers[id]? = some m) {queue : List Task}
    (hqueue : m.writeQueue = .reload :: queue) (fails projectFails : Bool) :
    (s.runReload id { m with writeQueue := queue } fails projectFails).Inv := by
  refine ⟨fun j mj hj scope => ?_,
    (h.onlySet.cons fun _ _ _ _ _ heq => by cases heq).cons fun _ _ _ _ _ heq => by cases heq⟩
  rcases of_setManager hm _ hj with ⟨rfl, rfl⟩ | ⟨hne, hj⟩
  · have hgood := h.good j m hm scope
    rw [hqueue] at hgood
    have hknown : ∃ settings loadError, (SettingsManager.setScope
        (SettingsManager.setScope { m with writeQueue := queue } .global
          ((m.scopes .global).reload (tryLoad (s.files .global) fails))) .project
        ((m.scopes .project).reload
          (SettingsManager.loadProject { m with writeQueue := queue } (s.files .project)
            projectFails))).scopes scope = { settings, loadError } := by
      cases scope with
      | _ =>
        exact reload_eq _ _
    obtain ⟨settings, loadError, heq⟩ := hknown
    show Good _ _ j scope (SettingsManager.scopes (SettingsManager.setScope _ _ _) scope) _
    have hloaded := @loadedBoth _ (s.files scope) _ _ _ hgood.queued settings loadError
    rw [← heq] at hloaded
    exact hloaded
  · exact (h.good j mj hj scope).loadedElsewhere (Ne.symm hne)

theorem Inv.create (h : s.Inv) (new : SettingsManager) (hqueue : new.writeQueue = [])
    (hscopes : ∀ scope, ∃ load, new.scopes scope = .ofLoad load) :
    SettingsSystem.Inv ({ s with managers := s.managers ++ [new] }.log
      [.loaded s.managers.length .project, .loaded s.managers.length .global]) := by
  refine ⟨fun j mj hj scope => ?_,
    (h.onlySet.cons fun _ _ _ _ _ heq => by cases heq).cons fun _ _ _ _ _ heq => by cases heq⟩
  have hj' : (s.managers ++ [new])[j]? = some mj := hj
  rw [getElem?_append] at hj'
  split at hj'
  · rename_i hlt
    exact (h.good j mj hj' scope).loadedElsewhere (Nat.ne_of_gt hlt)
  · rename_i hge
    have hlen := (List.getElem?_eq_some_iff.mp hj').1
    have heq := (List.getElem?_eq_some_iff.mp hj').2
    simp only [length_singleton] at hlen
    have hj0 : j = s.managers.length := by omega
    subst hj0
    have hmj : mj = new := by
      simp only [Nat.sub_self, getElem_singleton] at heq
      exact heq.symm
    subst hmj
    obtain ⟨load, hload⟩ := hscopes scope
    obtain ⟨settings, loadError, hknown⟩ := ofLoad_eq load
    rw [hload, hknown, hqueue]
    exact loadedBoth (fun write hmem => absurd hmem not_mem_nil) settings loadError

theorem Inv.setTrusted (h : s.Inv) (hm : s.managers[id]? = some m) {new : SettingsManager}
    (hqueue : new.writeQueue = m.writeQueue) (hglobal : new.scopes .global = m.scopes .global)
    (hproject : ∃ load, new.scopes .project = .ofLoad load) :
    ((s.setManager id new).log [.loaded id .project]).Inv := by
  refine ⟨fun j mj hj scope => ?_, h.onlySet.cons fun _ _ _ _ _ heq => by cases heq⟩
  rcases of_setManager hm _ hj with ⟨rfl, rfl⟩ | ⟨hne, hj⟩
  · rw [hqueue]
    cases scope with
    | global =>
      rw [hglobal]
      exact (h.good j m hm .global).event (fun hc => by cases hc.2) fun _ => .inl rfl
    | project =>
      obtain ⟨load, hload⟩ := hproject
      obtain ⟨settings, loadError, hknown⟩ := ofLoad_eq load
      rw [hload, hknown]
      exact Good.load (h.good j m hm .project).queued settings loadError
  · exact (h.good j mj hj scope).event (fun hc => hne hc.1.symm) fun _ => .inl rfl

/-! ### Writes -/

theorem Inv.runWrite (h : s.Inv) (hm : s.managers[id]? = some m) {write : Write}
    {queue : List Task} (hqueue : m.writeQueue = .write write :: queue) (fails : Bool) :
    (s.runWrite id { m with writeQueue := queue } write fails).Inv := by
  unfold SettingsSystem.runWrite
  dsimp only
  split
  · rename_i current _ hcurrent
    refine ⟨fun j mj hj scope => ?_, h.onlySet.cons fun j scope queuedAt before after heq => ?_⟩
    · show Good ((SettingsSystem.setFile _ write.scope _).files scope) _ _ _ _ _
      rw [files_setFile]
      rcases of_setManager hm _ hj with ⟨rfl, rfl⟩ | ⟨hne, hj⟩
      · have hgood := h.good j m hm scope
        rw [hqueue, writesOf_write] at hgood
        show Good _ _ _ _ ((SettingsManager.setScope _ write.scope _).scopes scope) _
        rw [scopes_setScope]
        by_cases hscope : write.scope = scope
        · subst hscope
          rw [if_pos rfl] at hgood
          rw [if_pos rfl, if_pos rfl]
          exact hgood.succeed write.queuedAt hcurrent
        · rw [if_neg hscope] at hgood
          rw [if_neg (Ne.symm hscope), if_neg (Ne.symm hscope)]
          exact hgood.event (fun hc => hscope hc.2) fun _ => .inl rfl
      · have hgood := h.good j mj hj scope
        by_cases hscope : write.scope = scope
        · subst hscope
          rw [if_pos rfl]
          refine hgood.event (fun hc => hne hc.1.symm) fun x => ?_
          by_cases hsame : x.get (s.files write.scope).settings =
              x.get (mergeSettings current write.snapshotSettings write.modified)
          · exact .inl hsame.symm
          · exact .inr ⟨Ne.symm hne, rfl, hsame⟩
        · rw [if_neg (Ne.symm hscope)]
          exact hgood.event (fun hc => hscope hc.2) fun _ => .inl rfl
    · cases heq
      intro x hx hnone
      have hgood := h.good id m hm write.scope
      rw [hqueue, writesOf_write, if_pos rfl] at hgood
      obtain ⟨hsound, -, howned⟩ := hgood.queued write mem_cons_self
      rw [get_mergeSettings hsound current hx, SettingsFile.load_eq hcurrent, if_neg]
      intro hc
      have hsome := howned x hx hc
      rw [hnone] at hsome
      cases hsome
  · refine ⟨fun j mj hj scope => ?_, h.onlySet.cons fun _ _ _ _ _ heq => by cases heq⟩
    rcases of_setManager hm _ hj with ⟨rfl, rfl⟩ | ⟨hne, hj⟩
    · have hgood := h.good j m hm scope
      rw [hqueue, writesOf_write] at hgood
      by_cases hscope : write.scope = scope
      · subst hscope
        rw [if_pos rfl] at hgood
        exact hgood.fail
      · rw [if_neg hscope] at hgood
        exact hgood.event (fun hc => hscope hc.2) fun _ => .inl rfl
    · exact (h.good j mj hj scope).event (fun hc => hne hc.1.symm) fun _ => .inl rfl

theorem Inv.edit (h : s.Inv) (scope : SettingsScope) (settings : Settings) :
    ((s.setFile scope settings).log
      [.edited scope (s.files scope).settings settings]).Inv := by
  refine ⟨fun j mj hj scope' => ?_, h.onlySet.cons fun _ _ _ _ _ heq => by cases heq⟩
  have hgood := h.good j mj hj scope'
  show Good ((SettingsSystem.setFile s scope settings).files scope') _ _ _ _ _
  rw [files_setFile]
  by_cases hscope : scope' = scope
  · subst hscope
    rw [if_pos rfl]
    refine hgood.event (fun hc => hc) fun x => ?_
    by_cases hsame : x.get (s.files scope').settings = x.get settings
    · exact .inl hsame.symm
    · exact .inr ⟨rfl, hsame⟩
  · rw [if_neg hscope]
    exact hgood.event (fun hc => hc) fun _ => .inl rfl

theorem Inv.step (h : s.Inv) {label : SettingsStep} (hs : s.step label = some s') : s'.Inv := by
  cases label with
  | create projectTrusted globalFails projectFails =>
    cases hs
    refine h.create _ rfl fun scope => ?_
    cases scope with
    | global => exact ⟨_, rfl⟩
    | project => exact ⟨_, rfl⟩
  | setter id scope change =>
    obtain ⟨m, hm, hs⟩ := Option.bind_eq_some_iff.mp hs
    split at hs
    · obtain ⟨⟨settings, marks⟩, happly, hs⟩ := Option.map_eq_some_iff.mp hs
      cases hs
      exact h.set hm (Change.apply_spec happly)
    · cases hs
  | setProjectTrusted id trusted fails =>
    obtain ⟨m, hm, hs⟩ := Option.bind_eq_some_iff.mp hs
    split at hs
    · cases hs
      exact h
    · cases hs
      refine h.setTrusted hm rfl ?_ ⟨_, (scopes_setScope ..).trans (if_pos rfl)⟩
      rfl
  | reload id =>
    obtain ⟨m, hm, hs⟩ := Option.map_eq_some_iff.mp hs
    cases hs
    refine ⟨fun j mj hj scope => ?_, h.onlySet⟩
    rcases of_setManager hm _ hj with ⟨rfl, rfl⟩ | ⟨-, hj⟩
    · show Good _ _ _ _ _ (writesOf scope (m.writeQueue ++ [.reload]))
      rw [writesOf_append]
      show Good _ _ _ _ _ (writesOf scope m.writeQueue ++ [])
      rw [append_nil]
      exact h.good j m hm scope
    · exact h.good j mj hj scope
  | runTask id fails projectFails =>
    obtain ⟨m, hm, hs⟩ := Option.bind_eq_some_iff.mp hs
    split at hs
    · cases hs
    · rename_i hqueue
      cases hs
      exact h.runWrite hm hqueue fails
    · rename_i hqueue
      cases hs
      exact h.runReload hm hqueue fails projectFails
  | edit scope settings =>
    cases hs
    exact h.edit scope settings

/-- The states of all runs over some files. -/
abbrev Reaches (files : SettingsScope → SettingsFile) : SettingsSystem → Prop :=
  Run (· = { files }) step fun _ _ => True

theorem Reaches.inv {files : SettingsScope → SettingsFile} (h : Reaches files s) : s.Inv := by
  refine Run.invariant ?_ (fun s label s' hinv _ hs => hinv.step hs) h
  rintro s rfl
  refine ⟨(fun _ _ hm => by cases hm), fun newer older _ _ _ _ _ heq => ?_⟩
  cases newer <;> cases heq

end SettingsSystem

/-- What the managers keep of what is set. -/
structure NoneLost (s : SettingsSystem) : Prop where
  onlySet : OnlySet s.events
  kept : ∀ (id : Nat) (m : SettingsManager) scope, s.managers[id]? = some m →
    (m.scopes scope).loadError = false → writesOf scope m.writeQueue = [] →
    ¬ LastFailed id scope s.events →
    ∀ x value, lastSet id scope x s.events = some value → ¬ LostSince id scope x s.events →
      x.get (s.files scope).settings = value ∨ ChangedSince id scope x s.events

/-- **No settings update is lost**, where the settings could be loaded and no
failed write had lost its marks. -/
theorem settings_kept (files : SettingsScope → SettingsFile) (s : SettingsSystem)
    (h : SettingsSystem.Reaches files s) : NoneLost s := by
  refine ⟨h.inv.onlySet, fun id m scope hm hload hdrained hsucceeded x value hset hnot => ?_⟩
  have hgood := h.inv.good id m hm scope
  have hx := proper_of_isMigrated (hgood.memory x value hset).2
  rcases hgood.kept hload x value hset with hmarked | ⟨write, hmem, -⟩ | hfile | hlost
  · rcases hgood.pending hload x hx hmarked with hne | hfailed
    · exact absurd hdrained hne
    · exact absurd hfailed hsucceeded
  · rw [hdrained] at hmem
    exact absurd hmem not_mem_nil
  · exact hfile
  · exact absurd hlost hnot

/-! ## Where more is changed, or less is kept -/

def noFiles (_ : SettingsScope) : SettingsFile := .missing

/-- A file of an old format. -/
def legacyFiles (_ : SettingsScope) : SettingsFile :=
  .holding (InsertionMap.empty.set (js "queueMode") (.str (js "all")))

def after (files : SettingsScope → SettingsFile) (labels : List SettingsStep) : SettingsSystem :=
  Run.afterAll SettingsSystem.step { files } labels

/-- One setting is set and written. -/
def sampleTheme : List SettingsStep :=
  [.create true false false, .setter 0 .global (setTheme (js "a")), .runTask 0 false false]

theorem settings_kept_sample : NoneLost (after noFiles sampleTheme) :=
  settings_kept noFiles _ (Run.of_check (.init rfl) (by decide +kernel))

/-- The settings cannot be loaded again. -/
def sampleUnloaded : List SettingsStep :=
  sampleTheme ++ [.reload 0, .runTask 0 true false, .setter 0 .global (setTheme (js "b"))]

/-- Two managers remember a level for two models. -/
def sampleLevels : List SettingsStep :=
  [.create true false false, .create true false false,
    .setter 0 .global (setModelThinkingLevel (js "p") (js "a") (js "high")), .runTask 0 false false,
    .setter 1 .global (setModelThinkingLevel (js "p") (js "b") (js "high")), .runTask 1 false false]

/-- Two writes are queued when the first succeeds and the second fails. -/
def sampleUnmarked : List SettingsStep :=
  [.create true false false, .setter 0 .global (setTheme (js "a")),
    .setter 0 .global (setQuietStartup true), .runTask 0 false false, .runTask 0 true false,
    .setter 0 .global (setHideThinkingBlock true), .runTask 0 false false]

/-- The string that a setting holds. -/
def stringOf : Option Json → JsString
  | some (.str units) => units
  | _ => []

/-- Migration changes what no setter has set; what is set while the settings
could not be loaded is not written; a write that fails after its marks are
cleared is not made up for; and a level that another manager has written is
dropped from the file. -/
theorem settings_lost :
    (¬ ∀ (files : SettingsScope → SettingsFile) (s : SettingsSystem),
      SettingsSystem.Reaches files s →
      ∀ newer older id scope queuedAt before after,
        s.events = newer ++ .wrote id scope queuedAt before after :: older →
        ∀ x : Setting, lastSet id scope (.field x.fieldName) (eventsAt older queuedAt) = none →
          x.get after = x.get before) ∧
    (¬ ∀ (files : SettingsScope → SettingsFile) (s : SettingsSystem),
      SettingsSystem.Reaches files s →
      ∀ (id : Nat) (m : SettingsManager) scope, s.managers[id]? = some m →
        writesOf scope m.writeQueue = [] → ¬ LastFailed id scope s.events →
        ∀ x value, lastSet id scope x s.events = some value → ¬ LostSince id scope x s.events →
          x.get (s.files scope).settings = value ∨ ChangedSince id scope x s.events) ∧
    (¬ ∀ (files : SettingsScope → SettingsFile) (s : SettingsSystem),
      SettingsSystem.Reaches files s →
      ∀ (id : Nat) (m : SettingsManager) scope, s.managers[id]? = some m →
        (m.scopes scope).loadError = false → writesOf scope m.writeQueue = [] →
        ¬ LastFailed id scope s.events →
        ∀ x value, lastSet id scope x s.events = some value →
          x.get (s.files scope).settings = value ∨ ChangedSince id scope x s.events) ∧
    (Setting.key (js "modelThinkingLevels") (js "p/a")).get
        ((after noFiles (sampleLevels.take 4)).files .global).settings ≠ none ∧
      (Setting.key (js "modelThinkingLevels") (js "p/a")).get
        ((after noFiles sampleLevels).files .global).settings = none := by
  refine ⟨fun h => ?_, fun h => ?_, fun h => ?_, fun h => ?_, ?_⟩
  · have hchanged := h legacyFiles (after legacyFiles sampleTheme)
      (Run.of_check (.init rfl) (by decide +kernel)) [] _ 0 .global _ _ _ rfl
      (.field (js "queueMode")) rfl
    exact absurd (congrArg Option.isSome hchanged) (by decide +kernel)
  · have hkept := h noFiles (after noFiles sampleUnloaded)
      (Run.of_check (.init rfl) (by decide +kernel)) 0 _ .global rfl rfl
      (fun hc => hc.1 ⟨rfl, rfl⟩) (.field (js "theme")) _ rfl (fun hc => hc.1 ⟨rfl, rfl, rfl⟩)
    rcases hkept with hfile | hchanged
    · exact absurd (congrArg stringOf hfile) (by decide +kernel)
    · exact hchanged.1 ⟨rfl, rfl, rfl⟩
  · have hkept := h noFiles (after noFiles sampleUnmarked)
      (Run.of_check (.init rfl) (by decide +kernel)) 0 _ .global rfl rfl rfl
      (fun hc => hc.1 ⟨rfl, rfl⟩) (.field (js "quietStartup")) _ rfl
    rcases hkept with hfile | hchanged
    · exact absurd (congrArg Option.isSome hfile) (by decide +kernel)
    · rcases hchanged with hother | ⟨-, hother | hother⟩
      · exact hother.1 rfl
      · exact hother.1 rfl
      · exact hother.1 ⟨rfl, rfl, rfl⟩
  · exact absurd (congrArg Option.isSome h) (by decide +kernel)
  · exact Option.not_isSome_iff_eq_none.mp (by decide +kernel)

end ReflectivePi.Config
