import ReflectivePi.Lib.LabelledRun
import ReflectivePi.Services.Instances

/-!
# Services — Observation

Observers and live entries are matched, as long as no announcement goes
on for an entry that was removed in the middle of it. The tasks that are
held are the uncancelled ones (`Inv`), and while the directory is ready
every pair without a task is still ahead of some loop (`Covered`).
-/

namespace ReflectivePi.Services

open LiveList

/-- The loop will get to the pair of observer and entry, in their slots. -/
def Frame.Covers (n k : Nat) (e : Entry) : Frame → Prop
  | .startAll entry cursor => entry = e ∧ cursor ≤ n
  | .ready cursor => cursor ≤ k
  | .observe observer cursor => observer = n ∧ cursor ≤ k
  | .handler _ _ => False

def Task.pair (t : Task) : Nat × Entry := (t.observer, t.entry)

namespace InstanceDirectory

/-- If the loop on top is an announcement with observers left, its entry is
still in the directory. -/
def announcesLive (d : InstanceDirectory) : Bool :=
  match d.stack with
  | .startAll entry cursor :: _ =>
    !(d.observers.visit cursor).isSome || decide (entry ∈ d.entries.values)
  | _ => true

/-- The steps on which the directory does what it is for. -/
def Announcing (d : InstanceDirectory) : Label → Prop
  | .call (.insert entry) | .call (.replace entry) => entry ∉ d.inserted
  | .advance => d.announcesLive = true
  | _ => True

/-- The states of the runs whose steps all meet a condition. -/
abbrev Runs (ok : InstanceDirectory → Label → Prop) : InstanceDirectory → Prop :=
  Run (fun d => ∃ ready, d = new ready) step ok

/-- The tasks whose context is not cancelled. -/
def uncancelled (d : InstanceDirectory) : List Task :=
  (d.started.zipIdx.filter fun p => decide (p.2 ∉ d.cancelled)).map Prod.fst

/-- Observers and live entries are matched. -/
structure Matched (d : InstanceDirectory) : Prop where
  /-- Once the outermost call has returned, every pair has its task. -/
  one : d.stack = [] → d.ready = true → ∀ n o, (n, o) ∈ d.observers.slots →
    ∀ e ∈ d.entries.values, (d.uncancelled.map Task.pair).count (n, e) = 1
  none : ∀ task ∈ d.uncancelled, task.entry ∈ d.entries.values ∧
    ∃ o, (task.observer, o) ∈ d.observers.slots
  once : ∀ pair, (d.started.map Task.pair).count pair ≤ 1
  handled : ∀ task ∈ d.started, task.live = true ∧ task.observed = true

/-- The tasks observers hold are the uncancelled ones, each of an entry in
the directory. -/
structure Inv (d : InstanceDirectory) : Prop where
  keys : (d.entries.values.map Entry.key).Nodup
  inserted : ∀ e ∈ d.entries.values, e ∈ d.inserted
  held : ∀ n o, (n, o) ∈ d.observers.slots → ∀ e t,
    o.tasks.get? e = some t → e ∈ d.entries.values ∧ t ∉ d.cancelled ∧
      ∃ task, d.started[t]? = some task ∧ task.observer = n ∧ task.entry = e
  cancelled : ∀ t ∈ d.cancelled, t < d.started.length
  uncancelled : ∀ t task, d.started[t]? = some task → t ∉ d.cancelled →
    ∃ o, (task.observer, o) ∈ d.observers.slots ∧ o.tasks.get? task.entry = some t
  kept : ∀ task ∈ d.started, task.entry ∈ d.entries.values → ∀ o,
    (task.observer, o) ∈ d.observers.slots → (o.tasks.get? task.entry).isSome = true
  known : ∀ task ∈ d.started, task.observer < d.observers.next ∧ task.entry ∈ d.inserted
  once : (d.started.map Task.pair).Nodup
  handled : ∀ task ∈ d.started, task.live = true ∧ task.observed = true

/-- In a ready directory every pair has its task or is ahead of a loop. -/
def Covered (d : InstanceDirectory) : Prop :=
  d.ready = true → ∀ n o k e, (n, o) ∈ d.observers.slots → (k, e) ∈ d.entries.slots →
    (o.tasks.get? e).isSome = true ∨ ∃ f ∈ d.stack, f.Covers n k e

/-! ## Removing and putting in -/

variable {d d' : InstanceDirectory}

variable {e entry : Entry}

theorem mem_values {l : LiveList Entry} : e ∈ l.values ↔ ∃ k, (k, e) ∈ l.slots := by
  simp [LiveList.values]

theorem get_eq_some {key : String} (h : d.get key = some e) : e ∈ d.entries.values ∧ e.key = key :=
  ⟨List.mem_of_find?_eq_some h, by simpa using List.find?_some h⟩

theorem get_eq_none {key : String} (h : d.get key = none) :
    ∀ e ∈ d.entries.values, e.key ≠ key := by
  intro e he
  simpa using List.find?_eq_none.mp h e he

section

variable (h : Inv d)

include h

/-- The removed entry is the only one that is gone. -/
theorem mem_keep_key (hlive : entry ∈ d.entries.values) {k : Nat} :
    (k, e) ∈ (d.entries.keep fun _ e => e.key != entry.key).slots ↔
      (k, e) ∈ d.entries.slots ∧ e ≠ entry := by
  rw [mem_keep]
  refine and_congr_right fun he => ?_
  constructor
  · rintro hk rfl
    simp at hk
  · intro hne
    have hkey : e.key ≠ entry.key := fun hk =>
      hne (List.inj_on_of_nodup_map h.keys (mem_values.mpr ⟨k, he⟩) hlive hk)
    simpa using hkey

theorem Inv.removeEntry (entry : Entry) : Inv (d.removeEntry entry) := by
  unfold InstanceDirectory.removeEntry
  split
  · exact h
  rename_i hget
  have hlive := (get_eq_some (not_not.mp hget)).1
  have hmem : ∀ e, e ∈ (d.entries.keep
      fun _ e => e.key != entry.key).values ↔ e ∈ d.entries.values ∧ e ≠ entry := by
    intro e
    simp only [mem_values, mem_keep_key h hlive]
    simp
  refine ⟨?_, ?_, ?_, ?_, ?_, ?_, h.known, h.once, h.handled⟩
  · exact h.keys.sublist ((List.filter_sublist.map _).map _)
  · exact fun e he => h.inserted e ((hmem e).mp he).1
  · intro n o' ho e t ht
    obtain ⟨o, ho, rfl⟩ := mem_map.mp ho
    simp only [Observer.forget, InsertionMap.get?_delete] at ht
    split at ht
    · cases ht
    rename_i hne
    obtain ⟨he, hnot, task, htask, htn, hte⟩ := h.held n o ho e t ht
    refine ⟨(hmem e).mpr ⟨he, Ne.symm hne⟩, ?_, task, htask, htn, hte⟩
    rw [List.mem_append, not_or]
    refine ⟨hnot, fun hc => ?_⟩
    obtain ⟨o₂, ho₂, ht₂⟩ := List.mem_filterMap.mp hc
    obtain ⟨⟨n₂, o₂⟩, hs₂, rfl⟩ := List.mem_map.mp ho₂
    obtain ⟨-, -, task₂, htask₂, -, hte₂⟩ := h.held n₂ o₂ hs₂ entry t ht₂
    obtain rfl : task = task₂ := Option.some.inj (htask.symm.trans htask₂)
    exact hne (hte₂.symm.trans hte)
  · intro t ht
    rcases List.mem_append.mp ht with ht | ht
    · exact h.cancelled t ht
    · obtain ⟨o, ho, ht⟩ := List.mem_filterMap.mp ht
      obtain ⟨⟨n, o⟩, hs, rfl⟩ := List.mem_map.mp ho
      obtain ⟨-, -, task, htask, -⟩ := h.held n o hs entry t ht
      exact (List.getElem?_eq_some_iff.mp htask).1
  · intro t task htask hnot
    rw [List.mem_append, not_or] at hnot
    obtain ⟨o, ho, ht⟩ := h.uncancelled t task htask hnot.1
    have hne : entry ≠ task.entry := by
      rintro rfl
      exact hnot.2 (List.mem_filterMap.mpr ⟨o, List.mem_map.mpr
        ⟨_, ho, rfl⟩, ht⟩)
    refine ⟨o.forget entry, mem_map.mpr ⟨o, ho, rfl⟩, ?_⟩
    rw [Observer.forget, InsertionMap.get?_delete, if_neg hne, ht]
  · intro task htask he o' ho
    obtain ⟨o, ho, rfl⟩ := mem_map.mp ho
    obtain ⟨he, hne⟩ := (hmem _).mp he
    show ((o.forget entry).tasks.get? task.entry).isSome = true
    rw [Observer.forget, InsertionMap.get?_delete, if_neg (Ne.symm hne)]
    exact h.kept task htask he o ho

theorem Inv.enter (f : Frame) : Inv (d.enter f) :=
  ⟨h.keys, h.inserted, h.held, h.cancelled, h.uncancelled, h.kept, h.known, h.once, h.handled⟩

theorem Inv.withStack (stack : List Frame) : Inv { d with stack := stack } :=
  ⟨h.keys, h.inserted, h.held, h.cancelled, h.uncancelled, h.kept, h.known, h.once, h.handled⟩

theorem Inv.put (hnew : entry ∉ d.inserted)
    (hkey : ∀ e ∈ d.entries.values, e.key ≠ entry.key) : Inv (d.put entry) := by
  have hvalues : (d.entries.push entry).values = d.entries.values ++ [entry] := by
    simp [LiveList.values, LiveList.push]
  have hput : Inv { d with
      entries := d.entries.push entry
      inserted := d.inserted ++ [entry] } := by
    refine ⟨?_, ?_, ?_, h.cancelled, h.uncancelled, ?_, ?_, h.once, h.handled⟩
    · rw [hvalues, List.map_append, List.nodup_append]
      refine ⟨h.keys, by simp, ?_⟩
      intro a ha b hb
      obtain ⟨e, he, rfl⟩ := List.mem_map.mp ha
      obtain rfl : b = entry.key := by simpa using hb
      exact hkey e he
    · intro e he
      rw [hvalues] at he
      rcases List.mem_append.mp he with he | he
      · exact List.mem_append.mpr (.inl (h.inserted e he))
      · exact List.mem_append.mpr (.inr he)
    · intro n o ho e t ht
      obtain ⟨he, hrest⟩ := h.held n o ho e t ht
      exact ⟨by rw [hvalues]; exact List.mem_append.mpr (.inl he), hrest⟩
    · intro task htask he o ho
      rw [hvalues] at he
      rcases List.mem_append.mp he with he | he
      · exact h.kept task htask he o ho
      · rw [List.mem_singleton] at he
        exact absurd (he ▸ (h.known task htask).2) hnew
    · intro task htask
      obtain ⟨hn, he⟩ := h.known task htask
      exact ⟨hn, List.mem_append.mpr (.inl he)⟩
  unfold InstanceDirectory.put
  simp only
  split
  · exact hput.enter _
  · exact hput

theorem Inv.start (observer : Nat)
    (hlive : entry ∈ d.entries.values) : Inv (d.start observer entry) := by
  unfold InstanceDirectory.start
  split
  · exact h
  rename_i o hget
  split
  · exact h
  rename_i hnone
  have ho := get?_eq_some.mp hget
  have hfree : o.tasks.get? entry = none := by
    simpa [InsertionMap.has] using hnone
  -- the pair is new: an open observer keeps the tasks of live entries
  have hpair : (observer, entry) ∉ d.started.map Task.pair := by
    intro hc
    obtain ⟨task, htask, heq⟩ := List.mem_map.mp hc
    obtain ⟨rfl, rfl⟩ := Prod.mk.inj heq
    have hkept := h.kept task htask hlive o ho
    rw [hfree] at hkept
    cases hkept
  refine ⟨h.keys, h.inserted, ?_, ?_, ?_, ?_, ?_, ?_, ?_⟩
  · intro n x hx e t ht
    obtain ⟨a, ha, rfl⟩ := mem_update.mp hx
    have hold : a.tasks.get? e = some t → _ := h.held n a ha e t
    have hgrow : ∀ task, d.started[t]? = some task → ∀ new,
        (d.started ++ [new])[t]? = some task := fun task htask new => by
      rw [List.getElem?_append_left (List.getElem?_eq_some_iff.mp htask).1]
      exact htask
    split at ht
    · rename_i hn
      simp only [InsertionMap.get?_set] at ht
      split at ht
      · rename_i he
        cases ht
        refine ⟨he ▸ hlive, fun hc => ?_, _, List.getElem?_concat_length, ?_, he⟩
        · exact Nat.lt_irrefl _ (h.cancelled _ hc)
        · exact hn.symm
      · obtain ⟨he, hnot, task, htask, hrest⟩ := hold ht
        exact ⟨he, hnot, task, hgrow task htask _, hrest⟩
    · obtain ⟨he, hnot, task, htask, hrest⟩ := hold ht
      exact ⟨he, hnot, task, hgrow task htask _, hrest⟩
  · intro t ht
    rw [List.length_append]
    exact Nat.lt_add_right _ (h.cancelled t ht)
  · intro t task htask hnot
    rcases Nat.lt_or_ge t d.started.length with hlt | hge
    · rw [List.getElem?_append_left hlt] at htask
      obtain ⟨a, ha, ht⟩ := h.uncancelled t task htask hnot
      refine ⟨_, mem_update.mpr ⟨a, ha, rfl⟩, ?_⟩
      split
      · rename_i hn
        have hne : entry ≠ task.entry := by
          rintro rfl
          rw [hn] at ha
          rw [slot_unique ha ho, hfree] at ht
          cases ht
        rw [InsertionMap.get?_set, if_neg hne, ht]
      · exact ht
    · obtain rfl : t = d.started.length := by
        have hlen := (List.getElem?_eq_some_iff.mp htask).1
        rw [List.length_append, List.length_singleton] at hlen
        omega
      rw [List.getElem?_concat_length] at htask
      cases htask
      refine ⟨_, mem_update.mpr ⟨o, ho, rfl⟩, ?_⟩
      simp
  · intro task htask he x hx
    obtain ⟨a, ha, rfl⟩ := mem_update.mp hx
    rcases List.mem_append.mp htask with htask | htask
    · have hkept := h.kept task htask he a ha
      split
      · rw [InsertionMap.get?_set]
        split
        · rfl
        · exact hkept
      · exact hkept
    · rw [List.mem_singleton] at htask
      subst htask
      simp
  · intro task htask
    rcases List.mem_append.mp htask with htask | htask
    · exact h.known task htask
    · rw [List.mem_singleton] at htask
      subst htask
      exact ⟨d.observers.bounded _ ho, h.inserted entry hlive⟩
  · rw [List.map_append, List.nodup_append]
    refine ⟨h.once, by simp, ?_⟩
    rintro a ha b hb rfl
    rw [List.map_singleton, List.mem_singleton] at hb
    rw [hb] at ha
    exact hpair ha
  · intro task htask
    rcases List.mem_append.mp htask with htask | htask
    · exact h.handled task htask
    · rw [List.mem_singleton] at htask
      subst htask
      exact ⟨decide_eq_true hlive, by rw [hget]; rfl⟩

theorem Inv.observe (hd : d.observe = .ok d') : Inv d' := by
  unfold InstanceDirectory.observe at hd
  split at hd
  · cases hd
  have hpush : Inv { d with observers := d.observers.push ⟨.empty⟩ } := by
    refine ⟨h.keys, h.inserted, ?_, h.cancelled, ?_, ?_, ?_, h.once, h.handled⟩
    · intro n o ho e t ht
      rcases mem_push.mp ho with ho | ho
      · exact h.held n o ho e t ht
      · cases ho
        cases ht
    · intro t task htask hnot
      obtain ⟨o, ho, ht⟩ := h.uncancelled t task htask hnot
      exact ⟨o, mem_push.mpr (.inl ho), ht⟩
    · intro task htask he o ho
      rcases mem_push.mp ho with ho | ho
      · exact h.kept task htask he o ho
      · -- no task was started for the new observer
        have hlt := (h.known task htask).1
        rw [(Prod.mk.inj ho).1] at hlt
        omega
    · intro task htask
      obtain ⟨hn, he⟩ := h.known task htask
      exact ⟨Nat.lt_succ_of_lt hn, he⟩
  simp only [Except.ok.injEq] at hd
  subst hd
  split
  · exact hpush.enter _
  · exact hpush

/-- Closing observers cancels exactly the tasks they hold. -/
theorem Inv.close {q : Nat → Bool} {gone : List Nat}
    (hgone : ∀ t, t ∈ gone ↔ ∃ n o, (n, o) ∈ d.observers.slots ∧ q n = false ∧ t ∈ o.tasks.values) :
    Inv { d with
      observers := d.observers.keep fun n _ => q n
      cancelled := d.cancelled ++ gone } := by
  have hvalue : ∀ {o : Observer} {t : Nat}, t ∈ o.tasks.values ↔ ∃ e, o.tasks.get? e = some t := by
    intro o t
    rw [InsertionMap.values, List.mem_map]
    constructor
    · rintro ⟨⟨e, t⟩, hm, rfl⟩
      exact ⟨e, InsertionMap.mem_entries_iff.mp hm⟩
    · rintro ⟨e, he⟩
      exact ⟨(e, t), InsertionMap.mem_entries_iff.mpr he, rfl⟩
  refine ⟨h.keys, h.inserted, ?_, ?_, ?_, ?_, h.known, h.once, h.handled⟩
  · intro n o ho e t ht
    obtain ⟨ho, hq⟩ := mem_keep.mp ho
    obtain ⟨he, hnot, task, htask, htn, hte⟩ := h.held n o ho e t ht
    refine ⟨he, ?_, task, htask, htn, hte⟩
    rw [List.mem_append, not_or]
    refine ⟨hnot, fun hc => ?_⟩
    obtain ⟨n₂, o₂, ho₂, hq₂, ht₂⟩ := (hgone t).mp hc
    obtain ⟨e₂, ht₂⟩ := hvalue.mp ht₂
    obtain ⟨-, -, task₂, htask₂, htn₂, -⟩ := h.held n₂ o₂ ho₂ e₂ t ht₂
    obtain rfl : task = task₂ := Option.some.inj (htask.symm.trans htask₂)
    have hq' : q n = true := hq
    rw [← htn, htn₂, hq₂] at hq'
    cases hq'
  · intro t ht
    rcases List.mem_append.mp ht with ht | ht
    · exact h.cancelled t ht
    · obtain ⟨n, o, ho, -, ht⟩ := (hgone t).mp ht
      obtain ⟨e, ht⟩ := hvalue.mp ht
      obtain ⟨-, -, task, htask, -⟩ := h.held n o ho e t ht
      exact (List.getElem?_eq_some_iff.mp htask).1
  · intro t task htask hnot
    rw [List.mem_append, not_or] at hnot
    obtain ⟨o, ho, ht⟩ := h.uncancelled t task htask hnot.1
    refine ⟨o, mem_keep.mpr ⟨ho, ?_⟩, ht⟩
    by_contra hq
    rw [Bool.not_eq_true] at hq
    exact hnot.2 ((hgone t).mpr ⟨_, o, ho, hq, hvalue.mpr ⟨_, ht⟩⟩)
  · intro task htask he o ho
    exact h.kept task htask he o (mem_keep.mp ho).1

theorem Inv.stop (observer : Nat) : Inv (d.stop observer) := by
  unfold InstanceDirectory.stop
  split
  · exact h
  rename_i o hget
  have ho := get?_eq_some.mp hget
  refine h.close (q := fun n => n != observer) fun t => ?_
  constructor
  · exact fun ht => ⟨observer, o, ho, by simp, ht⟩
  · rintro ⟨n, x, hx, hn, ht⟩
    obtain rfl : n = observer := by simpa using hn
    rwa [slot_unique hx ho] at ht

theorem Inv.dispose : Inv d.dispose := by
  unfold InstanceDirectory.dispose
  split
  · exact h
  have hgone : ∀ t, t ∈ (d.observers.values.flatMap fun o => o.tasks.values) ↔
      ∃ n o, (n, o) ∈ d.observers.slots ∧ (fun _ => false) n = false ∧ t ∈ o.tasks.values := by
    intro t
    simp only [LiveList.values, List.mem_flatMap, List.mem_map, Prod.exists,
      exists_eq_right, true_and]
    exact ⟨fun ⟨o, ⟨n, ho⟩, ht⟩ => ⟨n, o, ho, ht⟩, fun ⟨n, o, ho, ht⟩ => ⟨o, ⟨n, ho⟩, ht⟩⟩
  have hclosed := h.close hgone
  have hnone : ∀ p : Nat × Observer, p ∉ (d.observers.keep fun _ _ => false).slots := by
    simp [LiveList.keep]
  have hempty : ∀ e, e ∉ (d.entries.keep fun _ _ => false).values := by
    simp [LiveList.keep, LiveList.values]
  refine ⟨by simp [LiveList.keep, LiveList.values],
    fun e he => absurd he (hempty e), fun n o ho => absurd ho (hnone _),
    hclosed.cancelled, hclosed.uncancelled,
    fun task _ he => absurd he (hempty _), h.known, h.once, h.handled⟩

theorem Inv.reset : Inv d.reset := by
  unfold InstanceDirectory.reset
  split
  · exact h
  have hfold : ∀ (l : List Entry) (d : InstanceDirectory), Inv d →
      Inv (l.foldl InstanceDirectory.removeEntry d) := by
    intro l
    induction l with
    | nil => exact fun d h => h
    | cons e l ih => exact fun d h => ih _ (h.removeEntry e)
  exact hfold _ _ ⟨h.keys, h.inserted, h.held, h.cancelled, h.uncancelled,
    h.kept, h.known, h.once, h.handled⟩

end

/-! ## The pairs ahead -/

@[simp] theorem ready_removeEntry (entry : Entry) : (d.removeEntry entry).ready = d.ready := by
  unfold InstanceDirectory.removeEntry
  split <;> rfl

section

variable (hc : Covered d)

include hc

theorem Covered.removeEntry (h : Inv d) (entry : Entry) :
    Covered (d.removeEntry entry) := by
  unfold InstanceDirectory.removeEntry
  split
  · exact hc
  rename_i hget
  have hlive := (get_eq_some (not_not.mp hget)).1
  intro hr n o' k e ho he
  obtain ⟨o, ho, rfl⟩ := mem_map.mp ho
  obtain ⟨he, hne⟩ := (mem_keep_key h hlive).mp he
  rcases hc hr n o k e ho he with ht | hf
  · left
    show ((o.forget entry).tasks.get? e).isSome = true
    rwa [Observer.forget, InsertionMap.get?_delete, if_neg (Ne.symm hne)]
  · exact .inr hf

theorem Covered.put (entry : Entry) : Covered (d.put entry) := by
  unfold InstanceDirectory.put
  simp only
  split
  · intro hr n o k e ho he
    rcases mem_push.mp he with he | he
    · rcases hc hr n o k e ho he with ht | ⟨f, hf, hcov⟩
      · exact .inl ht
      · exact .inr ⟨f, List.mem_cons_of_mem _ hf, hcov⟩
    · right
      refine ⟨.startAll entry 0, List.mem_cons_self, ?_, Nat.zero_le _⟩
      exact (Prod.mk.inj he).2.symm
  · rename_i hready
    exact fun hr => absurd hr hready

theorem Covered.becomeReady (hd : d.becomeReady = .ok d') : Covered d' := by
  unfold InstanceDirectory.becomeReady at hd
  split at hd
  · cases hd
  split at hd
  · cases hd
    exact hc
  · cases hd
    intro _ n o k e _ _
    exact .inr ⟨.ready 0, List.mem_cons_self, Nat.zero_le _⟩

theorem Covered.reset : Covered d.reset := by
  unfold InstanceDirectory.reset
  split
  · exact hc
  have hready : ∀ (l : List Entry) (d : InstanceDirectory),
      (l.foldl InstanceDirectory.removeEntry d).ready = d.ready := by
    intro l
    induction l with
    | nil => exact fun d => rfl
    | cons e l ih => exact fun d => (ih _).trans (ready_removeEntry e)
  intro hr
  rw [hready] at hr
  cases hr

theorem Covered.observe (hd : d.observe = .ok d') : Covered d' := by
  unfold InstanceDirectory.observe at hd
  split at hd
  · cases hd
  simp only [Except.ok.injEq] at hd
  subst hd
  split
  · intro hr n o k e ho he
    rcases mem_push.mp ho with ho | ho
    · rcases hc hr n o k e ho he with ht | ⟨f, hf, hcov⟩
      · exact .inl ht
      · exact .inr ⟨f, List.mem_cons_of_mem _ hf, hcov⟩
    · right
      refine ⟨.observe d.observers.next 0, List.mem_cons_self, ?_, Nat.zero_le _⟩
      exact (Prod.mk.inj ho).1.symm
  · rename_i hready
    exact fun hr => absurd hr hready

theorem Covered.stop (observer : Nat) : Covered (d.stop observer) := by
  unfold InstanceDirectory.stop
  split
  · exact hc
  · intro hr n o k e ho he
    exact hc hr n o k e (mem_keep.mp ho).1 he

theorem Covered.dispose : Covered d.dispose := by
  unfold InstanceDirectory.dispose
  split
  · exact hc
  · intro hr n o k e ho he
    exact hc hr n o k e (mem_keep.mp ho).1 (mem_keep.mp he).1

end

theorem covered_start {observer : Nat}
    (hc : d.ready = true → ∀ n o k e, (n, o) ∈ d.observers.slots →
      (k, e) ∈ d.entries.slots → ¬ (n = observer ∧ e = entry) →
      (o.tasks.get? e).isSome = true ∨ ∃ f ∈ d.stack, f.Covers n k e) :
    Covered (d.start observer entry) := by
  unfold InstanceDirectory.start
  split
  · rename_i hnone
    intro hr n o k e ho he
    refine hc hr n o k e ho he ?_
    rintro ⟨rfl, -⟩
    exact get?_eq_none.mp hnone o ho
  rename_i o₀ hget
  have ho₀ := get?_eq_some.mp hget
  split
  · rename_i hhas
    intro hr n o k e ho he
    by_cases hpair : n = observer ∧ e = entry
    · obtain ⟨rfl, rfl⟩ := hpair
      rw [slot_unique ho ho₀]
      exact .inl hhas
    · exact hc hr n o k e ho he hpair
  · intro hr n x k e hx he
    obtain ⟨o, ho, rfl⟩ := mem_update.mp hx
    by_cases hpair : n = observer ∧ e = entry
    · obtain ⟨rfl, rfl⟩ := hpair
      simp
    · rcases hc hr n o k e ho he hpair with ht | ⟨f, hf, hcov⟩
      · left
        show (Observer.tasks (if n = observer then _ else o) |>.get? e).isSome = true
        split
        · rw [InsertionMap.get?_set]
          split
          · rfl
          · exact ht
        · exact ht
      · exact .inr ⟨f, List.mem_cons_of_mem _ hf, hcov⟩

theorem Covered.top (hc : Covered d) {top : Frame} {rest : List Frame}
    (hstack : d.stack = top :: rest) (hr : d.ready = true) {n k : Nat}
    {o : Observer} (ho : (n, o) ∈ d.observers.slots) (he : (k, e) ∈ d.entries.slots) :
    (o.tasks.get? e).isSome = true ∨ top.Covers n k e ∨ ∃ f ∈ rest, f.Covers n k e := by
  rcases hc hr n o k e ho he with ht | ⟨f, hf, hcov⟩
  · exact .inl ht
  · rw [hstack] at hf
    rcases List.mem_cons.mp hf with rfl | hf
    · exact .inr (.inl hcov)
    · exact .inr (.inr ⟨f, hf, hcov⟩)

theorem Covered.advance (hc : Covered d) (hd : d.advance = some d') : Covered d' := by
  unfold InstanceDirectory.advance at hd
  split at hd
  · rename_i entry cursor rest hstack
    split at hd
    · rename_i hvisit
      cases hd
      intro hr n o k e ho he
      rcases hc.top hstack hr ho he with ht | ⟨-, hn⟩ | hf
      · exact .inl ht
      · have hlt := visit_eq_none.mp hvisit (n, o) ho
        omega
      · exact .inr hf
    · rename_i m o₀ hvisit
      cases hd
      obtain ⟨-, -, hnext⟩ := visit_eq_some hvisit
      refine covered_start fun hr n o k e ho he hpair => ?_
      rcases hc.top hstack hr ho he with ht | ⟨rfl, hn⟩ | ⟨f, hf, hcov⟩
      · exact .inl ht
      · rcases hnext (n, o) ho hn with heq | hle
        · exact absurd ⟨(Prod.mk.inj heq).1, rfl⟩ hpair
        · exact .inr ⟨_, List.mem_cons_self, rfl, hle⟩
      · exact .inr ⟨f, List.mem_cons_of_mem _ hf, hcov⟩
  · rename_i cursor rest hstack
    split at hd
    · rename_i hvisit
      cases hd
      intro hr n o k e ho he
      rcases hc.top hstack hr ho he with ht | hk | hf
      · exact .inl ht
      · have hlt := visit_eq_none.mp hvisit (k, e) he
        exact absurd hk (Nat.not_le_of_lt hlt)
      · exact .inr hf
    · rename_i m entry hvisit
      cases hd
      obtain ⟨-, -, hnext⟩ := visit_eq_some hvisit
      intro hr n o k e ho he
      rcases hc.top hstack hr ho he with ht | hk | ⟨f, hf, hcov⟩
      · exact .inl ht
      · rcases hnext (k, e) he hk with heq | hle
        · exact .inr ⟨_, List.mem_cons_self, (Prod.mk.inj heq).2.symm, Nat.zero_le _⟩
        · exact .inr ⟨_, List.mem_cons_of_mem _ List.mem_cons_self, hle⟩
      · exact .inr ⟨f, List.mem_cons_of_mem _ (List.mem_cons_of_mem _ hf), hcov⟩
  · rename_i observer cursor rest hstack
    split at hd
    · rename_i hvisit
      cases hd
      intro hr n o k e ho he
      rcases hc.top hstack hr ho he with ht | ⟨-, hk⟩ | hf
      · exact .inl ht
      · have hlt := visit_eq_none.mp hvisit (k, e) he
        omega
      · exact .inr hf
    · rename_i m entry hvisit
      cases hd
      obtain ⟨-, -, hnext⟩ := visit_eq_some hvisit
      refine covered_start fun hr n o k e ho he hpair => ?_
      rcases hc.top hstack hr ho he with ht | ⟨rfl, hk⟩ | ⟨f, hf, hcov⟩
      · exact .inl ht
      · rcases hnext (k, e) he hk with heq | hle
        · exact absurd ⟨rfl, (Prod.mk.inj heq).2⟩ hpair
        · exact .inr ⟨_, List.mem_cons_self, rfl, hle⟩
      · exact .inr ⟨f, List.mem_cons_of_mem _ hf, hcov⟩
  · cases hd

/-! ## Every step -/

theorem Inv.new (ready : Bool) : Inv (new ready) where
  keys := List.nodup_nil
  inserted := by nofun
  held := by nofun
  cancelled := by nofun
  uncancelled := by nofun
  kept := by nofun
  known := by nofun
  once := List.nodup_nil
  handled := by nofun

/-- A call keeps both; only a new entry object may be put in. -/
theorem perform_spec (h : Inv d) (hc : Covered d) {c : Call}
    (hnew : Announcing d (.call c)) (hd : d.perform c = .ok d') : Inv d' ∧ Covered d' := by
  cases c with
  | insert entry =>
    unfold perform InstanceDirectory.insert at hd
    simp only at hd
    split at hd
    · cases hd
    split at hd
    · cases hd
    rename_i hkey
    cases hd
    rw [Bool.not_eq_true, Option.isSome_eq_false_iff,
      Option.isNone_iff_eq_none] at hkey
    exact ⟨h.put hnew (get_eq_none hkey), hc.put entry⟩
  | replace entry =>
    unfold perform InstanceDirectory.replace at hd
    simp only at hd
    split at hd
    · cases hd
    split at hd
    · rename_i hkey
      cases hd
      exact ⟨h.put hnew (get_eq_none hkey), hc.put entry⟩
    · rename_i previous hprev
      split at hd
      · cases hd
      · cases hd
        obtain ⟨-, hkey⟩ := get_eq_some hprev
        refine ⟨(h.removeEntry previous).put ?_ ?_,
          (hc.removeEntry h previous).put entry⟩
        all_goals
          unfold InstanceDirectory.removeEntry
          rw [hkey, hprev]
          simp only [ne_eq, not_true_eq_false, if_false]
        · exact hnew
        · intro e he
          obtain ⟨k, he⟩ := mem_values.mp he
          simpa using (mem_keep.mp he).2
  | remove entry =>
    cases hd
    exact ⟨h.removeEntry entry, hc.removeEntry h entry⟩
  | ready =>
    refine ⟨?_, hc.becomeReady hd⟩
    unfold perform InstanceDirectory.becomeReady at hd
    simp only at hd
    split at hd
    · cases hd
    split at hd
    · cases hd
      exact h
    · cases hd
      exact ⟨h.keys, h.inserted, h.held, h.cancelled, h.uncancelled, h.kept,
        h.known, h.once, h.handled⟩
  | reset =>
    cases hd
    exact ⟨h.reset, hc.reset⟩
  | observe => exact ⟨h.observe hd, hc.observe hd⟩
  | stop observer =>
    cases hd
    exact ⟨h.stop observer, hc.stop observer⟩
  | dispose =>
    cases hd
    exact ⟨h.dispose, hc.dispose⟩

theorem Inv.advance (h : Inv d) (hlive : d.announcesLive = true)
    (hd : d.advance = some d') : Inv d' := by
  unfold InstanceDirectory.advance at hd
  split at hd
  · rename_i entry cursor rest hstack
    split at hd
    · cases hd
      exact h.withStack _
    · rename_i n o hvisit
      cases hd
      refine (h.withStack _).start n ?_
      simpa [announcesLive, hstack, hvisit] using hlive
  · split at hd
    · cases hd
      exact h.withStack _
    · cases hd
      exact h.withStack _
  · split at hd
    · cases hd
      exact h.withStack _
    · rename_i k entry hvisit
      cases hd
      refine (h.withStack _).start _ (mem_values.mpr ⟨k, ?_⟩)
      exact (visit_eq_some hvisit).1
  · cases hd

theorem step_spec (h : Inv d) (hc : Covered d) {label : Label}
    (hok : Announcing d label) (hd : d.step label = some d') : Inv d' ∧ Covered d' := by
  cases label with
  | call c =>
    unfold InstanceDirectory.step at hd
    simp only at hd
    split at hd
    · split at hd
      · rename_i hperform
        cases hd
        exact perform_spec h hc hok hperform
      · cases hd
        exact ⟨h, hc⟩
    · cases hd
  | finish =>
    unfold InstanceDirectory.step at hd
    simp only at hd
    split at hd
    · rename_i hstack
      cases hd
      refine ⟨h.withStack _, fun hr n o k e ho he => ?_⟩
      rcases hc.top hstack hr ho he with ht | hcov | hf
      · exact .inl ht
      · exact absurd hcov (by simp [Frame.Covers])
      · exact .inr hf
    · cases hd
  | advance => exact ⟨h.advance hok hd, hc.advance hd⟩

theorem Runs.spec (h : Runs Announcing d) : Inv d ∧ Covered d := by
  refine h.invariant (p := fun d => Inv d ∧ Covered d) ?_ ?_
  · rintro _ ⟨ready, rfl⟩
    refine ⟨.new ready, fun _ n o k e ho => ?_⟩
    nofun
  · exact fun d label d' hd hok hstep => step_spec hd.1 hd.2 hok hstep

theorem mem_uncancelled {task : Task} (ht : task ∈ d.uncancelled) :
    ∃ t, d.started[t]? = some task ∧ t ∉ d.cancelled := by
  obtain ⟨⟨task, t⟩, hp, rfl⟩ := List.mem_map.mp ht
  obtain ⟨hp, hnot⟩ := List.mem_filter.mp hp
  exact ⟨t, List.mem_zipIdx_iff_getElem?.mp hp, of_decide_eq_true hnot⟩

/-- **Observers and live entries are matched** in every state of a run in
which entry objects are new when they are put in and no announcement goes
on for a removed entry. -/
theorem observers_matched (h : Runs Announcing d) : Matched d := by
  obtain ⟨hinv, hcov⟩ := h.spec
  refine ⟨?_, ?_, List.nodup_iff_count_le_one.mp hinv.once, hinv.handled⟩
  · intro hstack hready n o ho e he
    obtain ⟨k, hk⟩ := mem_values.mp he
    rcases hcov hready n o k e ho hk with ht | ⟨f, hf, -⟩
    · have hsub : (d.uncancelled.map Task.pair).Sublist (d.started.map Task.pair) := by
        have hall : d.started.zipIdx.map Prod.fst = d.started := List.zipIdx_map_fst 0 d.started
        conv_rhs => rw [← hall]
        exact (List.filter_sublist.map _).map _
      refine List.count_eq_one_of_mem (hsub.nodup hinv.once) ?_
      obtain ⟨t, ht⟩ := Option.isSome_iff_exists.mp ht
      obtain ⟨-, hnot, task, htask, rfl, rfl⟩ := hinv.held n o ho e t ht
      refine List.mem_map.mpr ⟨task, List.mem_map.mpr ⟨(task, t), ?_, rfl⟩, rfl⟩
      exact List.mem_filter.mpr ⟨List.mem_zipIdx_iff_getElem?.mpr htask, decide_eq_true hnot⟩
    · rw [hstack] at hf
      cases hf
  · intro task htask
    obtain ⟨t, ht, hnot⟩ := mem_uncancelled htask
    obtain ⟨o, ho, hheld⟩ := hinv.uncancelled t task ht hnot
    exact ⟨(hinv.held _ o ho _ t hheld).1, o, ho⟩

/-! ## Two runs -/

instance (d : InstanceDirectory) : (label : Label) → Decidable (Announcing d label)
  | .call (.insert entry) => inferInstanceAs (Decidable (entry ∉ d.inserted))
  | .call (.replace entry) => inferInstanceAs (Decidable (entry ∉ d.inserted))
  | .advance => inferInstanceAs (Decidable (d.announcesLive = true))
  | .call (.remove _) | .call .ready | .call .reset | .call .observe
  | .call (.stop _) | .call .dispose | .finish => isTrue trivial

def sampleEntry : Entry := ⟨1, "key", 1⟩

/-- Two observers, and an entry whose second observer replaces it. -/
def replacingLabels : List Label :=
  [ .call .observe, .advance, .call .observe, .advance,
    .call (.insert sampleEntry), .advance, .finish, .advance,
    .call (.replace ⟨2, "key", 2⟩), .advance, .finish, .advance, .finish,
    .advance, .finish, .advance ]

/-- The same entry, removed by the handler of the first observer. -/
def removingLabels : List Label :=
  [ .call .observe, .advance, .call .observe, .advance,
    .call (.insert sampleEntry), .advance, .call (.remove sampleEntry),
    .finish, .advance, .finish, .advance ]

theorem observers_matched_sample :
    (Run.afterAll step (new true) replacingLabels).stack = [] ∧
      Matched (Run.afterAll step (new true) replacingLabels) :=
  ⟨by decide, observers_matched (Run.of_check (.init ⟨true, rfl⟩) (by decide))⟩

/-- The announcement goes on: the second observer is started on an entry
that is gone, and its task stays. -/
theorem removed_entry_announced : ¬ ∀ d, Runs (fun _ _ => True) d → Matched d := by
  intro hall
  have hmatched := hall (Run.afterAll step (new true) removingLabels)
    (Run.of_check (.init ⟨true, rfl⟩) (by decide))
  have hdead : ⟨1, sampleEntry, false, true⟩ ∈
      (Run.afterAll step (new true) removingLabels).started := by decide
  have hlive := (hmatched.handled _ hdead).1
  cases hlive

end InstanceDirectory

end ReflectivePi.Services
