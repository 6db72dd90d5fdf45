import Mathlib.Algebra.Ring.Nat
import ReflectivePi.Tools.MutationQueue

/-!
# Tools — Mutations

What holds of the mutation queues in every run: a call under a key waits
for all earlier calls under that key, a key is bound to its last call until
that one has settled, and a queue that waits for nothing goes on.
-/

namespace ReflectivePi.Tools.Queues

open List

variable {Path File : Type} {F : FileSystem Path File}
  {s s' : Queues Path File} {id i j : Nat} {c d : Call Path}

/-- A registered call some way further on. -/
structure Further (c c' : Call Path) : Prop where
  path : c'.path = c.path
  key : c'.key = c.key
  currentQueue : c'.currentQueue = c.currentQueue
  left : c'.stage.left ≤ c.stage.left
  registered : c.stage.registered = true ∨ c' = c

variable {stage : Stage} {c' : Call Path}

theorem settled_of_left (h : stage.left = 0) : stage = .settled := by
  cases stage <;> first | rfl | cases h

theorem Further.refl (c : Call Path) : Further c c :=
  ⟨rfl, rfl, rfl, Nat.le_refl _, .inr rfl⟩

theorem Further.settled (h : Further c c')
    (hc : c.stage = .settled) : c'.stage = .settled := by
  refine settled_of_left (Nat.le_zero.mp ?_)
  rw [← show c.stage.left = 0 from hc ▸ rfl]
  exact h.left

theorem Further.registered_iff (h : Further c c') : c'.stage.registered = c.stage.registered := by
  rcases h.registered with hregistered | rfl
  · have hle := of_decide_eq_true hregistered
    rw [hregistered]
    exact decide_eq_true (Nat.le_trans h.left hle)
  · rfl

theorem Further.ne_waiting (h : Further c c')
    (hc : c'.stage ≠ .waiting) : c.stage ≠ .waiting := by
  rcases h.registered with hregistered | rfl
  · intro hwaiting
    rw [hwaiting] at hregistered
    cases hregistered
  · exact hc

theorem Further.advance {next : Stage} (hstage : c.stage = stage)
    (hregistered : stage.registered = true) (hle : next.left ≤ stage.left) :
    Further c { c with stage := next } :=
  ⟨rfl, rfl, rfl, hstage ▸ hle, .inl (hstage ▸ hregistered)⟩

variable {f : Call Path → Call Path}

theorem update_cases (hcall : s.calls[id]? = some d) (hc : (s.update id f).calls[i]? = some c) :
    (i ≠ id ∧ s.calls[i]? = some c) ∨ (i = id ∧ c = f d) := by
  by_cases hi : i = id
  · subst hi
    exact .inr ⟨rfl, (Option.some.inj ((update_self _ hcall).symm.trans hc)).symm⟩
  · exact .inl ⟨hi, (update_of_ne s _ hi).symm.trans hc⟩

variable [DecidableEq Path]

/-! ## The invariant -/

/-- The links of the chains: a registered call whose queue is new comes after
calls that have settled, and one that waits for a call comes right after it. -/
structure Linked (s : Queues Path File) : Prop where
  alone : ∀ (i j : Nat) (d c : Call Path), i < j → j < s.registered →
    s.calls[i]? = some d → s.calls[j]? = some c → c.currentQueue = none →
      d.key = c.key → d.stage = .settled
  ahead : ∀ (j q : Nat) (c : Call Path), j < s.registered →
    s.calls[j]? = some c → c.currentQueue = some q →
      q < j ∧ ∃ d : Call Path, s.calls[q]? = some d ∧ d.key = c.key
  between : ∀ (i j q : Nat) (d c : Call Path), q < i → i < j → j < s.registered →
    s.calls[i]? = some d → s.calls[j]? = some c → c.currentQueue = some q →
      d.key = c.key → d.stage = .settled

/-- The entries of the map: a key is bound to its last call, which has not
settled, and where there is none all its calls have. -/
structure Bound (s : Queues Path File) : Prop where
  last : ∀ (key : Path) (p : Nat), s.fileMutationQueues.get? key = some p → p < s.registered ∧
    (∃ c : Call Path, s.calls[p]? = some c ∧ c.key = some key ∧ c.stage ≠ .settled) ∧
    ∀ (i : Nat) (d : Call Path), p < i → i < s.registered → s.calls[i]? = some d → d.key ≠ some key
  absent : ∀ key : Path, s.fileMutationQueues.get? key = none →
    ∀ (i : Nat) (c : Call Path), i < s.registered → s.calls[i]? = some c →
      c.key = some key → c.stage = .settled

structure Inv (F : FileSystem Path File) (s : Queues Path File) : Prop where
  bound : s.registered ≤ s.calls.length
  front : ∀ (i : Nat) (c : Call Path), s.calls[i]? = some c →
    (c.stage.registered = true ↔ i < s.registered)
  keyed : ∀ (i : Nat) (c : Call Path), s.calls[i]? = some c →
    c.stage ≠ .waiting → ∃ key, c.key = some key ∧ F.fileAt key = F.denotes c.path
  chained : ∀ (i : Nat) (c : Call Path), s.calls[i]? = some c →
    c.chainResolved = true → c.stage = .settled
  linked : Linked s
  /-- A function that has started comes after calls that have settled. -/
  order : ∀ (i j : Nat) (d c : Call Path), i < j → s.calls[i]? = some d →
    s.calls[j]? = some c → c.stage.started = true → d.key = c.key → d.stage = .settled
  entries : Bound s

theorem registered_of_started (h : stage.started = true) : stage.registered = true := by
  cases stage <;> first | rfl | cases h

theorem queued_of_not_started (hregistered : stage.registered = true)
    (hstarted : stage.started = false) : stage = .queued := by
  cases stage with
  | queued => rfl
  | waiting => exact absurd hregistered (by decide)
  | keyed => exact absurd hregistered (by decide)
  | _ => exact absurd hstarted (by decide)

theorem inv_init (existing : File → Bool) : Inv F (init existing : Queues Path File) := by
  refine ⟨Nat.le_refl 0, ?_, ?_, ?_, ⟨?_, ?_, ?_⟩, ?_, ⟨?_, ?_⟩⟩ <;> simp [init]

theorem Inv.settled_ahead (h : Inv F s) (hij : i < j) (hj : j < s.registered)
    (hd : s.calls[i]? = some d) (hc : s.calls[j]? = some c)
    (hkey : d.key = c.key) (hcurrent : s.currentResolved c = true) : d.stage = .settled := by
  cases hqueue : c.currentQueue with
  | none => exact h.linked.alone i j d c hij hj hd hc hqueue hkey
  | some q =>
    obtain ⟨hqj, e, he, hekey⟩ := h.linked.ahead j q c hj hc hqueue
    rw [currentResolved, hqueue] at hcurrent
    simp only [he, Option.any_some] at hcurrent
    have hsettled := h.chained q e he hcurrent
    rcases Nat.lt_trichotomy i q with hiq | rfl | hqi
    · refine h.order i q d e hiq hd he ?_ (hkey.trans hekey.symm)
      rw [hsettled]
      rfl
    · rw [hd] at he
      cases he
      exact hsettled
    · exact h.linked.between i j q d c hqi hij hj hd hc hqueue hkey

/-- Nothing changes for the calls that are registered. -/
theorem Inv.before (h : Inv F s) (hregistered : s'.registered = s.registered)
    (hqueues : s'.fileMutationQueues = s.fileMutationQueues)
    (hsame : ∀ i < s.registered, s'.calls[i]? = s.calls[i]?)
    (hbound : s.registered ≤ s'.calls.length)
    (hnew : ∀ (i : Nat) (c : Call Path), s.registered ≤ i → s'.calls[i]? = some c →
      c.stage.registered = false ∧ c.chainResolved = false ∧
      (c.stage ≠ .waiting → ∃ key, c.key = some key ∧
        F.fileAt key = F.denotes c.path)) : Inv F s' := by
  have hfront (i : Nat) (c : Call Path) (hc : s'.calls[i]? = some c) :
      c.stage.registered = true ↔ i < s.registered := by
    by_cases hi : i < s.registered
    · exact h.front i c (hsame i hi ▸ hc)
    · rw [(hnew i c (Nat.le_of_not_lt hi) hc).1]
      exact iff_of_false Bool.false_ne_true hi
  refine ⟨hregistered ▸ hbound, hregistered ▸ hfront, ?_, ?_, ⟨?_, ?_, ?_⟩, ?_, ⟨?_, ?_⟩⟩
  · intro i c hc
    by_cases hi : i < s.registered
    · exact h.keyed i c (hsame i hi ▸ hc)
    · exact (hnew i c (Nat.le_of_not_lt hi) hc).2.2
  · intro i c hc hchain
    by_cases hi : i < s.registered
    · exact h.chained i c (hsame i hi ▸ hc) hchain
    · rw [(hnew i c (Nat.le_of_not_lt hi) hc).2.1] at hchain
      cases hchain
  · intro i j d c hij hj hd hc
    rw [hregistered] at hj
    exact h.linked.alone i j d c hij hj (hsame i (Nat.lt_trans hij hj) ▸ hd) (hsame j hj ▸ hc)
  · intro j q c hj hc hqueue
    rw [hregistered] at hj
    obtain ⟨hqj, hq⟩ := h.linked.ahead j q c hj (hsame j hj ▸ hc) hqueue
    rw [← hsame q (Nat.lt_trans hqj hj)] at hq
    exact ⟨hqj, hq⟩
  · intro i j q d c hqi hij hj hd hc
    rw [hregistered] at hj
    exact h.linked.between i j q d c hqi hij hj (hsame i (Nat.lt_trans hij hj) ▸ hd)
      (hsame j hj ▸ hc)
  · intro i j d c hij hd hc hstarted
    have hj := (hfront j c hc).mp (registered_of_started hstarted)
    exact h.order i j d c hij (hsame i (Nat.lt_trans hij hj) ▸ hd) (hsame j hj ▸ hc) hstarted
  · intro key p hp
    rw [hqueues] at hp
    rw [hregistered]
    obtain ⟨hlt, hbound, hlast⟩ := h.entries.last key p hp
    rw [← hsame p hlt] at hbound
    exact ⟨hlt, hbound, fun i d hi hlt' hd => hlast i d hi hlt' (hsame i hlt' ▸ hd)⟩
  · intro key hnone i c hi hc
    rw [hqueues] at hnone
    rw [hregistered] at hi
    exact h.entries.absent key hnone i c hi (hsame i hi ▸ hc)

theorem Inv.unregistered (h : Inv F s) (hi : s.registered ≤ i) (hc : s.calls[i]? = some c) :
    c.stage.registered = false ∧ c.chainResolved = false := by
  have hnot : c.stage.registered = false := by
    rw [← Bool.not_eq_true, h.front i c hc]
    exact Nat.not_lt.mpr hi
  refine ⟨hnot, ?_⟩
  by_contra hchain
  rw [h.chained i c hc (Bool.not_eq_false _ ▸ hchain)] at hnot
  cases hnot

theorem Inv.call (h : Inv F s) {path : Path}
    (hs : step F s (.call path) = some s') : Inv F s' := by
  cases hs
  refine h.before rfl rfl (fun i hi => ?_) ?_ fun i c hi hc => ?_
  · exact getElem?_append_left (Nat.lt_of_lt_of_le hi h.bound)
  · rw [length_append]
    exact Nat.le_add_right_of_le h.bound
  · by_cases hlt : i < s.calls.length
    · rw [getElem?_append_left hlt] at hc
      obtain ⟨hregistered, hchain⟩ := h.unregistered hi hc
      exact ⟨hregistered, hchain, h.keyed i c hc⟩
    · rw [getElem?_append_right (Nat.le_of_not_lt hlt)] at hc
      obtain rfl := List.mem_singleton.mp (mem_of_getElem? hc)
      exact ⟨rfl, rfl, fun hne => absurd rfl hne⟩

theorem Inv.change (h : Inv F s) {existing : File → Bool}
    (hs : step F s (.change existing) = some s') : Inv F s' := by
  cases hs
  refine h.before rfl rfl (fun i hi => rfl) h.bound fun i c hi hc => ?_
  obtain ⟨hregistered, hchain⟩ := h.unregistered hi hc
  exact ⟨hregistered, hchain, h.keyed i c hc⟩

theorem Inv.resolveKey (h : Inv F s) (hs : step F s .resolveKey = some s') : Inv F s' := by
  obtain ⟨call, hcall, hstage, rfl⟩ := step_resolveKey hs
  refine h.before rfl rfl (fun i hi => update_of_ne s _ (Nat.ne_of_lt hi)) ?_
    fun i c hi hc => ?_
  · rw [length_update]
    exact h.bound
  · rcases update_cases hcall hc with ⟨-, hc⟩ | ⟨-, rfl⟩
    · obtain ⟨hregistered, hchain⟩ := h.unregistered hi hc
      exact ⟨hregistered, hchain, h.keyed i c hc⟩
    · exact ⟨rfl, (h.unregistered (Nat.le_refl _) hcall).2,
        fun _ => ⟨_, rfl, F.fileAt_getMutationQueueKey _ _⟩⟩

/-! ## Steps after a registration -/

/-- One registered call goes on, and the queues do what they must. -/
theorem Inv.after (h : Inv F s) (hregistered : s'.registered = s.registered)
    (hcalls : s'.calls = (s.update id f).calls) (hcall : s.calls[id]? = some c)
    (hfurther : Further c (f c)) (hchained : (f c).chainResolved = true → (f c).stage = .settled)
    (horder : (f c).stage.started = true → ∀ (i : Nat) (d : Call Path), i < id →
      s.calls[i]? = some d → d.key = c.key → d.stage = .settled) (hentries : Bound s') :
    Inv F s' := by
  have hback (i : Nat) (c' : Call Path) (hc' : s'.calls[i]? = some c') :
      ∃ e, s.calls[i]? = some e ∧ Further e c' ∧ (i ≠ id ∧ c' = e ∨ i = id ∧ c' = f c) := by
    rw [hcalls] at hc'
    rcases update_cases hcall hc' with ⟨hid, hc'⟩ | ⟨rfl, rfl⟩
    · exact ⟨c', hc', .refl c', .inl ⟨hid, rfl⟩⟩
    · exact ⟨c, hcall, hfurther, .inr ⟨rfl, rfl⟩⟩
  refine ⟨?_, ?_, ?_, ?_, ⟨?_, ?_, ?_⟩, ?_, hentries⟩
  · rw [hregistered, hcalls, length_update]
    exact h.bound
  · intro i c' hc'
    obtain ⟨e, he, hfar, -⟩ := hback i c' hc'
    rw [hfar.registered_iff, hregistered]
    exact h.front i e he
  · intro i c' hc' hwaiting
    obtain ⟨e, he, hfar, -⟩ := hback i c' hc'
    rw [hfar.key, hfar.path]
    exact h.keyed i e he (hfar.ne_waiting hwaiting)
  · intro i c' hc' hchain
    obtain ⟨e, he, hfar, ⟨-, rfl⟩ | ⟨rfl, rfl⟩⟩ := hback i c' hc'
    · exact h.chained i _ he hchain
    · exact hchained hchain
  · intro i j d' c' hij hj hd' hc' hqueue hkey
    obtain ⟨d, hd, hfard, -⟩ := hback i d' hd'
    obtain ⟨e, he, hfare, -⟩ := hback j c' hc'
    rw [hregistered] at hj
    exact hfard.settled (h.linked.alone i j d e hij hj hd he
      (hfare.currentQueue ▸ hqueue) (by rw [← hfard.key, hkey, hfare.key]))
  · intro j q c' hj hc' hqueue
    obtain ⟨e, he, hfare, -⟩ := hback j c' hc'
    rw [hregistered] at hj
    obtain ⟨hqj, b, hb, hkey⟩ := h.linked.ahead j q e hj he (hfare.currentQueue ▸ hqueue)
    refine ⟨hqj, ?_⟩
    rw [hfare.key, ← hkey, hcalls]
    by_cases hid : q = id
    · subst hid
      rw [hcall] at hb
      cases hb
      exact ⟨f c, update_self _ hcall, hfurther.key⟩
    · exact ⟨b, (update_of_ne s _ hid).trans hb, rfl⟩
  · intro i j q d' c' hqi hij hj hd' hc' hqueue hkey
    obtain ⟨d, hd, hfard, -⟩ := hback i d' hd'
    obtain ⟨e, he, hfare, -⟩ := hback j c' hc'
    rw [hregistered] at hj
    exact hfard.settled (h.linked.between i j q d e hqi hij hj hd he
      (hfare.currentQueue ▸ hqueue) (by rw [← hfard.key, hkey, hfare.key]))
  · intro i j d' c' hij hd' hc' hstarted hkey
    obtain ⟨d, hd, hfard, -⟩ := hback i d' hd'
    obtain ⟨e, he, hfare, hwhich⟩ := hback j c' hc'
    have hkeys : d.key = e.key := by rw [← hfard.key, hkey, hfare.key]
    rcases hwhich with ⟨-, rfl⟩ | ⟨rfl, rfl⟩
    · exact hfard.settled (h.order i j d _ hij hd he hstarted hkeys)
    · rw [hcall] at he
      cases he
      exact hfard.settled (horder hstarted i d hij hd hkeys)

theorem Bound.of_further (h : Bound s) (hregistered : s'.registered = s.registered)
    (hcalls : s'.calls = (s.update id f).calls) (hcall : s.calls[id]? = some c)
    (hfurther : Further c (f c)) (hqueues : s'.fileMutationQueues = s.fileMutationQueues)
    (hsettled : (f c).stage = .settled → c.stage = .settled) : Bound s' := by
  constructor
  · intro key p hp
    rw [hqueues] at hp
    obtain ⟨hlt, ⟨e, he, hkey, hopen⟩, hlast⟩ := h.last key p hp
    rw [hregistered, hcalls]
    refine ⟨hlt, ?_, fun i d' hpi hi hd' => ?_⟩
    · by_cases hid : p = id
      · subst hid
        rw [hcall] at he
        cases he
        exact ⟨f c, update_self _ hcall, hfurther.key.trans hkey, fun hc => hopen (hsettled hc)⟩
      · exact ⟨e, (update_of_ne s _ hid).trans he, hkey, hopen⟩
    · rcases update_cases hcall hd' with ⟨-, hd'⟩ | ⟨rfl, rfl⟩
      · exact hlast i d' hpi hi hd'
      · rw [hfurther.key]
        exact hlast i c hpi hi hcall
  · intro key hnone i c' hi hc' hkey
    rw [hqueues] at hnone
    rw [hregistered] at hi
    rw [hcalls] at hc'
    rcases update_cases hcall hc' with ⟨-, hc'⟩ | ⟨rfl, rfl⟩
    · exact h.absent key hnone i c' hi hc' hkey
    · exact hfurther.settled (h.absent key hnone i c hi hcall (hfurther.key ▸ hkey))

theorem Inv.start (h : Inv F s) (hs : step F s (.start id) = some s') : Inv F s' := by
  obtain ⟨call, hcall, hstage, hcurrent, rfl⟩ := step_start hs
  have hregistered : call.stage.registered = true := by rw [hstage]; rfl
  have hfurther : Further call { call with stage := .running } := .advance hstage rfl (by decide)
  have hlt := (h.front id call hcall).mp hregistered
  refine h.after rfl rfl hcall hfurther (fun hchain => ?_) (fun _ i d hi hd hkey => ?_)
    (h.entries.of_further rfl rfl hcall hfurther rfl nofun)
  · have hsettled := h.chained id call hcall hchain
    rw [hstage] at hsettled
    cases hsettled
  · exact h.settled_ahead hi hlt hd hcall hkey hcurrent

theorem Inv.finish (h : Inv F s) (hs : step F s (.finish id) = some s') : Inv F s' := by
  obtain ⟨call, hcall, hstage, rfl⟩ := step_finish hs
  have hfurther : Further call { call with stage := .finished } := .advance hstage rfl (by decide)
  refine h.after rfl rfl hcall hfurther (fun hchain => ?_) (fun _ i d hi hd hkey => ?_)
    (h.entries.of_further rfl rfl hcall hfurther rfl nofun)
  · have hsettled := h.chained id call hcall hchain
    rw [hstage] at hsettled
    cases hsettled
  · exact h.order i id d call hi hd hcall (by rw [hstage]; rfl) hkey

theorem Inv.resolveChain (h : Inv F s)
    (hs : step F s (.resolveChain id) = some s') : Inv F s' := by
  obtain ⟨call, hcall, hstage, -, -, rfl⟩ := step_resolveChain hs
  have hfurther : Further call { call with chainResolved := true } :=
    ⟨rfl, rfl, rfl, Nat.le_refl _, .inl (by rw [hstage]; rfl)⟩
  refine h.after rfl rfl hcall hfurther (fun _ => hstage) (fun hstarted i d hi hd hkey => ?_)
    (h.entries.of_further rfl rfl hcall hfurther rfl fun hsettled => hsettled)
  exact h.order i id d call hi hd hcall hstarted hkey

theorem Inv.release (h : Inv F s) (hs : step F s (.release id) = some s') : Inv F s' := by
  obtain ⟨call, key, hcall, hstage, hkey, rfl⟩ := step_release hs
  have hstarted : call.stage.started = true := by rw [hstage]; rfl
  have hfurther : Further call { call with stage := .settled } :=
    .advance hstage rfl (Nat.zero_le _)
  have hahead (i : Nat) (d : Call Path) (hi : i < id) (hd : s.calls[i]? = some d)
      (hdkey : d.key = call.key) : d.stage = .settled :=
    h.order i id d call hi hd hcall hstarted hdkey
  refine h.after rfl rfl hcall hfurther (fun _ => rfl) (fun _ => hahead) ⟨?_, ?_⟩
  · intro key' p hp
    -- an entry that is left is not the call's own
    have hold : s.fileMutationQueues.get? key' = some p ∧ p ≠ id := by
      have hother (hp' : s.fileMutationQueues.get? key' = some p) (hne : key' ≠ key) : p ≠ id := by
        rintro rfl
        obtain ⟨-, ⟨e, he, hekey, -⟩, -⟩ := h.entries.last key' p hp'
        rw [hcall] at he
        cases he
        exact hne (Option.some.inj (hekey.symm.trans hkey))
      split at hp
      · rw [InsertionMap.get?_delete] at hp
        split at hp
        · cases hp
        · rename_i hne
          exact ⟨hp, hother hp (Ne.symm hne)⟩
      · rename_i hown
        refine ⟨hp, fun hid => ?_⟩
        by_cases hne : key' = key
        · exact hown (hne ▸ hid ▸ hp)
        · exact hother hp hne hid
    obtain ⟨hlt, ⟨e, he, hekey, hopen⟩, hlast⟩ := h.entries.last key' p hold.1
    refine ⟨hlt, ⟨e, (update_of_ne s _ hold.2).trans he, hekey, hopen⟩, ?_⟩
    intro i d hpi hi hd
    rcases update_cases hcall hd with ⟨-, hd⟩ | ⟨rfl, rfl⟩
    · exact hlast i d hpi hi hd
    · exact hlast i call hpi hi hcall
  · intro key' hnone i c hi hc hckey
    rcases update_cases hcall hc with ⟨hid, hc'⟩ | ⟨-, rfl⟩
    · have hgone : s.fileMutationQueues.get? key' = none ∨
          (key' = key ∧ s.fileMutationQueues.get? key = some id) := by
        split at hnone
        · rename_i hown
          rw [InsertionMap.get?_delete] at hnone
          split at hnone
          · rename_i heq
            exact .inr ⟨heq.symm, hown⟩
          · exact .inl hnone
        · exact .inl hnone
      rcases hgone with hnone | ⟨rfl, hown⟩
      · exact h.entries.absent key' hnone i c hi hc' hckey
      · rcases Nat.lt_or_gt_of_ne hid with hlt | hgt
        · exact hahead i c hlt hc' (hckey.trans hkey.symm)
        · exact absurd hckey ((h.entries.last key' id hown).2.2 i c hgt hi hc')
    · rfl

theorem Inv.register (h : Inv F s) (hs : step F s .register = some s') : Inv F s' := by
  obtain ⟨call, key, hcall, hstage, hkey, rfl⟩ := step_register hs
  have hlength : s.registered < s.calls.length := (List.getElem?_eq_some_iff.mp hcall).1
  have hold {i : Nat} (hi : i < s.registered + 1) (hne : i ≠ s.registered) :
      i < s.registered := Nat.lt_of_le_of_ne (Nat.le_of_lt_succ hi) hne
  have hearlier {i j : Nat} {c : Call Path} (hij : i < j) (hj : j < s.registered + 1)
      (hc : (s.update s.registered fun call =>
        { call with
          stage := .queued
          currentQueue := s.fileMutationQueues.get? key }).calls[i]? = some c) :
      s.calls[i]? = some c := by
    rcases update_cases hcall hc with ⟨-, hc⟩ | ⟨rfl, -⟩
    · exact hc
    omega
  refine ⟨?_, ?_, ?_, ?_, ⟨?_, ?_, ?_⟩, ?_, ⟨?_, ?_⟩⟩
  · exact (length_update s _ _).symm ▸ hlength
  · intro i c hc
    rcases update_cases hcall hc with ⟨hne, hc⟩ | ⟨rfl, rfl⟩
    · rw [h.front i c hc]
      exact ⟨Nat.lt_succ_of_lt, fun hi => hold hi hne⟩
    · exact iff_of_true rfl (Nat.lt_succ_self _)
  · intro i c hc hwaiting
    rcases update_cases hcall hc with ⟨-, hc⟩ | ⟨rfl, rfl⟩
    · exact h.keyed i c hc hwaiting
    · exact h.keyed s.registered call hcall (by rw [hstage]; intro hkeyed; cases hkeyed)
  · intro i c hc hchain
    rcases update_cases hcall hc with ⟨-, hc⟩ | ⟨rfl, rfl⟩
    · exact h.chained i c hc hchain
    · have hno := (h.unregistered (Nat.le_refl _) hcall).2
      exact absurd hchain (Bool.eq_false_iff.mp hno)
  · intro i j d c hij hj hd hc hqueue hdkey
    have hd := hearlier hij hj hd
    rcases update_cases hcall hc with ⟨hne, hc⟩ | ⟨rfl, rfl⟩
    · exact h.linked.alone i j d c hij (hold hj hne) hd hc hqueue hdkey
    · exact h.entries.absent key hqueue i d hij hd (hdkey.trans hkey)
  · intro j q c hj hc hqueue
    rcases update_cases hcall hc with ⟨hne, hc⟩ | ⟨rfl, rfl⟩
    · obtain ⟨hqj, hq⟩ := h.linked.ahead j q c (hold hj hne) hc hqueue
      refine ⟨hqj, ?_⟩
      have hlt := Nat.lt_trans hqj (hold hj hne)
      exact (update_of_ne s _ (Nat.ne_of_lt hlt)).symm ▸ hq
    · obtain ⟨hlt, ⟨e, he, hekey, -⟩, -⟩ := h.entries.last key q hqueue
      exact ⟨hlt, e, (update_of_ne s _ (Nat.ne_of_lt hlt)).trans he, hekey.trans hkey.symm⟩
  · intro i j q d c hqi hij hj hd hc hqueue hdkey
    have hd := hearlier hij hj hd
    rcases update_cases hcall hc with ⟨hne, hc⟩ | ⟨rfl, rfl⟩
    · exact h.linked.between i j q d c hqi hij (hold hj hne) hd hc hqueue hdkey
    · exact absurd (hdkey.trans hkey) ((h.entries.last key q hqueue).2.2 i d hqi hij hd)
  · intro i j d c hij hd hc hstarted hdkey
    rcases update_cases hcall hc with ⟨hne, hc⟩ | ⟨rfl, rfl⟩
    · have hj := (h.front j c hc).mp (registered_of_started hstarted)
      have hd := hearlier hij (Nat.lt_succ_of_lt hj) hd
      exact h.order i j d c hij hd hc hstarted hdkey
    · cases hstarted
  · intro key' p hp
    rw [InsertionMap.get?_set] at hp
    split at hp
    · rename_i heq
      subst heq
      cases hp
      refine ⟨Nat.lt_succ_self _, ⟨_, update_self _ hcall, hkey, fun h => by cases h⟩, ?_⟩
      intro i d hi hlt
      exact absurd hi (Nat.not_lt.mpr (Nat.le_of_lt_succ hlt))
    · rename_i hne
      obtain ⟨hlt, ⟨e, he, hekey, hopen⟩, hlast⟩ := h.entries.last key' p hp
      refine ⟨Nat.lt_succ_of_lt hlt,
        ⟨e, (update_of_ne s _ (Nat.ne_of_lt hlt)).trans he, hekey, hopen⟩, ?_⟩
      intro i d hpi hi hd
      rcases update_cases hcall hd with ⟨hi', hd⟩ | ⟨rfl, rfl⟩
      · exact hlast i d hpi (hold hi hi') hd
      · rw [hkey]
        exact fun heq => hne (Option.some.inj heq)
  · intro key' hnone i c hi hc hckey
    rw [InsertionMap.get?_set] at hnone
    split at hnone
    · cases hnone
    · rename_i hne
      rcases update_cases hcall hc with ⟨hi', hc⟩ | ⟨rfl, rfl⟩
      · exact h.entries.absent key' hnone i c (hold hi hi') hc hckey
      · exact absurd (Option.some.inj (hkey.symm.trans hckey)) hne

variable {label : Label Path File}

theorem Inv.step (h : Inv F s) (hs : step F s label = some s') : Inv F s' := by
  cases label with
  | call path => exact h.call hs
  | resolveKey => exact h.resolveKey hs
  | register => exact h.register hs
  | start id => exact h.start hs
  | finish id => exact h.finish hs
  | release id => exact h.release hs
  | resolveChain id => exact h.resolveChain hs
  | change existing => exact h.change hs

/-! ## One key for one file -/

/-- A registration finds the key under which every call for the same file
that has not settled is in its queue. -/
def keyKept [DecidableEq File] (F : FileSystem Path File) (s : Queues Path File) :
    Label Path File → Bool
  | .register =>
    (s.calls[s.registered]?).all fun call =>
      (s.calls.take s.registered).all fun d =>
        d.stage = .settled || F.denotes d.path ≠ F.denotes call.path || d.key = call.key
  | _ => true

/-- Calls for one file that have not settled are in one queue. -/
def OneKey (F : FileSystem Path File) (s : Queues Path File) : Prop :=
  ∀ (i j : Nat) (d c : Call Path), i < j → j < s.registered →
    s.calls[i]? = some d → s.calls[j]? = some c →
      F.denotes d.path = F.denotes c.path → d.stage = .settled ∨ d.key = c.key

omit [DecidableEq Path] in
theorem further_update (hcall : s.calls[id]? = some d) (hf : i = id → Further d (f d))
    (hc : (s.update id f).calls[i]? = some c) : ∃ e, s.calls[i]? = some e ∧ Further e c := by
  rcases update_cases hcall hc with ⟨-, hc⟩ | ⟨rfl, rfl⟩
  · exact ⟨c, hc, .refl c⟩
  · exact ⟨d, hcall, hf rfl⟩

theorem Inv.step_further (h : Inv F s) (hs : Queues.step F s label = some s')
    (hi : i < s.registered) (hc : s'.calls[i]? = some c) :
    ∃ e, s.calls[i]? = some e ∧ Further e c := by
  cases label with
  | call path =>
    cases hs
    rw [getElem?_append_left (Nat.lt_of_lt_of_le hi h.bound)] at hc
    exact ⟨c, hc, .refl c⟩
  | change existing =>
    cases hs
    exact ⟨c, hc, .refl c⟩
  | resolveKey =>
    obtain ⟨call, hcall, -, rfl⟩ := step_resolveKey hs
    exact further_update hcall (fun heq => absurd heq (Nat.ne_of_lt hi)) hc
  | register =>
    obtain ⟨call, key, hcall, -, -, rfl⟩ := step_register hs
    exact further_update hcall (fun heq => absurd heq (Nat.ne_of_lt hi)) hc
  | start id =>
    obtain ⟨call, hcall, hstage, -, rfl⟩ := step_start hs
    exact further_update hcall (fun _ => .advance hstage rfl (by decide)) hc
  | finish id =>
    obtain ⟨call, hcall, hstage, rfl⟩ := step_finish hs
    exact further_update hcall (fun _ => .advance hstage rfl (by decide)) hc
  | release id =>
    obtain ⟨call, key, hcall, hstage, -, rfl⟩ := step_release hs
    exact further_update hcall (fun _ => .advance hstage rfl (Nat.zero_le _)) hc
  | resolveChain id =>
    obtain ⟨call, hcall, hstage, -, -, rfl⟩ := step_resolveChain hs
    exact further_update hcall
      (fun _ => ⟨rfl, rfl, rfl, Nat.le_refl _, .inl (by rw [hstage]; rfl)⟩) hc

theorem step_registered (hs : step F s label = some s') (hne : label ≠ .register) :
    s'.registered = s.registered := by
  cases label with
  | call path => cases hs; rfl
  | change existing => cases hs; rfl
  | register => exact absurd rfl hne
  | resolveKey => obtain ⟨call, -, -, rfl⟩ := step_resolveKey hs; rfl
  | start id => obtain ⟨call, -, -, -, rfl⟩ := step_start hs; rfl
  | finish id => obtain ⟨call, -, -, rfl⟩ := step_finish hs; rfl
  | release id => obtain ⟨call, key, -, -, -, rfl⟩ := step_release hs; rfl
  | resolveChain id => obtain ⟨call, -, -, -, -, rfl⟩ := step_resolveChain hs; rfl

theorem OneKey.step [DecidableEq File] (h : Inv F s) (hone : OneKey F s)
    (hkept : keyKept F s label = true) (hs : Queues.step F s label = some s') : OneKey F s' := by
  intro i j d' c' hij hj hd' hc' hfile
  by_cases hlt : j < s.registered
  · obtain ⟨c, hc, hfarc⟩ := h.step_further hs hlt hc'
    obtain ⟨d, hd, hfard⟩ := h.step_further hs (Nat.lt_trans hij hlt) hd'
    rw [hfard.path, hfarc.path] at hfile
    rw [hfard.key, hfarc.key]
    exact (hone i j d c hij hlt hd hc hfile).imp_left hfard.settled
  · cases label with
    | register =>
      obtain ⟨call, key, hcall, hstage, hkey, rfl⟩ := step_register hs
      obtain rfl : j = s.registered := Nat.le_antisymm (Nat.le_of_lt_succ hj) (Nat.le_of_not_lt hlt)
      obtain ⟨d, hd, hfard⟩ := h.step_further hs hij hd'
      obtain rfl := Option.some.inj ((update_self _ hcall).symm.trans hc')
      rw [keyKept, hcall, Option.all_some, all_eq_true] at hkept
      have hd' : (s.calls.take s.registered)[i]? = some d := (getElem?_take_of_lt hij).trans hd
      have hor := hkept d (mem_of_getElem? hd')
      rw [hfard.path] at hfile
      rw [hfard.key]
      simp only [Bool.or_eq_true, decide_eq_true_eq] at hor
      rcases hor with (hsettled | hother) | hsame
      · exact .inl (hfard.settled hsettled)
      · exact absurd hfile hother
      · exact .inr hsame
    | _ =>
      rw [step_registered hs nofun] at hj
      exact absurd hj hlt

/-! ## Going on -/

/-- The steps that wait for no function of a caller: answers of the file
system, registrations, releases and promises that resolve. -/
def own : Label Path File → Bool
  | .resolveKey => true
  | .register => true
  | .release _ => true
  | .resolveChain _ => true
  | _ => false

/-- The function of a call can start. -/
def allowed (F : FileSystem Path File) (s : Queues Path File) (id : Nat) : Bool :=
  (Queues.step F s (.start id)).isSome

def Call.todo (c : Call Path) : Nat := c.stage.left + if c.chainResolved then 0 else 1

/-- The steps that all calls have to come. -/
def todo (s : Queues Path File) : Nat := (s.calls.map Call.todo).sum

omit [DecidableEq Path] in
theorem sum_modify_lt {calls : List (Call Path)} (hc : calls[id]? = some c)
    (hf : Call.todo (f c) < Call.todo c) :
    ((calls.modify id f).map Call.todo).sum < (calls.map Call.todo).sum := by
  induction calls generalizing id with
  | nil => cases hc
  | cons b calls ih =>
    cases id with
    | zero =>
      cases hc
      exact Nat.add_lt_add_right hf _
    | succ id => exact Nat.add_lt_add_left (ih hc) _

theorem todo_lt (hown : own label = true) (hs : Queues.step F s label = some s') :
    s'.todo < s.todo := by
  cases label with
  | resolveKey =>
    obtain ⟨call, hcall, hstage, rfl⟩ := step_resolveKey hs
    refine sum_modify_lt hcall (Nat.add_lt_add_right ?_ _)
    exact hstage ▸ (by decide : Stage.keyed.left < Stage.waiting.left)
  | register =>
    obtain ⟨call, key, hcall, hstage, -, rfl⟩ := step_register hs
    refine sum_modify_lt hcall (Nat.add_lt_add_right ?_ _)
    exact hstage ▸ (by decide : Stage.queued.left < Stage.keyed.left)
  | release id =>
    obtain ⟨call, key, hcall, hstage, -, rfl⟩ := step_release hs
    refine sum_modify_lt hcall (Nat.add_lt_add_right ?_ _)
    exact hstage ▸ (by decide : Stage.settled.left < Stage.finished.left)
  | resolveChain id =>
    obtain ⟨call, hcall, -, hchain, -, rfl⟩ := step_resolveChain hs
    refine sum_modify_lt hcall (Nat.add_lt_add_left ?_ _)
    rw [hchain]
    exact Nat.zero_lt_one
  | _ => cases hown

/-- The call has not started, and the earlier ones for its file have settled. -/
def Next (F : FileSystem Path File) (s : Queues Path File) (id : Nat) : Prop :=
  ∃ c, s.calls[id]? = some c ∧ c.stage.started = false ∧
    ∀ (i : Nat) (d : Call Path), i < id → s.calls[i]? = some d →
      F.denotes d.path = F.denotes c.path → d.stage = .settled

theorem own_keeps (hown : own label = true) (hs : Queues.step F s label = some s') (i : Nat) :
    Option.Rel (fun d d' : Call Path => d'.path = d.path ∧
      (d.stage = .settled → d'.stage = .settled) ∧
      (d.stage.started = false → d'.stage.started = false))
      s.calls[i]? s'.calls[i]? := by
  have hupdate {id : Nat} {call : Call Path} {f : Call Path → Call Path}
      (hcall : s.calls[id]? = some call) (hpath : (f call).path = call.path)
      (hsettled : call.stage = .settled → (f call).stage = .settled)
      (hstarted : call.stage.started = false → (f call).stage.started = false) :
      Option.Rel (fun d d' : Call Path => d'.path = d.path ∧
        (d.stage = .settled → d'.stage = .settled) ∧
        (d.stage.started = false → d'.stage.started = false))
        s.calls[i]? (s.update id f).calls[i]? := by
    by_cases hi : i = id
    · subst hi
      rw [update_self _ hcall, hcall]
      exact .some ⟨hpath, hsettled, hstarted⟩
    · rw [update_of_ne s _ hi]
      cases s.calls[i]? with
      | none => exact .none
      | some d => simp
  cases label with
  | resolveKey =>
    obtain ⟨call, hcall, hstage, rfl⟩ := step_resolveKey hs
    exact hupdate hcall rfl (by rw [hstage]; intro hkeyed; cases hkeyed) fun _ => rfl
  | register =>
    obtain ⟨call, key, hcall, hstage, -, rfl⟩ := step_register hs
    exact hupdate hcall rfl (by rw [hstage]; intro hkeyed; cases hkeyed) fun _ => rfl
  | release id =>
    obtain ⟨call, key, hcall, hstage, -, rfl⟩ := step_release hs
    exact hupdate hcall rfl (fun _ => rfl) (by rw [hstage]; intro hkeyed; cases hkeyed)
  | resolveChain id =>
    obtain ⟨call, hcall, -, -, -, rfl⟩ := step_resolveChain hs
    exact hupdate hcall rfl (fun h => h) fun h => h
  | _ => cases hown

theorem Next.own (h : Next F s id) (hown : own label = true)
    (hs : Queues.step F s label = some s') : Next F s' id := by
  obtain ⟨c, hc, hstarted, hsettled⟩ := h
  have hkeep := own_keeps hown hs
  have hrel := hkeep id
  rw [hc] at hrel
  cases hc' : s'.calls[id]? with
  | none => rw [hc'] at hrel; cases hrel
  | some c' =>
    rw [hc'] at hrel
    obtain ⟨hpath, -, hstart⟩ := Option.rel_some_some.mp hrel
    refine ⟨c', hc', hstart hstarted, fun i d' hi hd' hfile => ?_⟩
    have hrel := hkeep i
    rw [hd'] at hrel
    cases hd : s.calls[i]? with
    | none => rw [hd] at hrel; cases hrel
    | some d =>
      rw [hd] at hrel
      obtain ⟨hdpath, hset, -⟩ := Option.rel_some_some.mp hrel
      exact hset (hsettled i d hi hd (by rw [← hdpath, hfile, hpath]))

theorem Inv.resolveChain_enabled (h : Inv F s) (hc : s.calls[id]? = some c)
    (hsettled : c.stage = .settled) (hchain : c.chainResolved = false) :
    ∃ i, (Queues.step F s (.resolveChain i)).isSome := by
  induction id using Nat.strongRecOn generalizing c with
  | ind id ih =>
  cases hcurrent : s.currentResolved c with
  | true =>
    refine ⟨id, ?_⟩
    simp [Queues.step, hc, hsettled, hchain, hcurrent, guard]
  | false =>
    cases hqueue : c.currentQueue with
    | none => rw [currentResolved, hqueue] at hcurrent; cases hcurrent
    | some q =>
      have hid := (h.front id c hc).mp (by rw [hsettled]; rfl)
      obtain ⟨hq, e, he, hkey⟩ := h.linked.ahead id q c hid hc hqueue
      simp only [currentResolved, hqueue, he, Option.any_some] at hcurrent
      exact ih q hq he (h.order q id e c hq he hc (by rw [hsettled]; rfl) hkey) hcurrent

theorem Inv.own_enabled (h : Inv F s) (hnext : Next F s id) (hwait : s.allowed F id = false) :
    ∃ label, own label = true ∧ (Queues.step F s label).isSome := by
  obtain ⟨c, hc, hstarted, hsettled⟩ := hnext
  by_cases hid : id < s.registered
  · have hstage := queued_of_not_started ((h.front id c hc).mpr hid) hstarted
    have hcurrent : s.currentResolved c = false := by
      cases hcurrent : s.currentResolved c with
      | false => rfl
      | true =>
        have hallowed : s.allowed F id = true := by
          simp [allowed, Queues.step, hc, hstage, hcurrent, guard]
        rw [hallowed] at hwait
        cases hwait
    cases hqueue : c.currentQueue with
    | none => rw [currentResolved, hqueue] at hcurrent; cases hcurrent
    | some q =>
      obtain ⟨hq, e, he, hkey⟩ := h.linked.ahead id q c hid hc hqueue
      simp only [currentResolved, hqueue, he, Option.any_some] at hcurrent
      have hegone : e.stage ≠ .waiting := by
        intro hwaiting
        have hregistered := (h.front q e he).mpr (Nat.lt_trans hq hid)
        rw [hwaiting] at hregistered
        cases hregistered
      obtain ⟨key, hck, hfile⟩ := h.keyed id c hc (by rw [hstage]; intro hkeyed; cases hkeyed)
      obtain ⟨key', hek, hfile'⟩ := h.keyed q e he hegone
      obtain rfl := Option.some.inj (hek.symm.trans (hkey.trans hck))
      have hdone := hsettled q e hq he (hfile'.symm.trans hfile)
      obtain ⟨i, hi⟩ := h.resolveChain_enabled he hdone hcurrent
      exact ⟨.resolveChain i, rfl, hi⟩
  · -- the registration at hand is looked up or made
    have hlength := (List.getElem?_eq_some_iff.mp hc).1
    have hhead : s.registered < s.calls.length := Nat.lt_of_le_of_lt (Nat.le_of_not_lt hid) hlength
    have hcall := getElem?_eq_getElem hhead
    have hfront := h.unregistered (Nat.le_refl _) hcall
    cases hstage : s.calls[s.registered].stage with
    | waiting =>
      exact ⟨.resolveKey, rfl, by simp [Queues.step, hcall, hstage, guard]⟩
    | keyed =>
      obtain ⟨key, hkey, -⟩ := h.keyed _ _ hcall (by rw [hstage]; intro hkeyed; cases hkeyed)
      exact ⟨.register, rfl, by simp [Queues.step, hcall, hstage, hkey, guard]⟩
    | _ =>
      rw [hstage] at hfront
      cases hfront.1

theorem Inv.inevitable (h : Inv F s) (hnext : Next F s id) :
    Inevitable (Queues.step F) own (fun s => s.allowed F id = true) s := by
  refine Inevitable.of_measure (q := fun s => Inv F s ∧ Next F s id) todo ?_ ?_ ?_
    ⟨h, hnext⟩
  · exact fun s label s' hs hown hstep => ⟨hs.1.step hstep, hs.2.own hown hstep⟩
  · exact fun s label s' _ hown hstep => todo_lt hown hstep
  · exact fun s hs hwait => hs.1.own_enabled hs.2 (Bool.not_eq_true _ ▸ hwait)

/-! ## The runs -/

/-- Mutations of one file never overlap: no two functions for one file run
at a moment, those for one file start in the order of the calls, a call gets
to start once the earlier ones for its file have settled, and no entry is
left when all have. -/
structure Serialized (F : FileSystem Path File) (s : Queues Path File) : Prop where
  exclusive : ∀ (i j : Nat) (c d : Call Path), s.calls[i]? = some c →
    s.calls[j]? = some d → F.denotes c.path = F.denotes d.path →
      c.stage = .running → d.stage = .running → i = j
  inOrder : ∀ (i j : Nat) (c d : Call Path), i < j → s.calls[i]? = some c →
    s.calls[j]? = some d → F.denotes c.path = F.denotes d.path →
      d.stage.started = true → c.stage.started = true
  getsToStart : ∀ id, Next F s id →
    Inevitable (Queues.step F) own (fun s => s.allowed F id = true) s
  clean : (∀ c ∈ s.calls, c.stage = .settled) → s.fileMutationQueues.entries = []

theorem Inv.clean (h : Inv F s) (hsettled : ∀ c ∈ s.calls, c.stage = .settled) :
    s.fileMutationQueues.entries = [] := by
  rw [eq_nil_iff_forall_not_mem]
  rintro ⟨key, p⟩ hmem
  obtain ⟨-, ⟨c, hc, -, hopen⟩, -⟩ := h.entries.last key p (InsertionMap.mem_entries_iff.mp hmem)
  exact hopen (hsettled c (mem_of_getElem? hc))

theorem Inv.settled_of_started (h : Inv F s) (hone : OneKey F s) (hij : i < j)
    (hc : s.calls[i]? = some c) (hd : s.calls[j]? = some d)
    (hfile : F.denotes c.path = F.denotes d.path)
    (hstarted : d.stage.started = true) : c.stage = .settled := by
  have hj := (h.front j d hd).mp (registered_of_started hstarted)
  rcases hone i j c d hij hj hc hd hfile with hsettled | hkey
  · exact hsettled
  · exact h.order i j c d hij hc hd hstarted hkey

theorem Inv.serialized (h : Inv F s) (hone : OneKey F s) : Serialized F s := by
  refine ⟨?_, ?_, fun id hnext => h.inevitable hnext, h.clean⟩
  · intro i j c d hc hd hfile hcrun hdrun
    rcases Nat.lt_trichotomy i j with hij | rfl | hji
    · have hsettled := h.settled_of_started hone hij hc hd hfile (by rw [hdrun]; rfl)
      rw [hcrun] at hsettled
      cases hsettled
    · rfl
    · have hsettled := h.settled_of_started hone hji hd hc hfile.symm (by rw [hcrun]; rfl)
      rw [hdrun] at hsettled
      cases hsettled
  · intro i j c d hij hc hd hfile hstarted
    rw [h.settled_of_started hone hij hc hd hfile hstarted]
    rfl

def Initial (s : Queues Path File) : Prop := ∃ existing, s = init existing

/-- Mutations of one file never overlap in a run in which every registration
finds the key of the unsettled calls for its file. -/
theorem serialized_of_keyKept [DecidableEq File]
    (h : Run Initial (Queues.step F) (fun s label => keyKept F s label = true) s) :
    Serialized F s := by
  have hinv : Inv F s ∧ OneKey F s := by
    refine Run.invariant (p := fun s => Inv F s ∧ OneKey F s) ?_ ?_ h
    · rintro s ⟨existing, rfl⟩
      exact ⟨inv_init existing, fun i j d c _ hj => absurd hj (Nat.not_lt_zero j)⟩
    · rintro s label s' ⟨hinv, hone⟩ hkept hs
      exact ⟨hinv.step hs, hone.step hinv hkept hs⟩
  exact hinv.1.serialized hinv.2

/-- Two paths to one file, through the directory and through a link to it. -/
def sampleSystem : FileSystem String Bool where
  resolve path := path
  fileAt path := path = "/dir/notes.md" || path = "/link/notes.md"
  canonical file := if file then "/dir/notes.md" else "/dir/other.md"
  fileAt_canonical file := by cases file <;> decide

def sampleStart (present : Bool) : Queues String Bool :=
  init fun file => file && present

/-- A call through the link, and one through the directory after the file was
created. -/
def creatingRun : List (Label String Bool) :=
  [.call "/link/notes.md", .resolveKey, .register, .start 0, .change fun file => file,
    .call "/dir/notes.md", .resolveKey, .register, .start 1]

/-- Both calls while the file exists. -/
def existingRun : List (Label String Bool) :=
  [.call "/link/notes.md", .call "/dir/notes.md", .resolveKey, .register, .start 0,
    .resolveKey, .register, .finish 0, .release 0, .resolveChain 0, .start 1]

theorem serialized_of_keyKept_existing :
    Serialized sampleSystem
      (Run.afterAll (Queues.step sampleSystem) (sampleStart true) existingRun) :=
  serialized_of_keyKept (Run.of_check (.init ⟨_, rfl⟩) (by decide))

/-- While the file does not exist its key is the path through the link, and
afterwards the canonical one. -/
theorem not_serialized :
    ¬ ∀ s : Queues String Bool, Run Initial (Queues.step sampleSystem) (fun _ _ => True) s →
        Serialized sampleSystem s := by
  intro h
  have hrun : Run Initial (Queues.step sampleSystem) (fun _ _ => True)
      (Run.afterAll (Queues.step sampleSystem) (sampleStart false) creatingRun) :=
    Run.of_check (.init ⟨_, rfl⟩) (by decide)
  have hsame := (h _ hrun).exclusive 0 1 _ _ rfl rfl rfl rfl rfl
  cases hsame

end ReflectivePi.Tools.Queues
