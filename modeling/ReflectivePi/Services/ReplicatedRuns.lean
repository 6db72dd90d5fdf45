import ReflectivePi.Services.Replicated

/-!
# Services — ReplicatedRuns

What the listeners of a replicated state are given. The publications shifted
and those in the queue are the committed ones, and a listener has heard the
shifted ones up to where the delivery loop is with it (`Follows`).
-/

namespace ReflectivePi.Services.Replicated

open List

variable {T C F E O : Type}

variable {p : Publication T C O} {h : List (Event T C F O)}

@[simp] theorem commits_committed : commits (.committed p :: h) = commits h ++ [p] := by
  simp [commits]

@[simp] theorem shifts_shifted : shifts (.shifted p :: h) = shifts h ++ [p] := by
  simp [shifts]

/-! ## The listeners -/

variable [DecidableEq F]

/-- Where a listener is: it has heard the shifted publications from its own
start on, but for the current one if the loop has yet to come to it. -/
def Follows (h : List (Event T C F O)) (live due : List (F × Nat)) (kind : Kind) (f : F)
    (n : Nat) : Prop :=
  ∃ m, heard kind f h = ((shifts h).take m).drop n ∧ m ≤ (shifts h).length ∧
    (f ∈ due.map Prod.fst → m + 1 = (shifts h).length) ∧
    (f ∈ live.map Prod.fst → leftAt kind f h = none ∧
      (f ∉ due.map Prod.fst → m = (shifts h).length)) ∧
    (f ∉ live.map Prod.fst → ∃ k, leftAt kind f h = some k ∧ m ≤ k ∧ k ≤ m + 1 ∧
      k ≤ (shifts h).length ∧ (f ∈ due.map Prod.fst → k = (shifts h).length))

/-- What happens to other listeners leaves a listener where it is. -/
theorem Follows.of_same {h' : List (Event T C F O)} {live live' due due' : List (F × Nat)}
    {kind : Kind} {f : F} {n : Nat} (hf : Follows h live due kind f n)
    (hheard : heard kind f h' = heard kind f h) (hleft : leftAt kind f h' = leftAt kind f h)
    (hshifts : shifts h' = shifts h) (hlive : f ∈ live'.map Prod.fst ↔ f ∈ live.map Prod.fst)
    (hdue : f ∈ due'.map Prod.fst ↔ f ∈ due.map Prod.fst) : Follows h' live' due' kind f n := by
  unfold Follows at hf ⊢
  rw [hheard, hleft, hshifts]
  simpa only [hlive, hdue] using hf

/-- The registered listeners of a kind and those the loop has yet to come to. -/
structure Ears (kind : Kind) (h : List (Event T C F O)) (live due : List (F × Nat)) :
    Prop where
  nodup : (live.map Prod.fst).Nodup
  nodup_due : (due.map Prod.fst).Nodup
  since : ∀ x ∈ live, since kind x.1 h = some x.2
  since_due : ∀ x ∈ due, Replicated.since kind x.1 h = some x.2
  bound : kind = .source → ∀ x ∈ live, x.2 ≤ (shifts h).length
  ahead : kind = .source → ∀ x ∈ due, x.2 < (shifts h).length
  follows : ∀ f n, Replicated.since kind f h = some n → Follows h live due kind f n

namespace Ears

variable {h h' : List (Event T C F O)} {live due left : List (F × Nat)} {x : F × Nat}
  {p : Publication T C O} {kind : Kind} {f : F} {n : Nat}

theorem nil : Ears kind ([] : List (Event T C F O)) [] [] := by
  constructor <;> simp [Replicated.since]

theorem other (e : Ears kind h live due) (hshifts : shifts h' = shifts h)
    (hsince : ∀ g, Replicated.since kind g h' = Replicated.since kind g h)
    (hheard : ∀ g, heard kind g h' = heard kind g h)
    (hleft : ∀ g, leftAt kind g h' = leftAt kind g h) : Ears kind h' live due := by
  refine ⟨e.nodup, e.nodup_due, ?_, ?_, hshifts ▸ e.bound, hshifts ▸ e.ahead, fun g n hn => ?_⟩
  · simpa only [hsince] using e.since
  · simpa only [hsince] using e.since_due
  · exact (e.follows g n (hsince g ▸ hn)).of_same (hheard g) (hleft g) hshifts Iff.rfl Iff.rfl

theorem shifted (e : Ears kind h live []) : Ears kind (.shifted p :: h) live live := by
  have hlength : (shifts (.shifted p :: h)).length = (shifts h).length + 1 := by simp
  refine ⟨e.nodup, e.nodup, e.since, e.since, fun hk x hx => ?_, fun hk x hx => ?_,
    fun f n hn => ?_⟩
  · exact hlength ▸ Nat.le_succ_of_le (e.bound hk x hx)
  · exact hlength ▸ Nat.lt_succ_of_le (e.bound hk x hx)
  · obtain ⟨m, hheard, hm, -, hlive, hgone⟩ := e.follows f n hn
    refine ⟨m, ?_, by omega, fun hf => ?_, fun hf => ⟨(hlive hf).1, fun hd => absurd hf hd⟩,
      fun hf => ?_⟩
    · rw [shifts_shifted, take_append_of_le_length hm]
      exact hheard
    · rw [hlength, (hlive hf).2 not_mem_nil]
    · obtain ⟨k, hk, hmk, hkm, hkS, -⟩ := hgone hf
      exact ⟨k, hk, hmk, hkm, by omega, fun hd => absurd hd hf⟩

/-- The loop is done with the listener at the head: it was given the current
publication, or does without it. -/
theorem done (e : Ears kind h live (x :: left)) (hshifts : shifts h' = shifts h)
    (hsince : ∀ g, Replicated.since kind g h' = Replicated.since kind g h)
    (hleft : ∀ g, leftAt kind g h' = leftAt kind g h)
    (hothers : ∀ g, g ≠ x.1 → heard kind g h' = heard kind g h)
    (hheard : heard kind x.1 h = ((shifts h).take ((shifts h).length - 1)).drop x.2 →
      heard kind x.1 h' = (shifts h).drop x.2) : Ears kind h' live left := by
  obtain ⟨hnot, hnodup⟩ := List.nodup_cons.mp e.nodup_due
  have hsub : ∀ y ∈ left, y ∈ x :: left := fun y hy => mem_cons_of_mem x hy
  have hx := e.since_due x mem_cons_self
  refine ⟨e.nodup, hnodup, ?_, ?_, hshifts ▸ e.bound,
    fun hk y hy => hshifts ▸ e.ahead hk y (hsub y hy), fun g n hn => ?_⟩
  · simpa only [hsince] using e.since
  · intro y hy
    rw [hsince]
    exact e.since_due y (hsub y hy)
  · rw [hsince] at hn
    by_cases hg : g = x.1
    · subst hg
      obtain rfl : x.2 = n := Option.some.inj (hx.symm.trans hn)
      obtain ⟨m, hold, hm, hbehind, hlive, hgone⟩ := e.follows x.1 x.2 hx
      have hlast := hbehind mem_cons_self
      have hmS : m = (shifts h).length - 1 := by omega
      refine ⟨(shifts h).length, ?_, ?_, fun hf => absurd hf hnot, fun hf => ?_, fun hf => ?_⟩
      · rw [hshifts, take_length]
        exact hheard (hmS ▸ hold)
      · exact hshifts ▸ Nat.le_refl _
      · rw [hleft, hshifts]
        exact ⟨(hlive hf).1, fun _ => rfl⟩
      · obtain ⟨k, hk, -, -, -, hcurrent⟩ := hgone hf
        have := hcurrent mem_cons_self
        rw [hleft, hshifts]
        exact ⟨k, hk, by omega, by omega, by omega, fun hd => absurd hd hnot⟩
    · exact (e.follows g n hn).of_same (hothers g hg) (hleft g) hshifts Iff.rfl (by simp [hg])

theorem told (e : Ears kind h live (x :: left)) (hlast : (shifts h).getLast? = some p)
    (hahead : x.2 < (shifts h).length) : Ears kind (.told kind x.1 p :: h) live left := by
  refine e.done rfl (fun g => rfl) (fun g => rfl) (fun g hne => ?_) fun hheard => ?_
  · simp [heard, Ne.symm hne]
  · obtain ⟨before, hbefore⟩ := List.getLast?_eq_some_iff.mp hlast
    have hlength : (shifts h).length = before.length + 1 := by simp [hbefore]
    have htake : (shifts h).take before.length = before := by simp [hbefore]
    rw [show (shifts h).length - 1 = before.length by omega, htake] at hheard
    simp only [heard, true_and, if_true, hheard]
    rw [hbefore, drop_append_of_le_length (by omega)]

/-- A listener subscribed at the revision of the publication or later does
without it. -/
theorem skipped (e : Ears kind h live (x :: left)) (hskip : (shifts h).length ≤ x.2) :
    Ears kind h live left := by
  refine e.done rfl (fun g => rfl) (fun g => rfl) (fun g _ => rfl) fun hheard => ?_
  rw [hheard, drop_eq_nil_of_le hskip, drop_eq_nil_of_le]
  rw [length_take]
  omega

theorem subscribed (e : Ears kind h live due) (extra : List (F × Nat))
    (hfresh : f ∉ live.map Prod.fst) (hnotDue : f ∉ due.map Prod.fst)
    (hn : Replicated.since kind f (.subscribed kind f :: h) = some n)
    (hlater : (shifts h).length ≤ n) (hsource : kind = .source → n ≤ (shifts h).length)
    (hextra : extra = [] ∨ kind = .listener ∧ 0 < (shifts h).length ∧ extra = [(f, n)]) :
    Ears kind (.subscribed kind f :: h) (live ++ [(f, n)]) (due ++ extra) := by
  have hkeep : ∀ g, g ≠ f →
      Replicated.since kind g (.subscribed kind f :: h) = Replicated.since kind g h := by
    intro g hg
    simp [Replicated.since, Ne.symm hg]
  have hsince : ∀ {l : List (F × Nat)}, f ∉ l.map Prod.fst →
      (∀ x ∈ l, Replicated.since kind x.1 h = some x.2) →
      ∀ x ∈ l ++ [(f, n)], Replicated.since kind x.1 (.subscribed kind f :: h) = some x.2 := by
    intro l hf hl x hx
    obtain hx | hx := List.mem_append.mp hx
    · rw [hkeep x.1 fun heq => hf (heq ▸ mem_map_of_mem hx)]
      exact hl x hx
    · obtain rfl := List.mem_singleton.mp hx
      exact hn
  have hnodup : ∀ {l : List (F × Nat)}, f ∉ l.map Prod.fst → (l.map Prod.fst).Nodup →
      ((l ++ [(f, n)]).map Prod.fst).Nodup := by
    intro l hf hl
    rw [map_append, nodup_append]
    refine ⟨hl, by simp, fun a ha b hb hab => ?_⟩
    obtain rfl : b = f := by simpa using hb
    exact hf (hab ▸ ha)
  have hsub : ∀ x ∈ due ++ extra, x ∈ due ++ [(f, n)] := by
    obtain rfl | ⟨-, -, rfl⟩ := hextra
    · exact fun x hx => mem_append_left _ (by simpa using hx)
    · exact fun x hx => hx
  refine ⟨hnodup hfresh e.nodup, ?_, hsince hfresh e.since,
    fun x hx => hsince hnotDue e.since_due x (hsub x hx), fun hk x hx => ?_,
    fun hk x hx => ?_, fun g m hm => ?_⟩
  · obtain rfl | ⟨-, -, rfl⟩ := hextra
    · simpa using e.nodup_due
    · exact hnodup hnotDue e.nodup_due
  · obtain hx | hx := List.mem_append.mp hx
    · exact e.bound hk x hx
    · obtain rfl := List.mem_singleton.mp hx
      exact hsource hk
  · obtain rfl | ⟨hlistener, -, -⟩ := hextra
    · exact e.ahead hk x (by simpa using hx)
    · cases hlistener.symm.trans hk
  · by_cases hg : g = f
    · subst hg
      obtain rfl : n = m := Option.some.inj (hn.symm.trans hm)
      have hlive : g ∈ (live ++ [(g, n)]).map Prod.fst := by simp
      have hheard : ∀ i, heard kind g (.subscribed kind g :: h) = ((shifts h).take i).drop n := by
        intro i
        rw [drop_eq_nil_of_le (by rw [length_take]; omega)]
        simp [heard]
      have hleft : leftAt kind g (.subscribed kind g :: h) = none := by simp [leftAt]
      obtain rfl | ⟨-, hpos, rfl⟩ := hextra
      · exact ⟨(shifts h).length, hheard _, Nat.le_refl _,
          fun hd => absurd (by simpa using hd) hnotDue, fun _ => ⟨hleft, fun _ => rfl⟩,
          fun hf => absurd hlive hf⟩
      · exact ⟨(shifts h).length - 1, hheard _, Nat.sub_le _ _, fun _ => Nat.sub_add_cancel hpos,
          fun _ => ⟨hleft, fun hd => absurd (by simp) hd⟩, fun hf => absurd hlive hf⟩
    · refine (e.follows g m (hkeep g hg ▸ hm)).of_same (by simp [heard, Ne.symm hg])
        (by simp [leftAt, Ne.symm hg]) rfl (by simp [hg]) ?_
      obtain rfl | ⟨-, -, rfl⟩ := hextra <;> simp [hg]

theorem deleted {due' : List (F × Nat)} (e : Ears kind h live due) (hmem : f ∈ live.map Prod.fst)
    (hdue' : due' = due ∨ due' = due.filter fun x => x.1 ≠ f) :
    Ears kind (.unsubscribed kind f :: h) (live.filter fun x => x.1 ≠ f) due' := by
  have hsub : List.Sublist (live.filter fun x => x.1 ≠ f) live := filter_sublist
  have hsubDue : List.Sublist due' due := by
    obtain rfl | rfl := hdue'
    · exact List.Sublist.refl _
    · exact filter_sublist
  have hkeys : ∀ (l : List (F × Nat)) (g : F),
      g ∈ (l.filter fun x => x.1 ≠ f).map Prod.fst ↔ g ∈ l.map Prod.fst ∧ g ≠ f := by
    intro l g
    simp only [mem_map, mem_filter, decide_eq_true_eq]
    constructor
    · simp
    · simp
  refine ⟨e.nodup.sublist (hsub.map _), e.nodup_due.sublist (hsubDue.map _),
    fun x hx => e.since x (hsub.mem hx), fun x hx => e.since_due x (hsubDue.mem hx),
    fun hk x hx => e.bound hk x (hsub.mem hx), fun hk x hx => e.ahead hk x (hsubDue.mem hx),
    fun g n hn => ?_⟩
  by_cases hg : g = f
  · subst hg
    obtain ⟨m, hheard, hm, hbehind, hlive, -⟩ := e.follows g n hn
    have hlast : m + 1 = (shifts h).length ∨ m = (shifts h).length := by
      by_cases hd : g ∈ due.map Prod.fst
      · exact .inl (hbehind hd)
      · exact .inr ((hlive hmem).2 hd)
    exact ⟨m, hheard, hm, fun hd => hbehind ((hsubDue.map _).mem hd),
      fun hf => absurd rfl ((hkeys _ _).mp hf).2, fun _ =>
      ⟨(shifts h).length, by simp [leftAt], hm, by omega, Nat.le_refl _, fun _ => rfl⟩⟩
  · refine (e.follows g n hn).of_same rfl (by simp [leftAt, Ne.symm hg]) rfl
      (by simp only [hkeys, hg, ne_eq, not_false_eq_true, and_true]) ?_
    obtain rfl | rfl := hdue'
    · exact Iff.rfl
    · simp only [hkeys, hg, ne_eq, not_false_eq_true, and_true]

end Ears

/-! ## The state -/

/-- The revision with a number, out of the committed publications. -/
def revision (initial : T) (publications : List (Publication T C O)) : Nat → T
  | 0 => initial
  | i + 1 => (publications[i]?.map Publication.value).getD initial

theorem revision_append {initial : T} {publications : List (Publication T C O)}
    {i : Nat} (h : i ≤ publications.length) :
    revision initial (publications ++ [p]) i = revision initial publications i := by
  cases i with
  | zero => rfl
  | succ i => rw [revision, revision, getElem?_append_left h]

/-- The deliveries of a stack. -/
def phases (stack : List (Frame T C F E O)) : List (Phase T C F O) :=
  stack.filterMap fun
    | .delivery phase _ => some phase
    | _ => none

/-- The revisions that the recipes of a stack draft. -/
def recipes (stack : List (Frame T C F E O)) : List (T × Nat) :=
  stack.filterMap fun
    | .recipe _ base sequence => some (base, sequence)
    | _ => none

/-- The listeners of a kind that the loop has yet to come to. -/
def dueIn (live : List (F × Nat)) : List (Phase T C F O) → Kind → List (F × Nat)
  | .telling .source _ left :: _, .source => left
  | .telling .source _ _ :: _, .listener => live
  | .telling .listener _ left :: _, .listener => left
  | _, _ => []

omit [DecidableEq F] in
/-- A change of a registry shows in what is due only before the snapshot of the
listeners. -/
theorem dueIn_change (live live' : List (F × Nat)) (kind : Kind) (ps : List (Phase T C F O)) :
    dueIn live' ps kind = dueIn live ps kind ∨
      kind = .listener ∧ (∃ p left, .telling .source p left ∈ ps) ∧
        dueIn live ps kind = live ∧ dueIn live' ps kind = live' := by
  match ps, kind with
  | .telling .source p left :: ps, .listener =>
    exact .inr ⟨rfl, ⟨p, left, mem_cons_self⟩, rfl, rfl⟩
  | .telling .source _ _ :: _, .source | .telling .listener _ _ :: _, .source
  | .telling .listener _ _ :: _, .listener | .shift :: _, _ | [], _ => exact .inl rfl

namespace State

variable {Leads : T → List O → T → Prop} {initial : T} {diffRevisions : T → T → List O}
  {s s' : State T C F E O}

def due (s : State T C F E O) (kind : Kind) : List (F × Nat) :=
  dueIn (s.listeners kind) (phases s.stack) kind

/-- The revisions are numbered without a gap, and every batch of operations
leads from one to the next. -/
structure Ledger (Leads : T → List O → T → Prop) (initial latest : T) (n : Nat)
    (publications : List (Publication T C O)) (h : List (Event T C F O)) : Prop where
  sequence : n = (commits h).length
  value : latest = revision initial (commits h) n
  queue : shifts h ++ publications = commits h
  commits : ∀ i p, (Replicated.commits h)[i]? = some p → p.sequence = i + 1 ∧
    Leads (revision initial (Replicated.commits h) i) p.ops p.value

structure Inv (Leads : T → List O → T → Prop) (initial : T) (s : State T C F E O) :
    Prop where
  ledger : Ledger Leads initial s.value s.sequence s.publications s.history
  recipes : recipes s.stack = if s.changing then [(s.value, s.sequence)] else []
  idle : s.delivering = false → phases s.stack = [] ∧ s.publications = []
  busy : s.delivering = true → ∃ phase, phases s.stack = [phase]
  current : ∀ kind p left, .telling kind p left ∈ phases s.stack →
    (shifts s.history).getLast? = some p
  ears : ∀ kind, Ears kind s.history (s.listeners kind) (s.due kind)

theorem inv_create : Inv Leads initial (create initial : State T C F E O) := by
  refine ⟨⟨rfl, rfl, rfl, ?_⟩, rfl, fun _ => ⟨rfl, rfl⟩, nofun, nofun, fun _ => Ears.nil⟩
  intro i p h
  cases h

namespace Inv

variable {stack : List (Frame T C F E O)}

theorem restack (h : Inv Leads initial s) {changing : Bool} {outcome : Option (Failure E)}
    (hphases : phases stack = phases s.stack)
    (hrecipes : Replicated.recipes stack = if changing then [(s.value, s.sequence)] else []) :
    Inv Leads initial { s with changing, stack, outcome } where
  ledger := h.ledger
  recipes := hrecipes
  idle := fun hd => hphases ▸ h.idle hd
  busy := fun hd => hphases ▸ h.busy hd
  current := fun kind p left hp => h.current kind p left (hphases ▸ hp)
  ears := fun kind => by
    rw [due, hphases]
    exact h.ears kind

theorem commit (h : Inv Leads initial s) (hchanging : s.changing = false)
    (hleads : ∀ before after, Leads before (diffRevisions before after) after) (next : T)
    (context : C) : Inv Leads initial (s.commit diffRevisions next context) := by
  have hrecipes : Replicated.recipes s.stack = [] := by simp [h.recipes, hchanging]
  rw [State.commit]
  split
  · exact h
  · have hledger : Ledger Leads initial next (s.sequence + 1) (s.publications ++
        [⟨next, diffRevisions s.value next, s.sequence + 1, context⟩])
        (.committed ⟨next, diffRevisions s.value next, s.sequence + 1, context⟩ :: s.history) := by
      refine ⟨?_, ?_, ?_, ?_⟩
      · simp [h.ledger.sequence]
      · simp [h.ledger.sequence, revision]
      · rw [commits_committed, ← h.ledger.queue, append_assoc]
        rfl
      · intro i p hp
        rw [commits_committed] at hp ⊢
        rcases Nat.lt_trichotomy i (Replicated.commits s.history).length with hi | hi | hi
        · rw [getElem?_append_left hi] at hp
          rw [revision_append (Nat.le_of_lt hi)]
          exact h.ledger.commits i p hp
        · subst hi
          obtain rfl : _ = p := by simpa using hp
          refine ⟨by simp [h.ledger.sequence], ?_⟩
          rw [revision_append (Nat.le_refl _), ← h.ledger.sequence, ← h.ledger.value]
          exact hleads s.value next
        · rw [getElem?_eq_none (by simp; omega)] at hp
          cases hp
    have hears : ∀ kind, Ears kind
        (.committed ⟨next, diffRevisions s.value next, s.sequence + 1, context⟩ :: s.history)
        (s.listeners kind) (s.due kind) := fun kind =>
      (h.ears kind).other rfl (fun _ => rfl) (fun _ => rfl) fun _ => rfl
    by_cases hd : s.delivering = true
    · simp only [hd, if_true]
      exact ⟨hledger, by simp [hrecipes, hchanging], (fun hidle => by cases hidle), fun _ => h.busy hd, h.current, hears⟩
    · simp only [hd, if_false, Bool.false_eq_true]
      obtain ⟨hnone, -⟩ := h.idle (by simpa using hd)
      refine ⟨hledger, ?_, (fun hidle => by cases hidle), fun _ => ⟨.shift, ?_⟩, ?_, ?_⟩
      · simpa [Replicated.recipes, hchanging] using hrecipes
      · simpa [phases] using hnone
      · intro kind p left hp
        have hp : Phase.telling kind p left ∈ .shift :: phases s.stack := hp
        rw [hnone] at hp
        simp at hp
      · intro kind
        have hkind := hears kind
        rw [due, hnone] at hkind
        exact hkind

theorem length_shifts (h : Inv Leads initial s) :
    s.sequence - s.publications.length = (shifts s.history).length := by
  rw [h.ledger.sequence, ← h.ledger.queue, length_append]
  omega

variable {kind : Kind}

theorem sequence_current (h : Inv Leads initial s) {p : Publication T C O}
    {left : List (F × Nat)} (hp : .telling kind p left ∈ phases s.stack) :
    p.sequence = (shifts s.history).length ∧ 0 < (shifts s.history).length := by
  obtain ⟨before, hbefore⟩ := List.getLast?_eq_some_iff.mp (h.current kind p left hp)
  have hget : (Replicated.commits s.history)[before.length]? = some p := by
    rw [← h.ledger.queue, hbefore]
    simp
  rw [(h.ledger.commits _ p hget).1, hbefore]
  simp

theorem ledger_shifted (h : Inv Leads initial s) {history : List (Event T C F O)}
    {publications : List (Publication T C O)}
    (hcommits : Replicated.commits history = Replicated.commits s.history)
    (hqueue : shifts history ++ publications = Replicated.commits s.history) :
    Ledger Leads initial s.value s.sequence publications history where
  sequence := hcommits ▸ h.ledger.sequence
  value := hcommits ▸ h.ledger.value
  queue := hcommits ▸ hqueue
  commits := hcommits ▸ h.ledger.commits

theorem ears_registry (h : Inv Leads initial s) {entries : List (F × Nat)}
    {event : Event T C F O} (hshifts : shifts (event :: s.history) = shifts s.history)
    (hsince : ∀ k g, k ≠ kind → since k g (event :: s.history) = since k g s.history)
    (hheard : ∀ k g, k ≠ kind → heard k g (event :: s.history) = heard k g s.history)
    (hleft : ∀ k g, k ≠ kind → leftAt k g (event :: s.history) = leftAt k g s.history)
    (hears : Ears kind (event :: s.history) entries (dueIn entries (phases s.stack) kind))
    (k : Kind) : Ears k (event :: s.history) ((s.setListeners kind entries).listeners k)
      (dueIn ((s.setListeners kind entries).listeners k) (phases s.stack) k) := by
  by_cases hk : k = kind
  · subst hk
    simpa only [setListeners, if_true] using hears
  · simp only [setListeners, hk, if_false]
    exact (h.ears k).other hshifts (fun g => hsince k g hk) (fun g => hheard k g hk)
      fun g => hleft k g hk

theorem subscribe (h : Inv Leads initial s) {f : F}
    (hfresh : f ∉ (s.listeners kind).map Prod.fst) (hdue : f ∉ (s.due kind).map Prod.fst) :
    Inv Leads initial (s.subscribe kind f) := by
  have hears : ∀ n, since kind f (.subscribed kind f :: s.history) = some n →
      (shifts s.history).length ≤ n → (kind = .source → n ≤ (shifts s.history).length) →
      ∀ k, Ears k (.subscribed kind f :: s.history)
        ((s.setListeners kind (register kind f n (s.listeners kind))).listeners k)
        (dueIn ((s.setListeners kind (register kind f n (s.listeners kind))).listeners k)
          (phases s.stack) k) := by
    intro n hn hlater hsource
    have hadd : register kind f n (s.listeners kind) = s.listeners kind ++ [(f, n)] := if_neg hfresh
    rw [hadd]
    refine h.ears_registry rfl (fun k g hk => ?_) (fun k g hk => ?_) (fun k g hk => ?_) ?_
    · simp [since, Ne.symm hk]
    · simp [heard, Ne.symm hk]
    · simp [leftAt, Ne.symm hk]
    · have hears := fun extra => (h.ears kind).subscribed extra hfresh hdue hn hlater hsource
      obtain hsame | ⟨rfl, ⟨p, left, hp⟩, hold, hlast⟩ := dueIn_change (s.listeners kind)
        (s.listeners kind ++ [(f, n)]) kind (phases s.stack)
      · have hnew := hears [] (.inl rfl)
        rwa [append_nil, due, ← hsame] at hnew
      · have hnew := hears [(f, n)] (.inr ⟨rfl, (h.sequence_current hp).2, rfl⟩)
        rw [due, hold] at hnew
        rwa [hlast]
  cases kind with
  | source =>
    exact ⟨h.ledger_shifted rfl h.ledger.queue, h.recipes, h.idle, h.busy, h.current,
      hears _ (by simp [since, h.length_shifts]) (Nat.le_of_eq h.length_shifts.symm)
        fun _ => Nat.le_of_eq h.length_shifts⟩
  | listener =>
    exact ⟨h.ledger_shifted rfl h.ledger.queue, h.recipes, h.idle, h.busy, h.current,
      hears _ (by simp [since, h.ledger.sequence]) (h.length_shifts ▸ Nat.sub_le _ _) nofun⟩

theorem delete (h : Inv Leads initial s) (kind : Kind) (f : F) :
    Inv Leads initial (s.delete kind f) := by
  rw [State.delete]
  split
  next hmem =>
    refine ⟨h.ledger_shifted rfl h.ledger.queue, h.recipes, h.idle, h.busy, h.current, h.ears_registry rfl (fun _ _ _ => rfl) (fun _ _ _ => rfl)
        (fun k g hk => ?_) ((h.ears kind).deleted hmem ?_)⟩
    · simp [leftAt, Ne.symm hk]
    · obtain hsame | ⟨rfl, -, hold, hnew⟩ := dueIn_change (s.listeners kind)
        ((s.listeners kind).filter fun x => x.1 ≠ f) kind (phases s.stack)
      · exact .inl hsame
      · exact .inr (by rw [hnew, due, hold])
  next => exact h

/-- A recipe on top is the only one, and drafts the current revision. -/
theorem drafting (h : Inv Leads initial s) {context : C} {base : T} {sequence : Nat}
    (hstack : s.stack = .recipe context base sequence :: stack) :
    base = s.value ∧ sequence = s.sequence ∧ Replicated.recipes stack = [] := by
  have hall : (base, sequence) :: Replicated.recipes stack =
      if s.changing then [(s.value, s.sequence)] else [] := by
    rw [← h.recipes, hstack]
    rfl
  split at hall
  · simpa [and_assoc] using hall
  · cases hall

theorem moved (h : Inv Leads initial s) (hdelivering : s.delivering = true)
    {history : List (Event T C F O)} {publications : List (Publication T C O)}
    {phase : Phase T C F O} (hcommits : Replicated.commits history = Replicated.commits s.history)
    (hqueue : shifts history ++ publications = Replicated.commits s.history)
    (hrecipes : Replicated.recipes stack = Replicated.recipes s.stack)
    (hphases : phases stack = [phase])
    (hcurrent : ∀ kind p left, phase = .telling kind p left → (shifts history).getLast? = some p)
    (hears : ∀ kind, Ears kind history (s.listeners kind) (dueIn (s.listeners kind) [phase] kind)) :
    Inv Leads initial { s with history, publications, stack } where
  ledger := h.ledger_shifted hcommits hqueue
  recipes := hrecipes.trans h.recipes
  idle := fun hd => by simp [hdelivering] at hd
  busy := fun _ => ⟨phase, hphases⟩
  current := by
    intro kind p left hp
    rw [hphases, mem_singleton] at hp
    exact hcurrent kind p left hp.symm
  ears := fun kind => by
    rw [due, hphases]
    exact hears kind

theorem deliver (h : Inv Leads initial s) {phase : Phase T C F O} {errors : List E}
    (hstack : s.stack = .delivery phase errors :: stack) :
    Inv Leads initial (s.deliver phase errors stack) := by
  have hphases : phases s.stack = phase :: phases stack := by rw [hstack]; rfl
  have hdelivering : s.delivering = true := by
    refine eq_true_of_ne_false fun hd => ?_
    have hnone := (h.idle hd).1
    rw [hphases] at hnone
    cases hnone
  have hbeneath : phases stack = [] := by
    obtain ⟨ph, hph⟩ := h.busy hdelivering
    rw [hphases] at hph
    exact (List.cons.inj hph).2
  have hnext : ∀ phase', phases (.delivery phase' errors :: stack) = [phase'] :=
    fun phase' => congrArg (phase' :: ·) hbeneath
  have hrecipes : Replicated.recipes s.stack = Replicated.recipes stack := by
    rw [hstack]
    rfl
  have hold : ∀ kind, Ears kind s.history (s.listeners kind)
      (dueIn (s.listeners kind) [phase] kind) := by
    intro kind
    have hkind := h.ears kind
    rwa [due, hphases, hbeneath] at hkind
  match phase with
  | .shift =>
    simp only [State.deliver]
    split
    next hpublications =>
      refine ⟨h.ledger_shifted rfl (hpublications ▸ h.ledger.queue),
        hrecipes.symm.trans h.recipes, fun _ => ⟨hbeneath, hpublications⟩, nofun, ?_,
        fun kind => ?_⟩
      · intro kind p left hp
        rw [hbeneath] at hp
        cases hp
      · rw [due, hbeneath]
        exact hold kind
    next p publications hpublications =>
      refine h.moved hdelivering rfl ?_ hrecipes.symm (hnext _) ?_ fun kind => ?_
      · rw [← h.ledger.queue, hpublications]
        simp
      · simp
      · cases kind <;> exact (hold _).shifted
  | .telling .source p [] =>
    have hcurrent := h.current .source p [] (hphases ▸ mem_cons_self)
    refine h.moved hdelivering rfl h.ledger.queue hrecipes.symm (hnext _) ?_ fun kind => ?_
    · rintro kind q left ⟨⟩
      exact hcurrent
    · cases kind <;> exact hold _
  | .telling .listener p [] =>
    refine h.moved hdelivering rfl h.ledger.queue hrecipes.symm (hnext _) nofun fun kind => ?_
    cases kind <;> exact hold _
  | .telling kind p (x :: left) =>
    have hmem : Phase.telling kind p (x :: left) ∈ phases s.stack := hphases ▸ mem_cons_self
    have hcurrent := h.current kind p (x :: left) hmem
    have hsequence := (h.sequence_current hmem).1
    have hhead : Ears kind s.history (s.listeners kind) (x :: left) := by
      cases kind <;> exact hold _
    have hsame : ∀ k q l, Phase.telling kind p left = .telling k q l →
        (shifts s.history).getLast? = some q := by
      rintro k q l ⟨⟩
      exact hcurrent
    -- what is due of the other kind stays so
    have hmove : ∀ {history : List (Event T C F O)} {stack' : List (Frame T C F E O)},
        Replicated.commits history = Replicated.commits s.history →
        shifts history = shifts s.history → Replicated.recipes stack' = Replicated.recipes stack →
        phases stack' = [.telling kind p left] → Ears kind history (s.listeners kind) left →
        (∀ k, k ≠ kind → Ears k history (s.listeners k)
          (dueIn (s.listeners k) [.telling kind p (x :: left)] k)) →
        Inv Leads initial { s with history, stack := stack' } := by
      intro history stack' hcommits hshifts hrec hph hkind hothers
      refine h.moved hdelivering hcommits (hshifts ▸ h.ledger.queue) (hrec.trans hrecipes.symm)
        hph (hshifts ▸ hsame) fun k => ?_
      by_cases hk : k = kind
      · subst hk
        cases k <;> exact hkind
      · have := hothers k hk
        cases kind <;> cases k <;> first | exact this | exact absurd rfl hk
    have hdeliver : s.deliver (.telling kind p (x :: left)) errors stack =
        if kind = .listener ∧ p.sequence ≤ x.2 then
          { s with stack := .delivery (.telling kind p left) errors :: stack }
        else { s with
          stack := .call :: .delivery (.telling kind p left) errors :: stack
          history := .told kind x.1 p :: s.history } := by
      cases kind <;> rfl
    rw [hdeliver]
    split
    next hskip =>
      exact hmove rfl rfl rfl (hnext _) (hhead.skipped (hsequence ▸ hskip.2))
        fun k _ => hold k
    next htell =>
      refine hmove rfl rfl rfl (hnext _) (hhead.told hcurrent ?_) fun k hk =>
        (hold k).other rfl (fun _ => rfl) (fun g => by simp [heard, Ne.symm hk]) fun _ => rfl
      cases kind with
      | source => exact hhead.ahead rfl x mem_cons_self
      | listener =>
        have : ¬ p.sequence ≤ x.2 := fun hle => htell ⟨rfl, hle⟩
        omega

end Inv

/-- The function of a new subscription is not subscribed already, nor about to
be given the update that is being delivered. -/
def Own (s : State T C F E O) : Label T C F E → Prop
  | .subscribe kind f =>
    f ∉ (s.listeners kind).map Prod.fst ∧ f ∉ (s.due kind).map Prod.fst
  | _ => True

instance (s : State T C F E O) (label : Label T C F E) : Decidable (s.Own label) := by
  unfold Own
  split <;> infer_instance

theorem Inv.step (h : Inv Leads initial s)
    (hleads : ∀ before after, Leads before (diffRevisions before after) after)
    {label : Label T C F E} (hok : s.Own label)
    (hs : s.step diffRevisions label = some s') : Inv Leads initial s' := by
  have quiet : ∀ outcome : Option (Failure E), Inv Leads initial { s with outcome } :=
    fun outcome => h.restack rfl h.recipes
  cases label with
  | change context =>
    simp only [State.step] at hs
    split at hs
    · cases hs
    split at hs <;> cases hs
    next => exact quiet _
    next hchanging =>
      refine h.restack rfl ?_
      have := h.recipes
      simp only [hchanging, if_false, Bool.false_eq_true] at this
      simpa [Replicated.recipes] using this
  | produced next =>
    simp only [State.step] at hs
    split at hs
    next context base sequence stack hstack =>
      cases hs
      obtain ⟨-, -, hbelow⟩ := h.drafting hstack
      have hout : Inv Leads initial { s with changing := false, stack, outcome := none } :=
        h.restack (by rw [hstack]; rfl) hbelow
      cases next with
      | none => exact hout
      | some value => exact hout.commit rfl hleads value context
    next => cases hs
  | replace context imported =>
    simp only [State.step] at hs
    split at hs
    · cases hs
    split at hs
    · cases hs
      exact quiet _
    next hchanging =>
      split at hs <;> cases hs
      · exact quiet _
      · exact (quiet none).commit (by simpa using hchanging) hleads _ context
  | subscribe kind f =>
    simp only [State.step] at hs
    split at hs <;> cases hs
    exact h.subscribe hok.1 hok.2
  | unsubscribe kind f =>
    simp only [State.step] at hs
    split at hs <;> cases hs
    have hdelete := h.delete kind f
    exact hdelete.restack rfl hdelete.recipes
  | returned =>
    simp only [State.step] at hs
    split at hs
    next hstack =>
      cases hs
      exact h.restack (by rw [hstack]; rfl) (by rw [← h.recipes, hstack]; rfl)
    next hstack =>
      cases hs
      exact h.restack (by rw [hstack]; rfl) (by rw [← h.recipes, hstack]; rfl)
    next => cases hs
  | threw error =>
    simp only [State.step] at hs
    split at hs
    next hstack =>
      cases hs
      exact h.restack (by rw [hstack]; rfl) (h.drafting hstack).2.2
    next f stack hstack =>
      cases hs
      have hdelete := h.delete .listener f
      have hsame : (s.delete .listener f).stack = .hydration f :: stack := by
        rw [← hstack, State.delete]
        split <;> rfl
      exact hdelete.restack (by rw [hsame]; rfl) (by rw [← hdelete.recipes, hsame]; rfl)
    next hstack =>
      cases hs
      exact h.restack (by rw [hstack]; rfl) (by rw [← h.recipes, hstack]; rfl)
    next => cases hs
  | tick =>
    simp only [State.step] at hs
    split at hs
    next hstack =>
      cases hs
      exact h.deliver hstack
    next => cases hs

/-- What the listeners of a replicated state can rely on. -/
structure Gapless (diffRevisions : T → T → List O) (Leads : T → List O → T → Prop)
    (initial : T) (s : State T C F E O) : Prop where
  /-- The commits are numbered from one on, and the operations of each lead
  from the revision before to its own. -/
  numbered : ∀ i p, (commits s.history)[i]? = some p → p.sequence = i + 1 ∧
    Leads (revision initial (commits s.history) i) p.ops p.value
  current : s.sequence = (commits s.history).length ∧
    s.value = revision initial (commits s.history) s.sequence
  /-- A listener is given the commits from its start on, each once and in
  order: all of them while it stays, and those shifted until it goes, the one
  being delivered then perhaps not. -/
  heard : ∀ kind f n, since kind f s.history = some n →
    ∃ m, heard kind f s.history = ((commits s.history).take m).drop n ∧
      (f ∈ (s.listeners kind).map Prod.fst → leftAt kind f s.history = none ∧
        (s.delivering = false → m = s.sequence)) ∧
      (f ∉ (s.listeners kind).map Prod.fst →
        ∃ k, leftAt kind f s.history = some k ∧ m ≤ k ∧ k ≤ m + 1)
  settled : s.stack = [] → s.delivering = false
  recipe : ∀ context base sequence stack e s', s.stack = .recipe context base sequence :: stack →
    s.step diffRevisions (.threw e) = some s' →
    s'.value = base ∧ s'.sequence = sequence ∧ s'.history = s.history
  /-- What a listener throws is kept for the end, and changes nothing else. -/
  throwing : ∀ phase errors stack e, s.stack = .call :: .delivery phase errors :: stack →
    s.step diffRevisions (.threw e) =
        some { s with stack := .delivery phase (errors ++ [e]) :: stack } ∧
      s.step diffRevisions .returned = some { s with stack := .delivery phase errors :: stack }

theorem Inv.heard (h : Inv Leads initial s) {kind : Kind} {f : F} {n : Nat}
    (hn : since kind f s.history = some n) :
    ∃ m, Replicated.heard kind f s.history = ((commits s.history).take m).drop n ∧
      (f ∈ (s.listeners kind).map Prod.fst → leftAt kind f s.history = none ∧
        (s.delivering = false → m = s.sequence)) ∧
      (f ∉ (s.listeners kind).map Prod.fst →
        ∃ k, leftAt kind f s.history = some k ∧ m ≤ k ∧ k ≤ m + 1) := by
  obtain ⟨m, hheard, hm, -, hlive, hgone⟩ := (h.ears kind).follows f n hn
  refine ⟨m, ?_, fun hf => ⟨(hlive hf).1, fun hidle => ?_⟩, fun hf => ?_⟩
  · rw [hheard, ← h.ledger.queue, take_append_of_le_length hm]
  · obtain ⟨hphases, hpublications⟩ := h.idle hidle
    have hdue : s.due kind = [] := by
      rw [due, hphases]
      cases kind <;> rfl
    rw [(hlive hf).2 (by simp [hdue]), h.ledger.sequence, ← h.ledger.queue, hpublications,
      append_nil]
  · obtain ⟨k, hk, hmk, hkm, -, -⟩ := hgone hf
    exact ⟨k, hk, hmk, hkm⟩

/-- **Listeners see a gapless history.** -/
theorem gapless (hleads : ∀ before after, Leads before (diffRevisions before after) after)
    (h : Run (fun s => s = create initial) (step diffRevisions) Own s) :
    s.Gapless diffRevisions Leads initial := by
  have hinv : Inv Leads initial s :=
    h.invariant (fun s hs => hs ▸ inv_create) fun s label s' hi hok hs => hi.step hleads hok hs
  refine ⟨hinv.ledger.commits, ⟨hinv.ledger.sequence, hinv.ledger.value⟩,
    fun kind f n hn => hinv.heard hn, fun hstack => ?_, ?_, ?_⟩
  · refine eq_false_of_ne_true fun hd => ?_
    obtain ⟨phase, hphase⟩ := hinv.busy hd
    rw [hstack] at hphase
    cases hphase
  · intro context base sequence stack e s' hstack hs
    obtain ⟨hbase, hsequence, -⟩ := hinv.drafting hstack
    simp only [step, hstack, Option.some.injEq] at hs
    subst hs
    exact ⟨hbase.symm, hsequence.symm, rfl⟩
  · intro phase errors stack e hstack
    simp only [step, hstack, and_self]

/-! ## Runs -/

/-- A state of numbers, whose only operation is to set the number. -/
abbrev Sample := State Nat Unit Nat Nat Nat

def setTo (before after : Nat) : List Nat := if before = after then [] else [after]

/-- The first listener unsubscribes the second one, which is told all the same. -/
def leaves : List (Label Nat Unit Nat Nat) :=
  [.subscribe .listener 0, .returned, .subscribe .listener 1, .returned, .change (),
    .produced (some 1), .tick, .tick, .tick, .unsubscribe .listener 1, .returned, .tick]

/-- The second listener comes twice with one function, and leaves once. -/
def twice : List (Label Nat Unit Nat Nat) :=
  [.subscribe .listener 0, .returned, .subscribe .listener 0, .returned,
    .unsubscribe .listener 0, .change (), .produced (some 1), .tick, .tick, .tick, .tick]

/-- A source listener comes while an update is in the queue. -/
def joins : List (Label Nat Unit Nat Nat) :=
  [.subscribe .listener 0, .returned, .change (), .produced (some 1), .tick, .tick, .tick,
    .change (), .produced (some 2), .subscribe .source 1, .returned, .tick, .tick, .tick]

theorem gapless_sample :
    (Run.afterAll (step setTo) (create 0 : Sample) leaves).Gapless setTo
      (fun before ops after => ops.foldl (fun _ value => value) before = after) 0 :=
  gapless (by intro before after; unfold setTo; split <;> simp [*])
    (Run.of_check (.init rfl) (by decide +kernel))

/-- A listener is told after it has left, one function subscribed twice is told
nothing once the first subscription has ended, and a source listener is told a
revision that was there before it came. -/
theorem not_gapless :
    (∃ s : Sample, Run (fun s => s = create 0) (step setTo) (fun _ _ => True) s ∧
      ∃ p history, s.history = .told .listener 1 p :: .unsubscribed .listener 1 :: history) ∧
    (∃ s : Sample, Run (fun s => s = create 0) (step setTo) (fun _ _ => True) s ∧
      s.stack = [] ∧ ∃ p, s.history = [.shifted p, .committed p, .unsubscribed .listener 0,
        .subscribed .listener 0, .subscribed .listener 0]) ∧
    ∃ s : Sample, Run (fun s => s = create 0) (step setTo) (fun _ _ => True) s ∧
      ∃ p history, s.history = .told .source 1 p :: .shifted p :: .subscribed .source 1 ::
        .committed p :: history :=
  ⟨⟨_, Run.of_check (.init rfl) (show Run.check _ _ _ leaves = true by decide +kernel), _, _, rfl⟩,
    ⟨_, Run.of_check (.init rfl) (show Run.check _ _ _ twice = true by decide +kernel),
      rfl, _, rfl⟩,
    ⟨_, Run.of_check (.init rfl) (show Run.check _ _ _ joins = true by decide +kernel), _, _, rfl⟩⟩

end State

end ReflectivePi.Services.Replicated
