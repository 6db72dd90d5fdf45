import Mathlib.Data.List.Basic
import Mathlib.Data.List.Induction
import Mathlib.Data.List.Nodup

/-!
# Lib — ancestors in a list of links

A forest as the list of its nodes' keys, each with the key of its parent, in
an order in which parents come first. Walking up from a node meets its
ancestors; the first one with a property is the nearest.
-/

namespace ReflectivePi.Ancestors

open List

variable {κ : Type} [DecidableEq κ]

/-- The parent link of a node; a key that is no node has none. -/
def parentOf (links : List (κ × Option κ)) (k : κ) : Option κ :=
  (links.find? fun link => link.1 = k).bind (·.2)

/-- `Ancestor links a k`: going up from `k` at least once comes to `a`. -/
inductive Ancestor (links : List (κ × Option κ)) (a : κ) : κ → Prop where
  | parent {k : κ} (h : parentOf links k = some a) : Ancestor links a k
  | up {k p : κ} (h : parentOf links k = some p) (ha : Ancestor links a p) : Ancestor links a k

/-- Distinct keys, and each parent that is a node stands before its child. -/
structure ParentsFirst (links : List (κ × Option κ)) : Prop where
  nodup : (links.map Prod.fst).Nodup
  before : ∀ pre k p post, links = pre ++ (k, some p) :: post →
    p ∈ links.map Prod.fst → p ∈ pre.map Prod.fst

/-- The keys going up from `current` until a visible one; the outer `none` if
the walk does not end within the fuel. -/
def firstVisible (links : List (κ × Option κ)) (visible : List κ) :
    Nat → Option κ → Option (Option κ)
  | 0, _ => none
  | _ + 1, none => some none
  | fuel + 1, some k =>
    if k ∈ visible then some (some k) else firstVisible links visible fuel (parentOf links k)

/-- A node is hidden when its parent is folded or hidden. -/
def hideStep (folded skip : List κ) (link : κ × Option κ) : List κ :=
  match link.2 with
  | some p => if p ∈ folded ∨ p ∈ skip then skip ++ [link.1] else skip
  | none => skip

/-- The nodes that have a folded ancestor, collected in the order of the list. -/
def hiddenBy (folded : List κ) (links : List (κ × Option κ)) : List κ :=
  links.foldl (hideStep folded) []

variable {links : List (κ × Option κ)}

/-! ## Parents -/

variable {k p a : κ} {visible : List κ}

theorem parentOf_eq_some (h : parentOf links k = some p) : (k, some p) ∈ links := by
  obtain ⟨link, hfind, hlink⟩ := Option.bind_eq_some_iff.mp h
  have hk : link.1 = k := by simpa using find?_some hfind
  have hmem := mem_of_find?_eq_some hfind
  obtain ⟨key, parent⟩ := link
  obtain rfl : key = k := hk
  obtain rfl : parent = some p := hlink
  exact hmem

theorem parentOf_of_mem (hnodup : (links.map Prod.fst).Nodup) {parent : Option κ}
    (h : (k, parent) ∈ links) : parentOf links k = parent := by
  rw [parentOf]
  cases hfind : links.find? fun link => link.1 = k with
  | none =>
    have := List.find?_eq_none.mp hfind (k, parent) h
    simp at this
  | some link =>
    have hk : link.1 = k := by simpa using find?_some hfind
    have hsame := inj_on_of_nodup_map hnodup (mem_of_find?_eq_some hfind) h hk
    rw [hsame]
    rfl

theorem mem_keys_of_parentOf (h : parentOf links k = some p) : k ∈ links.map Prod.fst :=
  mem_map_of_mem (f := Prod.fst) (parentOf_eq_some h)

/-- **Going up to a node lowers the place in the list.** -/
theorem ParentsFirst.idxOf_lt (h : ParentsFirst links)
    (hp : parentOf links k = some p) (hmem : p ∈ links.map Prod.fst) :
    (links.map Prod.fst).idxOf p < (links.map Prod.fst).idxOf k := by
  obtain ⟨pre, post, hsplit⟩ := append_of_mem (parentOf_eq_some hp)
  have hpre := h.before pre k p post hsplit hmem
  have hnodup := h.nodup
  rw [hsplit, map_append, map_cons] at hnodup ⊢
  have hk : k ∉ pre.map Prod.fst := fun hin =>
    (disjoint_of_nodup_append hnodup) hin mem_cons_self
  rw [idxOf_append_of_mem hpre, idxOf_append_of_notMem hk, idxOf_cons_self]
  exact Nat.lt_of_lt_of_le (idxOf_lt_length_of_mem hpre) (Nat.le_add_right _ _)

theorem ancestor_iff :
    Ancestor links a k ↔ ∃ p, parentOf links k = some p ∧ (a = p ∨ Ancestor links a p) := by
  constructor
  · intro h
    cases h with
    | parent h => exact ⟨_, h, .inl rfl⟩
    | up h ha => exact ⟨_, h, .inr ha⟩
  · rintro ⟨p, hp, rfl | ha⟩
    · exact .parent hp
    · exact .up hp ha

theorem not_ancestor_of_unknown (h : k ∉ links.map Prod.fst) : ¬ Ancestor links a k := by
  intro ha
  obtain ⟨p, hp, -⟩ := ancestor_iff.mp ha
  exact h (mem_keys_of_parentOf hp)

theorem ParentsFirst.ancestor_lt (h : ParentsFirst links) (hanc : Ancestor links a k)
    (hmem : a ∈ links.map Prod.fst) :
    (links.map Prod.fst).idxOf a < (links.map Prod.fst).idxOf k := by
  induction hanc with
  | parent hp => exact h.idxOf_lt hp hmem
  | @up k p hp hup ih =>
    have hpmem : p ∈ links.map Prod.fst := by
      obtain ⟨q, hq, -⟩ := ancestor_iff.mp hup
      exact mem_keys_of_parentOf hq
    exact Nat.lt_trans ih (h.idxOf_lt hp hpmem)

/-- The nearest visible key going up from `k`, itself included. -/
structure Nearest (links : List (κ × Option κ)) (visible : List κ) (k a : κ) : Prop where
  shown : a ∈ visible
  reached : a = k ∨ Ancestor links a k
  nearest : ∀ b ∈ visible, b = k ∨ Ancestor links b k → b = a ∨ Ancestor links b a

theorem Nearest.unique (h : ParentsFirst links)
    (hsub : ∀ b ∈ visible, b ∈ links.map Prod.fst) {b : κ}
    (ha : Nearest links visible k a) (hb : Nearest links visible k b) : a = b := by
  rcases ha.nearest b hb.shown hb.reached with heq | hba
  · exact heq.symm
  · rcases hb.nearest a ha.shown ha.reached with heq | hab
    · exact heq
    · have h₁ := h.ancestor_lt hba (hsub b hb.shown)
      have h₂ := h.ancestor_lt hab (hsub a ha.shown)
      omega

theorem Nearest.self (hk : k ∈ visible) : Nearest links visible k k :=
  ⟨hk, .inl rfl, fun _ _ hb => hb⟩

theorem Nearest.up (hk : k ∉ visible)
    (hp : parentOf links k = some p) (h : Nearest links visible p a) :
    Nearest links visible k a where
  shown := h.shown
  reached := by
    rcases h.reached with rfl | ha
    · exact .inr (.parent hp)
    · exact .inr (.up hp ha)
  nearest b hb hreached := by
    rcases hreached with rfl | hanc
    · exact absurd hb hk
    · obtain ⟨p', hp', hcase⟩ := ancestor_iff.mp hanc
      rw [hp] at hp'
      obtain rfl := Option.some.inj hp'
      exact h.nearest b hb hcase

/-- **The walk ends, at the nearest visible node or where there is none.** -/
theorem firstVisible_spec (h : ParentsFirst links) (visible : List κ) (k : κ) :
    ∀ fuel, (links.map Prod.fst).idxOf k + 3 ≤ fuel →
      (∃ a, firstVisible links visible fuel (some k) = some (some a) ∧ Nearest links visible k a) ∨
      (firstVisible links visible fuel (some k) = some none ∧
        ∀ b ∈ visible, ¬ (b = k ∨ Ancestor links b k)) := by
  intro fuel
  induction fuel generalizing k with
  | zero => intro hfuel; omega
  | succ fuel ih =>
    intro hfuel
    rw [firstVisible]
    by_cases hk : k ∈ visible
    · rw [if_pos hk]
      exact .inl ⟨k, rfl, .self hk⟩
    · rw [if_neg hk]
      obtain ⟨fuel, rfl⟩ : ∃ n, fuel = n + 1 := ⟨fuel - 1, by omega⟩
      cases hp : parentOf links k with
      | none =>
        refine .inr ⟨rfl, ?_⟩
        rintro b hb (rfl | hanc)
        · exact hk hb
        · obtain ⟨p, hp', -⟩ := ancestor_iff.mp hanc
          rw [hp] at hp'
          cases hp'
      | some p =>
        by_cases hmem : p ∈ links.map Prod.fst
        · have hlt := h.idxOf_lt hp hmem
          rcases ih p (by omega) with ⟨a, heq, hnear⟩ | ⟨heq, hnone⟩
          · exact .inl ⟨a, heq, hnear.up hk hp⟩
          · refine .inr ⟨heq, ?_⟩
            rintro b hb (rfl | hanc)
            · exact hk hb
            · obtain ⟨p', hp', hcase⟩ := ancestor_iff.mp hanc
              rw [hp] at hp'
              obtain rfl := Option.some.inj hp'
              exact hnone b hb hcase
        · -- the parent is no node: the walk ends one step above
          rw [firstVisible]
          have hnot : ∀ b, ¬ Ancestor links b p := fun b => not_ancestor_of_unknown hmem
          have hroot : parentOf links p = none := by
            cases hpp : parentOf links p with
            | none => rfl
            | some q => exact absurd (mem_keys_of_parentOf hpp) hmem
          by_cases hpv : p ∈ visible
          · rw [if_pos hpv]
            refine .inl ⟨p, rfl, ?_⟩
            exact Nearest.up hk hp (.self hpv)
          · obtain ⟨n, rfl⟩ : ∃ n, fuel = n + 1 := ⟨fuel - 1, by omega⟩
            rw [if_neg hpv, hroot, firstVisible]
            refine .inr ⟨rfl, ?_⟩
            rintro b hb (rfl | hanc)
            · exact hk hb
            · obtain ⟨p', hp', hcase⟩ := ancestor_iff.mp hanc
              rw [hp] at hp'
              obtain rfl := Option.some.inj hp'
              rcases hcase with rfl | hup
              · exact hpv hb
              · exact hnot b hup

/-- **The hidden nodes are those with a folded ancestor.** -/
theorem mem_hiddenBy (h : ParentsFirst links) {folded : List κ} :
    k ∈ hiddenBy folded links ↔ ∃ a ∈ folded, Ancestor links a k := by
  -- over the prefixes of the list
  have hbefore : ∀ pre post, links = pre ++ post →
      ∀ k, k ∈ hiddenBy folded pre ↔ k ∈ pre.map Prod.fst ∧ ∃ a ∈ folded, Ancestor links a k := by
    intro pre
    induction pre using List.reverseRecOn with
    | nil =>
      intro post _ k
      simp [hiddenBy]
    | append_singleton pre link ih =>
      intro post hsplit k
      have hsplit' : links = pre ++ link :: post := by rw [hsplit]; simp
      have ih := ih (link :: post) hsplit'
      have hlink : parentOf links link.1 = link.2 := by
        apply parentOf_of_mem h.nodup
        rw [hsplit']
        simp
      -- the link's own key is hidden exactly when its parent is folded or hidden
      have hown : (∃ a ∈ folded, Ancestor links a link.1) ↔
          ∃ p, link.2 = some p ∧ (p ∈ folded ∨ p ∈ hiddenBy folded pre) := by
        constructor
        · rintro ⟨a, ha, hanc⟩
          obtain ⟨p, hp, hcase⟩ := ancestor_iff.mp hanc
          rw [hlink] at hp
          refine ⟨p, hp, ?_⟩
          rcases hcase with rfl | hup
          · exact .inl ha
          · right
            rw [ih]
            refine ⟨?_, a, ha, hup⟩
            obtain ⟨q, hq, -⟩ := ancestor_iff.mp hup
            refine h.before pre link.1 p post ?_ (mem_keys_of_parentOf hq)
            rw [hsplit', ← hp]
        · rintro ⟨p, hp, hfolded | hhidden⟩
          · exact ⟨p, hfolded, .parent (hlink.trans hp)⟩
          · obtain ⟨-, a, ha, hanc⟩ := (ih p).mp hhidden
            exact ⟨a, ha, .up (hlink.trans hp) hanc⟩
      have hstep : ∀ x, x ∈ hiddenBy folded (pre ++ [link]) ↔ x ∈ hiddenBy folded pre ∨
            (x = link.1 ∧ ∃ p, link.2 = some p ∧ (p ∈ folded ∨ p ∈ hiddenBy folded pre)) := by
        intro x
        rw [hiddenBy, foldl_append]
        show x ∈ hideStep folded (hiddenBy folded pre) link ↔ _
        rw [hideStep]
        cases link.2 with
        | none => simp
        | some p =>
          by_cases hp : p ∈ folded ∨ p ∈ hiddenBy folded pre
          · simp [hp]
          · simp [hp]
      rw [hstep, ih k, ← hown, map_append, mem_append, map_singleton, mem_singleton]
      constructor
      · rintro (⟨hk, hanc⟩ | ⟨rfl, hanc⟩)
        · exact ⟨.inl hk, hanc⟩
        · exact ⟨.inr rfl, hanc⟩
      · rintro ⟨hk | rfl, hanc⟩
        · exact .inl ⟨hk, hanc⟩
        · exact .inr ⟨rfl, hanc⟩
  rw [hbefore links [] (append_nil links).symm k]
  constructor
  · exact fun hboth => hboth.2
  · intro hanc
    refine ⟨?_, hanc⟩
    obtain ⟨a, -, ha⟩ := hanc
    by_contra hk
    exact not_ancestor_of_unknown hk ha

end ReflectivePi.Ancestors
