import Mathlib.Data.List.Induction
import Mathlib.Data.List.Nodup
import Mathlib.Data.List.Perm.Subperm

/-!
# Lib — walking a forest up its parent links

A forest kept as a flat list of nodes, each with its own key and the key
of its parent. The walk from a key to its root is a loop over an index,
and loops only when the parent links are acyclic; `Acyclic` says so with
a rank, and `walkUp_stable` is the pigeonhole behind the fuel: a walk
never meets more nodes than the list has.

Two facts carry everything proved about paths elsewhere: a walk does not
see nodes it does not pass (`walkUp_append_fresh`), and walking a path in
the index of the path itself gives the path back (`ancestry_ancestry`).
-/

namespace ReflectivePi.ParentWalk

open List

variable {κ α : Type} [DecidableEq κ]

section Definitions

variable (key : α → κ) (parent : α → Option κ)

/-- The LAST node of the list with key `k`: an index filled in list
order, where a later node of the same key overwrites an earlier one. -/
def lookup (l : List α) (k : κ) : Option α :=
  l.reverse.find? (fun a => key a = k)

/-- The nodes met going up from `k`, nearest first. -/
def walkUp (index : κ → Option α) : Nat → Option κ → List α
  | 0, _ => []
  | _ + 1, none => []
  | n + 1, some k =>
    match index k with
    | none => []
    | some a => a :: walkUp index n (parent a)

/-- The path from the root down to `k`. -/
def ancestry (l : List α) (k : Option κ) : List α :=
  (walkUp parent (lookup key l) (l.length + 1) k).reverse

/-- No node is its own proper ancestor: ranks fall along parent links. -/
def Acyclic (l : List α) : Prop :=
  ∃ rank : κ → Nat, ∀ a ∈ l, ∀ b ∈ l, parent a = some (key b) → rank (key b) < rank (key a)

/-- Leaf-first lists whose every node names the next one as its parent. -/
def Linked : List α → Prop
  | [] => True
  | [_] => True
  | a :: b :: rest => parent a = some (key b) ∧ Linked (b :: rest)

end Definitions

variable {key : α → κ} {parent : α → Option κ}

variable {l : List α} {a : α}

theorem lookup_mem {k : κ} (h : lookup key l k = some a) : a ∈ l ∧ key a = k := by
  rw [lookup, find?_eq_some_iff_append] at h
  obtain ⟨hk, l1, l2, hl, -⟩ := h
  refine ⟨List.mem_reverse.mp ?_, by simpa using hk⟩
  rw [hl]
  simp

theorem lookup_eq_none {k : κ} : lookup key l k = none ↔ k ∉ l.map key := by
  simp [lookup, find?_eq_none]

theorem lookup_of_mem (hnd : (l.map key).Nodup) (ha : a ∈ l) : lookup key l (key a) = some a := by
  cases h : lookup key l (key a) with
  | none => exact absurd (mem_map_of_mem ha) (lookup_eq_none.mp h)
  | some b =>
    obtain ⟨hb, hk⟩ := lookup_mem h
    rw [inj_on_of_nodup_map hnd hb ha hk]

theorem lookup_concat (l : List α) (a : α) (k : κ) :
    lookup key (l ++ [a]) k = if key a = k then some a else lookup key l k := by
  by_cases h : key a = k <;> simp [lookup, h]

/-! ## The walk -/

omit [DecidableEq κ] in
@[simp] theorem walkUp_none (index : κ → Option α) (n : Nat) : walkUp parent index n none = [] := by
  cases n <;> rfl

omit [DecidableEq κ] in
theorem walkUp_fuel (index : κ → Option α) {n m : Nat} {k : Option κ}
    (h : (walkUp parent index n k).length < n) (hm : n ≤ m) :
    walkUp parent index m k = walkUp parent index n k := by
  induction n generalizing m k with
  | zero => omega
  | succ n ih =>
    obtain ⟨m, rfl⟩ : ∃ m', m = m' + 1 := ⟨m - 1, by omega⟩
    cases k with
    | none => rfl
    | some k =>
      simp only [walkUp] at h ⊢
      cases hk : index k with
      | none => rfl
      | some a =>
        simp only [hk, length_cons] at h ⊢
        rw [ih (by omega) (by omega)]

theorem walkUp_mem (l : List α) {n : Nat} {k : Option κ}
    (h : a ∈ walkUp parent (lookup key l) n k) : a ∈ l := by
  induction n generalizing k with
  | zero => simp [walkUp] at h
  | succ n ih =>
    cases k with
    | none => simp at h
    | some k =>
      simp only [walkUp] at h
      cases hk : lookup key l k with
      | none => simp [hk] at h
      | some b =>
        simp only [hk, mem_cons] at h
        rcases h with rfl | h
        · exact (lookup_mem hk).1
        · exact ih h

theorem walkUp_head (l : List α) {n : Nat} {k : κ} {rest : List α}
    (h : walkUp parent (lookup key l) n (some k) = a :: rest) : key a = k := by
  cases n with
  | zero => simp [walkUp] at h
  | succ n =>
    simp only [walkUp] at h
    cases hk : lookup key l k with
    | none => simp [hk] at h
    | some b =>
      simp only [hk, List.cons.injEq] at h
      rw [← h.1]
      exact (lookup_mem hk).2

theorem walkUp_linked (l : List α) (n : Nat) (k : Option κ) :
    Linked key parent (walkUp parent (lookup key l) n k) := by
  induction n generalizing k with
  | zero => trivial
  | succ n ih =>
    cases k with
    | none => trivial
    | some k =>
      cases hk : lookup key l k with
      | none => simp [walkUp, hk, Linked]
      | some a =>
        have hrec := ih (parent a)
        simp only [walkUp, hk]
        cases hw : walkUp parent (lookup key l) n (parent a) with
        | nil => trivial
        | cons b rest =>
          rw [hw] at hrec
          refine ⟨?_, hrec⟩
          cases hp : parent a with
          | none => simp [hp] at hw
          | some p =>
            rw [hp] at hw
            rw [walkUp_head l hw]

omit [DecidableEq κ] in
/-- Along a linked list the rank of the first node bounds all others. -/
theorem rank_lt_of_linked {l w : List α} {rank : κ → Nat}
    (hr : ∀ a ∈ l, ∀ b ∈ l, parent a = some (key b) →
      rank (key b) < rank (key a)) (hw : ∀ a ∈ w, a ∈ l) (hl : Linked key parent w) :
    w.Pairwise (fun a b => rank (key b) < rank (key a)) := by
  induction w with
  | nil => exact List.Pairwise.nil
  | cons a rest ih =>
    cases rest with
    | nil => simp
    | cons b rest =>
      have hrest := ih (fun x hx => hw x (mem_cons_of_mem _ hx)) hl.2
      have hab : rank (key b) < rank (key a) := hr a (hw a (by simp)) b (hw b (by simp)) hl.1
      refine List.pairwise_cons.mpr ⟨fun x hx => ?_, hrest⟩
      rcases List.mem_cons.mp hx with rfl | hx
      · exact hab
      · exact Nat.lt_trans ((List.pairwise_cons.mp hrest).1 x hx) hab

/-- A walk in an acyclic forest meets no key twice. -/
theorem walkUp_nodup (hac : Acyclic key parent l) (n : Nat) (k : Option κ) :
    ((walkUp parent (lookup key l) n k).map key).Nodup := by
  obtain ⟨rank, hr⟩ := hac
  have hp := rank_lt_of_linked hr (fun a ha => walkUp_mem l ha) (walkUp_linked l n k)
  rw [List.Nodup, pairwise_map]
  exact hp.imp (fun h hc => by rw [hc] at h; exact Nat.lt_irrefl _ h)

theorem walkUp_length_le (hac : Acyclic key parent l) (n : Nat) (k : Option κ) :
    (walkUp parent (lookup key l) n k).length ≤ l.length := by
  have hsub : (walkUp parent (lookup key l) n k).map key ⊆ l.map key := by
    intro x hx
    obtain ⟨a, ha, rfl⟩ := List.mem_map.mp hx
    exact mem_map_of_mem (walkUp_mem l ha)
  simpa using ((walkUp_nodup hac n k).subperm hsub).length_le

/-- **Enough fuel**: any fuel past the number of nodes gives one walk. -/
theorem walkUp_stable (hac : Acyclic key parent l) {m : Nat} (hm : l.length + 1 ≤ m)
    (k : Option κ) :
    walkUp parent (lookup key l) m k = walkUp parent (lookup key l) (l.length + 1) k :=
  walkUp_fuel _ (Nat.lt_succ_of_le (walkUp_length_le hac _ k)) hm

/-- A node no other node hangs under is invisible to every other walk. -/
theorem walkUp_append_fresh (hp : ∀ b ∈ l, parent b ≠ some (key a)) {n : Nat}
    {k : Option κ} (hk : k ≠ some (key a)) :
    walkUp parent (lookup key (l ++ [a])) n k = walkUp parent (lookup key l) n k := by
  induction n generalizing k with
  | zero => rfl
  | succ n ih =>
    cases k with
    | none => rfl
    | some k =>
      have hne : key a ≠ k := fun h => hk (by rw [h])
      simp only [walkUp, lookup_concat, if_neg hne]
      cases hb : lookup key l k with
      | none => rfl
      | some b =>
        simp only
        rw [ih (hp b (lookup_mem hb).1)]

/-- The path to a node appended under `parent a` is the parent's path
followed by the node. -/
theorem ancestry_concat (hp : ∀ b ∈ l, parent b ≠ some (key a)) (ha : parent a ≠ some (key a)) :
    ancestry key parent (l ++ [a]) (some (key a)) = ancestry key parent l (parent a) ++ [a] := by
  simp only [ancestry, length_append, length_cons, length_nil,
    walkUp, lookup_concat, if_true, reverse_cons]
  rw [walkUp_append_fresh hp ha]

theorem ancestry_append_fresh (hac : Acyclic key parent l)
    (hp : ∀ b ∈ l, parent b ≠ some (key a)) {k : Option κ} (hk : k ≠ some (key a)) :
    ancestry key parent (l ++ [a]) k = ancestry key parent l k := by
  simp only [ancestry]
  rw [walkUp_append_fresh hp hk, walkUp_stable hac (by simp)]

theorem acyclic_concat (hac : Acyclic key parent l) (hnew : key a ∉ l.map key)
    (hp : ∀ b ∈ l, parent b ≠ some (key a)) (ha : parent a ≠ some (key a)) :
    Acyclic key parent (l ++ [a]) := by
  obtain ⟨rank, hr⟩ := hac
  -- the new node ranks above its parent; nothing hangs under it
  let top := match parent a with
    | none => 0
    | some p => rank p
  refine ⟨fun k => if k = key a then top + 1 else rank k, ?_⟩
  have hold : ∀ b ∈ l, key b ≠ key a :=
    fun b hb hc => hnew (hc ▸ mem_map_of_mem hb)
  intro b hb c hc hbc
  rcases List.mem_append.mp hc with hc' | hc'
  · rcases List.mem_append.mp hb with hb | hb
    · simp only [if_neg (hold b hb), if_neg (hold c hc')]
      exact hr b hb c hc' hbc
    · have hba : b = a := by simpa using hb
      subst hba
      simp only [if_neg (hold c hc'), if_true, top, hbc]
      exact Nat.lt_succ_self _
  · have hca : c = a := by simpa using hc'
    subst hca
    rcases List.mem_append.mp hb with hb | hb
    · exact absurd hbc (hp b hb)
    · have hba : b = c := by simpa using hb
      subst hba
      exact absurd hbc ha

/-! ## A growing tree -/

/-- Distinct keys, no cycle, and every parent a node of the list. -/
structure Tree (key : α → κ) (parent : α → Option κ) (l : List α) : Prop where
  distinct : (l.map key).Nodup
  acyclic : Acyclic key parent l
  parents : ∀ a ∈ l, ∀ k ∈ parent a, k ∈ l.map key

omit [DecidableEq κ] in
theorem Tree.parent_ne (h : Tree key parent l) {k : κ} (hk : k ∉ l.map key) :
    ∀ a ∈ l, parent a ≠ some k :=
  fun a ha hc => hk (h.parents a ha k hc)

/-- A node under nothing or under a node there is. -/
theorem Tree.concat (h : Tree key parent l) (hnew : key a ∉ l.map key)
    (hparent : ∀ k ∈ parent a, k ∈ l.map key) :
    Tree key parent (l ++ [a]) where
  distinct := by
    rw [map_append, nodup_append]
    refine ⟨h.distinct, nodup_singleton _, ?_⟩
    intro k hk k' hk' heq
    rw [map_singleton, mem_singleton] at hk'
    exact hnew (hk' ▸ heq ▸ hk)
  acyclic := acyclic_concat h.acyclic hnew (h.parent_ne hnew)
    fun hc => hnew (hparent _ hc)
  parents := by
    intro b hb k hk
    rw [map_append, mem_append]
    rcases List.mem_append.mp hb with hb | hb
    · exact .inl (h.parents b hb k hk)
    · rw [mem_singleton] at hb
      exact .inl (hparent k (hb ▸ hk))

/-- `l` with nodes appended, each with a new key, under nothing or under a
node there is, and each of a permitted kind. -/
inductive Grown (key : α → κ) (parent : α → Option κ) (ok : α → Prop)
    (l : List α) : List α → Prop
  | refl : Grown key parent ok l l
  | append {l' : List α} {a : α} (h : Grown key parent ok l l')
      (hok : ok a) (hnew : key a ∉ l'.map key)
      (hparent : ∀ k ∈ parent a, k ∈ l'.map key) :
      Grown key parent ok l (l' ++ [a])

namespace Grown

variable {ok : α → Prop} {l l' l'' : List α}

omit [DecidableEq κ] in
theorem trans (h : Grown key parent ok l l')
    (h' : Grown key parent ok l' l'') : Grown key parent ok l l'' := by
  induction h' with
  | refl => exact h
  | append _ hok hnew hparent ih => exact .append ih hok hnew hparent

theorem tree (h : Grown key parent ok l l') (hl : Tree key parent l) : Tree key parent l' := by
  induction h with
  | refl => exact hl
  | append _ _ hnew hparent ih => exact ih.concat hnew hparent

omit [DecidableEq κ] in
theorem mem_keys (h : Grown key parent ok l l') {k : κ}
    (hk : k ∈ l.map key) : k ∈ l'.map key := by
  induction h with
  | refl => exact hk
  | append _ _ _ _ ih =>
    rw [map_append, mem_append]
    exact .inl ih

/-- **The path to a node is the same however the tree has grown.** -/
theorem ancestry_eq (h : Grown key parent ok l l') (hl : Tree key parent l)
    {k : Option κ} (hk : ∀ x ∈ k, x ∈ l.map key) :
    ancestry key parent l' k = ancestry key parent l k := by
  induction h with
  | refl => rfl
  | @append l' a h _ hnew _ ih =>
    have htree := h.tree hl
    have hne : k ≠ some (key a) := fun hc => hnew (h.mem_keys (hk _ hc))
    rw [ancestry_append_fresh htree.acyclic (htree.parent_ne hnew) hne, ih]

omit [DecidableEq κ] in
/-- A running result that no permitted node changes. -/
theorem foldl_eq {β : Type} {f : β → α → β} (hf : ∀ b a, ok a → f b a = b)
    (h : Grown key parent ok l l') (b : β) : l'.foldl f b = l.foldl f b := by
  induction h with
  | refl => rfl
  | append _ hok _ _ ih =>
    rw [foldl_append, ih]
    exact hf _ _ hok

end Grown

/-! ## A path read back from its own index -/

/-- What a walk that ran to its end is: nothing under no key or an
unknown one, else the node found and the walk from its parent. -/
inductive Walk (parent : α → Option κ) (index : κ → Option α) :
    Option κ → List α → Prop
  | root : Walk parent index none []
  | missing {k} (h : index k = none) : Walk parent index (some k) []
  | step {k a w} (h : index k = some a) (rest : Walk parent index (parent a) w) :
      Walk parent index (some k) (a :: w)

omit [DecidableEq κ] in
theorem Walk.of_walkUp {index : κ → Option α} {n : Nat} {k : Option κ}
    (h : (walkUp parent index n k).length < n) : Walk parent index k (walkUp parent index n k) := by
  induction n generalizing k with
  | zero => omega
  | succ n ih =>
    cases k with
    | none => exact .root
    | some k =>
      simp only [walkUp] at h ⊢
      cases hk : index k with
      | none => exact .missing hk
      | some a =>
        simp only [hk, length_cons] at h
        exact .step hk (ih (by omega))

omit [DecidableEq κ] in
theorem Walk.walkUp_eq {index : κ → Option α} {k : Option κ} {w : List α}
    (h : Walk parent index k w) {n : Nat} (hn : w.length < n) : walkUp parent index n k = w := by
  induction h generalizing n with
  | root => simp
  | missing hk =>
    obtain ⟨n, rfl⟩ : ∃ n', n = n' + 1 := ⟨n - 1, by omega⟩
    simp [walkUp, hk]
  | step hk _ ih =>
    obtain ⟨n, rfl⟩ : ∃ n', n = n' + 1 := ⟨n - 1, by omega⟩
    simp only [length_cons] at hn
    simp only [walkUp, hk]
    rw [ih (by omega)]

omit [DecidableEq κ] in
theorem Walk.unique {index : κ → Option α} {k : Option κ} {w w' : List α}
    (h : Walk parent index k w) (h' : Walk parent index k w') : w = w' := by
  have hlong := h.walkUp_eq (n := w.length + w'.length + 1) (by omega)
  rw [← hlong]
  exact h'.walkUp_eq (by omega)

theorem Walk.suffix {l pre post : List α} {k : Option κ}
    (h : Walk parent (lookup key l) k (pre ++ a :: post)) :
    Walk parent (lookup key l) (some (key a)) (a :: post) := by
  induction pre generalizing k with
  | nil =>
    cases h with
    | step hk rest =>
      rw [← (lookup_mem hk).2] at hk
      exact .step hk rest
  | cons b pre ih =>
    cases h with
    | step hk rest => exact ih rest

/-- A walk stays the same walk in any smaller forest that still holds
all of its nodes. -/
theorem Walk.restrict {l l' : List α} (hnd : (l'.map key).Nodup)
    (hsub : ∀ a ∈ l', a ∈ l) {k : Option κ} {w : List α}
    (h : Walk parent (lookup key l) k w) (hw : ∀ a ∈ w, a ∈ l') :
    Walk parent (lookup key l') k w := by
  induction h with
  | root => exact .root
  | missing hk =>
    refine .missing (lookup_eq_none.mpr fun hc => ?_)
    obtain ⟨a, ha, rfl⟩ := List.mem_map.mp hc
    exact lookup_eq_none.mp hk (mem_map_of_mem (hsub a ha))
  | @step k a w hk _ ih =>
    have hfind : lookup key l' k = some a := by
      rw [← (lookup_mem hk).2]
      exact lookup_of_mem hnd (hw a (by simp))
    exact .step hfind (ih fun b hb => hw b (mem_cons_of_mem _ hb))

theorem ancestry_mem {k : Option κ} (h : a ∈ ancestry key parent l k) : a ∈ l :=
  walkUp_mem l (List.mem_reverse.mp h)

theorem ancestry_nodup (hac : Acyclic key parent l) (k : Option κ) :
    ((ancestry key parent l k).map key).Nodup := by
  rw [ancestry, map_reverse, nodup_reverse]
  exact walkUp_nodup hac _ k

/-- **A path is its own ancestry**: walking a root path inside the list
of its own nodes gives the path back. -/
theorem ancestry_ancestry (hac : Acyclic key parent l) (k : Option κ) :
    ancestry key parent (ancestry key parent l k) k = ancestry key parent l k := by
  have hlen := walkUp_length_le hac (l.length + 1) k
  have hwalk : Walk parent (lookup key l) k (walkUp parent (lookup key l) (l.length + 1) k) :=
    .of_walkUp (Nat.lt_succ_of_le hlen)
  have hself := hwalk.restrict (ancestry_nodup hac k)
    (fun a ha => ancestry_mem ha) (fun a ha => List.mem_reverse.mpr ha)
  rw [ancestry, hself.walkUp_eq (by simp [ancestry])]
  rfl

theorem ancestry_getLast? {k : κ} (h : lookup key l k = some a) :
    (ancestry key parent l (some k)).getLast? = some a := by
  simp [ancestry, walkUp, h]

/-- A list in which every node is new and hangs under an earlier one: the
order of an append-only log. -/
def ordered (key : α → κ) (parent : α → Option κ) : List κ → List α → Bool
  | _, [] => true
  | seen, a :: rest =>
    decide (key a ∉ seen) && (parent a).all (fun p => decide (p ∈ seen))
      && ordered key parent (seen ++ [key a]) rest

theorem ordered_append {l rest : List α} (hnd : (l.map key).Nodup) (hac : Acyclic key parent l)
    (hpar : ∀ a ∈ l, ∀ p ∈ parent a, p ∈ l.map key)
    (h : ordered key parent (l.map key) rest = true) :
    ((l ++ rest).map key).Nodup ∧ Acyclic key parent (l ++ rest) ∧
      ∀ a ∈ l ++ rest, ∀ p ∈ parent a, p ∈ (l ++ rest).map key := by
  induction rest generalizing l with
  | nil => simpa using ⟨hnd, hac, by simpa using hpar⟩
  | cons a rest ih =>
    simp only [ordered, Bool.and_eq_true, decide_eq_true_eq, Option.all_eq_true] at h
    obtain ⟨⟨hnew, hp⟩, hrest⟩ := h
    have hpa : parent a ≠ some (key a) := fun hc => hnew (hp _ hc)
    have hpl : ∀ b ∈ l, parent b ≠ some (key a) :=
      fun b hb hc => hnew (hpar b hb _ hc)
    rw [← singleton_append, ← append_assoc]
    apply ih
    · rw [map_append, nodup_append]
      refine ⟨hnd, by simp, ?_⟩
      intro x hx y hy hxy
      rw [map_singleton, mem_singleton] at hy
      exact hnew (hy ▸ hxy ▸ hx)
    · exact acyclic_concat hac hnew hpl hpa
    · intro b hb p hbp
      rw [map_append, mem_append]
      rcases List.mem_append.mp hb with hb | hb
      · exact .inl (hpar b hb p hbp)
      · rw [List.mem_singleton.mp hb] at hbp
        exact .inl (hp p hbp)
    · rwa [map_append, map_singleton]

/-- **An append-only log is acyclic**, with distinct keys and no dangling
parent. -/
theorem ordered_nil (h : ordered key parent [] l = true) :
    (l.map key).Nodup ∧ Acyclic key parent l ∧ ∀ a ∈ l, ∀ p ∈ parent a, p ∈ l.map key := by
  have hnil : Acyclic key parent ([] : List α) :=
    ⟨fun _ => 0, fun a ha => absurd ha (by simp)⟩
  exact ordered_append (l := []) (by simp) hnil (by simp) h

/-! ## Chains -/

/-- A list in which every node hangs under the one before it, the first
one under the given parent. -/
def Chained (key : α → κ) (parent : α → Option κ) : Option κ → List α → Prop
  | _, [] => True
  | p, a :: rest => parent a = p ∧ Chained key parent (some (key a)) rest

/-- The key of the last node, or the parent when there is none. -/
def lastKey (key : α → κ) (p : Option κ) (l : List α) : Option κ :=
  l.foldl (fun _ a => some (key a)) p

omit [DecidableEq κ] in
theorem lastKey_mem {p : Option κ} {k : κ} (h : lastKey key p l = some k) :
    p = some k ∨ k ∈ l.map key := by
  induction l generalizing p with
  | nil => exact .inl h
  | cons a rest ih =>
    rcases ih h with hk | hk
    · right
      rw [Option.some.injEq] at hk
      simp [hk]
    · exact .inr (mem_cons_of_mem _ hk)

omit [DecidableEq κ] in
theorem chained_append {p : Option κ} {l₁ l₂ : List α} :
    Chained key parent p (l₁ ++ l₂) ↔
      Chained key parent p l₁ ∧ Chained key parent (lastKey key p l₁) l₂ := by
  induction l₁ generalizing p with
  | nil => simp [Chained, lastKey]
  | cons a rest ih =>
    rw [cons_append, Chained, Chained, ih, and_assoc]
    rfl

omit [DecidableEq κ] in
theorem parent_mem_of_chained {p : Option κ} (h : Chained key parent p l) (ha : a ∈ l)
    {k : κ} (hk : parent a = some k) : p = some k ∨ k ∈ l.map key := by
  induction l generalizing p with
  | nil => cases ha
  | cons b rest ih =>
    rcases List.mem_cons.mp ha with rfl | ha
    · exact .inl (h.1.symm.trans hk)
    · right
      rcases ih h.2 ha with hb | hb
      · rw [Option.some.injEq] at hb
        simp [hb]
      · exact mem_cons_of_mem _ hb

/-- **A chain is the path to its last node.** -/
theorem ancestry_of_chained (hnd : (l.map key).Nodup) (h : Chained key parent none l) :
    ancestry key parent l (lastKey key none l) = l := by
  induction l using List.reverseRecOn with
  | nil => rfl
  | append_singleton l a ih =>
    obtain ⟨hl, ha, -⟩ := chained_append.mp h
    rw [map_append, nodup_append] at hnd
    have hlast : lastKey key none (l ++ [a]) = some (key a) := by
      simp [lastKey, foldl_append]
    have hnew : key a ∉ l.map key :=
      fun hc => hnd.2.2 _ hc _ (by simp) rfl
    have hpl : ∀ b ∈ l, parent b ≠ some (key a) := by
      intro b hb hc
      rcases parent_mem_of_chained hl hb hc with hk | hk
      · cases hk
      · exact hnew hk
    have hpa : parent a ≠ some (key a) := by
      rw [ha]
      intro hc
      rcases lastKey_mem hc with hk | hk
      · cases hk
      · exact hnew hk
    rw [hlast, ancestry_concat hpl hpa, ha, ih hnd.1 hl]

end ReflectivePi.ParentWalk
