import Mathlib.Data.List.Nodup
import Mathlib.Data.List.Pairwise

/-!
# Lib — collections that are iterated while they change

A JavaScript `Set` or `Map` can be changed by the body of a loop over it:
the loop skips what was deleted before it got there and visits what was
added at the end. A `LiveList` numbers its slots in the order they were
filled and never uses a number again, so a loop is a cursor: the next
element is the first one at the cursor or after it.
-/

namespace ReflectivePi

open List

/-- Numbered slots, in order; `next` is the number of the next one. -/
structure LiveList (α : Type) where
  slots : List (Nat × α)
  next : Nat
  sorted : (slots.map Prod.fst).Pairwise (· < ·)
  bounded : ∀ p ∈ slots, p.1 < next

namespace LiveList

variable {α : Type}

def empty : LiveList α := ⟨[], 0, .nil, by simp⟩

def values (l : LiveList α) : List α := l.slots.map Prod.snd

/-- Add an element at the end, in slot `l.next`. -/
def push (l : LiveList α) (a : α) : LiveList α where
  slots := l.slots ++ [(l.next, a)]
  next := l.next + 1
  sorted := by
    rw [map_append, pairwise_append]
    refine ⟨l.sorted, by simp, ?_⟩
    intro n hn k hk
    obtain ⟨p, hp, rfl⟩ := List.mem_map.mp hn
    obtain rfl : k = l.next := by simpa using hk
    exact l.bounded p hp
  bounded := by
    intro p hp
    rcases List.mem_append.mp hp with hp | hp
    · exact Nat.lt_succ_of_lt (l.bounded p hp)
    · rw [List.mem_singleton.mp hp]
      exact Nat.lt_succ_self _

/-- Keep some of the elements, each in its slot. -/
def keep (l : LiveList α) (q : Nat → α → Bool) : LiveList α where
  slots := l.slots.filter fun p => q p.1 p.2
  next := l.next
  sorted := l.sorted.sublist (List.filter_sublist.map _)
  bounded := fun p hp => l.bounded p (List.mem_filter.mp hp).1

/-- Change the elements in their slots. -/
def map (l : LiveList α) (f : Nat → α → α) : LiveList α where
  slots := l.slots.map fun p => (p.1, f p.1 p.2)
  next := l.next
  sorted := by
    rw [map_map]
    exact l.sorted
  bounded := by
    intro p hp
    obtain ⟨q, hq, rfl⟩ := List.mem_map.mp hp
    exact l.bounded q hq

/-- Change the element of one slot. -/
def update (l : LiveList α) (n : Nat) (f : α → α) : LiveList α :=
  l.map fun k a => if k = n then f a else a

def get? (l : LiveList α) (n : Nat) : Option α :=
  (l.slots.find? fun p => p.1 == n).map Prod.snd

/-- The element a loop visits next. -/
def visit (l : LiveList α) (cursor : Nat) : Option (Nat × α) :=
  l.slots.find? fun p => cursor ≤ p.1

variable {l : LiveList α}

variable {a : α} {p : Nat × α} {n : Nat}

theorem mem_push : p ∈ (l.push a).slots ↔ p ∈ l.slots ∨ p = (l.next, a) := by
  simp [push]

theorem mem_keep {q : Nat → α → Bool} : p ∈ (l.keep q).slots ↔ p ∈ l.slots ∧ q p.1 p.2 = true := by
  simp [keep]

theorem mem_map {f : Nat → α → α} :
    p ∈ (l.map f).slots ↔ ∃ a, (p.1, a) ∈ l.slots ∧ f p.1 a = p.2 := by
  obtain ⟨n, b⟩ := p
  constructor
  · intro hp
    obtain ⟨⟨k, a⟩, ha, hk⟩ := List.mem_map.mp hp
    obtain ⟨rfl, rfl⟩ := Prod.mk.inj hk
    exact ⟨a, ha, rfl⟩
  · rintro ⟨a, ha, hb⟩
    exact List.mem_map.mpr ⟨(n, a), ha, congrArg (Prod.mk n) hb⟩

theorem mem_update {k : Nat} {f : α → α} {b : α} :
    (n, b) ∈ (l.update k f).slots ↔
      ∃ a, (n, a) ∈ l.slots ∧ (if n = k then f a else a) = b := mem_map

theorem slot_unique {b : α} (ha : (n, a) ∈ l.slots)
    (hb : (n, b) ∈ l.slots) : a = b := by
  have hnd : (l.slots.map Prod.fst).Nodup := l.sorted.imp Nat.ne_of_lt
  exact (Prod.mk.inj (inj_on_of_nodup_map hnd ha hb rfl)).2

theorem get?_eq_some : l.get? n = some a ↔ (n, a) ∈ l.slots := by
  unfold get?
  rw [Option.map_eq_some_iff]
  constructor
  · rintro ⟨⟨k, b⟩, hp, rfl⟩
    have hk : k = n := by simpa using find?_some hp
    rw [← hk]
    exact mem_of_find?_eq_some hp
  · intro ha
    cases hf : l.slots.find? fun p => p.1 == n with
    | none =>
      have hnone := List.find?_eq_none.mp hf (n, a) ha
      simp at hnone
    | some p =>
      obtain ⟨k, b⟩ := p
      have hk : k = n := by simpa using find?_some hf
      subst hk
      exact ⟨_, rfl, slot_unique (mem_of_find?_eq_some hf) ha⟩

theorem get?_eq_none : l.get? n = none ↔ ∀ a, (n, a) ∉ l.slots := by
  rw [Option.eq_none_iff_forall_ne_some]
  exact forall_congr' fun a => not_congr get?_eq_some

theorem visit_eq_none {cursor : Nat} : l.visit cursor = none ↔ ∀ p ∈ l.slots, p.1 < cursor := by
  simp [visit]

theorem visit_eq_some {cursor : Nat} (h : l.visit cursor = some p) :
    p ∈ l.slots ∧ cursor ≤ p.1 ∧ ∀ q ∈ l.slots, cursor ≤ q.1 → q = p ∨ p.1 + 1 ≤ q.1 := by
  obtain ⟨hp, as, bs, hl, has⟩ := List.find?_eq_some_iff_append.mp h
  have hcursor : cursor ≤ p.1 := by simpa using hp
  refine ⟨by rw [hl]; simp, hcursor, fun q hq hqc => ?_⟩
  rw [hl] at hq
  rcases List.mem_append.mp hq with hq | hq
  · have hbefore := has q hq
    simp at hbefore
    omega
  · rcases List.mem_cons.mp hq with rfl | hq
    · exact .inl rfl
    · right
      have hsorted := l.sorted
      rw [hl, map_append, map_cons, pairwise_append, pairwise_cons] at hsorted
      exact hsorted.2.1.1 q.1 (mem_map_of_mem hq)

end LiveList

end ReflectivePi
