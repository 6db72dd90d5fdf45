import Mathlib.Data.List.Nodup

/-!
# Lib — the insertion-ordered finite map

The map every JavaScript-style program keeps its indexes in: one binding
per key, iterated in the order the keys were FIRST set. Overwriting a
key keeps its place; deleting and setting it again moves it to the end.

The one-binding rule is a field, so a map with a repeated key cannot be
built and no lemma about `get?` has to ask for it.
-/

namespace ReflectivePi

open List

/-- An insertion-ordered map: bindings with distinct keys. -/
structure InsertionMap (κ ν : Type) where
  entries : List (κ × ν)
  nodup : (entries.map Prod.fst).Nodup

namespace InsertionMap

variable {κ ν : Type} [DecidableEq κ]

/-! ## The binding lists under the map -/

/-- Overwrite the binding of `k`, or append one. -/
def setEntry (k : κ) (v : ν) : List (κ × ν) → List (κ × ν)
  | [] => [(k, v)]
  | (k', v') :: rest =>
    if k' = k then (k, v) :: rest else (k', v') :: setEntry k v rest

/-- The value bound to `k`. -/
def findEntry (k : κ) : List (κ × ν) → Option ν
  | [] => none
  | (k', v) :: rest => if k' = k then some v else findEntry k rest

variable {l : List (κ × ν)}

variable {k x : κ} {v : ν}

/-- Setting a key keeps every other key and adds at most this one. -/
theorem mem_keys_setEntry : x ∈ (setEntry k v l).map Prod.fst ↔ x = k ∨ x ∈ l.map Prod.fst := by
  induction l with
  | nil => simp [setEntry]
  | cons p rest ih =>
    obtain ⟨k', v'⟩ := p
    by_cases hk : k' = k
    · subst hk
      simp [setEntry]
    · simp only [setEntry, if_neg hk, map_cons, mem_cons, ih]
      tauto

theorem nodup_setEntry (h : (l.map Prod.fst).Nodup) : ((setEntry k v l).map Prod.fst).Nodup := by
  induction l with
  | nil => simp [setEntry]
  | cons p rest ih =>
    obtain ⟨k', v'⟩ := p
    simp only [map_cons, nodup_cons] at h
    by_cases hk : k' = k
    · subst hk
      simp only [setEntry, if_true, map_cons, nodup_cons]
      exact h
    · simp only [setEntry, if_neg hk, map_cons, nodup_cons]
      refine ⟨?_, ih h.2⟩
      rw [mem_keys_setEntry]
      exact fun hc => hc.elim hk h.1

theorem findEntry_setEntry (k x : κ) (v : ν) (l : List (κ × ν)) :
    findEntry x (setEntry k v l) = if k = x then some v else findEntry x l := by
  induction l with
  | nil => simp [setEntry, findEntry]
  | cons p rest ih =>
    obtain ⟨k', v'⟩ := p
    by_cases hk : k' = k
    · subst hk
      by_cases hx : k' = x <;> simp [setEntry, findEntry, hx]
    · by_cases hx : k' = x
      · subst hx
        simp [setEntry, findEntry, hk, Ne.symm hk]
      · simp [setEntry, findEntry, hk, hx, ih]

theorem findEntry_eq_none : findEntry x l = none ↔ x ∉ l.map Prod.fst := by
  induction l with
  | nil => simp [findEntry]
  | cons p rest ih =>
    obtain ⟨k', v'⟩ := p
    by_cases hx : k' = x
    · subst hx
      simp [findEntry]
    · simp only [findEntry, if_neg hx, ih, map_cons, mem_cons, not_or]
      exact ⟨fun h => ⟨Ne.symm hx, h⟩, fun h => h.2⟩

theorem findEntry_filter_ne (k x : κ) (l : List (κ × ν)) :
    findEntry x (l.filter (fun p => decide (p.1 ≠ k))) = if k = x then none else findEntry x l := by
  induction l with
  | nil => simp [findEntry]
  | cons p rest ih =>
    obtain ⟨k', v'⟩ := p
    by_cases hk : k' = k
    · subst hk
      rw [filter_cons_of_neg (by simp), ih]
      by_cases hx : k' = x <;> simp [findEntry, hx]
    · rw [filter_cons_of_pos (by simpa using hk)]
      by_cases hx : k' = x
      · subst hx
        simp [findEntry, Ne.symm hk]
      · simp only [findEntry, if_neg hx]
        exact ih

/-! ## The map operations -/

def empty : InsertionMap κ ν := ⟨[], nodup_nil⟩

def get? (m : InsertionMap κ ν) (k : κ) : Option ν := findEntry k m.entries

def has (m : InsertionMap κ ν) (k : κ) : Bool := (m.get? k).isSome

def set (m : InsertionMap κ ν) (k : κ) (v : ν) : InsertionMap κ ν :=
  ⟨setEntry k v m.entries, nodup_setEntry m.nodup⟩

def delete (m : InsertionMap κ ν) (k : κ) : InsertionMap κ ν :=
  ⟨m.entries.filter (fun p => decide (p.1 ≠ k)), m.nodup.sublist (List.filter_sublist.map Prod.fst)⟩

def keys (m : InsertionMap κ ν) : List κ := m.entries.map Prod.fst

def values (m : InsertionMap κ ν) : List ν := m.entries.map Prod.snd

@[simp] theorem get?_empty (k : κ) :
    (empty : InsertionMap κ ν).get? k = none := rfl

@[simp] theorem get?_set (m : InsertionMap κ ν) (k x : κ) (v : ν) :
    (m.set k v).get? x = if k = x then some v else m.get? x :=
  findEntry_setEntry k x v m.entries

@[simp] theorem get?_delete (m : InsertionMap κ ν) (k x : κ) :
    (m.delete k).get? x = if k = x then none else m.get? x :=
  findEntry_filter_ne k x m.entries

variable {m : InsertionMap κ ν}

theorem get?_eq_none : m.get? k = none ↔ k ∉ m.keys := findEntry_eq_none

@[simp] theorem mem_keys_set :
    x ∈ (m.set k v).keys ↔ x = k ∨ x ∈ m.keys := mem_keys_setEntry

theorem mem_keys_delete (h : x ∈ (m.delete k).keys) : x ∈ m.keys :=
  (List.filter_sublist.map Prod.fst).subset h

omit [DecidableEq κ] in
theorem keys_nodup (m : InsertionMap κ ν) : m.keys.Nodup := m.nodup

theorem findEntry_of_mem (hnd : (l.map Prod.fst).Nodup) (h : (k, v) ∈ l) :
    findEntry k l = some v := by
  induction l with
  | nil => cases h
  | cons p rest ih =>
    obtain ⟨k', v'⟩ := p
    simp only [map_cons, nodup_cons] at hnd
    rcases List.mem_cons.mp h with h | h
    · injection h with h1 h2
      subst h1; subst h2
      simp [findEntry]
    · have hne : k' ≠ k := by
        intro hc
        subst hc
        exact hnd.1 (List.mem_map.mpr ⟨(k', v), h, rfl⟩)
      simp only [findEntry, if_neg hne]
      exact ih hnd.2 h

theorem mem_of_findEntry (h : findEntry k l = some v) : (k, v) ∈ l := by
  induction l with
  | nil => cases h
  | cons p rest ih =>
    obtain ⟨k', v'⟩ := p
    by_cases hk : k' = k
    · subst hk
      simp only [findEntry, if_true] at h
      cases h
      exact mem_cons_self
    · simp only [findEntry, if_neg hk] at h
      exact List.mem_cons.mpr (.inr (ih h))

theorem mem_entries_iff : (k, v) ∈ m.entries ↔ m.get? k = some v :=
  ⟨findEntry_of_mem m.nodup, mem_of_findEntry⟩

theorem findEntry_filter_key (q : κ → Bool) (x : κ) (l : List (κ × ν)) :
    findEntry x (l.filter (fun p => q p.1)) = if q x then findEntry x l else none := by
  induction l with
  | nil => simp [findEntry]
  | cons p rest ih =>
    obtain ⟨k', v'⟩ := p
    by_cases hx : k' = x
    · subst hx
      cases hq : q k' <;> simp [findEntry, hq, ih]
    · cases hq : q k' <;> simp [findEntry, hq, hx, ih]

theorem findEntry_map_value {μ : Type} (f : ν → μ) (x : κ) (l : List (κ × ν)) :
    findEntry x (l.map (fun p => (p.1, f p.2))) = (findEntry x l).map f := by
  induction l with
  | nil => rfl
  | cons p rest ih =>
    obtain ⟨k', v'⟩ := p
    by_cases hx : k' = x <;> simp [findEntry, hx, ih]

/-- Setting bindings of distinct keys one after the other: the list wins
over the map it started from. -/
theorem get?_foldl_set (hnd : (l.map Prod.fst).Nodup) (m : InsertionMap κ ν) (x : κ) :
    (l.foldl (fun m p => m.set p.1 p.2) m).get? x = (findEntry x l).or (m.get? x) := by
  induction l generalizing m with
  | nil => rfl
  | cons p rest ih =>
    obtain ⟨k', v'⟩ := p
    rw [map_cons, nodup_cons] at hnd
    rw [foldl_cons, ih hnd.2, get?_set]
    by_cases hx : k' = x
    · subst hx
      rw [findEntry_eq_none.mpr hnd.1]
      simp [findEntry]
    · simp [findEntry, hx]

theorem setEntry_fresh (h : k ∉ l.map Prod.fst) : setEntry k v l = l ++ [(k, v)] := by
  induction l with
  | nil => rfl
  | cons p rest ih =>
    obtain ⟨k', v'⟩ := p
    rw [map_cons, mem_cons, not_or] at h
    have hne : k' ≠ k := fun e => h.1 e.symm
    simp only [setEntry, if_neg hne, ih h.2, cons_append]

/-- Setting new keys one after the other appends their bindings. -/
theorem entries_foldl_set (m : InsertionMap κ ν) (hnd : ((m.entries ++ l).map Prod.fst).Nodup) :
    (l.foldl (fun m p => m.set p.1 p.2) m).entries = m.entries ++ l := by
  induction l generalizing m with
  | nil => simp
  | cons p rest ih =>
    obtain ⟨k, v⟩ := p
    have hk : k ∉ m.entries.map Prod.fst := by
      rw [map_append, map_cons, nodup_append] at hnd
      exact fun hm => hnd.2.2 k hm k mem_cons_self rfl
    have hset : (m.set k v).entries = m.entries ++ [(k, v)] := setEntry_fresh hk
    have hrest := ih (m.set k v) (by
      rw [hset, append_assoc]
      exact hnd)
    rw [foldl_cons, hrest, hset, append_assoc]
    rfl

theorem entries_foldl_set_self (m : InsertionMap κ ν) :
    (m.entries.foldl (fun m p => m.set p.1 p.2) empty).entries = m.entries := by
  have h := entries_foldl_set (l := m.entries) empty m.nodup
  simpa [empty] using h

omit [DecidableEq κ] in
theorem ext_entries {m' : InsertionMap κ ν} (h : m.entries = m'.entries) : m = m' := by
  cases m
  cases m'
  simp_all

end InsertionMap

end ReflectivePi
