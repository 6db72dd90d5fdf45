import Mathlib.Data.List.Basic

/-!
# Lib — MapOption

Mapping a list with a function that may fail: `List.mapM` in `Option`. It
gives a list when no value fails, and then value by value what the function
gives.
-/

namespace ReflectivePi

open List

variable {α β : Type} {f : α → Option β}

variable {xs : List α}

theorem mapM_isSome (h : ∀ x ∈ xs, (f x).isSome = true) : (xs.mapM f).isSome = true := by
  induction xs with
  | nil => rfl
  | cons x xs ih =>
    obtain ⟨y, hy⟩ := Option.isSome_iff_exists.mp (h x mem_cons_self)
    obtain ⟨ys, hys⟩ := Option.isSome_iff_exists.mp (ih fun z hz => h z (mem_cons_of_mem _ hz))
    rw [mapM_cons, hy, hys]
    rfl

theorem mapM_cons_eq_some {x : α} {ys : List β} (h : (x :: xs).mapM f = some ys) :
    ∃ first rest, f x = some first ∧ xs.mapM f = some rest ∧ ys = first :: rest := by
  rw [mapM_cons] at h
  obtain ⟨first, hfirst, h⟩ := Option.bind_eq_some_iff.mp h
  obtain ⟨rest, hrest, h⟩ := Option.bind_eq_some_iff.mp h
  exact ⟨first, rest, hfirst, hrest, (Option.some.inj h).symm⟩

theorem map_of_mapM {ys : List β} (h : xs.mapM f = some ys) : xs.map f = ys.map some := by
  induction xs generalizing ys with
  | nil =>
    obtain rfl : [] = ys := Option.some.inj h
    rfl
  | cons x xs ih =>
    obtain ⟨z, zs, hz, hzs, rfl⟩ := mapM_cons_eq_some h
    rw [map_cons, map_cons, hz, ih hzs]

theorem mem_of_mapM {ys : List β} (h : xs.mapM f = some ys) {y : β} (hy : y ∈ ys) :
    ∃ x ∈ xs, f x = some y := by
  have hmem : some y ∈ xs.map f := map_of_mapM h ▸ mem_map_of_mem hy
  exact List.mem_map.mp hmem

theorem some_of_mapM {ys : List β} (h : xs.mapM f = some ys) {x : α} (hx : x ∈ xs) :
    ∃ y ∈ ys, f x = some y := by
  have hmem : f x ∈ ys.map some := map_of_mapM h ▸ mem_map_of_mem hx
  obtain ⟨y, hy, heq⟩ := List.mem_map.mp hmem
  exact ⟨y, hy, heq.symm⟩

theorem mapM_congr {g : α → Option β} (h : ∀ x ∈ xs, f x = g x) : xs.mapM f = xs.mapM g := by
  induction xs with
  | nil => rfl
  | cons x xs ih =>
    rw [mapM_cons, mapM_cons, h x mem_cons_self, ih fun z hz => h z (mem_cons_of_mem _ hz)]

end ReflectivePi
