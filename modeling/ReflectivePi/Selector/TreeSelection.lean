import ReflectivePi.Selector.TreeList
import ReflectivePi.Lib.LabelledRun
import ReflectivePi.Lib.MapOption

/-!
# Selector — selection and re-filtering

What holds of the tree list in every run: the selection is an index of the
visible list, and each re-filtering shows what passes and is not folded away,
in the tree's order, with the selection kept or moved to the nearest visible
ancestor.
-/

namespace ReflectivePi.Selector

open List
open Session (SessionEntry EntryId)
open Tui (Text)
open Ancestors

structure Refiltering.Correct (toLowerCase : Text → Text) (currentLeafId : Option EntryId)
    (tree : List SessionTreeNode) (r : Refiltering) : Prop where
  /-- The entries are those of the tree, in pre-order. -/
  preOrder : ∃ flat, PreOrder currentLeafId (activeFirst currentLeafId tree) flat ∧
    r.flatNodes.map (·.entry) = flat.map (·.entry)
  order : r.filteredNodes.Sublist (r.flatNodes.map FlatNode.id)
  shown : ∀ id, id ∈ r.filteredNodes ↔ (∃ node ∈ r.flatNodes, node.id = id ∧
      passes toLowerCase r.currentLeafId r.filterMode r.searchQuery node = true) ∧
    ∀ a ∈ r.foldedNodes, ¬ Ancestor (links r.flatNodes) a id
  kept : ∀ id, r.before = some id → id ∈ r.filteredNodes → r.after = some id
  moved : ∀ id a, r.before = some id → Nearest (links r.flatNodes) r.filteredNodes id a →
    r.after = some a

/-- The selection is inside a list that is not empty. -/
def TreeList.Inside (l : TreeList) : Prop :=
  l.filteredNodes ≠ [] → 0 ≤ l.selectedIndex ∧ l.selectedIndex < l.filteredNodes.length

structure TreeSelector.Proper (toLowerCase : Text → Text) (currentLeafId : Option EntryId)
    (tree : List SessionTreeNode) (s : TreeSelector) : Prop where
  inside : s.list.Inside
  refilterings : ∀ r ∈ s.list.refilterings, r.Correct toLowerCase currentLeafId tree
  /-- Every key is handled: no loop goes on for ever. -/
  returns : ∀ key, (s.list.handleInput toLowerCase key).isSome = true

/-! ## Walks -/

section Walks

variable {nodes : List FlatNode} {ids : List EntryId}

theorem idxOf_add_le_walkFuel (nodes : List FlatNode) (k : EntryId) :
    ((links nodes).map Prod.fst).idxOf k + 3 ≤ walkFuel nodes := by
  have := idxOf_le_length (a := k) (l := (links nodes).map Prod.fst)
  rw [length_map] at this
  rw [walkFuel]
  omega

theorem firstVisible_link (h : ParentsFirst (links nodes)) (ids : List EntryId)
    (k : Option EntryId) :
    ∃ r, firstVisible (links nodes) ids (walkFuel nodes) k = some r ∧
      ∀ a, r = some a → ∃ b, k = some b ∧ Nearest (links nodes) ids b a := by
  cases k with
  | none =>
    refine ⟨none, rfl, fun a ha => ?_⟩
    cases ha
  | some b =>
    rcases firstVisible_spec h ids b (walkFuel nodes) (idxOf_add_le_walkFuel nodes b) with
      ⟨a, heq, hnear⟩ | ⟨heq, -⟩
    · refine ⟨some a, heq, fun a' ha => ⟨b, rfl, ?_⟩⟩
      obtain rfl := Option.some.inj ha
      exact hnear
    · refine ⟨none, heq, fun a ha => ?_⟩
      cases ha

theorem visibleStructure_isSome (h : ParentsFirst (links nodes)) (ids : List EntryId) :
    (visibleStructure nodes ids).isSome = true := by
  apply mapM_isSome
  intro id _
  obtain ⟨r, hr, -⟩ := firstVisible_link h ids (parentOf (links nodes) id)
  rw [hr]
  rfl

/-- A visible entry's visible parent is visible, and stands before it. -/
theorem visibleStructure_mem (h : ParentsFirst (links nodes))
    (hsub : ∀ id ∈ ids, id ∈ (links nodes).map Prod.fst)
    {parents : List (EntryId × Option EntryId)} (hparents : visibleStructure nodes ids = some parents)
    {id : EntryId} {parent : Option EntryId} (hmem : (id, parent) ∈ parents) :
    id ∈ ids ∧ ∀ p, parent = some p → p ∈ ids ∧
      ((links nodes).map Prod.fst).idxOf p < ((links nodes).map Prod.fst).idxOf id := by
  obtain ⟨x, hx, hfx⟩ := mem_of_mapM hparents hmem
  obtain ⟨r, hr, hnear⟩ := firstVisible_link h ids (parentOf (links nodes) x)
  rw [hr] at hfx
  obtain ⟨rfl, rfl⟩ := Prod.mk.inj (Option.some.inj hfx)
  refine ⟨hx, fun p hp => ?_⟩
  obtain ⟨b, hb, hnearest⟩ := hnear p hp
  refine ⟨hnearest.shown, h.ancestor_lt ?_ (hsub p hnearest.shown)⟩
  rcases hnearest.reached with rfl | hanc
  · exact .parent hb
  · exact .up hb hanc

theorem idAt_eq_some {i : Int} {id : EntryId} (h : idAt ids i = some id) :
    0 ≤ i ∧ i < ids.length ∧ id ∈ ids := by
  rw [idAt] at h
  split at h
  · cases h
  · have hlt := (List.getElem?_eq_some_iff.mp h).1
    exact ⟨by omega, by omega, mem_of_getElem? h⟩

theorem idAt_idxOf {id : EntryId} (h : id ∈ ids) : idAt ids (ids.idxOf id) = some id := by
  have hlt := idxOf_lt_length_of_mem h
  rw [idAt, if_neg (by omega), Int.toNat_natCast, getElem?_eq_getElem hlt, getElem_idxOf]

/-- **The nearest visible entry**, or the last one where there is none. -/
theorem findNearestVisibleIndex_spec (h : ParentsFirst (links nodes)) (hids : ids ≠ [])
    (k : Option EntryId) :
    ∃ i, findNearestVisibleIndex nodes ids k = some i ∧ 0 ≤ i ∧ i < ids.length ∧
      ∀ b, k = some b → ∀ a, Nearest (links nodes) ids b a →
        (∀ id ∈ ids, id ∈ (links nodes).map Prod.fst) → idAt ids i = some a := by
  have hpos := length_pos_of_ne_nil hids
  rw [findNearestVisibleIndex, if_neg hids]
  cases k with
  | none =>
    refine ⟨ids.length - 1, rfl, by omega, by omega, fun b hb => ?_⟩
    cases hb
  | some b =>
    rcases firstVisible_spec h ids b (walkFuel nodes) (idxOf_add_le_walkFuel nodes b) with
      ⟨a, heq, hnear⟩ | ⟨heq, hnone⟩
    · rw [heq]
      have hlt := idxOf_lt_length_of_mem hnear.shown
      refine ⟨ids.idxOf a, rfl, by omega, by omega, ?_⟩
      rintro b' hb' a' hnear' hsub
      obtain rfl := Option.some.inj hb'
      rw [← hnear.unique h hsub hnear']
      exact idAt_idxOf hnear.shown
    · rw [heq]
      refine ⟨ids.length - 1, rfl, by omega, by omega, ?_⟩
      rintro b' hb' a' hnear' -
      obtain rfl := Option.some.inj hb'
      exact absurd hnear'.reached (hnone a' hnear'.shown)

end Walks

end ReflectivePi.Selector
