import Mathlib.Data.List.TakeWhile
import ReflectivePi.Session.Extension

/-!
# Navigation — Collect

The entries a navigation leaves behind: from the old leaf back to the
deepest entry that is also on the path to the target.
-/

namespace ReflectivePi.Navigation

open List ParentWalk Session LiveManager

/-- `left` is the end of `path` that is not on `other`; what comes before it
is. -/
structure Abandons (path other left : List SessionEntry) : Prop where
  shared : ∃ shared, path = shared ++ left ∧ ∀ e ∈ shared, e ∈ other
  off : ∀ e ∈ left, e ∉ other

theorem Abandons.eq_filter {path other left : List SessionEntry} (h : Abandons path other left) :
    left = path.filter fun e => decide (e ∉ other) := by
  obtain ⟨shared, rfl, hshared⟩ := h.shared
  have hnone : shared.filter (fun e => decide (e ∉ other)) = [] := by
    rw [filter_eq_nil_iff]
    intro e he
    simpa using hshared e he
  have hall : left.filter (fun e => decide (e ∉ other)) = left := by
    rw [filter_eq_self]
    intro e he
    simpa using h.off e he
  rw [List.filter_append, hnone, hall, nil_append]

/-- The longest start of a walk without the first node of the other walk that
it meets. -/
theorem abandons_takeWhile {l w t : List SessionEntry} {k k' : Option EntryId}
    (hw : Walk SessionEntry.parentId (lookup SessionEntry.id l) k w)
    (ht : Walk SessionEntry.parentId (lookup SessionEntry.id l) k' t)
    (hnd : (w.map SessionEntry.id).Nodup) :
    Abandons w.reverse t.reverse
      (w.takeWhile fun e => decide (some e.id ≠
        (t.find? fun e => decide (e.id ∈ w.map SessionEntry.id)).map
          SessionEntry.id)).reverse := by
  cases hfind : t.find? fun e => decide (e.id ∈ w.map SessionEntry.id) with
  | none =>
    have hoff : ∀ e ∈ t, e.id ∉ w.map SessionEntry.id := by
      simpa [find?_eq_none] using hfind
    have htake : w.takeWhile (fun e => decide (some e.id ≠ (none : Option SessionEntry).map
          SessionEntry.id)) = w := by
      simp
    rw [htake]
    refine ⟨⟨[], rfl, by simp⟩, fun e he hc => ?_⟩
    rw [mem_reverse] at he hc
    exact hoff e hc (mem_map_of_mem he)
  | some c =>
    obtain ⟨hc, pre, post, rfl, hpre⟩ := List.find?_eq_some_iff_append.mp hfind
    have hmem : c.id ∈ w.map SessionEntry.id := by simpa using hc
    obtain ⟨x, hx, hxid⟩ := List.mem_map.mp hmem
    obtain ⟨before, after, rfl⟩ := append_of_mem hx
    -- both walks go on from the common node in the same way
    have hsame : x :: after = c :: post := by
      have hrest := hw.suffix
      rw [hxid] at hrest
      exact hrest.unique ht.suffix
    obtain ⟨rfl, rfl⟩ := List.cons.inj hsame
    rw [map_append, map_cons, nodup_append] at hnd
    have hbefore : ∀ e ∈ before, e.id ≠ x.id := fun e he hid =>
      hnd.2.2 _ (mem_map_of_mem he) _ (by simp) hid
    have htake : (before ++ x :: after).takeWhile
        (fun e => decide (some e.id ≠ (some x).map SessionEntry.id)) = before := by
      rw [takeWhile_append_of_pos]
      · simp
      · intro e he
        simpa using hbefore e he
    rw [htake]
    refine ⟨⟨(x :: after).reverse, by simp, ?_⟩, ?_⟩
    · intro e he
      simp only [reverse_append, mem_append]
      exact .inl he
    · intro e he hin
      rw [mem_reverse] at he
      rw [mem_reverse] at hin
      rcases List.mem_append.mp hin with hin | hin
      · have hout := hpre e hin
        rw [Bool.not_eq_true', decide_eq_false_iff_not] at hout
        refine hout (mem_map_of_mem ?_)
        exact mem_append_left _ he
      · exact hnd.2.2 _ (mem_map_of_mem he) _ (mem_map_of_mem hin) rfl

/-! ## The loop -/

section

variable (m : LiveManager)

/-- The `while` loop: from `current` up to the common ancestor, nearest
first. -/
def collectLoop (commonAncestorId : Option EntryId) :
    Nat → Option EntryId → List SessionEntry
  | 0, _ => []
  | _ + 1, none => []
  | n + 1, some current =>
    if some current = commonAncestorId then []
    else match m.byId.get? current with
      | none => []
      | some entry => entry :: collectLoop commonAncestorId n entry.parentId

/-- The deepest entry on both paths, looked for from the target up. -/
def commonAncestor (oldLeafId targetId : EntryId) : Option EntryId :=
  let oldPath := (m.walk (some oldLeafId)).map SessionEntry.id
  ((m.walk (some targetId)).reverse.find? fun e => decide (e.id ∈ oldPath)).map SessionEntry.id

structure CollectEntriesResult where
  entries : List SessionEntry
  commonAncestorId : Option EntryId

def collectEntriesForBranchSummary (oldLeafId : Option EntryId)
    (targetId : EntryId) : CollectEntriesResult :=
  match oldLeafId with
  | none => ⟨[], none⟩
  | some oldLeafId =>
    let commonAncestorId := commonAncestor m oldLeafId targetId
    ⟨(collectLoop m commonAncestorId (m.getEntries.length + 1)
      (some oldLeafId)).reverse, commonAncestorId⟩

end

variable {m : LiveManager}

theorem collectLoop_eq (h : Synced m) (common : Option EntryId) (n : Nat) (k : Option EntryId) :
    collectLoop m common n k = (walkUp SessionEntry.parentId (lookup SessionEntry.id m.getEntries)
          n k).takeWhile fun e => decide (some e.id ≠ common) := by
  induction n generalizing k with
  | zero => rfl
  | succ n ih =>
    cases k with
    | none => rfl
    | some k =>
      simp only [collectLoop, walkUp, h.byId]
      cases hk : lookup SessionEntry.id m.getEntries k with
      | none => simp
      | some e =>
        obtain ⟨-, rfl⟩ := lookup_mem hk
        by_cases hc : some e.id = common
        · simp [hc]
        · simp [hc, ih]

/-- **The entries collected are the ones that the target does not share.** -/
theorem collectEntries_abandons (h : m.Good) (oldLeafId : Option EntryId) (targetId : EntryId) :
    Abandons (m.walk oldLeafId) (m.walk (some targetId))
      (collectEntriesForBranchSummary m oldLeafId targetId).entries := by
  cases oldLeafId with
  | none =>
    refine ⟨⟨[], ?_, by simp⟩, ?_⟩
    · rfl
    · simp [collectEntriesForBranchSummary]
  | some oldLeafId =>
    have hwalk : ∀ k, Walk SessionEntry.parentId
        (lookup SessionEntry.id m.getEntries) k (m.walk k).reverse := by
      intro k
      rw [h.synced.walk_eq, branchPath, ancestry, reverse_reverse]
      exact .of_walkUp (Nat.lt_succ_of_le (walkUp_length_le h.tree.acyclic _ k))
    have hnd : (((m.walk (some oldLeafId)).reverse).map SessionEntry.id).Nodup := by
      rw [map_reverse, nodup_reverse, h.synced.walk_eq]
      exact ancestry_nodup h.tree.acyclic _
    have habandons := abandons_takeWhile (hwalk (some oldLeafId)) (hwalk (some targetId)) hnd
    have hloop : walkUp SessionEntry.parentId (lookup SessionEntry.id m.getEntries)
        (m.getEntries.length + 1) (some oldLeafId) = (m.walk (some oldLeafId)).reverse := by
      rw [h.synced.walk_eq, branchPath, ancestry, reverse_reverse]
    unfold collectEntriesForBranchSummary
    dsimp only
    rw [collectLoop_eq h.synced, hloop]
    unfold commonAncestor
    simpa only [reverse_reverse, map_reverse, mem_reverse] using habandons

end ReflectivePi.Navigation
