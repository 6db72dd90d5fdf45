import ReflectivePi.Selector.TreeSelection

/-!
# Selector — the tree selector in every run

One lemma per input: re-filtering and the moves keep the invariant of the
list. Going up or a page down in an empty list in which nothing was selected
yet is the exception: it leaves an index before the list.
-/

namespace ReflectivePi.Selector

open List Option
open Session (SessionEntry EntryId)
open Tui (Text)
open Ancestors

section

variable {toLowerCase : Text → Text} {leaf : Option EntryId} {tree : List SessionTreeNode}

structure TreeList.Inv (toLowerCase : Text → Text) (leaf : Option EntryId)
    (tree : List SessionTreeNode) (l : TreeList) : Prop where
  entries : l.flatNodes.map (·.entry) = (flattenTree leaf tree).map (·.entry)
  order : l.filteredNodes.Sublist (l.flatNodes.map FlatNode.id)
  parents : l.filteredNodes ≠ [] →
    visibleStructure l.flatNodes l.filteredNodes = some l.visibleParents
  inside : l.Inside
  unselected : l.filteredNodes = [] → l.lastSelectedId = none → 0 ≤ l.selectedIndex
  refilterings : ∀ r ∈ l.refilterings, r.Correct toLowerCase leaf tree

/-- The tree as `getTree()` gives it, none of its roots its own parent. -/
structure Rooted (leaf : Option EntryId) (tree : List SessionTreeNode) : Prop where
  isTree : IsSessionTree leaf tree
  noOwnParent : NoOwnParent tree

theorem links_eq {nodes nodes' : List FlatNode}
    (h : nodes.map (·.entry) = nodes'.map (·.entry)) : links nodes = links nodes' := by
  have hlinks : ∀ ns : List FlatNode,
      links ns = (ns.map (·.entry)).map fun entry => (entry.id, entry.parentId) := by
    intro ns
    rw [links, List.map_map]
    rfl
  rw [hlinks, hlinks, h]

theorem parentsFirst_of_entries (hroot : Rooted leaf tree) {nodes : List FlatNode}
    (h : nodes.map (·.entry) = (flattenTree leaf tree).map (·.entry)) :
    ParentsFirst (links nodes) := by
  rw [links_eq h]
  exact hroot.isTree.parentsFirst hroot.noOwnParent

namespace TreeList

variable {l l' : TreeList}

theorem mem_keys_of_order {nodes : List FlatNode} {ids : List EntryId}
    (h : ids.Sublist (nodes.map FlatNode.id)) : ∀ id ∈ ids, id ∈ (links nodes).map Prod.fst := by
  intro id hid
  rw [links_keys]
  exact h.subset hid

/-! ## Re-filtering -/

theorem shownIds_order (l : TreeList) :
    (l.shownIds toLowerCase).Sublist (l.flatNodes.map FlatNode.id) := by
  have hshown : ((l.flatNodes.filter (passes toLowerCase l.currentLeafId l.filterMode
      l.searchQuery)).map FlatNode.id).Sublist (l.flatNodes.map FlatNode.id) :=
    List.filter_sublist.map _
  dsimp only [shownIds]
  split
  · exact hshown
  · exact List.filter_sublist.trans hshown

theorem mem_shownIds (h : ParentsFirst (links l.flatNodes)) {id : EntryId} :
    id ∈ l.shownIds toLowerCase ↔ (∃ node ∈ l.flatNodes, node.id = id ∧
        passes toLowerCase l.currentLeafId l.filterMode l.searchQuery node = true) ∧
      ∀ a ∈ l.foldedNodes, ¬ Ancestor (links l.flatNodes) a id := by
  have hshown : id ∈ (l.flatNodes.filter (passes toLowerCase l.currentLeafId l.filterMode
      l.searchQuery)).map FlatNode.id ↔
      ∃ node ∈ l.flatNodes, node.id = id ∧
        passes toLowerCase l.currentLeafId l.filterMode l.searchQuery node = true := by
    rw [List.mem_map]
    constructor
    · rintro ⟨node, hnode, rfl⟩
      obtain ⟨hmem, hpass⟩ := List.mem_filter.mp hnode
      exact ⟨node, hmem, rfl, hpass⟩
    · rintro ⟨node, hmem, rfl, hpass⟩
      exact ⟨node, List.mem_filter.mpr ⟨hmem, hpass⟩, rfl⟩
  dsimp only [shownIds]
  split
  · rename_i hfolded
    rw [hshown, hfolded]
    simp
  · rw [mem_filter, hshown, decide_eq_true_eq, mem_hiddenBy h]
    simp

theorem Inv.remembered_none (h : l.Inv toLowerCase leaf tree)
    (hnone : remembered l.filteredNodes l.selectedIndex l.lastSelectedId = none) :
    0 ≤ l.selectedIndex := by
  rw [remembered] at hnone
  split at hnone
  · exact h.unselected ‹_› hnone
  · rename_i hne
    exact (h.inside hne).1

theorem remembered_of_selected {id : EntryId} (h : l.selectedId = some id) :
    remembered l.filteredNodes l.selectedIndex l.lastSelectedId = some id := by
  have hsel : idAt l.filteredNodes l.selectedIndex = some id := h
  obtain ⟨-, -, hmem⟩ := idAt_eq_some hsel
  rw [remembered, if_neg (ne_nil_of_mem hmem), hsel]
  rfl

/-- Where the selection goes, and that it gets there. -/
theorem restoredIndex_spec (h : ParentsFirst (links l.flatNodes)) (ids : List EntryId)
    (last : Option EntryId) (hlast : last = none → 0 ≤ l.selectedIndex) :
    ∃ i, l.restoredIndex ids last = some i ∧ (ids ≠ [] → 0 ≤ i ∧ i < ids.length) ∧
      (ids = [] → 0 ≤ i) ∧
      ∀ b, last = some b → ∀ a, Nearest (links l.flatNodes) ids b a →
        (∀ id ∈ ids, id ∈ (links l.flatNodes).map Prod.fst) → idAt ids i = some a := by
  cases last with
  | none =>
    have hge := hlast rfl
    rw [restoredIndex]
    by_cases hlong : l.selectedIndex ≥ ids.length
    · rw [if_pos hlong]
      refine ⟨_, rfl, fun hne => ?_, fun _ => by omega, fun b hb => ?_⟩
      · have := length_pos_of_ne_nil hne
        omega
      · cases hb
    · rw [if_neg hlong]
      refine ⟨_, rfl, fun _ => by omega, fun _ => hge, fun b hb => ?_⟩
      cases hb
  | some b =>
    rw [restoredIndex]
    by_cases hids : ids = []
    · refine ⟨0, by rw [findNearestVisibleIndex, if_pos hids], fun hne => absurd hids hne,
        fun _ => Int.le_refl 0, ?_⟩
      intro b' _ a hnear
      have := hnear.shown
      rw [hids] at this
      cases this
    · obtain ⟨i, heq, h0, hlt, hnear⟩ := findNearestVisibleIndex_spec h hids (some b)
      exact ⟨i, heq, fun _ => ⟨h0, hlt⟩, fun hnil => absurd hnil hids, hnear⟩

/-- **Re-filtering succeeds and keeps the invariant.** -/
theorem Inv.applyFilter (hroot : Rooted leaf tree) (h : l.Inv toLowerCase leaf tree) :
    ∃ l', l.applyFilter toLowerCase = some l' ∧ l'.Inv toLowerCase leaf tree := by
  have hfirst := parentsFirst_of_entries hroot h.entries
  let ids := l.shownIds toLowerCase
  have horder : ids.Sublist (l.flatNodes.map FlatNode.id) := shownIds_order l
  have hsub := mem_keys_of_order horder
  obtain ⟨parents, hparents⟩ : ∃ parents, l.recalculateVisualStructure ids = some parents := by
    rw [recalculateVisualStructure]
    split
    · exact ⟨_, rfl⟩
    · exact Option.isSome_iff_exists.mp (visibleStructure_isSome hfirst ids)
  let last := remembered l.filteredNodes l.selectedIndex l.lastSelectedId
  obtain ⟨i, hi, hinside, hnil, hnear⟩ :=
    restoredIndex_spec hfirst ids last h.remembered_none
  refine ⟨l.refiltered ids parents i last, ?_, ?_⟩
  · rw [TreeList.applyFilter]
    show (l.recalculateVisualStructure ids).bind _ = _
    rw [hparents, bind_some]
    show (l.restoredIndex ids last).bind _ = _
    rw [hi, bind_some]
    rfl
  · exact {
      entries := h.entries
      order := horder
      parents := fun hne => by
        have hids : ids ≠ [] := hne
        rw [recalculateVisualStructure, if_neg hids] at hparents
        exact hparents
      inside := hinside
      unselected := fun hempty _ => hnil hempty
      refilterings := fun r hr => by
        rcases List.mem_append.mp hr with hold | hnew
        · exact h.refilterings r hold
        · obtain rfl := List.mem_singleton.mp hnew
          exact {
            preOrder := ⟨_, flattenTree_preOrder leaf tree, h.entries⟩
            order := horder
            shown := fun id => mem_shownIds hfirst
            kept := fun id hbefore hid =>
              hnear id (remembered_of_selected hbefore) id (.self hid) hsub
            moved := fun id a hbefore hnearest =>
              hnear id (remembered_of_selected hbefore) a hnearest hsub } }

/-! ## Moves -/

theorem Inv.select (h : l.Inv toLowerCase leaf tree) {i : Int}
    (hinside : l.filteredNodes ≠ [] → 0 ≤ i ∧ i < l.filteredNodes.length)
    (hunselected : l.filteredNodes = [] → l.lastSelectedId = none → 0 ≤ i) :
    (l.select i).Inv toLowerCase leaf tree where
  entries := h.entries
  order := h.order
  parents := h.parents
  inside := hinside
  unselected := hunselected
  refilterings := h.refilterings

theorem visibleParent_mem {id p : EntryId} (h : l.visibleParent id = some p) :
    (id, some p) ∈ l.visibleParents := by
  obtain hlookup := Option.join_eq_some_iff.mp h
  obtain ⟨before, after, heq, -⟩ := List.lookup_eq_some_iff.mp hlookup
  rw [heq]
  simp

theorem visibleChildren_mem {id child : EntryId} (h : child ∈ l.visibleChildren id) :
    (child, some id) ∈ l.visibleParents := by
  obtain ⟨⟨key, parent⟩, hmem, rfl⟩ := List.mem_map.mp h
  obtain ⟨hin, hparent⟩ := List.mem_filter.mp hmem
  rw [decide_eq_true_eq] at hparent
  rw [← hparent]
  exact hin

theorem Inv.structure_mem (hroot : Rooted leaf tree) (h : l.Inv toLowerCase leaf tree)
    (hne : l.filteredNodes ≠ []) {id p : EntryId} (hmem : (id, some p) ∈ l.visibleParents) :
    id ∈ l.filteredNodes ∧ p ∈ l.filteredNodes ∧
      ((links l.flatNodes).map Prod.fst).idxOf p < ((links l.flatNodes).map Prod.fst).idxOf id := by
  obtain ⟨hid, hparent⟩ := visibleStructure_mem (parentsFirst_of_entries hroot h.entries)
    (mem_keys_of_order h.order) (h.parents hne) hmem
  obtain ⟨hp, hlt⟩ := hparent p rfl
  exact ⟨hid, hp, hlt⟩

theorem indexById_mem {id : EntryId} (h : id ∈ l.filteredNodes) :
    ∃ i, indexById l.filteredNodes id = some i ∧ 0 ≤ i ∧ i < l.filteredNodes.length := by
  refine ⟨l.filteredNodes.idxOf id, if_pos h, by omega, ?_⟩
  have := idxOf_lt_length_of_mem h
  omega

theorem Inv.segmentUp (hroot : Rooted leaf tree) (h : l.Inv toLowerCase leaf tree)
    (fuel : Nat) (id : EntryId) (hid : id ∈ l.filteredNodes)
    (hfuel : ((links l.flatNodes).map Prod.fst).idxOf id < fuel) :
    ∃ i, l.segmentUp fuel id = some i ∧ 0 ≤ i ∧ i < l.filteredNodes.length := by
  have hne := ne_nil_of_mem hid
  induction fuel generalizing id with
  | zero => omega
  | succ fuel ih =>
    rw [TreeList.segmentUp]
    cases hparent : l.visibleParent id with
    | none => exact indexById_mem hid
    | some p =>
      dsimp only
      split
      · exact indexById_mem hid
      · obtain ⟨-, hp, hlt⟩ := h.structure_mem hroot hne (visibleParent_mem hparent)
        exact ih p hp (by omega)

theorem Inv.segmentDown (hroot : Rooted leaf tree) (h : l.Inv toLowerCase leaf tree)
    (fuel : Nat) (id : EntryId) (hid : id ∈ l.filteredNodes)
    (hfuel : (links l.flatNodes).length ≤ fuel + ((links l.flatNodes).map Prod.fst).idxOf id) :
    ∃ i, l.segmentDown fuel id = some i ∧ 0 ≤ i ∧ i < l.filteredNodes.length := by
  have hne := ne_nil_of_mem hid
  induction fuel generalizing id with
  | zero =>
    have := idxOf_lt_length_of_mem (mem_keys_of_order h.order id hid)
    rw [length_map] at this
    omega
  | succ fuel ih =>
    rw [TreeList.segmentDown]
    have hchild : ∀ child ∈ l.visibleChildren id, child ∈ l.filteredNodes ∧
        ((links l.flatNodes).map Prod.fst).idxOf id
          < ((links l.flatNodes).map Prod.fst).idxOf child := by
      intro child hmem
      obtain ⟨hc, -, hlt⟩ := h.structure_mem hroot hne (visibleChildren_mem hmem)
      exact ⟨hc, hlt⟩
    cases hchildren : l.visibleChildren id with
    | nil => exact indexById_mem hid
    | cons child rest =>
      obtain ⟨hc, hlt⟩ := hchild child (by rw [hchildren]; exact mem_cons_self)
      cases rest with
      | nil => exact ih child hc (by omega)
      | cons _ _ => exact indexById_mem hc

theorem Inv.jump (h : l.Inv toLowerCase leaf tree) {target : EntryId → Option Int}
    (htarget : ∀ id ∈ l.filteredNodes,
      ∃ i, target id = some i ∧ 0 ≤ i ∧ i < l.filteredNodes.length) :
    ∃ l', l.jump target = some l' ∧ l'.Inv toLowerCase leaf tree := by
  rw [TreeList.jump]
  cases hsel : l.selectedId with
  | none => exact ⟨l, rfl, h⟩
  | some id =>
    obtain ⟨-, -, hid⟩ := idAt_eq_some hsel
    obtain ⟨i, heq, h0, hlt⟩ := htarget id hid
    refine ⟨l.select i, by dsimp only; rw [heq]; rfl, h.select (fun _ => ⟨h0, hlt⟩) ?_⟩
    omega

theorem Inv.branchUp (hroot : Rooted leaf tree) (h : l.Inv toLowerCase leaf tree) :
    ∃ l', l.branchUp = some l' ∧ l'.Inv toLowerCase leaf tree :=
  h.jump fun id hid => h.segmentUp hroot _ id hid (by
    have := idxOf_add_le_walkFuel l.flatNodes id
    omega)

theorem Inv.branchDown (hroot : Rooted leaf tree) (h : l.Inv toLowerCase leaf tree) :
    ∃ l', l.branchDown = some l' ∧ l'.Inv toLowerCase leaf tree :=
  h.jump fun id hid => h.segmentDown hroot _ id hid (by rw [walkFuel]; omega)

section

variable (h : l.Inv toLowerCase leaf tree)

include h

theorem Inv.up
    (hmeets : l.filteredNodes ≠ [] ∨ l.lastSelectedId ≠ none) : l.up.Inv toLowerCase leaf tree := by
  refine h.select (fun hne => ?_) (fun hnil hnone => ?_)
  · have hin := h.inside hne
    split <;> omega
  · rcases hmeets with hne | hsome
    · exact absurd hnil hne
    · exact absurd hnone hsome

theorem Inv.down : l.down.Inv toLowerCase leaf tree := by
  refine h.select (fun hne => ?_) (fun hnil hnone => ?_)
  · have hin := h.inside hne
    split <;> omega
  · have hge := h.unselected hnil hnone
    split <;> omega

theorem Inv.pageUp : l.pageUp.Inv toLowerCase leaf tree := by
  refine h.select (fun hne => ?_) (fun _ _ => by omega)
  have hin := h.inside hne
  omega

theorem Inv.pageDown
    (hmeets : l.filteredNodes ≠ [] ∨ l.lastSelectedId ≠ none) :
    l.pageDown.Inv toLowerCase leaf tree := by
  refine h.select (fun hne => ?_) (fun hnil hnone => ?_)
  · have hin := h.inside hne
    omega
  · rcases hmeets with hne | hsome
    · exact absurd hnil hne
    · exact absurd hnone hsome

end

/-! ## Inputs -/

section

variable (hroot : Rooted leaf tree) (h : l.Inv toLowerCase leaf tree)

include hroot h

theorem Inv.edited
    (filterMode : FilterMode) (searchQuery : Text) (foldedNodes : List EntryId) :
    ∃ l', TreeList.applyFilter toLowerCase { l with filterMode, searchQuery, foldedNodes } = some l'
      ∧ l'.Inv toLowerCase leaf tree :=
  Inv.applyFilter hroot
    ⟨h.entries, h.order, h.parents, h.inside, h.unselected, h.refilterings⟩

theorem Inv.foldOrUp :
    ∃ l', l.foldOrUp toLowerCase = some l' ∧ l'.Inv toLowerCase leaf tree := by
  rw [TreeList.foldOrUp]
  cases l.selectedId with
  | none => exact h.branchUp hroot
  | some id =>
    dsimp only
    split
    · exact h.edited hroot _ _ _
    · exact h.branchUp hroot

theorem Inv.unfoldOrDown :
    ∃ l', l.unfoldOrDown toLowerCase = some l' ∧ l'.Inv toLowerCase leaf tree := by
  rw [TreeList.unfoldOrDown]
  cases l.selectedId with
  | none => exact h.branchDown hroot
  | some id =>
    dsimp only
    split
    · exact h.edited hroot _ _ _
    · exact h.branchDown hroot

end

/-- Going up or a page down asks for an entry that is or was selected. -/
def Meets (l : TreeList) : TreeKey → Prop
  | .up => l.filteredNodes ≠ [] ∨ l.lastSelectedId ≠ none
  | .pageDown => l.filteredNodes ≠ [] ∨ l.lastSelectedId ≠ none
  | _ => True

theorem Inv.handleInput (hroot : Rooted leaf tree) (h : l.Inv toLowerCase leaf tree)
    (key : TreeKey) :
    ∃ l', l.handleInput toLowerCase key = some l' ∧
      (l.Meets key → l'.Inv toLowerCase leaf tree) := by
  have hkept : ∀ {o : Option TreeList}, (∃ l', o = some l' ∧ l'.Inv toLowerCase leaf tree) →
      ∃ l', o = some l' ∧ (l.Meets key → l'.Inv toLowerCase leaf tree) := by
    rintro o ⟨l', heq, hinv⟩
    exact ⟨l', heq, fun _ => hinv⟩
  cases key with
  | up => exact ⟨_, rfl, h.up⟩
  | pageDown => exact ⟨_, rfl, h.pageDown⟩
  | down => exact hkept ⟨_, rfl, h.down⟩
  | foldOrUp => exact hkept (h.foldOrUp hroot)
  | unfoldOrDown => exact hkept (h.unfoldOrDown hroot)
  | pageUp => exact hkept ⟨_, rfl, h.pageUp⟩
  | confirm => exact hkept ⟨_, rfl, h⟩
  | copy => exact hkept ⟨_, rfl, h⟩
  | editLabel => exact hkept ⟨_, rfl, h⟩
  | toggleLabelTimestamp =>
    exact hkept ⟨_, rfl, h.entries, h.order, h.parents, h.inside, h.unselected, h.refilterings⟩
  | cancel =>
    apply hkept
    rw [TreeList.handleInput]
    split
    · exact h.edited hroot _ _ _
    · exact ⟨_, rfl, h⟩
  | deleteCharBackward =>
    apply hkept
    rw [TreeList.handleInput]
    split
    · exact h.edited hroot _ _ _
    · exact ⟨_, rfl, h⟩
  | text keyData =>
    apply hkept
    rw [TreeList.handleInput]
    split
    · exact ⟨_, rfl, h⟩
    · exact h.edited hroot _ _ _
  | _ => exact hkept (h.edited hroot _ _ _)

theorem Inv.updateNodeLabel (h : l.Inv toLowerCase leaf tree) (entryId : EntryId)
    (label : Option String) : (l.updateNodeLabel entryId label).Inv toLowerCase leaf tree := by
  have hmap : ∀ {α : Type} (f : FlatNode → α),
      (∀ node, f (if node.id = entryId then { node with label := label } else node) = f node) →
      (l.updateNodeLabel entryId label).flatNodes.map f = l.flatNodes.map f := by
    intro α f hf
    rw [TreeList.updateNodeLabel, List.map_map]
    exact map_congr_left fun node _ => hf node
  have hentries := hmap (·.entry) fun node => by split <;> rfl
  have hids := hmap FlatNode.id fun node => by split <;> rfl
  have hlinks : links (l.updateNodeLabel entryId label).flatNodes = links l.flatNodes :=
    links_eq hentries
  exact {
    entries := hentries.trans h.entries
    order := by rw [hids]; exact h.order
    parents := fun hne => by
      rw [visibleStructure, walkFuel, hlinks]
      exact h.parents hne
    inside := h.inside
    unselected := h.unselected
    refilterings := h.refilterings }

theorem create_inv (hroot : Rooted leaf tree) (maxVisibleLines : Nat)
    (initialSelectedId : Option EntryId) (initialFilterMode : Option FilterMode) :
    ∃ l, create toLowerCase tree leaf maxVisibleLines initialSelectedId initialFilterMode = some l
      ∧ l.Inv toLowerCase leaf tree := by
  let l₀ : TreeList := {
    flatNodes := flattenTree leaf tree
    currentLeafId := leaf
    maxVisibleLines
    filterMode := initialFilterMode.getD .default }
  have h₀ : l₀.Inv toLowerCase leaf tree := {
    entries := rfl
    order := nil_sublist _
    parents := fun hne => absurd rfl hne
    inside := fun hne => absurd rfl hne
    unselected := fun _ _ => Int.le_refl 0
    refilterings := fun r hr => by cases hr }
  obtain ⟨l, hl, hinv⟩ := h₀.applyFilter hroot
  obtain ⟨i, hi, hinside, hnil⟩ : ∃ i, findNearestVisibleIndex l.flatNodes l.filteredNodes
      (initialSelectedId.or leaf) = some i ∧
        (l.filteredNodes ≠ [] → 0 ≤ i ∧ i < l.filteredNodes.length) ∧
        (l.filteredNodes = [] → 0 ≤ i) := by
    by_cases hids : l.filteredNodes = []
    · exact ⟨0, if_pos hids, fun hne => absurd hids hne, fun _ => Int.le_refl 0⟩
    · obtain ⟨i, heq, h0, hlt, -⟩ := findNearestVisibleIndex_spec
        (parentsFirst_of_entries hroot hinv.entries) hids (initialSelectedId.or leaf)
      exact ⟨i, heq, fun _ => ⟨h0, hlt⟩, fun hnil => absurd hnil hids⟩
  refine ⟨{ l with selectedIndex := i, lastSelectedId := idAt l.filteredNodes i }, ?_, ?_⟩
  · rw [create]
    show (l₀.applyFilter toLowerCase).bind _ = _
    rw [hl, bind_some]
    show (findNearestVisibleIndex _ _ _).bind _ = _
    rw [hi]
    rfl
  · exact ⟨hinv.entries, hinv.order, hinv.parents, hinside, fun hempty _ => hnil hempty,
      hinv.refilterings⟩

end TreeList

namespace TreeSelector

/-- A selector as it is opened on the tree, with any filter mode and selection. -/
def Opened (toLowerCase : Text → Text) (leaf : Option EntryId) (tree : List SessionTreeNode)
    (s : TreeSelector) : Prop :=
  s.labelInput = none ∧ ∃ maxVisibleLines initialSelectedId initialFilterMode,
    TreeList.create toLowerCase tree leaf maxVisibleLines initialSelectedId initialFilterMode
      = some s.list

/-- A key does not go up or a page down in an empty list where nothing was
selected yet. -/
def Meets (s : TreeSelector) : TreeInput → Prop
  | .key key => s.list.Meets key
  | _ => True

instance decidableMeets (s : TreeSelector) : ∀ input, Decidable (s.Meets input)
  | .key .up => inferInstanceAs (Decidable (s.list.filteredNodes ≠ [] ∨ _))
  | .key .pageDown => inferInstanceAs (Decidable (s.list.filteredNodes ≠ [] ∨ _))
  | .submitLabel _ => .isTrue trivial
  | .cancelLabel => .isTrue trivial
  | .key .down => .isTrue trivial
  | .key .foldOrUp => .isTrue trivial
  | .key .unfoldOrDown => .isTrue trivial
  | .key .pageUp => .isTrue trivial
  | .key .confirm => .isTrue trivial
  | .key .copy => .isTrue trivial
  | .key .cancel => .isTrue trivial
  | .key .filterDefault => .isTrue trivial
  | .key .filterNoTools => .isTrue trivial
  | .key .filterUserOnly => .isTrue trivial
  | .key .filterLabeledOnly => .isTrue trivial
  | .key .filterAll => .isTrue trivial
  | .key .cycleBackward => .isTrue trivial
  | .key .cycleForward => .isTrue trivial
  | .key .deleteCharBackward => .isTrue trivial
  | .key .editLabel => .isTrue trivial
  | .key .toggleLabelTimestamp => .isTrue trivial
  | .key (.text _) => .isTrue trivial

theorem step_inv (hroot : Rooted leaf tree) {s s' : TreeSelector} {input : TreeInput}
    (h : s.list.Inv toLowerCase leaf tree) (hmeets : s.Meets input)
    (hstep : s.step toLowerCase input = some s') : s'.list.Inv toLowerCase leaf tree := by
  cases input with
  | submitLabel label =>
    rw [step] at hstep
    split at hstep
    · cases hstep
    · obtain rfl := Option.some.inj hstep
      exact h.updateNodeLabel _ label
  | cancelLabel =>
    rw [step] at hstep
    split at hstep
    · cases hstep
    · obtain rfl := Option.some.inj hstep
      exact h
  | key key =>
    by_cases hedit : key = .editLabel
    · subst hedit
      rw [step] at hstep
      split at hstep
      · cases hstep
      · obtain rfl := Option.some.inj hstep
        exact h
    · rw [step.eq_2 _ _ _ (by simpa using hedit)] at hstep
      split at hstep
      · cases hstep
      · obtain ⟨l', hl', rfl⟩ := Option.map_eq_some_iff.mp hstep
        obtain ⟨l'', heq, hinv⟩ := h.handleInput hroot key
        rw [hl'] at heq
        obtain rfl := Option.some.inj heq
        exact hinv hmeets

/-- **The selector is proper in every run on a tree without self-parented
roots**, whose keys meet the condition. -/
theorem selector_proper (hroot : Rooted leaf tree) {s : TreeSelector}
    (h : Run (Opened toLowerCase leaf tree) (step toLowerCase) Meets s) :
    s.Proper toLowerCase leaf tree := by
  have hinv : s.list.Inv toLowerCase leaf tree := by
    refine h.invariant (p := fun s => s.list.Inv toLowerCase leaf tree) ?_ ?_
    · rintro s ⟨-, maxVisibleLines, initialSelectedId, initialFilterMode, hcreate⟩
      obtain ⟨l, hl, hinv⟩ :=
        TreeList.create_inv hroot maxVisibleLines initialSelectedId initialFilterMode
      rw [hcreate] at hl
      rw [Option.some.inj hl]
      exact hinv
    · intro s input s' hs hmeets hstep
      exact step_inv hroot hs hmeets hstep
  refine ⟨hinv.inside, hinv.refilterings, fun key => ?_⟩
  obtain ⟨l', hl', -⟩ := hinv.handleInput hroot key
  rw [hl']
  rfl

end TreeSelector

end

/-! ## An empty list, and a root that is its own parent -/

namespace TreeSelector

open Session.EntryId (lit)

/-- A user message without children. -/
def messageNode (id : EntryId) (parentId : Option EntryId) (label : Option String) :
    SessionTreeNode :=
  .node (.userText id parentId "hello") label []

def sampleTree : List SessionTreeNode := [messageNode (lit "a") none none]

theorem messageNode_linked (id : EntryId) (parentId : Option EntryId) (label : Option String) :
    Linked (messageNode id parentId label) :=
  .node (fun child hchild => by cases hchild) fun child hchild => by cases hchild

theorem sampleTree_rooted : Rooted none sampleTree := by
  refine ⟨⟨fun root hroot => ?_, by decide +kernel, fun root hroot p hp => ?_⟩,
    fun root hroot hp => ?_⟩
  · obtain rfl := List.mem_singleton.mp hroot
    exact messageNode_linked _ _ _
  · obtain rfl := List.mem_singleton.mp hroot
    cases hp
  · obtain rfl := List.mem_singleton.mp hroot
    cases hp

theorem labeledList_isSome :
    (TreeList.create id sampleTree none 5 none (some .labeledOnly)).isSome = true := by
  decide +kernel

/-- The selector opened on the tree with only labelled entries shown. -/
def labeledSelector : TreeSelector where
  list := (TreeList.create id sampleTree none 5 none (some .labeledOnly)).get labeledList_isSome

theorem labeledSelector_opened : Opened id none sampleTree labeledSelector :=
  ⟨rfl, 5, none, some .labeledOnly, (some_get labeledList_isSome).symm⟩

theorem selector_proper_sample :
    (Run.afterAll (step id) labeledSelector
      [.key .down, .key .filterDefault, .key .up]).Proper id none sampleTree :=
  selector_proper sampleTree_rooted
    (Run.of_check (.init labeledSelector_opened) (by decide +kernel))

/-- Going up in the empty list of a tree without labels leaves the selection
before the list that the next filter shows; and on a tree with a hidden root
that is its own parent the selector is never opened. -/
theorem selector_improper :
    (∃ s, Run (Opened id none sampleTree) (step id) (fun _ _ => True) s ∧ ¬ s.list.Inside) ∧
    (IsSessionTree (some (lit "a"))
        [messageNode (lit "a") (some (lit "a")) none, messageNode (lit "b") none (some "mark")] ∧
      TreeList.create id
        [messageNode (lit "a") (some (lit "a")) none, messageNode (lit "b") none (some "mark")]
        (some (lit "a")) 5 none (some .labeledOnly) = none) := by
  refine ⟨⟨Run.afterAll (step id) labeledSelector [.key .up, .key .filterDefault],
    Run.of_check (.init labeledSelector_opened) (by decide +kernel), ?_⟩, ⟨?_, ?_, ?_⟩, ?_⟩
  · rw [TreeList.Inside]
    decide +kernel
  · intro root hroot
    rcases List.mem_pair.mp hroot with rfl | rfl <;> exact messageNode_linked _ _ _
  · decide +kernel
  · intro root hroot p hp
    rcases List.mem_pair.mp hroot with rfl | rfl
    · exact .inl (Option.some.inj hp).symm
    · cases hp
  · apply Option.isNone_iff_eq_none.mp
    decide +kernel

end TreeSelector

end ReflectivePi.Selector
