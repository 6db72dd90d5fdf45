import ReflectivePi.Lib.StackLoop
import ReflectivePi.Session.Migrate
import Mathlib.Data.List.Perm.Basic

/-!
# Session — Walks

A file is loaded without a look at its ids and parent ids, so a walk up the parent
ids and the loop that sorts the tree meet whatever the file holds. The loops are
modelled with a bound on their rounds, `none` where the bound is used up; they end
exactly when the entries are `Unlooped`.
-/

namespace ReflectivePi.Session.Loose

open List ParentWalk Relation

/-! ## Loaded files -/

/-- The value of a property that a parsed line may have. Objects and arrays are told
apart by where they stand. -/
inductive Key where
  | undefined
  | null
  | bool (b : Bool)
  | number (q : Rat)
  | text (s : RawId)
  | object (place : Nat)
  deriving DecidableEq

namespace Key

def truthy : Key → Bool
  | undefined | null => false
  | bool b => b
  | number q => q ≠ 0
  | text s => s ≠ []
  | object _ => true

/-- `key ?? other`. -/
def orElse (key other : Key) : Key :=
  match key with
  | undefined | null => other
  | _ => key

end Key

/-- A truthy parsed line, as far as the walks read it. -/
structure LooseEntry where
  /-- Its type is `"session"`. -/
  isSession : Bool
  /-- Properties can be set on it: it is no number, boolean or string. -/
  isObject : Bool
  id : Key
  parentId : Key

/-- A file whose first entry is a session header with a string id. -/
structure LoadedFile where
  /-- `version < 2` holds of the header's version. -/
  old : Bool
  rest : List LooseEntry

section

-- the values of the random source
variable (draw : Nat → Uuid)

/-- The loop of `migrateV1ToV2` behind the header; `none` where setting a property throws. -/
def linkEntries : Nat → Key → List LooseEntry → Option (List LooseEntry)
  | _, _, [] => some []
  | drawn, prevId, entry :: rest =>
    if entry.isSession then (linkEntries drawn prevId rest).map (entry :: ·)
    else if entry.isObject then
      let (id, drawn) := generateId draw [] 100 drawn
      (linkEntries drawn (.text id) rest).map
        ({ entry with id := .text id, parentId := prevId } :: ·)
    else none

/-- The entries without headers that the session manager holds once the file is opened. -/
def openEntries (file : LoadedFile) : Option (List LooseEntry) :=
  let entries := if file.old then linkEntries draw 0 .null file.rest else some file.rest
  entries.map fun entries => entries.filter fun e => !e.isSession

end

/-! ## The walks -/

section

variable (entries : List LooseEntry)

/-- `byId.get`: a later entry takes the place of an earlier one with its id. -/
def entryById (id : Key) : Option LooseEntry := lookup LooseEntry.id entries id

/-- Where the walk goes from an entry. -/
def parentEntry (e : LooseEntry) : Option LooseEntry :=
  if e.parentId.truthy then entryById entries e.parentId else none

/-- The loop of `getBranch` and `buildSessionPath`. -/
def walkPath : Nat → List LooseEntry → Option LooseEntry → Option (List LooseEntry)
  | _, path, none => some path
  | 0, _, some _ => none
  | rounds + 1, path, some current =>
    walkPath rounds (path ++ [current]) (parentEntry entries current)

def getBranch (leafId : Key) (rounds : Nat) (fromId : Key) : Option (List LooseEntry) :=
  let startId := fromId.orElse leafId
  let current := if startId.truthy then entryById entries startId else none
  (walkPath entries rounds [] current).map List.reverse

/-- The path of `buildSessionProjection` for the leaf. -/
def buildSessionPath (rounds : Nat) (leafId : Key) : Option (List LooseEntry) :=
  if leafId = .null then some []
  else
    let leaf := if leafId.truthy then entryById entries leafId else none
    (walkPath entries rounds [] (leaf.or entries.getLast?)).map List.reverse

/-- `createBranchedSession` up to where it has the path; an empty path is an error.
What follows are loops over the path and over the labels and prune changes. -/
def branchedPath (leafId : Key) (rounds : Nat) (fromId : Key) :
    Option (Except String (List LooseEntry)) :=
  (getBranch entries leafId rounds fromId).map fun path =>
    if path.isEmpty then .error "Entry not found" else .ok path

/-! ## The tree -/

/-- Nodes stand for the keys of `nodeMap`. -/
def isRoot (e : LooseEntry) : Bool :=
  e.parentId = .null || e.parentId = e.id || (entryById entries e.parentId).isNone

def treeRoots : List Key := (entries.filter (isRoot entries)).map LooseEntry.id

def treeChildren (id : Key) : List Key :=
  (entries.filter fun e => !isRoot entries e && decide (e.parentId = id)).map LooseEntry.id

/-- `Array.prototype.sort` by the timestamps of the nodes, which leaves the same nodes. -/
structure NodeSort where
  sort : List Key → List Key
  perm : ∀ nodes, (sort nodes).Perm nodes

/-- The loop that sorts the children of every node, the last node of the stack first. -/
def sortChildren (s : NodeSort) : Nat → (Key → List Key) → List Key → Option (Key → List Key)
  | _, children, [] => some children
  | 0, _, _ :: _ => none
  | rounds + 1, children, node :: stack =>
    let sorted := s.sort (children node)
    let children := fun id => if id = node then sorted else children id
    sortChildren s rounds children (sorted.reverse ++ stack)

structure SessionTree where
  roots : List Key
  children : Key → List Key

def getTree (s : NodeSort) (rounds : Nat) : Option SessionTree :=
  (sortChildren s rounds (treeChildren entries) (treeRoots entries).reverse).map fun children =>
    { roots := treeRoots entries, children }

/-- The entries of the tree, read from the roots down. -/
def SessionTree.read (tree : SessionTree) (rounds : Nat) : Option (List LooseEntry) :=
  (StackLoop.visited tree.children rounds tree.roots).map (List.filterMap (entryById entries))

/-- Every walk ends, and with distinct ids the tree has every entry once. -/
structure Walkable (s : NodeSort) : Prop where
  branch : ∀ leafId fromId, ∃ rounds, (getBranch entries leafId rounds fromId).isSome
  projection : ∀ leafId, ∃ rounds, (buildSessionPath entries rounds leafId).isSome
  branched : ∀ leafId fromId, ∃ rounds, (branchedPath entries leafId rounds fromId).isSome
  tree : ∃ rounds tree, getTree entries s rounds = some tree ∧ ((entries.map LooseEntry.id).Nodup →
      ∃ rounds' found, tree.read entries rounds' = some found ∧ found.Perm entries)

/-- The second entry is the parent of the first. -/
def ParentOf (a b : LooseEntry) : Prop := parentEntry entries a = some b

/-- The second node is a child of the first. -/
def ChildOf (a b : Key) : Prop := b ∈ treeChildren entries a

/-- No parent ids lead from an entry back to itself: on the walk up, below a root of
the tree, and with distinct ids nowhere in the tree. -/
structure Unlooped : Prop where
  parents : ∀ e, ¬ TransGen (ParentOf entries) e e
  below : ∀ root ∈ treeRoots entries, ∀ id, ReflTransGen (ChildOf entries) root id →
    ¬ TransGen (ChildOf entries) id id
  tree : (entries.map LooseEntry.id).Nodup → ∀ id, ¬ TransGen (ChildOf entries) id id

end

variable {entries : List LooseEntry} {s : NodeSort} {e : LooseEntry} {id : Key} {rounds : Nat}

/-! ## The walk up -/

theorem walkPath_eq_run (path : List LooseEntry) (current : Option LooseEntry) :
    walkPath entries rounds path current = StackLoop.run
      (fun path e => (path ++ [e], (parentEntry entries e).toList)) rounds path
      current.toList := by
  induction rounds generalizing path current with
  | zero => cases current <;> rfl
  | succ rounds ih =>
    cases current with
    | none => rfl
    | some e =>
      simp only [walkPath, Option.toList_some, StackLoop.run, append_nil]
      exact ih _ _

theorem edge_parents (a b : LooseEntry) :
    StackLoop.Edge (fun e => (parentEntry entries e).toList) a b ↔ ParentOf entries a b := by
  simp [StackLoop.Edge, ParentOf, eq_comm]

theorem edge_parents_eq :
    StackLoop.Edge (fun e => (parentEntry entries e).toList) = ParentOf entries := by
  ext a b
  exact edge_parents a b

theorem parentEntry_mem {a b : LooseEntry} (h : ParentOf entries a b) :
    b ∈ entries ∧ b.id.truthy ∧ entryById entries b.id = some b := by
  simp only [ParentOf, parentEntry] at h
  split at h
  · rename_i htruthy
    obtain ⟨hmem, hid⟩ := lookup_mem h
    rw [hid]
    exact ⟨hmem, htruthy, h⟩
  · cases h

/-- A walk ends exactly when no entry that it meets leads back to itself. -/
theorem walkPath_ends (current : Option LooseEntry) :
    (∃ rounds, (walkPath entries rounds [] current).isSome) ↔
      ∀ e, current = some e → ∀ b, ReflTransGen (ParentOf entries) e b →
        ¬ TransGen (ParentOf entries) b b := by
  have hfollows : StackLoop.Follows
      (fun (path : List LooseEntry) e => (path ++ [e], (parentEntry entries e).toList))
      (fun _ => True) fun e => (parentEntry entries e).toList :=
    ⟨fun _ _ => trivial, fun _ _ _ => Iff.rfl⟩
  have hends : ∀ e, StackLoop.Ends (fun e => (parentEntry entries e).toList) e ↔
      ∀ b, ReflTransGen (ParentOf entries) e b → ¬ TransGen (ParentOf entries) b b := by
    intro e
    have hnodes : ∀ a, ∀ b ∈ (parentEntry entries a).toList, b ∈ entries := by
      intro a b hb
      exact (parentEntry_mem ((edge_parents a b).mp hb)).1
    rw [StackLoop.acc_iff hnodes, edge_parents_eq]
  simp only [walkPath_eq_run]
  change StackLoop.Terminates _ _ _ ↔ _
  rw [StackLoop.terminates_iff hfollows trivial]
  simp [hends]

theorem getBranch_ends (h : ∀ e, ¬ TransGen (ParentOf entries) e e) (leafId fromId : Key) :
    ∃ rounds, (getBranch entries leafId rounds fromId).isSome := by
  simp only [getBranch, Option.isSome_map]
  exact (walkPath_ends _).mpr fun _ _ b _ => h b

theorem buildSessionPath_ends (h : ∀ e, ¬ TransGen (ParentOf entries) e e) (leafId : Key) :
    ∃ rounds, (buildSessionPath entries rounds leafId).isSome := by
  unfold buildSessionPath
  split
  · exact ⟨0, rfl⟩
  · simp only [Option.isSome_map]
    exact (walkPath_ends _).mpr fun _ _ b _ => h b

theorem no_loop_of_branch
    (h : ∀ leafId fromId, ∃ rounds, (getBranch entries leafId rounds fromId).isSome) :
    ∀ e, ¬ TransGen (ParentOf entries) e e := by
  intro e hcycle
  obtain ⟨a, -, ha⟩ := TransGen.tail'_iff.mp hcycle
  obtain ⟨-, htruthy, hentry⟩ := parentEntry_mem ha
  have hstart : e.id.orElse .null = e.id := by
    revert htruthy
    cases e.id <;> simp [Key.truthy, Key.orElse]
  have hbranch := h .null e.id
  simp only [getBranch, Option.isSome_map, hstart, htruthy, if_true, hentry] at hbranch
  exact (walkPath_ends _).mp hbranch e rfl e ReflTransGen.refl hcycle

/-! ## The sort of the tree -/

/-- The children that are sorted are those that the tree was built with. -/
def SameChildren (entries : List LooseEntry) (children : Key → List Key) : Prop :=
  ∀ id, (children id).Perm (treeChildren entries id)

def sortStep (s : NodeSort) (children : Key → List Key) (node : Key) :
    (Key → List Key) × List Key :=
  let sorted := s.sort (children node)
  (fun id => if id = node then sorted else children id, sorted.reverse)

theorem sortChildren_eq_run (children : Key → List Key) (stack : List Key) :
    sortChildren s rounds children stack = StackLoop.run (sortStep s) rounds children stack := by
  induction rounds generalizing children stack with
  | zero => cases stack <;> rfl
  | succ rounds ih =>
    cases stack with
    | nil => rfl
    | cons node stack =>
      exact ih _ _

theorem follows_sortStep :
    StackLoop.Follows (sortStep s) (SameChildren entries) (treeChildren entries) := by
  constructor
  · intro children h node id
    simp only [sortStep]
    split
    · rename_i hid
      rw [hid]
      exact (s.perm _).trans (h node)
    · exact h id
  · intro children h node id
    simp only [sortStep, mem_reverse]
    rw [(s.perm _).mem_iff, (h node).mem_iff]

theorem treeChildren_mem {a b : Key} (h : b ∈ treeChildren entries a) :
    ∃ e ∈ entries, isRoot entries e = false ∧ e.parentId = a ∧ e.id = b := by
  simp only [treeChildren, mem_map, mem_filter, Bool.and_eq_true,
    Bool.not_eq_true', decide_eq_true_eq] at h
  obtain ⟨e, ⟨hmem, hroot, hparent⟩, hid⟩ := h
  exact ⟨e, hmem, hroot, hparent, hid⟩

theorem ends_treeChildren : StackLoop.Ends (treeChildren entries) id ↔
    ∀ b, ReflTransGen (ChildOf entries) id b → ¬ TransGen (ChildOf entries) b b := by
  have hnodes : ∀ a, ∀ b ∈ treeChildren entries a, b ∈ entries.map LooseEntry.id := by
    intro a b hb
    obtain ⟨e, he, -, -, rfl⟩ := treeChildren_mem hb
    exact mem_map_of_mem he
  exact StackLoop.acc_iff hnodes

theorem getTree_ends : (∃ rounds, (getTree entries s rounds).isSome) ↔
    ∀ root ∈ treeRoots entries, ∀ id, ReflTransGen (ChildOf entries) root id →
      ¬ TransGen (ChildOf entries) id id := by
  have hsame : SameChildren entries (treeChildren entries) := fun _ => List.Perm.refl _
  simp only [getTree, Option.isSome_map, sortChildren_eq_run]
  change StackLoop.Terminates _ _ _ ↔ _
  rw [StackLoop.terminates_iff follows_sortStep hsame]
  simp only [mem_reverse, ends_treeChildren]

theorem sameChildren_getTree {tree : SessionTree} (h : getTree entries s rounds = some tree) :
    tree.roots = treeRoots entries ∧ SameChildren entries tree.children := by
  simp only [getTree, Option.map_eq_some_iff, sortChildren_eq_run] at h
  obtain ⟨children, hrun, rfl⟩ := h
  exact ⟨rfl, StackLoop.inv_of_run follows_sortStep (fun _ => List.Perm.refl _) hrun⟩

theorem edge_children {children : Key → List Key} (h : SameChildren entries children) :
    StackLoop.Edge children = ChildOf entries := by
  ext a b
  exact (h a).mem_iff

/-! ## The tree of distinct ids -/

section

variable (hnd : (entries.map LooseEntry.id).Nodup)
include hnd

theorem entryById_of_mem (he : e ∈ entries) : entryById entries e.id = some e :=
  lookup_of_mem hnd he

theorem count_filter_id (p : LooseEntry → Bool) (he : e ∈ entries) :
    ((entries.filter p).map LooseEntry.id).count e.id = if p e then 1 else 0 := by
  have hsub : ((entries.filter p).map LooseEntry.id).Sublist (entries.map LooseEntry.id) :=
    List.filter_sublist.map _
  have hmem : e.id ∈ (entries.filter p).map LooseEntry.id ↔ p e = true := by
    constructor
    · intro h
      obtain ⟨b, hb, hid⟩ := List.mem_map.mp h
      obtain ⟨hb, hp⟩ := List.mem_filter.mp hb
      rwa [← inj_on_of_nodup_map hnd hb he hid]
    · intro hp
      exact mem_map_of_mem (List.mem_filter.mpr ⟨he, hp⟩)
  rw [(hnd.sublist hsub).count]
  simp only [hmem]

theorem childOf_unique {a b c : Key} (ha : ChildOf entries a c) (hb : ChildOf entries b c) :
    a = b := by
  obtain ⟨e, he, -, rfl, rfl⟩ := treeChildren_mem ha
  obtain ⟨e', he', -, rfl, hid⟩ := treeChildren_mem hb
  rw [inj_on_of_nodup_map hnd he' he hid]

theorem not_childOf_root {root : Key} (h : root ∈ treeRoots entries) (a : Key) :
    ¬ ChildOf entries a root := by
  intro ha
  obtain ⟨e, he, hroot, -, rfl⟩ := treeChildren_mem ha
  simp only [treeRoots, mem_map, mem_filter] at h
  obtain ⟨e', ⟨he', hroot'⟩, hid⟩ := h
  rw [inj_on_of_nodup_map hnd he' he hid, hroot] at hroot'
  cases hroot'

theorem no_loop_below {root : Key} (h : root ∈ treeRoots entries)
    (hid : ReflTransGen (ChildOf entries) root id) : ¬ TransGen (ChildOf entries) id id :=
  StackLoop.no_cycle_of_root (childOf_unique hnd) (not_childOf_root hnd h) hid

end

theorem acc_childOf (h : ∀ id, ¬ TransGen (ChildOf entries) id id) (id : Key) :
    Acc (ChildOf entries) id := by
  let parents := fun id =>
    (entries.filter fun e => !isRoot entries e && decide (e.id = id)).map LooseEntry.parentId
  have hedge : Function.swap (StackLoop.Edge parents) = ChildOf entries := by
    ext a b
    simp only [Function.swap, StackLoop.Edge, parents, ChildOf, treeChildren, mem_map,
      mem_filter, Bool.and_eq_true, decide_eq_true_eq]
    constructor
    · rintro ⟨e, ⟨he, hroot, rfl⟩, rfl⟩
      exact ⟨e, ⟨he, hroot, rfl⟩, rfl⟩
    · rintro ⟨e, ⟨he, hroot, rfl⟩, rfl⟩
      exact ⟨e, ⟨he, hroot, rfl⟩, rfl⟩
  have hnodes : ∀ a, ∀ b ∈ parents a, b ∈ entries.map LooseEntry.parentId := by
    intro a b hb
    obtain ⟨e, he, rfl⟩ := List.mem_map.mp hb
    exact mem_map_of_mem (List.mem_filter.mp he).1
  have hends : StackLoop.Ends parents id := by
    rw [StackLoop.acc_iff hnodes]
    intro y _ hcycle
    apply h y
    rw [← hedge]
    exact TransGen.swap _ _ hcycle
  rwa [StackLoop.Ends, hedge] at hends

theorem count_visited_tree (hnd : (entries.map LooseEntry.id).Nodup)
    (h : ∀ id, ¬ TransGen (ChildOf entries) id id) {children : Key → List Key}
    (hchildren : SameChildren entries children) {out : List Key}
    (hout : StackLoop.visited children rounds (treeRoots entries) = some out) :
    ∀ e ∈ entries, out.count e.id = 1 := by
  suffices hall : ∀ id, ∀ e ∈ entries, e.id = id → out.count id = 1 from
    fun e he => hall e.id e he rfl
  intro id
  -- from the roots down
  induction acc_childOf h id with
  | intro id _ ih =>
    rintro e he rfl
    have hnext : ∀ x, (children x).count e.id =
        if isRoot entries e = false ∧ e.parentId = x then 1 else 0 := by
      intro x
      rw [(hchildren x).count_eq, treeChildren, count_filter_id hnd _ he]
      simp
    have hcount := StackLoop.count_visited hnext hout
    rw [treeRoots, count_filter_id hnd _ he] at hcount
    cases hroot : isRoot entries e with
    | true => simpa [hroot] using hcount
    | false =>
      have hparent : (entryById entries e.parentId).isSome := by
        have : (entryById entries e.parentId).isNone = false := by
          simp only [isRoot, Bool.or_eq_false_iff] at hroot
          exact hroot.2
        simpa using this
      obtain ⟨p, hp⟩ := Option.isSome_iff_exists.mp hparent
      obtain ⟨hmem, hid⟩ := lookup_mem hp
      have hchild : ChildOf entries e.parentId e.id := by
        simp only [ChildOf, treeChildren, mem_map, mem_filter]
        exact ⟨e, ⟨he, by simp [hroot]⟩, rfl⟩
      have honce := ih e.parentId hchild p hmem hid
      have hcountP : out.countP (fun x => decide (isRoot entries e = false ∧ e.parentId = x)) =
          out.count e.parentId := by
        apply countP_congr
        intro x _
        simp only [hroot, true_and, decide_eq_true_eq, beq_iff_eq]
        exact eq_comm
      rw [hcount, hcountP, honce]
      simp [hroot]

theorem mem_ids_of_reach {root : Key} (h : root ∈ treeRoots entries)
    (hid : ReflTransGen (ChildOf entries) root id) : id ∈ entries.map LooseEntry.id := by
  rcases ReflTransGen.cases_tail hid with rfl | ⟨a, -, ha⟩
  · simp only [treeRoots, mem_map, mem_filter] at h
    obtain ⟨e, ⟨he, -⟩, rfl⟩ := h
    exact mem_map_of_mem he
  · obtain ⟨e, he, -, -, rfl⟩ := treeChildren_mem ha
    exact mem_map_of_mem he

theorem read_perm (hnd : (entries.map LooseEntry.id).Nodup)
    (h : ∀ id, ¬ TransGen (ChildOf entries) id id) {tree : SessionTree}
    (hroots : tree.roots = treeRoots entries) (hsame : SameChildren entries tree.children) :
    ∃ rounds found, tree.read entries rounds = some found ∧ found.Perm entries := by
  have hends : StackLoop.Terminates
      (fun seen x => (seen ++ [x], tree.children x)) [] tree.roots := by
    apply (StackLoop.terminates_iff StackLoop.follows_visited trivial).mpr
    intro root _
    have hnodes : ∀ a, ∀ b ∈ tree.children a, b ∈ entries.map LooseEntry.id := by
      intro a b hb
      obtain ⟨e, he, -, -, rfl⟩ := treeChildren_mem ((hsame a).mem_iff.mp hb)
      exact mem_map_of_mem he
    rw [StackLoop.acc_iff hnodes, edge_children hsame]
    exact fun id _ => h id
  obtain ⟨rounds, hrun⟩ := hends
  obtain ⟨out, hout⟩ := Option.isSome_iff_exists.mp hrun
  refine ⟨rounds, out.filterMap (entryById entries), ?_, ?_⟩
  · simp only [SessionTree.read, StackLoop.visited, hout, Option.map_some]
  · have hcount := count_visited_tree hnd h hsame (hroots ▸ hout)
    have hids : ∀ id ∈ out, id ∈ entries.map LooseEntry.id := by
      intro id hid
      obtain ⟨root, hroot, hreach⟩ := StackLoop.reached_of_visited hout hid
      rw [edge_children hsame] at hreach
      exact mem_ids_of_reach (hroots ▸ hroot) hreach
    have hperm : out.Perm (entries.map LooseEntry.id) := by
      apply (perm_ext_iff_of_nodup _ hnd).mpr
      · intro id
        refine ⟨hids id, fun hid => ?_⟩
        obtain ⟨e, he, rfl⟩ := List.mem_map.mp hid
        exact List.count_pos_iff.mp (by rw [hcount e he]; exact Nat.one_pos)
      · rw [nodup_iff_count_le_one]
        intro id
        by_cases hid : id ∈ out
        · obtain ⟨e, he, rfl⟩ := List.mem_map.mp (hids id hid)
          exact (hcount e he).le
        · rw [count_eq_zero_of_not_mem hid]
          exact Nat.zero_le 1
    have hself : (entries.map LooseEntry.id).filterMap (entryById entries) = entries := by
      rw [filterMap_map]
      calc entries.filterMap (entryById entries ∘ LooseEntry.id) = entries.filterMap some :=
            filterMap_congr fun e he => entryById_of_mem hnd he
        _ = entries := filterMap_some
    exact (hperm.filterMap _).trans (List.Perm.of_eq hself)

theorem no_loop_of_read (hnd : (entries.map LooseEntry.id).Nodup) {tree : SessionTree}
    (hroots : tree.roots = treeRoots entries) (hsame : SameChildren entries tree.children)
    {found : List LooseEntry} (hread : tree.read entries rounds = some found)
    (hperm : found.Perm entries) (id : Key) : ¬ TransGen (ChildOf entries) id id := by
  intro hcycle
  obtain ⟨a, -, ha⟩ := TransGen.tail'_iff.mp hcycle
  obtain ⟨e, he, -, -, rfl⟩ := treeChildren_mem ha
  obtain ⟨out, hout, rfl⟩ := Option.map_eq_some_iff.mp hread
  obtain ⟨id, hid, hentry⟩ := List.mem_filterMap.mp (hperm.mem_iff.mpr he)
  obtain rfl := (lookup_mem hentry).2
  obtain ⟨root, hroot, hreach⟩ := StackLoop.reached_of_visited hout hid
  rw [edge_children hsame] at hreach
  exact no_loop_below hnd (hroots ▸ hroot) hreach hcycle

/-! ## When the walks end -/

theorem walkable_iff (s : NodeSort) : Walkable entries s ↔ Unlooped entries := by
  constructor
  · intro h
    obtain ⟨rounds, tree, htree, hwhole⟩ := h.tree
    obtain ⟨hroots, hsame⟩ := sameChildren_getTree htree
    refine ⟨no_loop_of_branch h.branch, ?_, ?_⟩
    · exact getTree_ends.mp ⟨rounds, by rw [htree]; rfl⟩
    · intro hnd id
      obtain ⟨rounds', found, hread, hperm⟩ := hwhole hnd
      exact no_loop_of_read hnd hroots hsame hread hperm id
  · intro h
    refine ⟨getBranch_ends h.parents, buildSessionPath_ends h.parents, ?_, ?_⟩
    · intro leafId fromId
      obtain ⟨rounds, hrounds⟩ := getBranch_ends h.parents leafId fromId
      exact ⟨rounds, by rw [branchedPath, Option.isSome_map]; exact hrounds⟩
    · obtain ⟨rounds, hrounds⟩ := (getTree_ends (s := s)).mpr h.below
      obtain ⟨tree, htree⟩ := Option.isSome_iff_exists.mp hrounds
      obtain ⟨hroots, hsame⟩ := sameChildren_getTree htree
      exact ⟨rounds, tree, htree, fun hnd => read_perm hnd (h.tree hnd) hroots hsame⟩

/-- The walks over an opened file end, and its tree is whole, exactly when no parent
ids of its entries lead in a loop. A file that cannot be opened is not walked. -/
theorem opened_walkable (draw : Nat → Uuid) (file : LoadedFile) (s : NodeSort) :
    (∀ entries, openEntries draw file = some entries → Walkable entries s) ↔
      ∀ entries, openEntries draw file = some entries → Unlooped entries := by
  simp only [walkable_iff]

def linked (id parentId : Char) : LooseEntry := ⟨false, true, .text [id], .text [parentId]⟩

/-- Two entries of a current file that name each other as parent. -/
def loopedFile : LoadedFile := ⟨false, [linked 'a' 'b', linked 'b' 'a']⟩

def zeroUuid : Uuid := ⟨List.replicate 36 '0', length_replicate⟩

/-- They load, and the walk up from either of them does not end. -/
theorem opened_not_walkable :
    ¬ ∀ (draw : Nat → Uuid) (file : LoadedFile) (s : NodeSort) (entries : List LooseEntry),
      openEntries draw file = some entries → Walkable entries s := by
  intro h
  have hwalk := h (fun _ => zeroUuid) loopedFile ⟨fun nodes => nodes, List.Perm.refl⟩
    [linked 'a' 'b', linked 'b' 'a'] rfl
  have hup : ParentOf [linked 'a' 'b', linked 'b' 'a'] (linked 'a' 'b') (linked 'b' 'a') := rfl
  have hback : ParentOf [linked 'a' 'b', linked 'b' 'a'] (linked 'b' 'a') (linked 'a' 'b') := rfl
  exact no_loop_of_branch hwalk.branch _ (TransGen.head hup (TransGen.single hback))

end ReflectivePi.Session.Loose
