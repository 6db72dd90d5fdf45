import ReflectivePi.Lib.Ancestors
import ReflectivePi.Session.Entry

/-!
# Selector — the session tree

The nodes of a session tree, and the list of them in the order the selector
shows: a node before its children, siblings with the active leaf first.
-/

namespace ReflectivePi.Selector

open Session (SessionEntry EntryId)

inductive SessionTreeNode where
  | node (entry : SessionEntry) (label : Option String) (children : List SessionTreeNode)

namespace SessionTreeNode

def entry : SessionTreeNode → SessionEntry
  | node entry _ _ => entry

def label : SessionTreeNode → Option String
  | node _ label _ => label

def children : SessionTreeNode → List SessionTreeNode
  | node _ _ children => children

mutual

def count : SessionTreeNode → Nat
  | node _ _ children => 1 + countAll children

def countAll : List SessionTreeNode → Nat
  | [] => 0
  | child :: children => child.count + countAll children

end

mutual

/-- The subtree holds the active leaf. -/
def containsActive (leafId : Option EntryId) : SessionTreeNode → Bool
  | node entry _ children => leafId == some entry.id || anyContainsActive leafId children

def anyContainsActive (leafId : Option EntryId) : List SessionTreeNode → Bool
  | [] => false
  | child :: children => containsActive leafId child || anyContainsActive leafId children

end

end SessionTreeNode

/-- An entry of the flattened tree, with its label. -/
structure FlatNode where
  entry : SessionEntry
  label : Option String

namespace FlatNode

def id (node : FlatNode) : EntryId := node.entry.id

def link (node : FlatNode) : EntryId × Option EntryId := (node.entry.id, node.entry.parentId)

end FlatNode

def SessionTreeNode.flat (node : SessionTreeNode) : FlatNode where
  entry := node.entry
  label := node.label

/-- Siblings with the one that holds the active leaf first, otherwise in order. -/
def activeFirst (leafId : Option EntryId) (nodes : List SessionTreeNode) : List SessionTreeNode :=
  nodes.filter (·.containsActive leafId) ++ nodes.filter (!·.containsActive leafId)

/-- The loop of `flattenTree`, with the top of its stack first. -/
def flattenLoop (leafId : Option EntryId) : Nat → List SessionTreeNode → List FlatNode
  | 0, _ => []
  | _ + 1, [] => []
  | fuel + 1, node :: stack =>
    node.flat :: flattenLoop leafId fuel (activeFirst leafId node.children ++ stack)

def flattenTree (leafId : Option EntryId) (roots : List SessionTreeNode) : List FlatNode :=
  flattenLoop leafId (SessionTreeNode.countAll roots) (activeFirst leafId roots)

/-! ## Pre-order -/

/-- The forest's nodes in pre-order, with the active leaf's branches first. -/
inductive PreOrder (leafId : Option EntryId) : List SessionTreeNode → List FlatNode → Prop where
  | nil : PreOrder leafId [] []
  | cons {node : SessionTreeNode} {rest : List SessionTreeNode} {below after : List FlatNode}
      (hbelow : PreOrder leafId (activeFirst leafId node.children) below)
      (hafter : PreOrder leafId rest after) :
      PreOrder leafId (node :: rest) (node.flat :: below ++ after)

open SessionTreeNode

theorem countAll_append (xs ys : List SessionTreeNode) :
    countAll (xs ++ ys) = countAll xs + countAll ys := by
  induction xs with
  | nil => simp [countAll]
  | cons x xs ih =>
    rw [List.cons_append, countAll, countAll, ih]
    omega

theorem countAll_filter (p : SessionTreeNode → Bool) (xs : List SessionTreeNode) :
    countAll (xs.filter p) + countAll (xs.filter (!p ·)) = countAll xs := by
  induction xs with
  | nil => rfl
  | cons x xs ih =>
    rw [countAll, ← ih]
    cases hp : p x <;> simp [hp, countAll] <;> omega

theorem countAll_activeFirst (leafId : Option EntryId) (nodes : List SessionTreeNode) :
    countAll (activeFirst leafId nodes) = countAll nodes := by
  rw [activeFirst, countAll_append]
  exact countAll_filter _ nodes

variable {leafId : Option EntryId}

theorem mem_activeFirst {nodes : List SessionTreeNode} {node : SessionTreeNode} :
    node ∈ activeFirst leafId nodes ↔ node ∈ nodes := by
  rw [activeFirst, List.mem_append, List.mem_filter, List.mem_filter]
  cases node.containsActive leafId <;> simp

theorem PreOrder.split {xs ys : List SessionTreeNode} {flat : List FlatNode}
    (h : PreOrder leafId (xs ++ ys) flat) :
    ∃ before after, flat = before ++ after ∧ PreOrder leafId xs before ∧
      PreOrder leafId ys after := by
  induction xs generalizing flat with
  | nil => exact ⟨[], flat, rfl, .nil, h⟩
  | cons x xs ih =>
    cases h with
    | cons hbelow hafter =>
      obtain ⟨before, after, rfl, hxs, hys⟩ := ih hafter
      exact ⟨_, after, by rw [List.append_assoc], .cons hbelow hxs, hys⟩

theorem flattenLoop_preOrder (leafId : Option EntryId) (fuel : Nat)
    (stack : List SessionTreeNode) (h : countAll stack ≤ fuel) :
    PreOrder leafId stack (flattenLoop leafId fuel stack) := by
  induction fuel generalizing stack with
  | zero =>
    cases stack with
    | nil => exact .nil
    | cons node rest =>
      obtain ⟨entry, label, children⟩ := node
      simp only [countAll, count] at h
      omega
  | succ fuel ih =>
    cases stack with
    | nil => exact .nil
    | cons node rest =>
      rw [flattenLoop]
      have hcount : countAll (activeFirst leafId node.children ++ rest) ≤ fuel := by
        rw [countAll_append, countAll_activeFirst]
        obtain ⟨entry, label, children⟩ := node
        simp only [countAll, count] at h
        show countAll children + countAll rest ≤ fuel
        omega
      obtain ⟨below, after, heq, hbelow, hafter⟩ := (ih _ hcount).split
      rw [heq]
      exact .cons hbelow hafter

/-- **`flattenTree` lists the tree in pre-order.** -/
theorem flattenTree_preOrder (leafId : Option EntryId) (roots : List SessionTreeNode) :
    PreOrder leafId (activeFirst leafId roots) (flattenTree leafId roots) :=
  flattenLoop_preOrder leafId _ _ (Nat.le_of_eq (countAll_activeFirst leafId roots))

/-! ## Session trees -/

/-- Every child names its node as its parent. -/
inductive Linked : SessionTreeNode → Prop where
  | node {entry : SessionEntry} {label : Option String} {children : List SessionTreeNode}
      (hparent : ∀ child ∈ children, child.entry.parentId = some entry.id)
      (hchildren : ∀ child ∈ children, Linked child) : Linked (.node entry label children)

def links (nodes : List FlatNode) : List (EntryId × Option EntryId) := nodes.map FlatNode.link

/-- A tree of `getTree()`: linked nodes with distinct ids, under roots whose
parent is no entry of the session or the root itself. -/
structure IsSessionTree (leafId : Option EntryId) (roots : List SessionTreeNode) : Prop where
  linked : ∀ root ∈ roots, Linked root
  nodup : ((flattenTree leafId roots).map FlatNode.id).Nodup
  rooted : ∀ root ∈ roots, ∀ p, root.entry.parentId = some p →
    p = root.entry.id ∨ p ∉ (flattenTree leafId roots).map FlatNode.id

/-- No root is its own parent. -/
def NoOwnParent (roots : List SessionTreeNode) : Prop :=
  ∀ root ∈ roots, root.entry.parentId ≠ some root.entry.id

theorem links_keys (nodes : List FlatNode) :
    (links nodes).map Prod.fst = nodes.map FlatNode.id := by
  rw [links, List.map_map]
  rfl

theorem Linked.children {node child : SessionTreeNode} (h : Linked node)
    (hmem : child ∈ node.children) : child.entry.parentId = some node.entry.id ∧ Linked child := by
  cases h with
  | node hparent hchildren => exact ⟨hparent child hmem, hchildren child hmem⟩

theorem PreOrder.parent_before {nodes : List SessionTreeNode} {flat : List FlatNode}
    (h : PreOrder leafId nodes flat) (hlinked : ∀ node ∈ nodes, Linked node)
    {pre post : List FlatNode} {x : FlatNode} (hsplit : flat = pre ++ x :: post) :
    (∃ node ∈ nodes, node.entry = x.entry) ∨
      ∃ p, x.entry.parentId = some p ∧ p ∈ pre.map FlatNode.id := by
  induction h generalizing pre post x with
  | nil =>
    have := congrArg List.length hsplit
    simp at this
  | @cons node rest below after hbelow hafter ihbelow ihafter =>
    have hnode := hlinked node List.mem_cons_self
    cases pre with
    | nil =>
      left
      have hx := (List.cons.inj hsplit).1
      exact ⟨node, List.mem_cons_self, by rw [← hx]; rfl⟩
    | cons first pre =>
      obtain ⟨hfirst, hrest⟩ := List.cons.inj hsplit
      have hrest : below ++ after = pre ++ x :: post := hrest
      rcases List.append_eq_append_iff.mp hrest with ⟨mid, hpre, hafter'⟩ | ⟨mid, hbelow', hmid⟩
      · -- `x` comes after the node's subtree
        rcases ihafter (fun n hn => hlinked n (List.mem_cons_of_mem _ hn)) hafter' with
          ⟨root, hroot, heq⟩ | ⟨p, hp, hmem⟩
        · exact .inl ⟨root, List.mem_cons_of_mem _ hroot, heq⟩
        · refine .inr ⟨p, hp, ?_⟩
          rw [hpre, List.map_cons, List.map_append]
          exact List.mem_cons_of_mem _ (List.mem_append_right _ hmem)
      · cases mid with
        | nil =>
          simp only [List.append_nil, List.nil_append] at hbelow' hmid
          have hsplit' : after = [] ++ x :: post := hmid.symm
          rcases ihafter (fun n hn => hlinked n (List.mem_cons_of_mem _ hn)) hsplit' with ⟨root, hroot, heq⟩ | ⟨p, hp, hmem⟩
          · exact .inl ⟨root, List.mem_cons_of_mem _ hroot, heq⟩
          · cases hmem
        | cons y mid =>
          obtain ⟨rfl, hpost⟩ := List.cons.inj hmid
          rcases ihbelow (fun n hn => (hnode.children (mem_activeFirst.mp hn)).2) hbelow' with
            ⟨child, hchild, heq⟩ | ⟨p, hp, hmem⟩
          · right
            refine ⟨node.entry.id, ?_, ?_⟩
            · rw [← heq]
              exact (hnode.children (mem_activeFirst.mp hchild)).1
            · rw [← hfirst]
              exact List.mem_cons_self
          · exact .inr ⟨p, hp, List.mem_cons_of_mem _ hmem⟩

/-- **The flattened tree lists parents first.** -/
theorem IsSessionTree.parentsFirst {roots : List SessionTreeNode}
    (h : IsSessionTree leafId roots) (hown : NoOwnParent roots) :
    Ancestors.ParentsFirst (links (flattenTree leafId roots)) where
  nodup := by
    rw [links_keys]
    exact h.nodup
  before pre k p post hsplit hmem := by
    rw [links_keys] at hmem
    obtain ⟨front, tail, hflat, rfl, htail⟩ := List.map_eq_append_iff.mp hsplit
    obtain ⟨x, back, rfl, hx, -⟩ := List.map_eq_cons_iff.mp htail
    have hparent : x.entry.parentId = some p := congrArg Prod.snd hx
    have hlinked : ∀ root ∈ activeFirst leafId roots, Linked root :=
      fun root hroot => h.linked root (mem_activeFirst.mp hroot)
    rcases (flattenTree_preOrder leafId roots).parent_before hlinked hflat with
      ⟨root, hroot, heq⟩ | ⟨q, hq, hqmem⟩
    · have hroot := mem_activeFirst.mp hroot
      rw [← heq] at hparent
      rcases h.rooted root hroot p hparent with rfl | hnot
      · exact absurd hparent (hown root hroot)
      · exact absurd hmem hnot
    · rw [hparent] at hq
      obtain rfl := Option.some.inj hq
      show p ∈ (links front).map Prod.fst
      rw [links_keys]
      exact hqmem

end ReflectivePi.Selector
