import ReflectivePi.Lib.ParentWalk

/-!
# Session — Migrate

The migration of old session files, as it rewrites the parsed entries in place:
version 1 has neither ids nor parent links, version 2 has an old role. The set of ids
that a new id is checked against stays empty, so what keeps the ids apart is only
what the UUIDs begin with.
-/

namespace ReflectivePi.Session

open List ParentWalk

/-! ## Entries of any version -/

/-- What `randomUUID` returns. -/
structure Uuid where
  chars : List Char
  length_eq : chars.length = 36

abbrev RawId := List Char

inductive RawKind where
  | session (version : Option Nat)
  /-- A message with its role, if it has one. -/
  | message (role : Option String)
  | compaction (firstKeptEntryIndex : Option Int) (firstKeptEntryId : Option RawId)
  | other (type : String)

structure RawEntry where
  kind : RawKind
  id : Option RawId := none
  parentId : Option RawId := none

namespace RawEntry

def isSession (e : RawEntry) : Bool :=
  match e.kind with
  | .session _ => true
  | _ => false

/-- The parent a walk goes to; an empty id is none. -/
def parent (e : RawEntry) : Option (Option RawId) :=
  match e.parentId with
  | some (c :: cs) => some (some (c :: cs))
  | _ => none

end RawEntry

/-- The entries without headers. -/
def nodes (l : List RawEntry) : List RawEntry := l.filter fun e => !e.isSession

/-! ## The migrations -/

section

-- the values of the random source, in the order it returns them
variable (draw : Nat → Uuid)

/-- `generateId`: the id, and how many values have been drawn then. -/
def generateId (byId : List RawId) : Nat → Nat → RawId × Nat
  | 0, drawn => ((draw drawn).chars, drawn + 1)
  | tries + 1, drawn =>
    let id := (draw drawn).chars.take 8
    if id ∈ byId then generateId byId tries (drawn + 1) else (id, drawn + 1)

structure Pass where
  entries : List RawEntry
  /-- `ids`, which nothing is added to. -/
  ids : List RawId := []
  prevId : Option RawId := none
  drawn : Nat := 0

/-- `entries[index]`. -/
def entryAt (entries : List RawEntry) : Int → Option RawEntry
  | .ofNat i => entries[i]?
  | .negSucc _ => none

/-- `firstKeptEntryId` once the index is resolved. -/
def keptId (entries : List RawEntry) (index : Int) (firstKeptEntryId : Option RawId) :
    Option RawId :=
  match entryAt entries index with
  | some targetEntry => if targetEntry.isSession then firstKeptEntryId else targetEntry.id
  | none => firstKeptEntryId

/-- One round of the loop of `migrateV1ToV2`. -/
def migrateEntry (p : Pass) (i : Nat) : Pass :=
  match p.entries[i]? with
  | none => p
  | some entry =>
    match entry.kind with
    | .session _ =>
      { p with entries := p.entries.set i { entry with kind := .session (some 2) } }
    | kind =>
      let (id, drawn) := generateId draw p.ids 100 p.drawn
      let entry := { entry with id := some id, parentId := p.prevId }
      let entries := p.entries.set i entry
      let p := { p with entries, prevId := some id, drawn }
      match kind with
      | .compaction (some index) firstKeptEntryId =>
        { p with entries := entries.set i { entry with
            kind := .compaction none (keptId entries index firstKeptEntryId) } }
      | _ => p

def migrateV1ToV2 (entries : List RawEntry) : List RawEntry :=
  ((List.range entries.length).foldl (migrateEntry draw) { entries }).entries

/-- One entry of `migrateV2ToV3`. -/
def renameRole (entry : RawEntry) : RawEntry :=
  match entry.kind with
  | .session _ => { entry with kind := .session (some 3) }
  | .message (some role) =>
    if role = "hookMessage" then { entry with kind := .message (some "custom") } else entry
  | _ => entry

def migrateV2ToV3 (entries : List RawEntry) : List RawEntry := entries.map renameRole

def headerVersion (entries : List RawEntry) : Nat :=
  (entries.findSome? fun e =>
    match e.kind with
    | .session version => some (version.getD 1)
    | _ => none).getD 1

/-- `migrateToCurrentVersion`: the entries, and whether anything was applied. -/
def migrateToCurrentVersion (entries : List RawEntry) : List RawEntry × Bool :=
  let version := headerVersion entries
  if 3 ≤ version then (entries, false)
  else
    let entries := if version < 2 then migrateV1ToV2 draw entries else entries
    (migrateV2ToV3 entries, true)

end

/-! ## What version 2 looks like -/

variable {draw : Nat → Uuid} {l : List RawEntry} {e : RawEntry} {n i : Nat}

/-- The id of the `n`-th entry, which takes the first value it is given. -/
def idAt (draw : Nat → Uuid) (n : Nat) : RawId := (draw n).chars.take 8

def prevAt (draw : Nat → Uuid) : Nat → Option RawId
  | 0 => none
  | n + 1 => some (idAt draw n)

theorem generateId_nil (tries drawn : Nat) :
    generateId draw [] (tries + 1) drawn = (idAt draw drawn, drawn + 1) := by
  simp [generateId, idAt]

/-- What the `n`-th entry that is no header becomes; `kept` resolves indices. -/
def upgraded (draw : Nat → Uuid) (kept : Int → Option RawId → Option RawId) (n : Nat)
    (e : RawEntry) : RawEntry :=
  match e.kind with
  | .session _ => { e with kind := .session (some 2) }
  | .compaction (some index) firstKeptEntryId =>
    ⟨.compaction none (kept index firstKeptEntryId), some (idAt draw n), prevAt draw n⟩
  | _ => { e with id := some (idAt draw n), parentId := prevAt draw n }

def rank (e : RawEntry) : Nat := if e.isSession then 0 else 1

/-- How many of the entries are no headers. -/
def count (l : List RawEntry) : Nat := l.countP fun e => !e.isSession

theorem count_cons (e : RawEntry) (l : List RawEntry) : count (e :: l) = rank e + count l := by
  simp only [count, countP_cons, rank]
  cases e.isSession
  · simp
    omega
  · simp

theorem count_concat (l : List RawEntry) (e : RawEntry) : count (l ++ [e]) = count l + rank e := by
  simp only [count, countP_append, countP_singleton, rank]
  cases e.isSession <;> rfl

def upgradedAll (draw : Nat → Uuid) (kept : Int → Option RawId → Option RawId) :
    Nat → List RawEntry → List RawEntry
  | _, [] => []
  | n, e :: rest => upgraded draw kept n e :: upgradedAll draw kept (n + rank e) rest

section

variable {kept : Int → Option RawId → Option RawId}

theorem isSession_upgraded (n : Nat) (e : RawEntry) :
    (upgraded draw kept n e).isSession = e.isSession := by
  rcases e with ⟨kind, id, parentId⟩
  cases kind with
  | compaction index firstKeptEntryId => cases index <;> rfl
  | _ => rfl

theorem links_upgraded (he : e.isSession = false) (n : Nat) :
    (upgraded draw kept n e).id = some (idAt draw n) ∧
      (upgraded draw kept n e).parentId = prevAt draw n := by
  rcases e with ⟨kind, id, parentId⟩
  cases kind with
  | session version => cases he
  | compaction index firstKeptEntryId => cases index <;> exact ⟨rfl, rfl⟩
  | _ => exact ⟨rfl, rfl⟩

@[simp] theorem length_upgradedAll (n : Nat) (l : List RawEntry) :
    (upgradedAll draw kept n l).length = l.length := by
  induction l generalizing n with
  | nil => rfl
  | cons e rest ih => simp [upgradedAll, ih]

theorem upgradedAll_concat (n : Nat) (l : List RawEntry) (e : RawEntry) :
    upgradedAll draw kept n (l ++ [e])
      = upgradedAll draw kept n l ++ [upgraded draw kept (n + count l) e] := by
  induction l generalizing n with
  | nil => simp [upgradedAll, count]
  | cons x rest ih =>
    simp only [cons_append, upgradedAll, ih, count_cons]
    rw [Nat.add_assoc]

theorem getElem?_upgradedAll (n : Nat) (l : List RawEntry) (i : Nat) :
    (upgradedAll draw kept n l)[i]? = l[i]?.map (upgraded draw kept (n + count (l.take i))) := by
  induction l generalizing n i with
  | nil => rfl
  | cons x rest ih =>
    cases i with
    | zero => rfl
    | succ i =>
      simp only [upgradedAll, getElem?_cons_succ, ih, take_succ_cons, count_cons]
      rw [Nat.add_assoc]

end

/-! ## The loop -/

/-- Every index of a compaction names an earlier entry that is no header. -/
def NamesEarlier (l : List RawEntry) : Prop :=
  ∀ (i : Nat) e, l[i]? = some e → ∀ (index : Int) (firstKeptEntryId : Option RawId),
    e.kind = .compaction (some index) firstKeptEntryId →
    ∃ (j : Nat) (target : RawEntry), index = j ∧ j < i ∧ l[j]? = some target ∧
      target.isSession = false

/-- The id of the entry that an index names. -/
def keptAt (draw : Nat → Uuid) (l : List RawEntry) (index : Int) (_ : Option RawId) :
    Option RawId :=
  some (idAt draw (count (l.take index.toNat)))

/-- The state of the loop after `i` rounds. -/
def passAt (draw : Nat → Uuid) (l : List RawEntry) (i : Nat) : Pass where
  entries := upgradedAll draw (keptAt draw l) 0 (l.take i) ++ l.drop i
  prevId := prevAt draw (count (l.take i))
  drawn := count (l.take i)

theorem take_succ_eq (hi : l[i]? = some e) : l.take (i + 1) = l.take i ++ [e] := by
  rw [take_add_one, hi]
  rfl

theorem drop_eq (hi : l[i]? = some e) : l.drop i = e :: l.drop (i + 1) := by
  obtain ⟨hlt, rfl⟩ := List.getElem?_eq_some_iff.mp hi
  simp

theorem set_middle {α : Type} (a b : List α) (x y : α) (hlength : a.length = i) :
    (a ++ x :: b).set i y = a ++ y :: b := by
  subst hlength
  simp

/-- **A round**: the entry gets the next id and hangs under the one before it. -/
theorem migrateEntry_passAt (hl : NamesEarlier l) (hi : l[i]? = some e) :
    migrateEntry draw (passAt draw l i) i = passAt draw l (i + 1) := by
  have hlt := (List.getElem?_eq_some_iff.mp hi).1
  have hlength : (upgradedAll draw (keptAt draw l) 0 (l.take i)).length = i := by
    rw [length_upgradedAll, length_take]
    omega
  have hget : (passAt draw l i).entries[i]? = some e := by
    simp only [passAt]
    rw [getElem?_append_right (by omega), hlength, Nat.sub_self, drop_eq hi]
    rfl
  have hnext : passAt draw l (i + 1) =
      { entries := upgradedAll draw (keptAt draw l) 0 (l.take i) ++
          upgraded draw (keptAt draw l) (count (l.take i)) e :: l.drop (i + 1)
        prevId := prevAt draw (count (l.take i) + rank e)
        drawn := count (l.take i) + rank e } := by
    simp only [passAt]
    rw [take_succ_eq hi, upgradedAll_concat, count_concat]
    simp
  have hset : ∀ y, (passAt draw l i).entries.set i y =
      upgradedAll draw (keptAt draw l) 0 (l.take i) ++ y :: l.drop (i + 1) := by
    intro y
    simp only [passAt]
    rw [drop_eq hi, set_middle _ _ _ _ hlength]
  have hid : generateId draw (passAt draw l i).ids 100 (passAt draw l i).drawn
      = (idAt draw (count (l.take i)), count (l.take i) + 1) := generateId_nil 99 _
  rw [hnext]
  unfold migrateEntry
  rw [hget]
  simp only [hid, hset]
  cases hkind : e.kind with
  | session version => simp [upgraded, rank, RawEntry.isSession, hkind, passAt]
  | compaction index firstKeptEntryId =>
    cases index with
    | none => simp [upgraded, rank, RawEntry.isSession, hkind, passAt, prevAt]
    | some index =>
      obtain ⟨j, target, rfl, hj, htarget, hsession⟩ := hl i e hi index firstKeptEntryId hkind
      -- the entry that the index names has its id already
      have hentry : ∀ y, entryAt (upgradedAll draw (keptAt draw l) 0 (l.take i) ++
          y :: l.drop (i + 1)) (j : Int)
          = some (upgraded draw (keptAt draw l) (count (l.take j)) target) := by
        intro y
        show (_ ++ _)[j]? = _
        rw [getElem?_append_left (by omega), getElem?_upgradedAll,
          getElem?_take_of_lt hj, htarget, take_take, Nat.min_eq_left (by omega)]
        simp
      have hkept : ∀ y, keptId (upgradedAll draw (keptAt draw l) 0 (l.take i) ++
          y :: l.drop (i + 1)) (j : Int) firstKeptEntryId
          = keptAt draw l j firstKeptEntryId := by
        intro y
        rw [keptId, hentry]
        simp only [isSession_upgraded, hsession, Bool.false_eq_true, if_false]
        exact (links_upgraded hsession _).1
      simp [upgraded, rank, RawEntry.isSession, hkind, passAt, prevAt, hkept,
        set_middle _ _ _ _ hlength]
  | _ => simp [upgraded, rank, RawEntry.isSession, hkind, passAt, prevAt]

theorem foldl_migrateEntry (hl : NamesEarlier l) (hi : i ≤ l.length) :
    (List.range i).foldl (migrateEntry draw) { entries := l } = passAt draw l i := by
  induction i with
  | zero => rfl
  | succ i ih =>
    rw [range_succ, foldl_append, ih (by omega)]
    exact migrateEntry_passAt hl (getElem?_eq_getElem (by omega))

/-- **The migration from version 1**, entry by entry. -/
theorem migrateV1ToV2_eq (hl : NamesEarlier l) :
    migrateV1ToV2 draw l = upgradedAll draw (keptAt draw l) 0 l := by
  rw [migrateV1ToV2, foldl_migrateEntry hl (Nat.le_refl _)]
  simp [passAt]

/-! ## The chain of entries -/

/-- Entries with the ids from the `n`-th on, each under the one before it. -/
inductive Chain (draw : Nat → Uuid) : Nat → List RawEntry → Prop
  | nil {n : Nat} : Chain draw n []
  | cons {n : Nat} {e : RawEntry} {rest : List RawEntry} (hid : e.id = some (idAt draw n))
      (hparent : e.parentId = prevAt draw n) (hrest : Chain draw (n + 1) rest) :
      Chain draw n (e :: rest)

theorem nodes_cons (e : RawEntry) (l : List RawEntry) :
    nodes (e :: l) = if e.isSession then nodes l else e :: nodes l := by
  cases h : e.isSession <;> simp [nodes, h]

theorem chain_upgradedAll (kept : Int → Option RawId → Option RawId) (n : Nat)
    (l : List RawEntry) : Chain draw n (nodes (upgradedAll draw kept n l)) := by
  induction l generalizing n with
  | nil => exact .nil
  | cons e rest ih =>
    have hrest := ih (n + rank e)
    rw [upgradedAll, nodes_cons, isSession_upgraded]
    cases he : e.isSession with
    | true =>
      have hrank : n + rank e = n := by simp [rank, he]
      rw [hrank] at hrest ⊢
      exact hrest
    | false =>
      have hrank : n + rank e = n + 1 := by simp [rank, he]
      rw [hrank] at hrest ⊢
      obtain ⟨hid, hparent⟩ := @links_upgraded draw e kept he n
      exact .cons hid hparent hrest

theorem nodes_upgradedAll_length (kept : Int → Option RawId → Option RawId) (n : Nat)
    (l : List RawEntry) : (nodes (upgradedAll draw kept n l)).length = count l := by
  induction l generalizing n with
  | nil => rfl
  | cons e rest ih =>
    rw [upgradedAll, nodes_cons, isSession_upgraded, count_cons, rank]
    cases e.isSession with
    | true => simpa using ih n
    | false =>
      simp only [Bool.false_eq_true, if_false, length_cons, ih]
      omega

theorem Chain.ids (h : Chain draw n l) :
    l.map RawEntry.id = (List.range' n l.length).map fun i => some (idAt draw i) := by
  induction h with
  | nil => rfl
  | cons hid _ _ ih => simp [range'_succ, hid, ih]

theorem Chain.concat (h : Chain draw n (l ++ [e])) :
    Chain draw n l ∧ e.id = some (idAt draw (n + l.length)) ∧
      e.parentId = prevAt draw (n + l.length) := by
  induction l generalizing n with
  | nil =>
    cases h with
    | cons hid hparent _ => exact ⟨.nil, hid, hparent⟩
  | cons x rest ih =>
    cases h with
    | cons hid hparent hrest =>
      obtain ⟨hchain, heid, heparent⟩ := ih hrest
      have hn : n + (x :: rest).length = n + 1 + rest.length := by simp; omega
      rw [hn]
      exact ⟨.cons hid hparent hchain, heid, heparent⟩

theorem idAt_ne_nil (draw : Nat → Uuid) (n : Nat) : ∃ c cs, idAt draw n = c :: cs := by
  have hlength : (idAt draw n).length = 8 := by
    rw [idAt, length_take, (draw n).length_eq]
    rfl
  cases hid : idAt draw n with
  | nil => simp [hid] at hlength
  | cons c cs => exact ⟨c, cs, rfl⟩

/-- The key of the entry before the `n`-th. -/
def keyBefore (draw : Nat → Uuid) : Nat → Option (Option RawId)
  | 0 => none
  | n + 1 => some (some (idAt draw n))

theorem parent_eq (h : e.parentId = prevAt draw n) : e.parent = keyBefore draw n := by
  cases n with
  | zero => simp [RawEntry.parent, h, prevAt, keyBefore]
  | succ n =>
    obtain ⟨c, cs, hid⟩ := idAt_ne_nil draw n
    simp [RawEntry.parent, h, prevAt, keyBefore, hid]

theorem Chain.getLast (h : Chain draw 0 l) :
    l.getLast?.map RawEntry.id = keyBefore draw l.length := by
  induction l using List.reverseRecOn with
  | nil => rfl
  | append_singleton l e _ =>
    obtain ⟨-, hid, -⟩ := h.concat
    simp [hid, keyBefore]

theorem Chain.parents (h : Chain draw 0 l) :
    ∀ b ∈ l, ∀ key, b.parent = some key → key ∈ l.map RawEntry.id := by
  induction l using List.reverseRecOn with
  | nil => nofun
  | append_singleton l e ih =>
    obtain ⟨hchain, -, hparent⟩ := h.concat
    intro b hb key hkey
    rw [map_append]
    rcases List.mem_append.mp hb with hold | hnew
    · exact mem_append_left _ (ih hchain b hold key hkey)
    · obtain rfl := List.mem_singleton.mp hnew
      rw [parent_eq hparent, Nat.zero_add, ← hchain.getLast] at hkey
      obtain ⟨last, hlast, rfl⟩ := Option.map_eq_some_iff.mp hkey
      exact mem_append_left _ (mem_map_of_mem (mem_of_getLast? hlast))

/-- **The walk from the last entry visits every entry**, in file order. -/
theorem Chain.ancestry_eq (h : Chain draw 0 l) (hids : (l.map RawEntry.id).Nodup) :
    ancestry RawEntry.id RawEntry.parent l (l.getLast?.map RawEntry.id) = l := by
  induction l using List.reverseRecOn with
  | nil => rfl
  | append_singleton l e ih =>
    obtain ⟨hchain, -, hparent⟩ := h.concat
    rw [map_append, nodup_append] at hids
    obtain ⟨hold, -, hnew⟩ := hids
    have hid : e.id ∉ l.map RawEntry.id := fun hmem => hnew e.id hmem e.id (by simp) rfl
    have hlast : e.parent = l.getLast?.map RawEntry.id := by
      rw [parent_eq hparent, Nat.zero_add, hchain.getLast]
    rw [getLast?_concat, Option.map_some, ancestry_concat, hlast, ih hchain hold]
    · exact fun b hb hkey => hid (hchain.parents b hb _ hkey)
    · intro hkey
      rw [hlast] at hkey
      obtain ⟨last, hmem, heq⟩ := Option.map_eq_some_iff.mp hkey
      exact hid (heq ▸ mem_map_of_mem (mem_of_getLast? hmem))

theorem renameRole_fields (e : RawEntry) : (renameRole e).id = e.id ∧
    (renameRole e).parentId = e.parentId ∧ (renameRole e).isSession = e.isSession := by
  rcases e with ⟨kind, id, parentId⟩
  cases kind with
  | message role =>
    cases role with
    | none => exact ⟨rfl, rfl, rfl⟩
    | some role =>
      simp only [renameRole]
      split <;> exact ⟨rfl, rfl, rfl⟩
  | _ => exact ⟨rfl, rfl, rfl⟩

theorem nodes_migrateV2ToV3 (l : List RawEntry) :
    nodes (migrateV2ToV3 l) = (nodes l).map renameRole := by
  induction l with
  | nil => rfl
  | cons e rest ih =>
    rw [migrateV2ToV3, map_cons, nodes_cons, nodes_cons, (renameRole_fields e).2.2]
    cases e.isSession with
    | _ => simpa [migrateV2ToV3] using ih

theorem Chain.renamed (h : Chain draw n l) : Chain draw n (l.map renameRole) := by
  induction h with
  | nil => exact .nil
  | @cons n e rest hid hparent _ ih =>
    obtain ⟨hid', hparent', -⟩ := renameRole_fields e
    exact .cons (hid'.trans hid) (hparent'.trans hparent) ih

/-! ## Version 1 -/

/-- A file of version 1: a header first, and compactions that name earlier entries. -/
structure VersionOne (l : List RawEntry) : Prop where
  header : ∃ header rest version, l = header :: rest ∧ header.kind = .session version ∧
    version.getD 1 < 2
  indices : NamesEarlier l

/-- The file keeps its structure: ids apart, one chain in file order, the compactions'
boundaries, and nothing is left to migrate. -/
structure KeepsStructure (draw : Nat → Uuid) (l : List RawEntry) : Prop where
  ids : ((nodes (migrateToCurrentVersion draw l).1).map RawEntry.id).Nodup
  walk : ancestry RawEntry.id RawEntry.parent (nodes (migrateToCurrentVersion draw l).1)
      ((nodes (migrateToCurrentVersion draw l).1).getLast?.map RawEntry.id)
    = nodes (migrateToCurrentVersion draw l).1
  kept : ∀ (i j : Nat) e firstKeptEntryId, l[i]? = some e →
    e.kind = .compaction (some (j : Int)) firstKeptEntryId →
    ∃ target id, (migrateToCurrentVersion draw l).1[j]? = some target ∧
      target.isSession = false ∧ target.id = some id ∧
      ((migrateToCurrentVersion draw l).1[i]?).map RawEntry.kind = some (.compaction none (some id))
  stable : ∀ draw', migrateToCurrentVersion draw' (migrateToCurrentVersion draw l).1
    = ((migrateToCurrentVersion draw l).1, false)

/-- The values drawn for the entries begin apart. -/
def DistinctDraws (draw : Nat → Uuid) (l : List RawEntry) : Prop :=
  ((List.range (count l)).map (idAt draw)).Nodup

theorem headerVersion_cons {header : RawEntry} {rest : List RawEntry} {version : Option Nat}
    (h : header.kind = .session version) : headerVersion (header :: rest) = version.getD 1 := by
  simp [headerVersion, h]

section

variable (h : VersionOne l)

include h

theorem migrate_versionOne :
    migrateToCurrentVersion draw l
      = (migrateV2ToV3 (upgradedAll draw (keptAt draw l) 0 l), true) := by
  obtain ⟨header, rest, version, hl, hkind, hversion⟩ := h.header
  have hv : headerVersion l = version.getD 1 := by rw [hl, headerVersion_cons hkind]
  simp only [migrateToCurrentVersion, hv]
  rw [if_neg (by omega), if_pos hversion, migrateV1ToV2_eq h.indices]

theorem chain_migrated :
    Chain draw 0 (nodes (migrateToCurrentVersion draw l).1) := by
  rw [migrate_versionOne h, nodes_migrateV2ToV3]
  exact (chain_upgradedAll _ 0 l).renamed

theorem ids_migrated :
    (nodes (migrateToCurrentVersion draw l).1).map RawEntry.id
      = (List.range (count l)).map fun i => some (idAt draw i) := by
  rw [(chain_migrated h).ids, migrate_versionOne h, nodes_migrateV2ToV3, length_map,
    nodes_upgradedAll_length, range_eq_range']

theorem nodup_ids_iff :
    ((nodes (migrateToCurrentVersion draw l).1).map RawEntry.id).Nodup ↔ DistinctDraws draw l := by
  have hmap : (List.range (count l)).map (fun i => some (idAt draw i))
      = ((List.range (count l)).map (idAt draw)).map some := by
    rw [map_map]
    rfl
  rw [ids_migrated h, hmap, DistinctDraws]
  exact nodup_map_iff fun _ _ heq => Option.some.inj heq

theorem getElem?_migrated (i : Nat) :
    (migrateToCurrentVersion draw l).1[i]?
      = l[i]?.map fun e => renameRole (upgraded draw (keptAt draw l) (count (l.take i)) e) := by
  rw [migrate_versionOne h, migrateV2ToV3, getElem?_map, getElem?_upgradedAll,
    Option.map_map, Nat.zero_add]
  rfl

theorem kept_migrated {j : Nat} {firstKeptEntryId : Option RawId}
    (hi : l[i]? = some e) (hkind : e.kind = .compaction (some (j : Int)) firstKeptEntryId) :
    ∃ target id, (migrateToCurrentVersion draw l).1[j]? = some target ∧
      target.isSession = false ∧ target.id = some id ∧
      ((migrateToCurrentVersion draw l).1[i]?).map RawEntry.kind
        = some (.compaction none (some id)) := by
  obtain ⟨j', target, hj, -, htarget, hsession⟩ := h.indices i e hi j firstKeptEntryId hkind
  obtain rfl : j = j' := by omega
  obtain ⟨hid, -, hsame⟩ := renameRole_fields
    (upgraded draw (keptAt draw l) (count (l.take j)) target)
  refine ⟨renameRole (upgraded draw (keptAt draw l) (count (l.take j)) target),
    idAt draw (count (l.take j)), ?_, ?_, ?_, ?_⟩
  · rw [getElem?_migrated h, htarget]
    rfl
  · rw [hsame, isSession_upgraded, hsession]
  · rw [hid, (links_upgraded hsession _).1]
  · rw [getElem?_migrated h, hi]
    simp [upgraded, renameRole, hkind, keptAt]

theorem stable_migrated (draw' : Nat → Uuid) :
    migrateToCurrentVersion draw' (migrateToCurrentVersion draw l).1
      = ((migrateToCurrentVersion draw l).1, false) := by
  obtain ⟨header, rest, version, hl, hkind, -⟩ := h.header
  have hmigrated : headerVersion (migrateToCurrentVersion draw l).1 = 3 := by
    rw [migrate_versionOne h, migrateV2ToV3]
    rw [hl, upgradedAll, map_cons]
    simp [headerVersion, upgraded, renameRole, hkind]
  rw [migrateToCurrentVersion, hmigrated]
  rfl

end

/-- **A file of version 1 keeps its structure if and only if the UUIDs drawn for its
entries begin apart**: nothing else keeps two ids from being the same. -/
theorem migrate_keeps_structure (h : VersionOne l) :
    KeepsStructure draw l ↔ DistinctDraws draw l := by
  refine ⟨fun hkeeps => (nodup_ids_iff h).mp hkeeps.ids, fun hdraws => ?_⟩
  have hids := (nodup_ids_iff h).mpr hdraws
  exact ⟨hids, (chain_migrated h).ancestry_eq hids, fun i j e kept hi hkind =>
    kept_migrated h hi hkind, stable_migrated h⟩

/-! ## Draws -/

/-- A UUID by its digits before the first dash and after the last one. -/
def uuidOf (first last : Char) : Uuid where
  chars := List.replicate 8 first ++ "-0000-4000-8000-".toList ++ List.replicate 12 last
  length_eq := by simp

/-- A session of version 1, compacted back to its first message. -/
def versionOneFile : List RawEntry :=
  [⟨.session none, none, none⟩, ⟨.message (some "user"), none, none⟩,
    ⟨.message (some "hookMessage"), none, none⟩, ⟨.compaction (some 1) none, none, none⟩]

theorem versionOne_file : VersionOne versionOneFile := by
  refine ⟨⟨_, _, _, rfl, rfl, by decide⟩, fun i e hi index kept hkind => ?_⟩
  rcases i with _ | _ | _ | _ | i
  all_goals cases hi
  all_goals cases hkind
  exact ⟨1, _, rfl, by decide, rfl, rfl⟩

/-- The values differ in their first characters. -/
def apart (n : Nat) : Uuid := uuidOf (if n = 0 then 'a' else if n = 1 then 'b' else 'c') '0'

theorem migrate_keeps_structure_sample : KeepsStructure apart versionOneFile :=
  (migrate_keeps_structure versionOne_file).mpr (by unfold DistinctDraws; decide +kernel)

/-- The values begin the same, and differ in their last digits. -/
def alike (n : Nat) : Uuid := uuidOf 'a' (if n = 0 then '0' else if n = 1 then '1' else '2')

/-- **UUIDs that begin the same give two entries one id**, though there are values left
that could have been drawn instead. -/
theorem migrate_loses_structure :
    VersionOne versionOneFile ∧ ¬ KeepsStructure alike versionOneFile := by
  refine ⟨versionOne_file, fun h => ?_⟩
  have hdraws := (nodup_ids_iff versionOne_file).mp h.ids
  revert hdraws
  unfold DistinctDraws
  decide +kernel

end ReflectivePi.Session
