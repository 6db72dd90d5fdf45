import ReflectivePi.Delta.Json

/-!
# Delta — Op

The operations of the log and what makes one valid. In memory and on the
wire an operation is a tuple; `Op.tuple` writes it down and
`assertValidOp` reads one back, with the source's checks in the source's
order.
-/

namespace ReflectivePi.Delta

open List

/-! ## Paths -/

/-- One step into a value: a property or an index. -/
inductive Seg where
  | key (k : JsString)
  | index (n : Nat)
  deriving DecidableEq

abbrev Path := List Seg

/-- The segments that reach the prototype chain. -/
def reservedSegments : List JsString :=
  [js "__proto__", js "constructor", js "prototype"]

def Seg.Safe : Seg → Prop
  | .key k => k ∉ reservedSegments
  | .index _ => True

instance (s : Seg) : Decidable s.Safe :=
  match s with
  | .key k => inferInstanceAs (Decidable (k ∉ reservedSegments))
  | .index _ => inferInstanceAs (Decidable True)

/-- What `assertSafePath` accepts. -/
def SafePath (path : Path) : Prop := ∀ s ∈ path, s.Safe

instance (path : Path) : Decidable (SafePath path) :=
  inferInstanceAs (Decidable (∀ s ∈ path, s.Safe))

/-! ## Operations -/

/-- What an operation does at its path. -/
inductive Edit where
  | set (value : Json)
  | delete
  | append (text : JsString)
  | truncate (count : Nat)
  | splice (index remove : Nat) (items : List Json)
  | move (permutation : List Nat)

/-- `["r", value]`, or one of the six verbs that carry a path. -/
inductive Op where
  | replace (value : Json)
  | edit (path : Path) (e : Edit)

/-- `p` and `m` may target the root, because a tracked value can itself be
an array. -/
def Edit.mayTargetRoot : Edit → Bool
  | .splice .. => true
  | .move _ => true
  | _ => false

/-- `new[i] = old[permutation[i]]` uses every old index once. -/
def IsPermutation (permutation : List Nat) : Prop :=
  permutation.Nodup ∧ ∀ i ∈ permutation, i < permutation.length

instance (permutation : List Nat) : Decidable (IsPermutation permutation) :=
  inferInstanceAs (Decidable (_ ∧ _))

def Edit.Valid : Edit → Prop
  | .move permutation => IsPermutation permutation
  | _ => True

instance (e : Edit) : Decidable e.Valid :=
  match e with
  | .move permutation =>
    inferInstanceAs (Decidable (IsPermutation permutation))
  | .set _ | .delete | .append _ | .truncate _ | .splice .. =>
    inferInstanceAs (Decidable True)

def Op.Valid : Op → Prop
  | .replace _ => True
  | .edit path e =>
    SafePath path ∧ (path = [] → e.mayTargetRoot = true) ∧ e.Valid

instance (op : Op) : Decidable op.Valid :=
  match op with
  | .replace _ => inferInstanceAs (Decidable True)
  | .edit .. => inferInstanceAs (Decidable (_ ∧ _ ∧ _))

/-- `isReplace`. -/
def Op.isReplace : Op → Bool
  | .replace _ => true
  | .edit .. => false

/-- A batch that begins with a replacement. -/
def isBase : List Op → Bool
  | op :: _ => op.isReplace
  | [] => false

inductive DeltaError where
  /-- `TypeError` -/
  | type (message : String)
  /-- `TypeError`: unknown op verb -/
  | unknownVerb (verb : Json)
  /-- `UnsafePathError` -/
  | unsafePath (segment : Json)
  /-- `PathError` of a path -/
  | path (path : Path)
  /-- `PathError` of an id -/
  | pathId (id : Nat)

/-! ## Tuples -/

/-- A number as JSON holds it. -/
def Json.ofNat (n : Nat) : Json := .num n

def Seg.toJson : Seg → Json
  | .key k => .str k
  | .index n => .ofNat n

def pathJson (path : Path) : Json := .arr (path.map Seg.toJson)

/-- `Number.isInteger(value) && value >= 0`. -/
def natOf : Json → Option Nat
  | .num n => if n.isInt ∧ 0 ≤ n.num then some n.num.toNat else none
  | _ => none

@[simp] theorem natOf_ofNat (n : Nat) : natOf (.ofNat n) = some n := by
  rfl

/-- One segment under `assertSafePath`. -/
def assertSafeSegment : Json → Except DeltaError Seg
  | .str k =>
    if k ∈ reservedSegments then .error (.unsafePath (.str k))
    else .ok (.key k)
  | seg =>
    match natOf seg with
    | some n => .ok (.index n)
    | none => .error (.unsafePath seg)

def assertSafePath (segments : List Json) : Except DeltaError Path :=
  segments.mapM assertSafeSegment

theorem assertSafeSegment_toJson (s : Seg) :
    assertSafeSegment s.toJson = if s.Safe then .ok s else .error (.unsafePath s.toJson) := by
  cases s with
  | key k =>
    by_cases h : k ∈ reservedSegments
    · simp [assertSafeSegment, Seg.toJson, Seg.Safe, h]
    · simp [assertSafeSegment, Seg.toJson, Seg.Safe, h]
  | index n =>
    rfl

theorem assertSafePath_toJson {path : Path} (h : SafePath path) :
    assertSafePath (path.map Seg.toJson) = .ok path := by
  induction path with
  | nil => rfl
  | cons s path ih =>
    have hs := assertSafeSegment_toJson s
    rw [if_pos (h s mem_cons_self)] at hs
    have hp := ih (fun x hx => h x (mem_cons_of_mem _ hx))
    unfold assertSafePath at hp ⊢
    rw [map_cons, mapM_cons, hs, hp]
    rfl

/-- The loop of `assertPermutation` over the `seen` marks. -/
def readPermutation (length : Nat) (seen : List Nat) :
    List Json → Except DeltaError (List Nat)
  | [] => .ok []
  | value :: values =>
    match natOf value with
    | some index =>
      if index < length ∧ index ∉ seen then do
        let rest ← readPermutation length (index :: seen) values
        .ok (index :: rest)
      else .error (.type "m permutation is not a bijection")
    | none => .error (.type "m permutation is not a bijection")

def assertPermutation : Json → Except DeltaError (List Nat)
  | .arr values => readPermutation values.length [] values
  | _ => .error (.type "m permutation is not an array")

theorem readPermutation_ofNat {length : Nat} {seen permutation : List Nat}
    (hlt : ∀ i ∈ permutation, i < length) (hnd : permutation.Nodup)
    (hseen : ∀ i ∈ permutation, i ∉ seen) :
    readPermutation length seen (permutation.map Json.ofNat) = .ok permutation := by
  induction permutation generalizing seen with
  | nil => rfl
  | cons i is ih =>
    obtain ⟨hi, his⟩ := List.nodup_cons.mp hnd
    have hnot : ∀ j ∈ is, j ∉ i :: seen := by
      intro j hj
      rw [mem_cons, not_or]
      exact ⟨fun e => hi (e ▸ hj), hseen j (mem_cons_of_mem _ hj)⟩
    have hrest := ih (fun j hj => hlt j (mem_cons_of_mem _ hj)) his hnot
    have hhead : i < length ∧ i ∉ seen :=
      ⟨hlt i mem_cons_self, hseen i mem_cons_self⟩
    simp only [readPermutation, map_cons, natOf_ofNat, if_pos hhead, hrest]
    rfl

theorem assertPermutation_ofNat {permutation : List Nat} (h : IsPermutation permutation) :
    assertPermutation (.arr (permutation.map Json.ofNat)) = .ok permutation := by
  unfold assertPermutation
  refine readPermutation_ofNat ?_ h.1 (by simp)
  simpa using h.2

/-! ## Decoded operations -/

def Edit.verb : Edit → JsString
  | .set _ => js "s"
  | .delete => js "d"
  | .append _ => js "a"
  | .truncate _ => js "t"
  | .splice .. => js "p"
  | .move _ => js "m"

/-- What follows the path in the tuple. -/
def Edit.payload : Edit → List Json
  | .set value => [value]
  | .delete => []
  | .append text => [.str text]
  | .truncate count => [.ofNat count]
  | .splice index remove items => [.ofNat index, .ofNat remove, .arr items]
  | .move permutation => [.arr (permutation.map Json.ofNat)]

def Op.tuple : Op → Json
  | .replace value => .arr [.str (js "r"), value]
  | .edit path e => .arr (.str e.verb :: pathJson path :: e.payload)

def assertPathArg (p : Json) (nonEmpty : Bool) : Except DeltaError Path :=
  match p with
  | .arr segments =>
    if nonEmpty && segments.isEmpty then .error (.type "path is empty")
    else assertSafePath segments
  | _ => .error (.type "path is not an array")

/-- The three arguments of `p`, as both grammars check them. -/
def readSplice (i r items : Json) : Except DeltaError Edit :=
  match natOf i with
  | none => .error (.type "p index")
  | some index =>
    match natOf r with
    | none => .error (.type "p remove")
    | some remove =>
      match items with
      | .arr items => .ok (.splice index remove items)
      | _ => .error (.type "p items")

/-- Verb, arity and payload shape of a decoded operation: paths inline, no
short forms. -/
def assertValidOp : Json → Except DeltaError Op
  | .arr (.str verb :: args) =>
    if verb = js "r" then
      match args with
      | [value] => .ok (.replace value)
      | _ => .error (.type "r arity")
    else if verb = js "s" then
      match args with
      | [path, value] => do
        let path ← assertPathArg path true
        .ok (.edit path (.set value))
      | _ => .error (.type "s arity")
    else if verb = js "d" then
      match args with
      | [path] => do
        let path ← assertPathArg path true
        .ok (.edit path .delete)
      | _ => .error (.type "d arity")
    else if verb = js "a" then
      match args with
      | [path, .str text] => do
        let path ← assertPathArg path true
        .ok (.edit path (.append text))
      | _ => .error (.type "a shape")
    else if verb = js "t" then
      match args with
      | [path, count] =>
        match natOf count with
        | some count => do
          let path ← assertPathArg path true
          .ok (.edit path (.truncate count))
        | none => .error (.type "t shape")
      | _ => .error (.type "t shape")
    else if verb = js "p" then
      match args with
      | [path, i, r, items] => do
        let path ← assertPathArg path false
        let e ← readSplice i r items
        .ok (.edit path e)
      | _ => .error (.type "p arity")
    else if verb = js "m" then
      match args with
      | [path, permutation] => do
        let path ← assertPathArg path false
        let permutation ← assertPermutation permutation
        .ok (.edit path (.move permutation))
      | _ => .error (.type "m arity")
    else .error (.unknownVerb (.str verb))
  | .arr (verb :: _) => .error (.unknownVerb verb)
  | _ => .error (.type "op is not a tuple")

theorem assertPathArg_pathJson {path : Path} {nonEmpty : Bool}
    (h : SafePath path) (hne : path = [] → nonEmpty = false) :
    assertPathArg (pathJson path) nonEmpty = .ok path := by
  have hsafe := assertSafePath_toJson h
  unfold assertPathArg pathJson
  cases path with
  | nil => rw [hne rfl]; exact hsafe
  | cons s path => simpa using hsafe

@[simp] theorem readSplice_ofNat (index remove : Nat) (items : List Json) :
    readSplice (.ofNat index) (.ofNat remove) (.arr items) = .ok (.splice index remove items) := by
  simp [readSplice]

/-- **A valid operation passes its own check, and is read as itself.** -/
theorem assertValidOp_tuple {op : Op} (h : op.Valid) : assertValidOp op.tuple = .ok op := by
  cases op with
  | replace value => rfl
  | edit path e =>
    obtain ⟨hsafe, hroot, he⟩ := h
    have hne : e.mayTargetRoot = false → assertPathArg (pathJson path) true = .ok path := by
      intro hm
      refine assertPathArg_pathJson hsafe (fun hp => ?_)
      rw [hroot hp] at hm
      cases hm
    have hany : assertPathArg (pathJson path) false = .ok path :=
      assertPathArg_pathJson hsafe (fun _ => rfl)
    cases e with
    | set value =>
      show (do let path ← assertPathArg (pathJson path) true
               .ok (Op.edit path (.set value))) = _
      rw [hne rfl]
      rfl
    | delete =>
      show (do let path ← assertPathArg (pathJson path) true
               .ok (Op.edit path .delete)) = _
      rw [hne rfl]
      rfl
    | append text =>
      show (do let path ← assertPathArg (pathJson path) true
               .ok (Op.edit path (.append text))) = _
      rw [hne rfl]
      rfl
    | truncate count =>
      show (match natOf (.ofNat count) with
        | some count => do
          let path ← assertPathArg (pathJson path) true
          .ok (Op.edit path (.truncate count))
        | none => .error (.type "t shape")) = _
      rw [natOf_ofNat]
      show (do let path ← assertPathArg (pathJson path) true
               .ok (Op.edit path (.truncate count))) = _
      rw [hne rfl]
      rfl
    | splice index remove items =>
      show (do let path ← assertPathArg (pathJson path) false
               let e ← readSplice (.ofNat index) (.ofNat remove) (.arr items)
               .ok (Op.edit path e)) = _
      rw [hany, readSplice_ofNat]
      rfl
    | move permutation =>
      show (do let path ← assertPathArg (pathJson path) false
               let permutation ← assertPermutation (.arr (permutation.map Json.ofNat))
               .ok (Op.edit path (.move permutation))) = _
      rw [hany, assertPermutation_ofNat he]
      rfl

end ReflectivePi.Delta
