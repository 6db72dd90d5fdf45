import ReflectivePi.Delta.Value

/-!
# Delta — Apply

The applier. It writes in place; a value is a tree, so what is done to the
node a path leads to is seen from the root by rebuilding the way to it. A
walk goes through own properties only.
-/

namespace ReflectivePi.Delta

open InsertionMap (findEntry setEntry)

variable (numberString : Nat → JsString)

/-- The property that a segment names in an object: `String(n)` for a number. -/
def Seg.property : Seg → JsString
  | .key k => k
  | .index n => numberString n

namespace Value

/-- The own property of this value that a segment names. -/
def name (v : Value) (seg : Seg) : Seg :=
  match v with
  | .obj _ => .key (seg.property numberString)
  | _ => seg

/-- `Object.defineProperty` on an array: past the end it leaves holes. -/
def defineItem (items : List Value) (i : Nat) (value : Value) : List Value :=
  if i < items.length then items.set i value
  else items ++ List.replicate (i - items.length) .hole ++ [value]

/-- `Object.defineProperty(parent, key, ...)`. -/
def setOwn (parent : Value) (key : Seg) (value : Value) : Value :=
  match parent, key with
  | .arr items, .index i => .arr (defineItem items i value)
  | .obj fields, key => .obj (setEntry (key.property numberString) value fields)
  | parent, _ => parent

/-- `Array.prototype.splice`. -/
def splice (items : List Value) (start deleteCount : Nat) (inserted : List Value) : List Value :=
  items.take start ++ inserted ++ items.drop (start + deleteCount)

/-- The loop that inserts `chunkSize` items at a time; there are no more chunks than items. -/
def insertChunks : Nat → List Value → Nat → List Value → List Value
  | 0, target, _, _ => target
  | fuel + 1, target, index, items =>
    if items = [] then target
    else insertChunks fuel (splice target index 0 (items.take 10000)) (index + 10000)
      (items.drop 10000)

end Value

/-- One step of `resolveValue`; `path` is the path that an error names. -/
def ownProperty (path : Path) (node : Value) (seg : Seg) : Except DeltaError Value :=
  let found : Except DeltaError Value := match node.own? (node.name numberString seg) with
    | some child => .ok child
    | none => .error (.path path)
  match node with
  | .arr _ =>
    match seg with
    | .key k => .error (.unsafePath (.str k))
    | .index _ => found
  | .obj _ => found
  | _ => .error (.path path)

/-- What is done to the node that a path leads to, seen from the root. -/
def updateAt (path : Path) (write : Value → Except DeltaError Value) :
    Path → Value → Except DeltaError Value
  | [], node => write node
  | seg :: rest, node => do
    let child ← ownProperty numberString path node seg
    let child ← updateAt path write rest child
    .ok (node.setOwn numberString seg child)

/-- The operation at an own property of `parent`. -/
def editOwn (path : Path) (key : Seg) (e : Edit) (parent : Value) : Except DeltaError Value :=
  let write (value : Value) : Except DeltaError Value :=
    .ok (parent.setOwn numberString key value)
  let read : Option Value := parent.own? (parent.name numberString key)
  match e with
  | .set value => write value.toValue
  | .delete =>
    match parent, key with
    | .arr items, .index i =>
      if items.length ≤ i then .error (.path path)
      else .ok (.arr (Value.splice items i 1 []))
    | .obj fields, key =>
      .ok (.obj (fields.filter fun field => decide (field.1 ≠ key.property numberString)))
    | _, _ => .error (.path path)
  | .append text =>
    match read with
    | some (.str current) => write (.str (current ++ text))
    | _ => .error (.path path)
  | .truncate count =>
    match read with
    | some (.str current) => write (.str (current.drop count))
    | _ => .error (.path path)
  -- `p` and `m` are done to the node at the path itself
  | .splice .. => .error (.path path)
  | .move _ => .error (.path path)

/-- `s`, `d`, `a` and `t`, at the node that holds the property. -/
def editProperty (path : Path) (key : Seg) (e : Edit) (parent : Value) : Except DeltaError Value :=
  match parent with
  | .arr items =>
    match key with
    | .key k => .error (.unsafePath (.str k))
    | .index i =>
      -- assertIndexInRange
      if items.length < i then .error (.unsafePath (.ofNat i))
      else editOwn numberString path key e parent
  | .obj _ => editOwn numberString path key e parent
  | _ => .error (.path path.dropLast)

/-- `p` and `m`, at the node itself. -/
def editArray (path : Path) (e : Edit) (target : Value) : Except DeltaError Value :=
  match target, e with
  | .arr items, .splice index remove inserted =>
    let inserted := itemsToValues inserted
    .ok (.arr (Value.insertChunks inserted.length (Value.splice items index remove []) index
      inserted))
  | .arr previous, .move permutation =>
    if previous.length ≠ permutation.length then .error (.path path)
    else .ok (.arr (permutation.map fun i => (previous[i]?).getD .hole))
  | _, _ => .error (.path path)

def applyOp (root : Value) (op : Op) : Except DeltaError Value := do
  match ← assertValidOp op.tuple with
  | .replace value => .ok value.toValue
  | .edit path e =>
    let path ← assertSafePath (path.map Seg.toJson)
    if e.mayTargetRoot then updateAt numberString path (editArray path e) path root
    else
      match path.getLast? with
      | none => .error (.path path)
      | some key =>
        updateAt numberString path.dropLast (editProperty numberString path key e)
          path.dropLast root

def applyOps (root : Value) : List Op → Except DeltaError Value
  | [] => .ok root
  | op :: ops => do
    let root ← applyOp numberString root op
    applyOps root ops

end ReflectivePi.Delta
