import ReflectivePi.Delta.Op

/-!
# Delta — Value

The values that operations are applied to. They lie in memory, so an array
can have holes, which no JSON value has; `Dense` says that there are none.
A place is a chain of own properties; what two values have at a place is
compared by `node`.
-/

namespace ReflectivePi.Delta

open List
open InsertionMap (findEntry)

/-- A value in memory. The properties of an object are in no order. -/
inductive Value where
  /-- `undefined`, or the hole of an array -/
  | hole
  | null
  | bool (b : Bool)
  | num (n : ℚ)
  | str (s : JsString)
  | arr (items : List Value)
  | obj (fields : List (JsString × Value))

mutual

/-- A JSON value as `JSON.parse` builds it. -/
def Json.toValue : Json → Value
  | .null => .null
  | .bool b => .bool b
  | .num n => .num n
  | .str s => .str s
  | .arr items => .arr (itemsToValues items)
  | .obj fields => .obj (fieldsToValues fields)

def itemsToValues : List Json → List Value
  | [] => []
  | item :: items => item.toValue :: itemsToValues items

def fieldsToValues : List (JsString × Json) → List (JsString × Value)
  | [] => []
  | (key, value) :: fields => (key, value.toValue) :: fieldsToValues fields

end

namespace Value

mutual

/-- A JSON value: no hole, and no property twice. -/
def Dense : Value → Prop
  | .hole => False
  | .arr items => ItemsDense items
  | .obj fields => (fields.map Prod.fst).Nodup ∧ FieldsDense fields
  | _ => True

def ItemsDense : List Value → Prop
  | [] => True
  | item :: items => item.Dense ∧ ItemsDense items

def FieldsDense : List (JsString × Value) → Prop
  | [] => True
  | (_, value) :: fields => value.Dense ∧ FieldsDense fields

end

theorem itemsDense_iff {items : List Value} : ItemsDense items ↔ ∀ item ∈ items, item.Dense := by
  induction items with
  | nil => simp [ItemsDense]
  | cons item items ih => simp [ItemsDense, ih]

theorem fieldsDense_iff {fields : List (JsString × Value)} :
    FieldsDense fields ↔ ∀ field ∈ fields, field.2.Dense := by
  induction fields with
  | nil => simp [FieldsDense]
  | cons field fields ih => simp [FieldsDense, ih]

theorem dense_arr {items : List Value} : (Value.arr items).Dense ↔ ∀ item ∈ items, item.Dense := by
  rw [Dense, itemsDense_iff]

theorem dense_obj {fields : List (JsString × Value)} :
    (Value.obj fields).Dense ↔ (fields.map Prod.fst).Nodup ∧ ∀ field ∈ fields, field.2.Dense := by
  rw [Dense, fieldsDense_iff]

end Value

mutual

theorem Json.dense_toValue : {json : Json} → json.WellFormed → json.toValue.Dense
  | .null, _ => by rw [Json.toValue]; trivial
  | .bool _, _ => by rw [Json.toValue]; trivial
  | .num _, _ => by rw [Json.toValue]; trivial
  | .str _, _ => by rw [Json.toValue]; trivial
  | .arr items, h => by
    rw [Json.toValue, Value.dense_arr]
    exact itemsDense_toValues (by rwa [Json.WellFormed] at h)
  | .obj fields, h => by
    rw [Json.WellFormed] at h
    rw [Json.toValue, Value.dense_obj]
    exact fieldsDense_toValues h.1 h.2

theorem itemsDense_toValues : {items : List Json} → Json.ItemsWellFormed items →
    ∀ item ∈ itemsToValues items, item.Dense
  | [], _ => by simp [itemsToValues]
  | item :: items, h => by
    rw [Json.ItemsWellFormed] at h
    rw [itemsToValues]
    exact List.forall_mem_cons.mpr ⟨Json.dense_toValue h.1, itemsDense_toValues h.2⟩

theorem fieldsDense_toValues : {fields : List (JsString × Json)} →
    (fields.map Prod.fst).Nodup → Json.FieldsWellFormed fields →
    ((fieldsToValues fields).map Prod.fst).Nodup ∧ ∀ field ∈ fieldsToValues fields, field.2.Dense
  | [], _, _ => by simp [fieldsToValues]
  | (key, value) :: fields, hnodup, h => by
    rw [Json.FieldsWellFormed] at h
    obtain ⟨hfresh, hnodup⟩ := List.nodup_cons.mp hnodup
    obtain ⟨hkeys, hdense⟩ := fieldsDense_toValues hnodup h.2
    rw [fieldsToValues]
    refine ⟨List.nodup_cons.mpr ⟨?_, hkeys⟩,
      List.forall_mem_cons.mpr ⟨Json.dense_toValue h.1, hdense⟩⟩
    rwa [keys_fieldsToValues]

theorem keys_fieldsToValues : (fields : List (JsString × Json)) →
    (fieldsToValues fields).map Prod.fst = fields.map Prod.fst
  | [] => by rw [fieldsToValues]; rfl
  | (key, value) :: fields => by
    rw [fieldsToValues, map_cons, map_cons, keys_fieldsToValues fields]

end

/-! ## Places -/

/-- An own property as a step: elements of an array are indices, properties of an object keys. -/
abbrev Place := List Seg

namespace Value

/-- What a value is itself, without its properties. -/
inductive Node where
  | hole
  | null
  | bool (b : Bool)
  | num (n : ℚ)
  | str (s : JsString)
  | arr
  | obj
  deriving DecidableEq

def node : Value → Node
  | .hole => .hole
  | .null => .null
  | .bool b => .bool b
  | .num n => .num n
  | .str s => .str s
  | .arr _ => .arr
  | .obj _ => .obj

/-- An own property. -/
def own? : Value → Seg → Option Value
  | .arr items, .index i => items[i]?.filter fun item => item.node ≠ .hole
  | .obj fields, .key k => findEntry k fields
  | _, _ => none

def at? (v : Value) : Place → Option Value
  | [] => some v
  | s :: place => (v.own? s).bind (·.at? place)

/-- What is found at a place. -/
def nodeAt (v : Value) (place : Place) : Option Node := (v.at? place).map node

@[simp] theorem nodeAt_nil (v : Value) : v.nodeAt [] = some v.node := rfl

theorem nodeAt_cons (v : Value) (s : Seg) (place : Place) :
    v.nodeAt (s :: place) = (v.own? s).bind (·.nodeAt place) := by
  rw [nodeAt, at?, Option.map_bind]
  rfl

theorem node_ne_hole {v : Value} (h : v.Dense) : v.node ≠ .hole := by
  cases v with
  | hole => cases h
  | _ =>
    intro hnode
    cases hnode

theorem own?_arr {items : List Value} (h : (Value.arr items).Dense) (i : Nat) :
    (Value.arr items).own? (.index i) = items[i]? := by
  rw [own?]
  cases hi : items[i]? with
  | none => rfl
  | some item =>
    have hitem := dense_arr.mp h item (mem_of_getElem? hi)
    rw [Option.filter_some, if_pos (by simpa using node_ne_hole hitem)]

theorem Dense.of_own? {v child : Value} (h : v.Dense) {s : Seg} (hown : v.own? s = some child) :
    child.Dense := by
  cases v with
  | arr items =>
    cases s with
    | index i =>
      rw [own?_arr h] at hown
      exact dense_arr.mp h child (mem_of_getElem? hown)
    | key k => cases hown
  | obj fields =>
    cases s with
    | index i => cases hown
    | key k => exact (dense_obj.mp h).2 (k, child) (InsertionMap.mem_of_findEntry hown)
  | _ => cases hown

end Value

end ReflectivePi.Delta
