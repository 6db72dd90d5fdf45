import ReflectivePi.Delta.Json

/-!
# Requests — OpenAPI schema

The parameters of a tool as an OpenAPI schema, without the declarations about
the JSON schema itself. The code strips them by the name of a key alone; what a
key means depends on where it stands.
-/

namespace ReflectivePi.Requests.OpenApiSchema

open Delta (JsString js Json)

def jsonSchemaMetaDeclarations : List JsString :=
  ["$schema", "$id", "$anchor", "$dynamicAnchor", "$vocabulary", "$comment", "$defs",
    "definitions"].map js

def isMeta (key : JsString) : Prop := key ∈ jsonSchemaMetaDeclarations

theorem lawfulBEq_key : LawfulBEq JsString := inferInstance

instance (key : JsString) : Decidable (isMeta key) :=
  @List.instDecidableMemOfLawfulBEq JsString _ lawfulBEq_key key _

/-- `result["__proto__"] = value` adds no property. -/
def Lost (key : JsString) : Prop := isMeta key ∨ key = js "__proto__"

instance (key : JsString) : Decidable (Lost key) := inferInstanceAs (Decidable (_ ∨ _))

mutual

def sanitizeForOpenApi : Json → Json
  | .obj fields => .obj (sanitizeFields fields)
  | schema => schema

def sanitizeFields : List (JsString × Json) → List (JsString × Json)
  | [] => []
  | (key, value) :: fields =>
    if Lost key then sanitizeFields fields
    else (key, sanitizeForOpenApi value) :: sanitizeFields fields

end

/-- `parameters` is what `getJsonSchemaToolParameters` gives. -/
structure Tool where
  name : JsString
  description : JsString
  parameters : Json

/-- The declarations with `useParameters`. -/
def convertTools (tools : List Tool) : Option (List Tool) :=
  if tools.isEmpty then none
  else some (tools.map fun tool =>
    { tool with parameters := sanitizeForOpenApi tool.parameters })

/-! ## Where a value stands -/

/-- A list at the place of a schema is a list of schemas. -/
inductive Position where
  | schema
  | properties
  | data
  deriving DecidableEq

/-- The value is a schema, or a list of schemas. -/
def LeadsToSchema (key : JsString) : Prop :=
  key ∈ ["items", "additionalProperties", "allOf", "anyOf", "oneOf", "not"].map js

instance (key : JsString) : Decidable (LeadsToSchema key) :=
  @List.instDecidableMemOfLawfulBEq JsString _ lawfulBEq_key key _

def Position.field : Position → JsString → Position
  | .schema, key =>
    if key = js "properties" then .properties
    else if LeadsToSchema key then .schema
    else .data
  | .properties, _ => .schema
  | .data, _ => .data

def Position.item : Position → Position
  | .schema => .schema
  | _ => .data

/-- A keyword of a schema, and one that is about the schema itself. -/
def Position.Declares (position : Position) (key : JsString) : Prop :=
  position = .schema ∧ isMeta key

instance (position : Position) (key : JsString) : Decidable (position.Declares key) :=
  inferInstanceAs (Decidable (_ ∧ _))

mutual

/-- The schema without its meta declarations, and with all that is not one. -/
def withoutMeta (position : Position) : Json → Json
  | .arr items => .arr (itemsWithoutMeta position.item items)
  | .obj fields => .obj (fieldsWithoutMeta position fields)
  | schema => schema

def itemsWithoutMeta (position : Position) : List Json → List Json
  | [] => []
  | item :: items => withoutMeta position item :: itemsWithoutMeta position items

def fieldsWithoutMeta (position : Position) : List (JsString × Json) → List (JsString × Json)
  | [] => []
  | (key, value) :: fields =>
    if position.Declares key then fieldsWithoutMeta position fields
    else (key, withoutMeta (position.field key) value) :: fieldsWithoutMeta position fields

end

mutual

/-- No meta declaration at the place of a schema. -/
def Clean (position : Position) : Json → Prop
  | .arr items => ItemsClean position.item items
  | .obj fields => FieldsClean position fields
  | _ => True

def ItemsClean (position : Position) : List Json → Prop
  | [] => True
  | item :: items => Clean position item ∧ ItemsClean position items

def FieldsClean (position : Position) : List (JsString × Json) → Prop
  | [] => True
  | (key, value) :: fields =>
    ¬ position.Declares key ∧ Clean (position.field key) value ∧ FieldsClean position fields

end

mutual

/-- A list is clean, and no name that would be lost is one of a property or in
data. -/
def Fine (position : Position) : Json → Prop
  | .arr items => Clean position (.arr items)
  | .obj fields => FieldsFine position fields
  | _ => True

def FieldsFine (position : Position) : List (JsString × Json) → Prop
  | [] => True
  | (key, value) :: fields =>
    (position.Declares key ∨ ¬ Lost key ∧ Fine (position.field key) value) ∧
      FieldsFine position fields

end

mutual

theorem withoutMeta_clean : {position : Position} → (schema : Json) →
    Clean position (withoutMeta position schema)
  | _, .arr items => itemsWithoutMeta_clean items
  | _, .obj fields => fieldsWithoutMeta_clean fields
  | _, .null | _, .bool _ | _, .num _ | _, .str _ => trivial

theorem itemsWithoutMeta_clean {position : Position} :
    (items : List Json) → ItemsClean position (itemsWithoutMeta position items)
  | [] => trivial
  | item :: items => ⟨withoutMeta_clean item, itemsWithoutMeta_clean items⟩

theorem fieldsWithoutMeta_clean {position : Position} : (fields : List (JsString × Json)) →
    FieldsClean position (fieldsWithoutMeta position fields)
  | [] => trivial
  | (key, value) :: fields => by
    unfold fieldsWithoutMeta
    split
    · exact fieldsWithoutMeta_clean fields
    · next h => exact ⟨h, withoutMeta_clean value, fieldsWithoutMeta_clean fields⟩

end

variable {position : Position}

theorem length_fieldsWithoutMeta_le (fields : List (JsString × Json)) :
    (fieldsWithoutMeta position fields).length ≤ fields.length := by
  induction fields with
  | nil => exact le_rfl
  | cons field fields ih =>
    unfold fieldsWithoutMeta
    split <;> simp only [List.length_cons] <;> omega

theorem length_sanitizeFields_le (fields : List (JsString × Json)) :
    (sanitizeFields fields).length ≤ (fieldsWithoutMeta position fields).length := by
  induction fields with
  | nil => exact le_rfl
  | cons field fields ih =>
    unfold sanitizeFields fieldsWithoutMeta
    split_ifs with hlost hdeclares hdeclares
    · exact ih
    · exact ih.trans (Nat.le_succ _)
    · exact absurd (.inl hdeclares.2) hlost
    · exact Nat.succ_le_succ ih

mutual

theorem withoutMeta_eq_iff : {position : Position} → (schema : Json) →
    (withoutMeta position schema = schema ↔ Clean position schema)
  | _, .arr items => by
    rw [withoutMeta, Clean, Json.arr.injEq, itemsWithoutMeta_eq_iff items]
  | _, .obj fields => by
    rw [withoutMeta, Clean, Json.obj.injEq, fieldsWithoutMeta_eq_iff fields]
  | _, .null | _, .bool _ | _, .num _ | _, .str _ => iff_of_true rfl trivial

theorem itemsWithoutMeta_eq_iff {position : Position} : (items : List Json) →
    (itemsWithoutMeta position items = items ↔ ItemsClean position items)
  | [] => iff_of_true rfl trivial
  | item :: items => by
    rw [itemsWithoutMeta, ItemsClean, List.cons.injEq, withoutMeta_eq_iff item,
      itemsWithoutMeta_eq_iff items]

theorem fieldsWithoutMeta_eq_iff {position : Position} : (fields : List (JsString × Json)) →
    (fieldsWithoutMeta position fields = fields ↔ FieldsClean position fields)
  | [] => iff_of_true rfl trivial
  | (key, value) :: fields => by
    unfold fieldsWithoutMeta FieldsClean
    split
    · next h =>
      refine iff_of_false (fun heq => ?_) (fun hclean => hclean.1 h)
      have hle := @length_fieldsWithoutMeta_le position fields
      rw [heq] at hle
      exact absurd hle (Nat.not_succ_le_self _)
    · next h =>
      simp [h, withoutMeta_eq_iff value, fieldsWithoutMeta_eq_iff fields]

end

mutual

theorem sanitizeForOpenApi_eq_iff : {position : Position} → (schema : Json) →
    (sanitizeForOpenApi schema = withoutMeta position schema ↔ Fine position schema)
  | _, .arr items => eq_comm.trans (withoutMeta_eq_iff (.arr items))
  | _, .obj fields => by
    rw [sanitizeForOpenApi, withoutMeta, Fine, Json.obj.injEq, sanitizeFields_eq_iff fields]
  | _, .null | _, .bool _ | _, .num _ | _, .str _ => iff_of_true rfl trivial

theorem sanitizeFields_eq_iff {position : Position} : (fields : List (JsString × Json)) →
    (sanitizeFields fields = fieldsWithoutMeta position fields ↔ FieldsFine position fields)
  | [] => iff_of_true rfl trivial
  | (key, value) :: fields => by
    have ih := @sanitizeFields_eq_iff position fields
    unfold sanitizeFields fieldsWithoutMeta FieldsFine
    split_ifs with hlost hdeclares hdeclares
    · simp [hdeclares, ih]
    · refine iff_of_false (fun heq => ?_) (by simp [hlost, hdeclares])
      have hle := @length_sanitizeFields_le position fields
      rw [heq] at hle
      exact absurd hle (Nat.not_succ_le_self _)
    · exact absurd (.inl hdeclares.2) hlost
    · simp [hlost, hdeclares, ih, sanitizeForOpenApi_eq_iff value]

end

end ReflectivePi.Requests.OpenApiSchema
