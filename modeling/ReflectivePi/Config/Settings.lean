import ReflectivePi.Delta.Json

/-!
# Config — settings and their files

The settings of one file, the migration of old formats, and how a write merges
the fields that were modified into what the file holds by then.
-/

namespace ReflectivePi.Config

open List
open Delta (Json JsString js natString)
open InsertionMap (findEntry setEntry)

/-- The settings of a file or of a manager, by field. -/
abbrev Settings := InsertionMap JsString Json

/-- The own enumerable properties, which is what `{ ...value }` copies. -/
def ownEntries : Json → List (JsString × Json)
  | .obj fields => fields
  | .arr items => items.mapIdx fun i item => (natString i, item)
  | .str units => units.mapIdx fun i unit => (natString i, .str [unit])
  | _ => []

/-- `record[key] = value`; `JSON.stringify` leaves out what is undefined. -/
def putEntry (key : JsString) (value : Option Json) (entries : List (JsString × Json)) :
    List (JsString × Json) :=
  match value with
  | some value => setEntry key value entries
  | none => entries.filter fun entry => decide (entry.1 ≠ key)

def putField (settings : Settings) (field : JsString) (value : Option Json) : Settings :=
  match value with
  | some value => settings.set field value
  | none => settings.delete field

theorem findEntry_putEntry (key x : JsString) (value : Option Json)
    (entries : List (JsString × Json)) :
    findEntry x (putEntry key value entries) = if key = x then value else findEntry x entries := by
  cases value with
  | some value => exact InsertionMap.findEntry_setEntry key x value entries
  | none => exact InsertionMap.findEntry_filter_ne key x entries

@[simp] theorem get?_putField (settings : Settings) (field x : JsString) (value : Option Json) :
    (putField settings field value).get? x = if field = x then value else settings.get? x := by
  cases value with
  | some value => exact InsertionMap.get?_set settings field x value
  | none => exact InsertionMap.get?_delete settings field x

/-! ## What a setting is -/

/-- The fields whose keys are settings of their own. -/
def recordFields : List JsString :=
  [js "compaction", js "retry", js "terminal", js "images", js "markdown"]

/-- A top-level field, or a key of a record. -/
inductive Setting where
  | field (name : JsString)
  | key (record name : JsString)
  deriving DecidableEq

namespace Setting

/-- The field that a setting is in. -/
def fieldName : Setting → JsString
  | .field name => name
  | .key record _ => record

/-- Records are settings by their keys, other fields as a whole. -/
def Proper : Setting → Prop
  | .field name => name ∉ recordFields
  | .key record _ => record ∈ recordFields

instance decidableProper (x : Setting) : Decidable x.Proper :=
  match x with
  | .field name => inferInstanceAs (Decidable (name ∉ recordFields))
  | .key record _ => inferInstanceAs (Decidable (record ∈ recordFields))

def get (settings : Settings) : Setting → Option Json
  | .field name => settings.get? name
  | .key record name => (settings.get? record).bind fun value => findEntry name (ownEntries value)

end Setting

/-! ## Migration -/

/-- `queueMode` becomes `steeringMode`. -/
def migrateQueueMode (settings : Settings) : Settings :=
  if settings.has (js "queueMode") && !settings.has (js "steeringMode") then
    (putField settings (js "steeringMode") (settings.get? (js "queueMode"))).delete (js "queueMode")
  else settings

/-- A boolean `websockets` becomes a `transport`. -/
def migrateWebsockets (settings : Settings) : Settings :=
  match settings.has (js "transport"), settings.get? (js "websockets") with
  | false, some (.bool websockets) =>
    (settings.set (js "transport")
      (.str (if websockets then js "websocket" else js "sse"))).delete (js "websockets")
  | _, _ => settings

/-- An object `skills` becomes the list of its directories. -/
def migrateSkills (settings : Settings) : Settings :=
  match settings.get? (js "skills") with
  | some (.obj skills) =>
    let settings := if settings.has (js "enableSkillCommands") then settings
      else putField settings (js "enableSkillCommands")
        (findEntry (js "enableSkillCommands") skills)
    match findEntry (js "customDirectories") skills with
    | some (.arr (directory :: directories)) =>
      settings.set (js "skills") (.arr (directory :: directories))
    | _ => settings.delete (js "skills")
  | _ => settings

def isNumber : Option Json → Bool
  | some (.num _) => true
  | _ => false

def isNullish : Option Json → Bool
  | none | some .null => true
  | _ => false

/-- `retry.maxDelayMs` becomes `retry.provider.maxRetryDelayMs`. -/
def migrateRetry (settings : Settings) : Settings :=
  match settings.get? (js "retry") with
  | some (.obj retry) =>
    let provider := match findEntry (js "provider") retry with
      | some value => if value.isObj then ownEntries value else []
      | none => []
    let maxDelayMs := findEntry (js "maxDelayMs") retry
    let migrated :=
      if isNumber maxDelayMs && isNullish (findEntry (js "maxRetryDelayMs") provider) then
        setEntry (js "provider") (.obj (putEntry (js "maxRetryDelayMs") maxDelayMs provider)) retry
      else retry
    settings.set (js "retry") (.obj (putEntry (js "maxDelayMs") none migrated))
  | _ => settings

def migrateSettings (settings : Settings) : Settings :=
  migrateRetry (migrateSkills (migrateWebsockets (migrateQueueMode settings)))

/-- What migration reads or writes. -/
def legacyFields : List JsString :=
  [js "queueMode", js "steeringMode", js "websockets", js "transport", js "skills",
    js "enableSkillCommands", js "retry"]

inductive SettingsFile where
  /-- There is no file, or an empty one. -/
  | missing
  /-- It cannot be parsed, or is no object. -/
  | invalid
  | holding (settings : Settings)

/-- What the file says, for those that look at single settings. -/
def SettingsFile.settings : SettingsFile → Settings
  | .holding settings => settings
  | _ => .empty

/-- Parsed and migrated; `none` where that throws. -/
def SettingsFile.load : SettingsFile → Option Settings
  | .missing => some .empty
  | .invalid => none
  | .holding settings => some (migrateSettings settings)

/-! ## Merging a snapshot -/

/-- Fields that were modified, and the keys in them that were. -/
structure Modified where
  fields : List JsString := []
  nestedFields : JsString → List JsString := fun _ => []

namespace Modified

def insert (l : List JsString) (name : JsString) : List JsString :=
  if l.contains name then l else l ++ [name]

/-- `markModified`, `markProjectModified` -/
def mark (modified : Modified) (field : JsString) (nestedKey : Option JsString) : Modified where
  fields := insert modified.fields field
  nestedFields := match nestedKey with
    | some key => fun name =>
      if name = field then insert (modified.nestedFields field) key
      else modified.nestedFields name
    | none => modified.nestedFields

def markSetting (modified : Modified) : Setting → Modified
  | .field name => modified.mark name none
  | .key record name => modified.mark record (some name)

def Contains (modified : Modified) : Setting → Prop
  | .field name => name ∈ modified.fields
  | .key record name => record ∈ modified.fields ∧ name ∈ modified.nestedFields record

instance decidableContains (modified : Modified) (x : Setting) : Decidable (modified.Contains x) :=
  match x with
  | .field name => inferInstanceAs (Decidable (name ∈ modified.fields))
  | .key record name => inferInstanceAs
      (Decidable (record ∈ modified.fields ∧ name ∈ modified.nestedFields record))

end Modified

/-- `mergedNested[nestedKey] = inMemoryNested[nestedKey]`, for all keys. -/
def mergeKeys (inMemoryNested : List (JsString × Json)) (nestedModified : List JsString)
    (baseNested : List (JsString × Json)) : List (JsString × Json) :=
  nestedModified.foldl
    (fun merged key => putEntry key (findEntry key inMemoryNested) merged) baseNested

/-- What becomes of one modified field. -/
def mergeField (currentFileSettings snapshotSettings : Settings) (modified : Modified)
    (field : JsString) : Option Json :=
  match snapshotSettings.get? field, modified.nestedFields field with
  | some value, key :: keys =>
    if value.isObj then
      let baseNested := match currentFileSettings.get? field with
        | some base => ownEntries base
        | none => []
      some (.obj (mergeKeys (ownEntries value) (key :: keys) baseNested))
    else some value
  | value, _ => value

/-- `persistScopedSettings`, on what has been parsed. -/
def mergeSettings (currentFileSettings snapshotSettings : Settings) (modified : Modified) :
    Settings :=
  modified.fields.foldl (fun merged field =>
      putField merged field (mergeField currentFileSettings snapshotSettings modified field))
    currentFileSettings

theorem findEntry_mergeKeys (inMemory base : List (JsString × Json)) (keys : List JsString)
    (x : JsString) :
    findEntry x (mergeKeys inMemory keys base) =
      if x ∈ keys then findEntry x inMemory else findEntry x base := by
  induction keys generalizing base with
  | nil => rfl
  | cons key keys ih =>
    show findEntry x (mergeKeys inMemory keys (putEntry key (findEntry key inMemory) base)) = _
    rw [ih, findEntry_putEntry]
    by_cases hx : x ∈ keys
    · rw [if_pos hx, if_pos (mem_cons_of_mem _ hx)]
    · by_cases hkey : key = x
      · subst hkey
        simp
      · rw [if_neg hx, if_neg hkey, if_neg]
        intro hmem
        rcases List.mem_cons.mp hmem with heq | hmem
        · exact hkey heq.symm
        · exact hx hmem

theorem get?_foldl_putField (value : JsString → Option Json) (fields : List JsString)
    (settings : Settings) (x : JsString) :
    (fields.foldl (fun merged field => putField merged field (value field)) settings).get? x =
      if x ∈ fields then value x else settings.get? x := by
  induction fields generalizing settings with
  | nil => rfl
  | cons field fields ih =>
    rw [foldl_cons, ih, get?_putField]
    by_cases hx : x ∈ fields
    · rw [if_pos hx, if_pos (mem_cons_of_mem _ hx)]
    · by_cases hfield : field = x
      · subst hfield
        simp
      · rw [if_neg hx, if_neg hfield, if_neg]
        intro hmem
        rcases List.mem_cons.mp hmem with heq | hmem
        · exact hfield heq.symm
        · exact hx hmem

theorem get?_mergeSettings (current snapshot : Settings) (modified : Modified) (x : JsString) :
    (mergeSettings current snapshot modified).get? x =
      if x ∈ modified.fields then mergeField current snapshot modified x else current.get? x :=
  get?_foldl_putField (mergeField current snapshot modified) modified.fields current x

/-- Modified records are records of the snapshot that have modified keys, and
no other field has any. -/
structure Modified.Sound (modified : Modified) (snapshot : Settings) : Prop where
  record : ∀ field ∈ modified.fields, field ∈ recordFields →
    modified.nestedFields field ≠ [] ∧ ∃ fields, snapshot.get? field = some (.obj fields)
  plain : ∀ field, field ∉ recordFields → modified.nestedFields field = []
  listed : ∀ field, modified.nestedFields field ≠ [] → field ∈ modified.fields

/-- **A merge sets the settings that were modified, and no others.** -/
theorem get_mergeSettings {modified : Modified} {snapshot : Settings}
    (h : modified.Sound snapshot) (current : Settings) {x : Setting} (hx : x.Proper) :
    x.get (mergeSettings current snapshot modified) =
      if modified.Contains x then x.get snapshot else x.get current := by
  cases x with
  | field name =>
    show (mergeSettings current snapshot modified).get? name = _
    rw [get?_mergeSettings]
    by_cases hmem : name ∈ modified.fields
    · have hc : modified.Contains (.field name) := hmem
      rw [if_pos hmem, if_pos hc, mergeField, h.plain name hx]
      show _ = snapshot.get? name
      simp
    · have hc : ¬ modified.Contains (.field name) := hmem
      rw [if_neg hmem, if_neg hc]
      rfl
  | key record name =>
    show ((mergeSettings current snapshot modified).get? record).bind _ = _
    rw [get?_mergeSettings]
    by_cases hmem : record ∈ modified.fields
    · obtain ⟨hkeys, fields, hfields⟩ := h.record record hmem hx
      obtain ⟨key, keys, heq⟩ := exists_cons_of_ne_nil hkeys
      have hmerged : mergeField current snapshot modified record =
          some (.obj (mergeKeys fields (modified.nestedFields record)
            (match current.get? record with
              | some base => ownEntries base
              | none => []))) := by
        rw [mergeField, hfields, heq]
        rfl
      rw [if_pos hmem, hmerged]
      show findEntry name (mergeKeys fields (modified.nestedFields record) _) = _
      rw [findEntry_mergeKeys]
      by_cases hname : name ∈ modified.nestedFields record
      · rw [if_pos hname, if_pos ⟨hmem, hname⟩, Setting.get, hfields]
        rfl
      · rw [if_neg hname, if_neg fun hc => hname hc.2, Setting.get]
        cases current.get? record <;> rfl
    · rw [if_neg hmem, if_neg fun hc => hmem hc.1]
      rfl

end ReflectivePi.Config
