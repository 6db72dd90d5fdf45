import ReflectivePi.Config.Settings

/-!
# Config — the settings manager

Managers that share one storage. A setter changes the settings in memory,
marks what it has changed, and queues a write of all that is marked; a write
merges its snapshot into what the file holds when it runs, and on success
nothing counts as modified any more. Others may edit the files in between.
-/

namespace ReflectivePi.Config

open Delta (Json JsString js)
open InsertionMap (setEntry)

inductive SettingsScope where
  | global
  | project
  deriving DecidableEq

/-! ## Setters -/

/-- A field that no migration is about. -/
def isPlain (name : JsString) : Bool :=
  !legacyFields.contains name && !recordFields.contains name

/-- The values of a setting that no migration changes. -/
def isMigrated : Setting → Option Json → Bool
  | .field name, value =>
    if name = js "steeringMode" || name = js "transport" || name = js "enableSkillCommands" then
      value.isSome
    else if name = js "skills" then
      match value with
      | some (.arr _) => true
      | _ => false
    else isPlain name
  | .key record name, _ =>
    recordFields.contains record && name != js "provider" && name != js "maxDelayMs"

/-- What a setter does to the settings of its scope. -/
inductive Change where
  | fields (values : List (JsString × Option Json))
      (hmigrated : values.all (fun value => isMigrated (.field value.1) value.2) = true)
  /-- The record is created where there is none, and with `orFalsy` also where
  what stands there counts as false. -/
  | key (record name : JsString) (value : Json) (orFalsy : Bool)
      (hmigrated : isMigrated (.key record name) (some value) = true)
  | modelThinkingLevel (model : JsString) (level : Json)
  | removeModelThinkingLevel (model : JsString)
  | enableAnalytics (enabled : Bool) (trackingId : JsString)

/-- `!value`, for a value that is there. -/
def isFalsy : Json → Bool
  | .null => true
  | .bool b => !b
  | .num n => n == 0
  | .str units => units.isEmpty
  | _ => false

/-- What `if (!record)`, or `record ??=`, makes a record of. -/
def isReplaced (orFalsy : Bool) : Json → Bool
  | .null => true
  | value => orFalsy && isFalsy value

/-- `record.name = value`, where the record is created as needed; `none` where
that throws. -/
def putKey (settings : Settings) (record name : JsString) (value : Json) (orFalsy : Bool) :
    Option Settings :=
  match settings.get? record with
  | none => some (settings.set record (.obj [(name, value)]))
  | some current =>
    if current.isObj then
      some (settings.set record (.obj (setEntry name value (ownEntries current))))
    else if isReplaced orFalsy current then
      some (settings.set record (.obj [(name, value)]))
    else none

/-- `!this.globalSettings.trackingId` -/
def isUntracked (settings : Settings) : Bool :=
  match settings.get? (js "trackingId") with
  | some current => isFalsy current
  | none => true

/-- The settings after a change, and the settings that it marks; `none` where
nothing is changed. -/
def Change.apply (settings : Settings) : Change → Option (Settings × List Setting)
  | .fields values _ =>
    some (values.foldl (fun settings value => putField settings value.1 value.2) settings,
      values.map fun value => .field value.1)
  | .key record name value orFalsy _ =>
    (putKey settings record name value orFalsy).map fun settings =>
      (settings, [.key record name])
  | .modelThinkingLevel model level =>
    let marks := [.field (js "modelThinkingLevels")]
    match settings.get? (js "modelThinkingLevels") with
    -- a property of an array is not written
    | some (.arr _) => some (settings, marks)
    | _ => (putKey settings (js "modelThinkingLevels") model level true).map fun settings =>
      (settings, marks)
  | .removeModelThinkingLevel model =>
    match settings.get? (js "modelThinkingLevels") with
    | some current =>
      if isFalsy current then none
      else
        let levels := putEntry model none (ownEntries current)
        let value := match levels, current with
          | [], _ => none
          | _, .obj _ => some (.obj levels)
          | _, current => some current
        some (putField settings (js "modelThinkingLevels") value,
          [.field (js "modelThinkingLevels")])
    | none => none
  | .enableAnalytics enabled trackingId =>
    let enabledSettings := settings.set (js "enableAnalytics") (.bool enabled)
    if enabled && isUntracked settings then
      some (enabledSettings.set (js "trackingId") (.str trackingId),
        [.field (js "enableAnalytics"), .field (js "trackingId")])
    else some (enabledSettings, [.field (js "enableAnalytics")])

/-! ## Managers and their files -/

/-- A queued call of `persistScopedSettings`. -/
structure Write where
  scope : SettingsScope
  snapshotSettings : Settings
  modified : Modified
  /-- How many events there were when it was queued. -/
  queuedAt : Nat

inductive Task where
  | write (write : Write)
  /-- What `reload` does once the writes that were queued before are done. -/
  | reload

/-- What a manager knows of one scope. -/
structure ScopeSettings where
  settings : Settings
  modified : Modified := {}
  loadError : Bool := false

structure SettingsManager where
  scopes : SettingsScope → ScopeSettings
  projectTrusted : Bool
  writeQueue : List Task := []

inductive SettingsEvent where
  /-- A manager has loaded a scope, or tried to. -/
  | loaded (manager : Nat) (scope : SettingsScope)
  | set (manager : Nat) (scope : SettingsScope) (setting : Setting) (value : Option Json)
  | wrote (manager : Nat) (scope : SettingsScope) (queuedAt : Nat) (before after : Settings)
  /-- A write has failed; `unmarked` holds of what it carries that is not
  marked as modified any more. -/
  | failed (manager : Nat) (scope : SettingsScope) (unmarked : List Setting)
  | edited (scope : SettingsScope) (before after : Settings)

structure SettingsSystem where
  files : SettingsScope → SettingsFile
  managers : List SettingsManager := []
  /-- The newest is first. -/
  events : List SettingsEvent := []

inductive SettingsStep where
  | create (projectTrusted globalFails projectFails : Bool)
  | setter (manager : Nat) (scope : SettingsScope) (change : Change)
  | setProjectTrusted (manager : Nat) (trusted fails : Bool)
  | reload (manager : Nat)
  /-- The first task of the queue runs; `withLock` may fail. -/
  | runTask (manager : Nat) (fails projectFails : Bool)
  | edit (scope : SettingsScope) (settings : Settings)

/-- `tryLoadFromStorage` -/
def tryLoad (file : SettingsFile) (fails : Bool) : Option Settings :=
  if fails then none else file.load

/-- The scope of a manager that has not loaded it before. -/
def ScopeSettings.ofLoad : Option Settings → ScopeSettings
  | some settings => { settings }
  | none => { settings := .empty, loadError := true }

/-- The scope after a reload, which keeps the settings if it fails. -/
def ScopeSettings.reload (scope : ScopeSettings) : Option Settings → ScopeSettings
  | some settings => { settings }
  | none => { settings := scope.settings, loadError := true }

/-- What a write carries, one setting for each field or key. -/
def Modified.settings (modified : Modified) : List Setting :=
  modified.fields.flatMap fun field =>
    match modified.nestedFields field with
    | [] => [.field field]
    | keys => keys.map (.key field)

namespace SettingsManager

def setScope (m : SettingsManager) (scope : SettingsScope) (value : ScopeSettings) :
    SettingsManager :=
  { m with scopes := Function.update m.scopes scope value }

/-- Project settings are not touched while the project is not trusted. -/
def mayWrite (m : SettingsManager) : SettingsScope → Bool
  | .global => true
  | .project => m.projectTrusted

/-- A setter, with `save` or `saveProjectSettings`. -/
def set (m : SettingsManager) (scope : SettingsScope) (settings : Settings)
    (marks : List Setting) (queuedAt : Nat) : SettingsManager :=
  let modified := marks.foldl Modified.markSetting (m.scopes scope).modified
  let m := m.setScope scope { m.scopes scope with settings, modified }
  if (m.scopes scope).loadError then m
  else { m with
    writeQueue := m.writeQueue ++
      [.write { scope, snapshotSettings := settings, modified, queuedAt }] }

def loadProject (m : SettingsManager) (file : SettingsFile) (fails : Bool) : Option Settings :=
  if m.projectTrusted then tryLoad file fails else some .empty

end SettingsManager

namespace SettingsSystem

def setManager (s : SettingsSystem) (id : Nat) (m : SettingsManager) : SettingsSystem :=
  { s with managers := s.managers.set id m }

def log (s : SettingsSystem) (events : List SettingsEvent) : SettingsSystem :=
  { s with events := events ++ s.events }

def setFile (s : SettingsSystem) (scope : SettingsScope) (settings : Settings) : SettingsSystem :=
  { s with files := Function.update s.files scope (.holding settings) }

/-- `enqueueWrite`'s task. -/
def runWrite (s : SettingsSystem) (id : Nat) (m : SettingsManager) (write : Write)
    (fails : Bool) : SettingsSystem :=
  let file := s.files write.scope
  match m.mayWrite write.scope && !fails, file.load with
  | true, some currentFileSettings =>
    let merged := mergeSettings currentFileSettings write.snapshotSettings write.modified
    let m := m.setScope write.scope { m.scopes write.scope with modified := {} }
    ((s.setManager id m).setFile write.scope merged).log
      [.wrote id write.scope write.queuedAt file.settings merged]
  | _, _ =>
    (s.setManager id m).log [.failed id write.scope (write.modified.settings.filter fun x =>
        !decide ((m.scopes write.scope).modified.Contains x))]

/-- `reload`, after the queue. -/
def runReload (s : SettingsSystem) (id : Nat) (m : SettingsManager) (fails projectFails : Bool) :
    SettingsSystem :=
  let globalLoad := tryLoad (s.files .global) fails
  let projectLoad := m.loadProject (s.files .project) projectFails
  let m := m.setScope .global ((m.scopes .global).reload globalLoad)
  let m := m.setScope .project ((m.scopes .project).reload projectLoad)
  (s.setManager id m).log [.loaded id .project, .loaded id .global]

def step (s : SettingsSystem) (label : SettingsStep) : Option SettingsSystem :=
  match label with
  | .create projectTrusted globalFails projectFails =>
    let id := s.managers.length
    let m : SettingsManager :=
      { scopes := fun
          | .global => .ofLoad (tryLoad (s.files .global) globalFails)
          | .project => .ofLoad
              (if projectTrusted then tryLoad (s.files .project) projectFails else some .empty)
        projectTrusted }
    some ({ s with managers := s.managers ++ [m] }.log
      [.loaded id .project, .loaded id .global])
  | .setter id scope change =>
    s.managers[id]?.bind fun m =>
      if m.mayWrite scope then
        (change.apply (m.scopes scope).settings).map fun (settings, marks) =>
          (s.setManager id (m.set scope settings marks (s.events.length + marks.length))).log
            (marks.map fun x => .set id scope x (x.get settings))
      else none
  | .setProjectTrusted id trusted fails =>
    s.managers[id]?.bind fun m =>
      if m.projectTrusted = trusted then some s
      else
        let m := { m with projectTrusted := trusted }
        let m := m.setScope .project (.ofLoad (m.loadProject (s.files .project) fails))
        some ((s.setManager id m).log [.loaded id .project])
  | .reload id =>
    s.managers[id]?.map fun m =>
      s.setManager id { m with writeQueue := m.writeQueue ++ [.reload] }
  | .runTask id fails projectFails =>
    s.managers[id]?.bind fun m =>
      match m.writeQueue with
      | [] => none
      | .write write :: writeQueue => some (s.runWrite id { m with writeQueue } write fails)
      | .reload :: writeQueue =>
        some (s.runReload id { m with writeQueue } fails projectFails)
  | .edit scope settings =>
    some ((s.setFile scope settings).log
      [.edited scope (s.files scope).settings settings])

end SettingsSystem

end ReflectivePi.Config
