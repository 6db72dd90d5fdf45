import ReflectivePi.Config.SettingsManager
import Mathlib.Algebra.Order.Ring.Unbundled.Rat

/-!
# Config — the setters

What each setter of the settings manager changes. `setProjectPackages` and its
siblings are the setters of the same fields, called with the project scope.
-/

namespace ReflectivePi.Config

open Delta (Json JsString js)

theorem isMigrated_of_isPlain {name : JsString} (h : isPlain name = true)
    (value : Option Json) : isMigrated (.field name) value = true := by
  have hne : ∀ other ∈ legacyFields, name ≠ other := by
    rintro other hmem rfl
    rw [isPlain, Bool.and_eq_true, Bool.not_eq_true', List.contains_eq_mem,
      decide_eq_false_iff_not] at h
    exact h.1 hmem
  have hspecial : (name = js "steeringMode" || name = js "transport" ||
      name = js "enableSkillCommands") = false := by
    rw [decide_eq_false (hne _ (by decide)), decide_eq_false (hne _ (by decide)),
      decide_eq_false (hne _ (by decide))]
    rfl
  dsimp only [isMigrated]
  rw [hspecial, if_neg (by decide), if_neg (hne _ (by decide))]
  exact h

/-- A setter of one field. -/
def setField (name : JsString) (value : Option Json)
    (hplain : isPlain name = true := by decide +kernel) : Change :=
  .fields [(name, value)] (by rw [List.all_cons, isMigrated_of_isPlain hplain]; rfl)

/-- A setter of a key in a record. -/
def setKey (record name : JsString) (value : Json) (orFalsy : Bool)
    (hmigrated : isMigrated (.key record name) (some value) = true := by rfl) : Change :=
  .key record name value orFalsy hmigrated

def setLastChangelogVersion (version : JsString) : Change := setField (js "lastChangelogVersion") (some (.str version))

def setDefaultProvider (provider : JsString) : Change := setField (js "defaultProvider") (some (.str provider))

def setDefaultModel (modelId : JsString) : Change := setField (js "defaultModel") (some (.str modelId))

def setDefaultModelAndProvider (provider modelId : JsString) : Change :=
  .fields [(js "defaultProvider", some (.str provider)), (js "defaultModel", some (.str modelId))]
    (List.all_eq_true.mpr fun value hmem => by
      have hnames : ∀ name ∈ [js "defaultProvider", js "defaultModel"], isPlain name = true := by
        decide +kernel
      exact isMigrated_of_isPlain (hnames _ (List.mem_map_of_mem (f := Prod.fst) hmem)) _)

def setSteeringMode (mode : JsString) : Change :=
  .fields [(js "steeringMode", some (.str mode))] (by rfl)

def setFollowUpMode (mode : JsString) : Change := setField (js "followUpMode") (some (.str mode))

def setTheme (theme : JsString) : Change := setField (js "theme") (some (.str theme))

def setDefaultThinkingLevel (level : JsString) : Change := setField (js "defaultThinkingLevel") (some (.str level))

/-- `${provider}/${modelId}` -/
def modelKey (provider modelId : JsString) : JsString := provider ++ js "/" ++ modelId

def setModelThinkingLevel (provider modelId level : JsString) : Change :=
  .modelThinkingLevel (modelKey provider modelId) (.str level)

def removeModelThinkingLevel (provider modelId : JsString) : Change :=
  .removeModelThinkingLevel (modelKey provider modelId)

def setTransport (transport : JsString) : Change :=
  .fields [(js "transport", some (.str transport))] (by rfl)

def setCompactionEnabled (enabled : Bool) : Change := setKey (js "compaction") (js "enabled") (.bool enabled) true

def setRetryEnabled (enabled : Bool) : Change := setKey (js "retry") (js "enabled") (.bool enabled) true

/-- `none` where the value is refused. -/
def setHttpIdleTimeoutMs (timeoutMs : ℚ) : Option Change :=
  if timeoutMs < 0 then none
  else some (setField (js "httpIdleTimeoutMs") (some (.num timeoutMs.floor)))

def setCacheWarmingMode (mode : JsString) : Change := setField (js "cacheWarming") (some (.str mode))

def setHideThinkingBlock (hide : Bool) : Change := setField (js "hideThinkingBlock") (some (.bool hide))

def setShowCacheMissNotices (showNotices : Bool) : Change := setField (js "showCacheMissNotices") (some (.bool showNotices))

def setShellPath (path : Option JsString) : Change := setField (js "shellPath") (path.map .str)

def setQuietStartup (quiet : Bool) : Change := setField (js "quietStartup") (some (.bool quiet))

def setDefaultProjectTrust (defaultProjectTrust : JsString) : Change := setField (js "defaultProjectTrust") (some (.str defaultProjectTrust))

def setShellCommandPrefix (front : Option JsString) : Change := setField (js "shellCommandPrefix") (front.map .str)

def setNpmCommand (command : Option (List Json)) : Change :=
  setField (js "npmCommand") (command.map .arr)

def setCollapseChangelog (collapse : Bool) : Change := setField (js "collapseChangelog") (some (.bool collapse))

def setEnableInstallTelemetry (enabled : Bool) : Change := setField (js "enableInstallTelemetry") (some (.bool enabled))

def setEnableAnalytics (enabled : Bool) (randomUUID : JsString) : Change :=
  .enableAnalytics enabled randomUUID

def setPackages (packages : List Json) : Change := setField (js "packages") (some (.arr packages))

def setExtensionPaths (paths : List Json) : Change := setField (js "extensions") (some (.arr paths))

def setSkillPaths (paths : List Json) : Change :=
  .fields [(js "skills", some (.arr paths))] (by rfl)

def setPromptTemplatePaths (paths : List Json) : Change := setField (js "prompts") (some (.arr paths))

def setThemePaths (paths : List Json) : Change := setField (js "themes") (some (.arr paths))

def setEnableSkillCommands (enabled : Bool) : Change :=
  .fields [(js "enableSkillCommands", some (.bool enabled))] (by rfl)

def setShowImages (showImages : Bool) : Change := setKey (js "terminal") (js "showImages") (.bool showImages) true

def setImageWidthCells (width : ℚ) : Change :=
  setKey (js "terminal") (js "imageWidthCells") (.num (max 1 width.floor)) true

def setClearOnShrink (enabled : Bool) : Change := setKey (js "terminal") (js "clearOnShrink") (.bool enabled) true

def setShowTerminalProgress (enabled : Bool) : Change := setKey (js "terminal") (js "showTerminalProgress") (.bool enabled) true

def setTuiMode (mode : JsString) : Change := setField (js "tuiMode") (some (.str mode))

def setFullscreenExitOutput (output : JsString) : Change := setField (js "fullscreenExitOutput") (some (.str output))

def setFullscreenScrollbar (mode : JsString) : Change := setField (js "fullscreenScrollbar") (some (.str mode))

def setFullscreenCopyOnSelect (enabled : Bool) : Change := setField (js "fullscreenCopyOnSelect") (some (.bool enabled))

def setImageAutoResize (enabled : Bool) : Change := setKey (js "images") (js "autoResize") (.bool enabled) true

def setBlockImages (blocked : Bool) : Change := setKey (js "images") (js "blockImages") (.bool blocked) true

def setEnabledModels (patterns : Option (List Json)) : Change :=
  setField (js "enabledModels") (patterns.map .arr)

def setDoubleEscapeAction (action : JsString) : Change := setField (js "doubleEscapeAction") (some (.str action))

def setTreeFilterMode (mode : JsString) : Change := setField (js "treeFilterMode") (some (.str mode))

def setShowHardwareCursor (enabled : Bool) : Change := setField (js "showHardwareCursor") (some (.bool enabled))

def setEditorPaddingX (padding : ℚ) : Change :=
  setField (js "editorPaddingX") (some (.num (max 0 (min 3 padding.floor) : Int)))

def setOutputPad (padding : ℚ) : Change := setField (js "outputPad") (some (.num padding))

def setAutocompleteMaxVisible (maxVisible : ℚ) : Change :=
  setField (js "autocompleteMaxVisible") (some (.num (max 3 (min 20 maxVisible.floor) : Int)))

/-- The record is created with `??=`. -/
def setMermaidRenderingMode (mode : JsString) : Change :=
  setKey (js "markdown") (js "mermaid") (.str mode) false

def setWarnings (warnings : List (JsString × Json)) : Change :=
  setField (js "warnings") (some (.obj warnings))

end ReflectivePi.Config
