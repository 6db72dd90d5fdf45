import ReflectivePi.Config.Setters
import ReflectivePi.Lib.LabelledRun

/-!
# Config — settings in every run

Managers that write one storage, in any order and with any failures. What a
write changes, besides the migration of old formats, is what the setters of
its manager have set; and what they have set is in the file once the queue is
empty and the last write has succeeded, unless somebody else changed it or the
marks of a failed write were cleared before it ran.
-/

namespace ReflectivePi.Config

open List
open Delta (Json JsString js)
open InsertionMap (findEntry setEntry)

/-! ## Migration leaves alone what is up to date -/

variable {x : JsString}

theorem get?_migrateQueueMode (settings : Settings) (hqueue : x ≠ js "queueMode")
    (hsteering : x = js "steeringMode" → settings.has (js "steeringMode") = true) :
    (migrateQueueMode settings).get? x = settings.get? x := by
  unfold migrateQueueMode
  split
  · rename_i hcond
    rw [Bool.and_eq_true, Bool.not_eq_true'] at hcond
    have hne : x ≠ js "steeringMode" := fun heq => by
      rw [hsteering heq] at hcond
      exact absurd hcond.2 (by decide)
    rw [InsertionMap.get?_delete, if_neg (Ne.symm hqueue), get?_putField, if_neg (Ne.symm hne)]
  · rfl

theorem get?_migrateWebsockets (settings : Settings) (hwebsockets : x ≠ js "websockets")
    (htransport : x = js "transport" → settings.has (js "transport") = true) :
    (migrateWebsockets settings).get? x = settings.get? x := by
  unfold migrateWebsockets
  split
  · rename_i hcond _
    have hne : x ≠ js "transport" := fun heq => by
      rw [htransport heq] at hcond
      cases hcond
    rw [InsertionMap.get?_delete, if_neg (Ne.symm hwebsockets), InsertionMap.get?_set,
      if_neg (Ne.symm hne)]
  · rfl

theorem get?_migrateSkills (settings : Settings)
    (hskills : x = js "skills" → ∀ fields, settings.get? (js "skills") ≠ some (.obj fields))
    (hcommands : x = js "enableSkillCommands" → settings.has (js "enableSkillCommands") = true) :
    (migrateSkills settings).get? x = settings.get? x := by
  unfold migrateSkills
  split
  · rename_i fields hfields
    have hne : x ≠ js "skills" := fun heq => hskills heq fields hfields
    have hcommanded :
        (if settings.has (js "enableSkillCommands") then settings
          else putField settings (js "enableSkillCommands")
            (findEntry (js "enableSkillCommands") fields)).get? x = settings.get? x := by
      split
      · rfl
      · rename_i hhas
        have hne' : x ≠ js "enableSkillCommands" := fun heq => hhas (hcommands heq)
        rw [get?_putField, if_neg (Ne.symm hne')]
    dsimp only
    split
    · rw [InsertionMap.get?_set, if_neg (Ne.symm hne)]
      exact hcommanded
    · rw [InsertionMap.get?_delete, if_neg (Ne.symm hne)]
      exact hcommanded
  · rfl

theorem get?_migrateRetry (settings : Settings) (hretry : x ≠ js "retry") :
    (migrateRetry settings).get? x = settings.get? x := by
  unfold migrateRetry
  split
  · rw [InsertionMap.get?_set, if_neg (Ne.symm hretry)]
  · rfl

variable {value : Option Json} {name : JsString}

variable {settings : Settings}

theorem has_of_get? (h : settings.get? name = value)
    (hvalue : value.isSome = true) : settings.has name = true := by
  rw [InsertionMap.has, h, hvalue]

theorem get?_migrateSettings (settings : Settings) (hx : x ∉ legacyFields) :
    (migrateSettings settings).get? x = settings.get? x := by
  have hne : ∀ name ∈ legacyFields, x ≠ name := fun name hmem heq => hx (heq ▸ hmem)
  rw [migrateSettings, get?_migrateRetry _ (hne _ (by decide)),
    get?_migrateSkills _ (fun heq => absurd heq (hne _ (by decide)))
      (fun heq => absurd heq (hne _ (by decide))),
    get?_migrateWebsockets _ (hne _ (by decide)) (fun heq => absurd heq (hne _ (by decide))),
    get?_migrateQueueMode _ (hne _ (by decide)) (fun heq => absurd heq (hne _ (by decide)))]

theorem of_isMigrated_field (h : isMigrated (.field name) value = true) :
    name ≠ js "queueMode" ∧ name ≠ js "websockets" ∧ name ≠ js "retry" ∧
      (name = js "steeringMode" ∨ name = js "transport" ∨ name = js "enableSkillCommands" →
        value.isSome = true) ∧
      (name = js "skills" → ∃ items, value = some (.arr items)) ∧ name ∉ recordFields := by
  dsimp only [isMigrated] at h
  split at h
  · rename_i hname
    rw [Bool.or_eq_true, Bool.or_eq_true, decide_eq_true_eq, decide_eq_true_eq,
      decide_eq_true_eq] at hname
    have hall : ∀ name', name' = js "steeringMode" ∨ name' = js "transport" ∨
        name' = js "enableSkillCommands" → name' ≠ js "queueMode" ∧ name' ≠ js "websockets" ∧
          name' ≠ js "retry" ∧ name' ≠ js "skills" ∧ name' ∉ recordFields := by
      rintro name' (rfl | rfl | rfl) <;> decide
    have hname' : name = js "steeringMode" ∨ name = js "transport" ∨
        name = js "enableSkillCommands" := by
      rcases hname with (hname | hname) | hname
      · exact .inl hname
      · exact .inr (.inl hname)
      · exact .inr (.inr hname)
    obtain ⟨hq, hw, hr, hs, hrecord⟩ := hall name hname'
    exact ⟨hq, hw, hr, fun _ => h, fun heq => absurd heq hs, hrecord⟩
  · rename_i hspecial
    have hspecial' : ¬ (name = js "steeringMode" ∨ name = js "transport" ∨
        name = js "enableSkillCommands") := by
      rintro (heq | heq | heq) <;> exact hspecial (by rw [heq]; decide)
    split at h
    · rename_i hname
      split at h
      · rename_i items
        subst hname
        exact ⟨by decide, by decide, by decide, fun hc => absurd hc hspecial',
          fun _ => ⟨items, rfl⟩, by decide⟩
      · cases h
    · rename_i hskills
      rw [isPlain, Bool.and_eq_true, Bool.not_eq_true', Bool.not_eq_true', contains_eq_mem,
        contains_eq_mem, decide_eq_false_iff_not, decide_eq_false_iff_not] at h
      have hne : ∀ other ∈ legacyFields, name ≠ other := fun other hmem heq =>
        h.1 (heq ▸ hmem)
      exact ⟨hne _ (by decide), hne _ (by decide), hne _ (by decide),
        fun hc => absurd hc hspecial', fun heq => absurd heq hskills, h.2⟩

theorem proper_of_isMigrated {x : Setting} (h : isMigrated x value = true) : x.Proper := by
  cases x with
  | field name => exact (of_isMigrated_field h).2.2.2.2.2
  | key record name =>
    rw [isMigrated, Bool.and_eq_true, Bool.and_eq_true, contains_eq_mem, decide_eq_true_eq] at h
    exact h.1.1

theorem get?_migrateSettings_field (settings : Settings)
    (h : isMigrated (.field name) value = true) (hget : settings.get? name = value) :
    (migrateSettings settings).get? name = value := by
  obtain ⟨hqueue, hwebsockets, hretry, hsome, hskills, -⟩ := of_isMigrated_field h
  have hqueued : (migrateQueueMode settings).get? name = value := by
    rw [get?_migrateQueueMode settings hqueue fun heq => ?_, hget]
    rw [← heq]
    exact has_of_get? hget (hsome (.inl heq))
  have hsocketed : (migrateWebsockets (migrateQueueMode settings)).get? name = value := by
    rw [get?_migrateWebsockets _ hwebsockets fun heq => ?_, hqueued]
    rw [← heq]
    exact has_of_get? hqueued (hsome (.inr (.inl heq)))
  have hskilled :
      (migrateSkills (migrateWebsockets (migrateQueueMode settings))).get? name = value := by
    rw [get?_migrateSkills _ (fun heq fields hfields => ?_) fun heq => ?_, hsocketed]
    · obtain ⟨items, hitems⟩ := hskills heq
      rw [← heq, hsocketed, hitems] at hfields
      cases hfields
    · rw [← heq]
      exact has_of_get? hsocketed (hsome (.inr (.inr heq)))
  rw [migrateSettings, get?_migrateRetry _ hretry, hskilled]

theorem findEntry_migrateRetry (settings : Settings) (hprovider : name ≠ js "provider")
    (hmax : name ≠ js "maxDelayMs") :
    Setting.get (migrateRetry settings) (.key (js "retry") name) =
      Setting.get settings (.key (js "retry") name) := by
  unfold migrateRetry
  split
  · rename_i fields hfields
    rw [Setting.get, Setting.get, InsertionMap.get?_set, if_pos rfl, hfields]
    show findEntry name (putEntry (js "maxDelayMs") none _) = findEntry name fields
    have hprovided : ∀ (migrated : Bool) (value : Json),
        findEntry name (if migrated = true then setEntry (js "provider") value fields
          else fields) = findEntry name fields := by
      intro migrated value
      cases migrated
      · rfl
      · exact (InsertionMap.findEntry_setEntry ..).trans (if_neg (Ne.symm hprovider))
    rw [findEntry_putEntry, if_neg (Ne.symm hmax)]
    exact hprovided _ _
  · rfl

/-- **A setting that is up to date is not changed by migration.** -/
theorem get_migrateSettings {x : Setting} (h : isMigrated x value = true)
    (settings : Settings) (hget : x.get settings = value) :
    x.get (migrateSettings settings) = value := by
  cases x with
  | field name => exact get?_migrateSettings_field settings h hget
  | key record name =>
    rw [isMigrated, Bool.and_eq_true, Bool.and_eq_true, contains_eq_mem,
      decide_eq_true_eq, bne_iff_ne, bne_iff_ne] at h
    obtain ⟨⟨hrecord, hprovider⟩, hmax⟩ := h
    by_cases hretry : record = js "retry"
    · subst hretry
      rw [migrateSettings, findEntry_migrateRetry _ hprovider hmax, ← hget, Setting.get,
        Setting.get, get?_migrateSkills _ (fun heq => absurd heq (by decide))
          (fun heq => absurd heq (by decide)),
        get?_migrateWebsockets _ (by decide) (fun heq => absurd heq (by decide)),
        get?_migrateQueueMode _ (by decide) (fun heq => absurd heq (by decide))]
    · have hlegacy : ∀ record ∈ recordFields, record ≠ js "retry" →
          record ∉ legacyFields := by decide
      rw [← hget, Setting.get, Setting.get,
        get?_migrateSettings settings (hlegacy record hrecord hretry)]

/-! ## Marks -/

namespace Modified

variable {modified : Modified} {settings : Settings}

theorem mem_insert {l : List JsString} : x ∈ insert l name ↔ x = name ∨ x ∈ l := by
  unfold insert
  split
  · rename_i hmem
    rw [contains_eq_mem, decide_eq_true_eq] at hmem
    exact ⟨.inr, fun h => h.elim (fun heq => heq ▸ hmem) id⟩
  · rw [mem_append, mem_singleton, or_comm]

theorem insert_ne_nil (l : List JsString) (name : JsString) : insert l name ≠ [] := fun h => by
  have hmem : name ∈ insert l name := mem_insert.mpr (.inl rfl)
  rw [h] at hmem
  exact absurd hmem not_mem_nil

theorem contains_markSetting (h : ∀ field, modified.nestedFields field ≠ [] →
    field ∈ modified.fields) {x y : Setting} (hx : x.Proper) (hy : y.Proper) :
    (modified.markSetting y).Contains x ↔ x = y ∨ modified.Contains x := by
  cases x with
  | field name =>
    cases y with
    | field name' =>
      show name ∈ insert modified.fields name' ↔ _
      rw [mem_insert, Setting.field.injEq]
      rfl
    | key record key =>
      have hne : name ≠ record := fun heq => hx (heq ▸ hy)
      show name ∈ insert modified.fields record ↔ _
      rw [mem_insert]
      exact or_congr ⟨fun heq => absurd heq hne, nofun⟩ Iff.rfl
  | key record key =>
    cases y with
    | field name' =>
      have hne : record ≠ name' := fun heq => hy (heq ▸ hx)
      show record ∈ insert modified.fields name' ∧ key ∈ modified.nestedFields record ↔ _
      rw [mem_insert]
      constructor
      · rintro ⟨hrecord | hrecord, hkey⟩
        · exact absurd hrecord hne
        · exact .inr ⟨hrecord, hkey⟩
      · rintro (heq | ⟨hrecord, hkey⟩)
        · cases heq
        · exact ⟨.inr hrecord, hkey⟩
    | key record' key' =>
      show record ∈ insert modified.fields record' ∧
        key ∈ (if record = record' then insert (modified.nestedFields record') key'
          else modified.nestedFields record) ↔ _
      rw [mem_insert, Setting.key.injEq]
      by_cases hrecord : record = record'
      · subst hrecord
        rw [if_pos rfl, mem_insert]
        constructor
        · rintro ⟨-, heq | hkey⟩
          · exact .inl ⟨rfl, heq⟩
          · exact .inr ⟨h record (ne_nil_of_mem hkey), hkey⟩
        · rintro (⟨-, heq⟩ | ⟨-, hkey⟩)
          · exact ⟨.inl rfl, .inl heq⟩
          · exact ⟨.inl rfl, .inr hkey⟩
      · rw [if_neg hrecord]
        constructor
        · rintro ⟨heq | hmem, hkey⟩
          · exact absurd heq hrecord
          · exact .inr ⟨hmem, hkey⟩
        · rintro (⟨heq, -⟩ | ⟨hmem, hkey⟩)
          · exact absurd heq hrecord
          · exact ⟨.inr hmem, hkey⟩

theorem Sound.empty (settings : Settings) : ({} : Modified).Sound settings :=
  ⟨fun _ h => absurd h not_mem_nil, fun _ _ => rfl, fun _ h => absurd rfl h⟩

theorem Sound.markSetting (h : modified.Sound settings) {y : Setting} (hy : y.Proper)
    (hrecord : ∀ record key, y = .key record key →
      ∃ fields, settings.get? record = some (.obj fields)) :
    (modified.markSetting y).Sound settings := by
  cases y with
  | field name =>
    refine ⟨fun field hmem hfield => ?_, h.plain, fun field hne => ?_⟩
    · rcases mem_insert.mp hmem with heq | hmem
      · exact absurd (heq ▸ hfield) hy
      · exact h.record field hmem hfield
    · exact mem_insert.mpr (.inr (h.listed field hne))
  | key record key =>
    have hnested : ∀ field, (modified.markSetting (.key record key)).nestedFields field =
        if field = record then insert (modified.nestedFields record) key
        else modified.nestedFields field := fun _ => rfl
    refine ⟨fun field hmem hfield => ?_, fun field hfield => ?_, fun field hne => ?_⟩
    · rw [hnested]
      by_cases heq : field = record
      · subst heq
        rw [if_pos rfl]
        exact ⟨insert_ne_nil _ _, hrecord field key rfl⟩
      · rw [if_neg heq]
        rcases mem_insert.mp hmem with heq' | hmem
        · exact absurd heq' heq
        · exact h.record field hmem hfield
    · have hne : field ≠ record := fun heq => hfield (heq ▸ hy)
      rw [hnested, if_neg hne]
      exact h.plain field hfield
    · rw [hnested] at hne
      by_cases heq : field = record
      · exact mem_insert.mpr (.inl heq)
      · rw [if_neg heq] at hne
        exact mem_insert.mpr (.inr (h.listed field hne))

theorem Sound.markAll {marks : List Setting} (h : modified.Sound settings)
    (hproper : ∀ y ∈ marks, y.Proper)
    (hrecord : ∀ record key, .key record key ∈ marks →
      ∃ fields, settings.get? record = some (.obj fields)) :
    (marks.foldl Modified.markSetting modified).Sound settings := by
  induction marks generalizing modified with
  | nil => exact h
  | cons y marks ih =>
    refine ih (h.markSetting (hproper y mem_cons_self) fun record key heq => ?_)
      (fun y' hmem => hproper y' (mem_cons_of_mem _ hmem))
      fun record key hmem => hrecord record key (mem_cons_of_mem _ hmem)
    exact hrecord record key (heq ▸ mem_cons_self)

theorem contains_markAll {marks : List Setting} (h : modified.Sound settings)
    (hproper : ∀ y ∈ marks, y.Proper)
    (hrecord : ∀ record key, .key record key ∈ marks →
      ∃ fields, settings.get? record = some (.obj fields)) {x : Setting} (hx : x.Proper) :
    (marks.foldl Modified.markSetting modified).Contains x ↔ x ∈ marks ∨ modified.Contains x := by
  induction marks generalizing modified with
  | nil => simp
  | cons y marks ih =>
    have hy := hproper y mem_cons_self
    have hmarked := h.markSetting hy fun record key heq =>
      hrecord record key (heq ▸ mem_cons_self)
    rw [foldl_cons, ih hmarked (fun y' hmem => hproper y' (mem_cons_of_mem _ hmem))
      (fun record key hmem => hrecord record key (mem_cons_of_mem _ hmem)),
      contains_markSetting h.listed hx hy, mem_cons]
    tauto

theorem mem_settings (h : modified.Sound settings) {x : Setting} (hx : x.Proper)
    (hcontains : modified.Contains x) : x ∈ modified.settings := by
  rw [Modified.settings, mem_flatMap]
  cases x with
  | field name =>
    refine ⟨name, hcontains, ?_⟩
    rw [h.plain name hx]
    exact mem_singleton_self _
  | key record key =>
    refine ⟨record, hcontains.1, ?_⟩
    split
    · rename_i hnil
      have hkey := hcontains.2
      rw [hnil] at hkey
      exact absurd hkey not_mem_nil
    · exact mem_map_of_mem hcontains.2

end Modified

/-! ## What a setter does -/

structure Change.Spec (settings settings' : Settings) (marks : List Setting) : Prop where
  migrated : ∀ x ∈ marks, isMigrated x (x.get settings') = true
  others : ∀ x : Setting, x.Proper → x ∉ marks → x.get settings' = x.get settings
  records : ∀ record key, .key record key ∈ marks →
    ∃ fields, settings'.get? record = some (.obj fields)
  kept : ∀ record ∈ recordFields, (∃ fields, settings.get? record = some (.obj fields)) →
    ∃ fields, settings'.get? record = some (.obj fields)

theorem Change.Spec.putField (value : Option Json)
    (hmigrated : isMigrated (.field name) value = true) :
    Change.Spec settings (putField settings name value) [.field name] := by
  have hplain := proper_of_isMigrated hmigrated
  refine ⟨fun x hmem => ?_, fun x hx hmem => ?_, fun record key hmem => ?_, ?_⟩
  · cases List.mem_singleton.mp hmem
    rw [Setting.get, get?_putField, if_pos rfl]
    exact hmigrated
  · cases x with
    | field other =>
      have hne : name ≠ other := fun heq => hmem (heq ▸ mem_singleton_self _)
      rw [Setting.get, get?_putField, if_neg hne]
      rfl
    | key record key =>
      have hne : name ≠ record := fun heq => hplain (heq ▸ hx)
      rw [Setting.get, get?_putField, if_neg hne]
      rfl
  · cases List.mem_singleton.mp hmem
  · rintro record hrecord hobj
    have hne : name ≠ record := fun heq => hplain (heq ▸ hrecord)
    rw [get?_putField, if_neg hne]
    exact hobj

theorem Change.Spec.refl (settings : Settings) : Change.Spec settings settings [] :=
  ⟨fun _ h => absurd h not_mem_nil, fun _ _ _ => rfl,
    fun _ _ h => absurd h not_mem_nil, fun _ _ h => h⟩

theorem Change.Spec.trans {settings' settings'' : Settings} {marks marks' : List Setting}
    (h : Change.Spec settings settings' marks) (h' : Change.Spec settings' settings'' marks') :
    Change.Spec settings settings'' (marks ++ marks') := by
  refine ⟨fun x hmem => ?_, fun x hx hmem => ?_, fun record key hmem => ?_,
    fun record hrecord hobj => h'.kept record hrecord (h.kept record hrecord hobj)⟩
  · by_cases hmem' : x ∈ marks'
    · exact h'.migrated x hmem'
    · have hx := (List.mem_append.mp hmem).resolve_right hmem'
      have hmigrated := h.migrated x hx
      rw [h'.others x (proper_of_isMigrated hmigrated) hmem']
      exact hmigrated
  · rw [mem_append, not_or] at hmem
    rw [h'.others x hx hmem.2, h.others x hx hmem.1]
  · rcases List.mem_append.mp hmem with hmem | hmem
    · exact h'.kept record (proper_of_isMigrated (h.migrated _ hmem)) (h.records record key hmem)
    · exact h'.records record key hmem

variable {settings settings' : Settings}

theorem putKey_eq {record : JsString} {value : Json} {orFalsy : Bool}
    (h : putKey settings record name value orFalsy = some settings') :
    settings' = settings.set record (.obj (setEntry name value
      (match settings.get? record with
        | some current => ownEntries current
        | none => []))) := by
  unfold putKey at h
  split at h
  · rename_i hnone
    cases h
    rw [hnone]
    rfl
  · rename_i current hcurrent
    rw [hcurrent]
    split at h
    · cases h
      rfl
    · split at h
      · rename_i hnot hfalsy
        cases h
        have hnil : ownEntries current = [] := by
          cases current with
          | str units =>
            rw [isReplaced, Bool.and_eq_true] at hfalsy
            · rw [List.isEmpty_iff.mp hfalsy.2]
              rfl
            · exact fun heq => by cases heq
          | arr items => exact absurd rfl hnot
          | obj fields => exact absurd rfl hnot
          | _ => rfl
        show _ = settings.set record (.obj (setEntry name value (ownEntries current)))
        rw [hnil]
        rfl
      · cases h

theorem Change.Spec.putKey {record : JsString} {value : Json} {orFalsy : Bool}
    (hmigrated : isMigrated (.key record name) (some value) = true)
    (h : putKey settings record name value orFalsy = some settings') :
    Change.Spec settings settings' [.key record name] := by
  have hrecord : record ∈ recordFields := proper_of_isMigrated hmigrated
  have heq := putKey_eq h
  refine ⟨fun x hmem => ?_, fun x hx hmem => ?_, fun record' key hmem => ?_, ?_⟩
  · cases List.mem_singleton.mp hmem
    exact hmigrated
  · rw [heq]
    cases x with
    | field other =>
      have hne : record ≠ other := fun heq => hx (heq ▸ hrecord)
      rw [Setting.get, InsertionMap.get?_set, if_neg hne]
      rfl
    | key record' key =>
      rw [Setting.get, InsertionMap.get?_set]
      by_cases hsame : record = record'
      · subst hsame
        have hne : name ≠ key := fun heq => hmem (heq ▸ mem_singleton_self _)
        rw [if_pos rfl]
        show findEntry key (setEntry name value _) = _
        rw [InsertionMap.findEntry_setEntry, if_neg hne, Setting.get]
        cases settings.get? record <;> rfl
      · rw [if_neg hsame]
        rfl
  · cases List.mem_singleton.mp hmem
    rw [heq, InsertionMap.get?_set, if_pos rfl]
    exact ⟨_, rfl⟩
  · rintro record' hrecord' hobj
    rw [heq, InsertionMap.get?_set]
    split
    · exact ⟨_, rfl⟩
    · exact hobj

theorem Change.Spec.levels (settings : Settings) (value : Option Json) :
    Change.Spec settings (Config.putField settings (js "modelThinkingLevels") value)
      [.field (js "modelThinkingLevels")] :=
  .putField value (isMigrated_of_isPlain (by decide +kernel) value)

theorem Change.apply_spec {marks : List Setting} {change : Change}
    (h : change.apply settings = some (settings', marks)) :
    Change.Spec settings settings' marks := by
  cases change with
  | fields values hmigrated =>
    cases h
    rw [all_eq_true] at hmigrated
    induction values generalizing settings with
    | nil => exact .refl settings
    | cons value values ih =>
      exact (Change.Spec.putField value.2 (hmigrated value mem_cons_self)).trans
        (ih fun value hmem => hmigrated value (mem_cons_of_mem _ hmem))
  | key record name value orFalsy hmigrated =>
    obtain ⟨settings₁, hput, heq⟩ := Option.map_eq_some_iff.mp h
    cases heq
    exact .putKey hmigrated hput
  | modelThinkingLevel model level =>
    dsimp only [Change.apply] at h
    split at h
    · cases h
      refine ⟨fun x hmem => ?_, fun _ _ _ => rfl, fun record key hmem => ?_, fun _ _ h => h⟩
      · cases List.mem_singleton.mp hmem
        rfl
      · cases List.mem_singleton.mp hmem
    · obtain ⟨settings₁, hput, heq⟩ := Option.map_eq_some_iff.mp h
      cases heq
      rw [putKey_eq hput]
      exact .levels settings (some _)
  | removeModelThinkingLevel model =>
    rw [Change.apply] at h
    split at h
    · split at h
      · cases h
      · cases h
        exact .levels settings _
    · cases h
  | enableAnalytics enabled trackingId =>
    have hanalytics : Change.Spec settings (settings.set (js "enableAnalytics") (.bool enabled))
        [.field (js "enableAnalytics")] :=
      .putField (some (.bool enabled)) (isMigrated_of_isPlain (by decide +kernel) _)
    dsimp only [Change.apply] at h
    split at h
    · cases h
      exact hanalytics.trans (.putField (some (.str trackingId))
        (isMigrated_of_isPlain (by decide +kernel) _))
    · cases h
      exact hanalytics

end ReflectivePi.Config
