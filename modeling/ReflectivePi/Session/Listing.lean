import ReflectivePi.Session.Separators

/-!
# Session — Listing

`buildSessionInfo` reads a session file for the list of sessions: its lines are
those of `readline`, while opening the file cuts it at line feeds only. The
modification time and the working directory are left out.
-/

namespace ReflectivePi.Session.Discovery

open List Option
open Delta (Json JsString js)

/-! ## Entries -/

/-- `entry.type === name` and the like. -/
def isText (name : String) : Option Json → Bool
  | some (.str s) => s = js name
  | _ => false

def isMessage (entry : Json) : Bool := isText "message" (property "type" entry)

def isSessionInfo (entry : Json) : Bool := isText "session_info" (property "type" entry)

def trim (s : JsString) : JsString :=
  ((s.dropWhile Frames.isWhitespace).reverse.dropWhile Frames.isWhitespace).reverse

/-- `entry.name?.trim() || undefined`; `none` where it throws. -/
def trimmedName : Option Json → Option (Option JsString)
  | none => some none
  | some .null => some none
  | some (.str s) => some (if trim s = [] then none else some (trim s))
  | some _ => none

section

-- what a number is in a text
variable (numberText : ℚ → JsString)

mutual

/-- An element as `Array.join` writes it. -/
def elementText : Json → JsString
  | .null => []
  | .bool b => if b then js "true" else js "false"
  | .num n => numberText n
  | .str s => s
  | .arr items => (js ",").intercalate (elementTexts items)
  | .obj _ => js "[object Object]"

def elementTexts : List Json → List JsString
  | [] => []
  | item :: items => elementText item :: elementTexts items

end

def isMessageWithContent (message : Json) : Bool :=
  isString (property "role" message) && (property "content" message).isSome

/-- `none` where it throws: the content is no list, or a block is `null`. -/
def extractTextContent : Json → Option JsString
  | .str content => some content
  | .arr blocks =>
    if blocks.any isNull then none
    else
      let texts := blocks.filter fun block => isText "text" (property "type" block)
      some ((js " ").intercalate (texts.map fun block =>
        ((property "text" block).map (elementText numberText)).getD []))
  | _ => none

/-- The text of a message entry, if there is one, and whether the user wrote it;
`none` where reading it throws. -/
def messageText (entry : Json) : Option (Option (Bool × JsString)) :=
  match property "message" entry with
  | none => none
  | some message =>
    if isNull message then none
    else
      let role := property "role" message
      if isMessageWithContent message && (isText "user" role || isText "assistant" role) then
        ((property "content" message).bind (extractTextContent numberText)).map fun text =>
          if text = [] then none else some (isText "user" role, text)
      else some none

/-! ## The loop -/

structure Texts where
  messageCount : Nat
  firstMessage : JsString
  allMessages : List JsString

def Texts.add (t : Texts) : Option (Bool × JsString) → Texts
  | none => { t with messageCount := t.messageCount + 1 }
  | some (user, text) =>
    { messageCount := t.messageCount + 1
      firstMessage := if t.firstMessage = [] && user then text else t.firstMessage
      allMessages := t.allMessages ++ [text] }

structure Listed where
  id : Option Json
  name : Option JsString
  texts : Texts

def listName (s : Listed) (entry : Json) : Option Listed :=
  if isSessionInfo entry then
    (trimmedName (property "name" entry)).map fun name => { s with name }
  else some s

def listMessage (s : Listed) (entry : Json) : Option Listed :=
  if isMessage entry then
    (messageText numberText entry).map fun text => { s with texts := s.texts.add text }
  else some s

/-- One entry behind the header; `none` where it throws. -/
def listEntry (s : Listed) (entry : Json) : Option Listed :=
  (listName s entry).bind fun s => listMessage numberText s entry

def listEntries : List Json → Option Listed
  | [] => none
  | header :: rest =>
    if isSessionType (property "type" header) then
      rest.foldlM (listEntry numberText) ⟨property "id" header, none, 0, [], []⟩
    else none

structure SessionInfo where
  id : Option Json
  name : Option JsString
  messageCount : Nat
  firstMessage : JsString
  allMessagesText : JsString

def noMessages : JsString := js "(no messages)"

def Listed.info (s : Listed) : SessionInfo where
  id := s.id
  name := s.name
  messageCount := s.texts.messageCount
  firstMessage := if s.texts.firstMessage = [] then noMessages else s.texts.firstMessage
  allMessagesText := (js " ").intercalate s.texts.allMessages

/-- The information that entries give. -/
def sessionInfo (entries : List Json) : Option SessionInfo :=
  (listEntries numberText entries).map Listed.info

/-- `null` where there is no header or an entry cannot be read. -/
def buildSessionInfo (J : JsonParse) (text : Text) : Option SessionInfo :=
  sessionInfo numberText ((readlineLines text).filterMap (keptEntry J))

end

/-- Reading the entry does not throw. -/
structure Readable (numberText : ℚ → JsString) (entry : Json) : Prop where
  name : isSessionInfo entry = true → (trimmedName (property "name" entry)).isSome
  message : isMessage entry = true → (messageText numberText entry).isSome

def entryName (entry : Json) : Option JsString := (trimmedName (property "name" entry)).join

/-- The name that the last `session_info` entry gives. -/
def lastName (entries : List Json) : Option JsString :=
  (entries.filter isSessionInfo).getLast?.bind entryName

/-- The lines that `readline` cuts do not matter for the list: the first value it
finds is a header with the same id, no message is on such a line, and the name
is the same without them. -/
structure ListedAlike (J : JsonParse) (text : Text) (header : Json) : Prop where
  header : ∃ first, ((readlineLines text).filterMap (lineValue J)).head? = some first ∧
    isSessionType (property "type" first) = true ∧ property "id" first = property "id" header
  messages : ∀ line ∈ textLines text, line.any isSeparator = true →
    ∀ entry, lineValue J line = some entry → isMessage entry = false
  name : lastName (((textLines text).filter fun line => !line.any isSeparator).filterMap
    (lineValue J)) = lastName ((textLines text).filterMap (lineValue J))

/-! ## What the loop comes to -/

section

variable {numberText : ℚ → JsString} {G : JsonGrammar} {entries : List Json} {s : Listed}
  {p : Json → Bool} {lines : List Text}

/-- The state after entries that can be read. -/
def Listed.after (numberText : ℚ → JsString) (s : Listed) (entries : List Json) : Listed where
  id := s.id
  name := (entries.filter isSessionInfo).getLast?.elim s.name entryName
  texts := (entries.filter isMessage).foldl
    (fun t entry => t.add (messageText numberText entry).join) s.texts

theorem typed_apart (entry : Json) (h : isMessage entry = true) : isSessionInfo entry = false := by
  unfold isMessage isSessionInfo isText at *
  split at h
  · rw [of_decide_eq_true h]
    decide
  · cases h

theorem listEntry_after (h : Readable numberText entry) :
    listEntry numberText s entry = some (s.after numberText [entry]) := by
  rw [listEntry, listName, Listed.after]
  cases hinfo : isSessionInfo entry with
  | true =>
    have hmessage : isMessage entry = false := Bool.eq_false_iff.mpr fun hmessage => by
      rw [typed_apart entry hmessage] at hinfo
      cases hinfo
    obtain ⟨name, hname⟩ := Option.isSome_iff_exists.mp (h.name hinfo)
    simp [listMessage, hinfo, hmessage, hname, entryName]
  | false =>
    cases hmessage : isMessage entry with
    | true =>
      obtain ⟨text, htext⟩ := Option.isSome_iff_exists.mp (h.message hmessage)
      simp [listMessage, hinfo, hmessage, htext]
    | false => simp [listMessage, hinfo, hmessage]

theorem listEntry_isSome (h : (listEntry numberText s entry).isSome) :
    Readable numberText entry := by
  rw [listEntry, listName] at h
  constructor
  · intro hinfo
    cases hname : trimmedName (property "name" entry) with
    | some name => rfl
    | none => simp [hinfo, hname] at h
  · intro hmessage
    have hinfo := typed_apart entry hmessage
    cases htext : messageText numberText entry with
    | some text => rfl
    | none => simp [hinfo, listMessage, hmessage, htext] at h

theorem Listed.after_cons (entry : Json) (entries : List Json) :
    (s.after numberText [entry]).after numberText entries
      = s.after numberText (entry :: entries) := by
  rw [Listed.after, Listed.after, Listed.after]
  congr 1
  · cases hinfo : isSessionInfo entry with
    | false => simp [hinfo]
    | true =>
      cases hlast : (entries.filter isSessionInfo).getLast? <;>
        simp [hinfo, getLast?_cons, hlast]
  · cases hmessage : isMessage entry <;> simp [hmessage]

/-- The loop ends if and only if all entries can be read. -/
theorem foldlM_listEntry {s' : Listed} :
    entries.foldlM (listEntry numberText) s = some s' ↔
      (∀ entry ∈ entries, Readable numberText entry) ∧ s' = s.after numberText entries := by
  induction entries generalizing s with
  | nil => simp [Listed.after, eq_comm]
  | cons entry entries ih =>
    rw [foldlM_cons, forall_mem_cons, ← Listed.after_cons, and_assoc]
    constructor
    · intro h
      obtain ⟨next, hnext, hrest⟩ := Option.bind_eq_some_iff.mp h
      have hreadable := listEntry_isSome (isSome_of_eq_some hnext)
      rw [listEntry_after hreadable] at hnext
      obtain rfl := Option.some.inj hnext
      exact ⟨hreadable, ih.mp hrest⟩
    · rintro ⟨hreadable, hrest⟩
      rw [listEntry_after hreadable]
      exact ih.mpr hrest

theorem messageCount_foldl (f : Json → Option (Bool × JsString)) (t : Texts) :
    (entries.foldl (fun t entry => t.add (f entry)) t).messageCount
      = t.messageCount + entries.length := by
  induction entries generalizing t with
  | nil => rfl
  | cons entry entries ih =>
    rw [foldl_cons, ih, length_cons]
    cases f entry <;> simp only [Texts.add] <;> omega

/-! ## Lines that are cut -/

theorem filter_pieces (hp : ∀ entry, p entry = true → (property "type" entry).isSome)
    (h : ∀ line ∈ lines, WrittenLine line) :
    (lines.flatMap fun line => (line.splitOnP isSeparator).filterMap (lineValue G.parser)).filter p
      = ((lines.filter fun line => !line.any isSeparator).filterMap
          (lineValue G.parser)).filter p := by
  induction lines with
  | nil => rfl
  | cons line lines ih =>
    rw [forall_mem_cons] at h
    have hvalues := pieces_values (G := G) h.1
    rw [flatMap_cons, List.filter_append, ih h.2]
    split at hvalues
    · rename_i hseparated
      have hnone : ((line.splitOnP isSeparator).filterMap (lineValue G.parser)).filter p = [] := by
        refine List.filter_eq_nil_iff.mpr fun entry hentry hpentry => ?_
        have htype := hp entry hpentry
        rw [hvalues entry hentry] at htype
        cases htype
      rw [hnone, filter_cons_of_neg (by simp [hseparated]), nil_append]
    · rename_i hwhole
      rw [hvalues, filter_cons_of_pos (by simp [hwhole]), filterMap_cons]
      cases lineValue G.parser line <;> simp [filter_cons]
      split <;> rfl

/-- As many as there are only if none is on a line that is cut. -/
theorem filter_whole {J : JsonParse} :
    ((((lines.filter fun line => !line.any isSeparator).filterMap (lineValue J)).filter p).length
        = ((lines.filterMap (lineValue J)).filter p).length ↔
      ∀ line ∈ lines, line.any isSeparator = true → ∀ entry, lineValue J line = some entry →
        p entry = false) ∧
    List.Sublist (((lines.filter fun line => !line.any isSeparator).filterMap
      (lineValue J)).filter p) ((lines.filterMap (lineValue J)).filter p) := by
  induction lines with
  | nil => simp
  | cons line lines ih =>
    have hle := ih.2.length_le
    rw [forall_mem_cons, ← ih.1]
    cases hvalue : lineValue J line with
    | none =>
      cases hseparated : line.any isSeparator <;> simp [hseparated, hvalue, ih.2]
    | some entry =>
      cases hseparated : line.any isSeparator with
      | false =>
        cases hp : p entry <;> simp [hseparated, hvalue, hp, ih.2]
      | true =>
        cases hp : p entry <;> simp [hseparated, hvalue, hp, ih.2]
        · omega

theorem isText_isSome {name : String} {value : Option Json} (h : isText name value = true) :
    value.isSome := by
  cases value with
  | none => cases h
  | some v => rfl

theorem header_untyped {entry : Json} (h : isSessionType (property "type" entry) = true) :
    isMessage entry = false ∧ isSessionInfo entry = false := by
  unfold isSessionType isMessage isSessionInfo isText at *
  split at h
  · rename_i type htype
    simp only [htype, of_decide_eq_true h]
    decide
  · cases h

theorem sessionInfo_cons {header : Json} {info : SessionInfo} :
    sessionInfo numberText (header :: entries) = some info ↔
      isSessionType (property "type" header) = true ∧
      (∀ entry ∈ entries, Readable numberText entry) ∧
      info = ((⟨property "id" header, none, 0, [], []⟩ : Listed).after numberText entries).info := by
  rw [sessionInfo, listEntries, map_eq_some_iff]
  cases htype : isSessionType (property "type" header) with
  | false => simp
  | true =>
    simp only [if_true, true_and, foldlM_listEntry]
    constructor
    · rintro ⟨listed, ⟨hreadable, rfl⟩, rfl⟩
      exact ⟨hreadable, rfl⟩
    · rintro ⟨hreadable, rfl⟩
      exact ⟨_, ⟨hreadable, rfl⟩, rfl⟩

theorem info_name (header : Json) (h : isSessionType (property "type" header) = true) :
    ((⟨property "id" header, none, 0, [], []⟩ : Listed).after numberText entries).info.name
      = lastName (header :: entries) := by
  rw [lastName, filter_cons_of_neg (by simp [(header_untyped h).2])]
  show ((entries.filter isSessionInfo).getLast?).elim none entryName = _
  cases (entries.filter isSessionInfo).getLast? <;> rfl

theorem info_count (header : Json) :
    ((⟨property "id" header, none, 0, [], []⟩ : Listed).after numberText entries).info.messageCount
      = (entries.filter isMessage).length := by
  show Texts.messageCount (List.foldl _ _ _) = _
  rw [messageCount_foldl, Nat.zero_add]

/-- Lists alike give the same information. -/
theorem info_congr {header header' : Json} {entries' : List Json}
    (hid : property "id" header = property "id" header')
    (hname : lastName (header :: entries) = lastName (header' :: entries'))
    (htype : isSessionType (property "type" header) = true)
    (htype' : isSessionType (property "type" header') = true)
    (hmessages : entries.filter isMessage = entries'.filter isMessage) :
    ((⟨property "id" header, none, 0, [], []⟩ : Listed).after numberText entries).info
      = ((⟨property "id" header', none, 0, [], []⟩ : Listed).after numberText entries').info := by
  have hsame := (@info_name numberText entries header htype).trans
    (hname.trans (@info_name numberText entries' header' htype').symm)
  refine congrArg Listed.info ?_
  unfold Listed.after
  rw [hid, hmessages]
  exact congrArg (fun name => (⟨property "id" header', name, _⟩ : Listed)) hsame

end

/-- **The session list shows what the session contains** if and only if its
entries can be read and the lines that `readline` cuts do not matter. -/
theorem listing_iff (numberText : ℚ → JsString) (G : JsonGrammar) (D : StringDecoder)
    (sizes : Nat → Nat) (file : List UInt8) {header : Json} {rest : List Json}
    (hload : (loadEntriesFromFile G.parser D sizes file).1 = header :: rest)
    (hwritten : ∀ line ∈ textLines (D.decode file), WrittenLine line) :
    (∃ info, sessionInfo numberText (loadEntriesFromFile G.parser D sizes file).1 = some info ∧
      buildSessionInfo numberText G.parser (D.decode file) = some info) ↔
      (∀ entry ∈ rest, Readable numberText entry) ∧
        ListedAlike G.parser (D.decode file) header := by
  have hvalues : (textLines (D.decode file)).filterMap (lineValue G.parser) = header :: rest ∧
      isSessionType (property "type" header) = true := by
    rw [loadEntriesFromFile_eq, sessionValues] at hload
    split at hload
    · rename_i hheader
      rw [hload] at hheader
      exact ⟨hload, (Bool.and_eq_true_iff.mp hheader).1⟩
    · cases hload
  obtain ⟨hvalues, htype⟩ := hvalues
  have hreturn : '\r' ∉ D.decode file := by
    intro hmem
    obtain ⟨line, hline, hin⟩ := mem_textLines hmem (by decide)
    exact (hwritten line hline).noReturn hin
  have hread := @filterMap_readlineLines G.parser _ hreturn
  have hmessages := @filter_pieces G isMessage _ (fun entry h => isText_isSome h) hwritten
  have hinfos := @filter_pieces G isSessionInfo _ (fun entry h => isText_isSome h) hwritten
  rw [← hread] at hmessages hinfos
  obtain ⟨hcount, hsublist⟩ := @filter_whole isMessage (textLines (D.decode file)) G.parser
  have hsublist' := (@filter_whole isSessionInfo (textLines (D.decode file)) G.parser).2
  rw [hvalues, filter_cons_of_neg (by simp [(header_untyped htype).1]), ← hmessages]
    at hcount hsublist
  rw [hvalues, filter_cons_of_neg (by simp [(header_untyped htype).2]), ← hinfos] at hsublist'
  have hkept : (readlineLines (D.decode file)).filterMap (keptEntry G.parser)
      = (readlineLines (D.decode file)).filterMap (lineValue G.parser) :=
    filterMap_congr fun line _ => keptEntry_eq line
  have hname : lastName (((textLines (D.decode file)).filter fun line => !line.any isSeparator).filterMap
      (lineValue G.parser)) = lastName ((readlineLines (D.decode file)).filterMap
        (lineValue G.parser)) := by rw [lastName, lastName, hinfos]
  rw [hload, buildSessionInfo, hkept]
  constructor
  · rintro ⟨info, hopened, hlisted⟩
    obtain ⟨-, hreadable, rfl⟩ := sessionInfo_cons.mp hopened
    cases hlines : (readlineLines (D.decode file)).filterMap (lineValue G.parser) with
    | nil =>
      rw [hlines] at hlisted
      cases hlisted
    | cons first others =>
      rw [hlines] at hlisted hname hcount
      obtain ⟨hfirst, -, heq⟩ := sessionInfo_cons.mp hlisted
      have hsame := congrArg SessionInfo.messageCount heq
      rw [info_count, info_count] at hsame
      rw [filter_cons_of_neg (by simp [(header_untyped hfirst).1])] at hcount
      refine ⟨hreadable, ⟨first, by rw [hlines]; rfl, hfirst, ?_⟩, hcount.mp hsame.symm, ?_⟩
      · exact (congrArg SessionInfo.id heq).symm
      · have hnames := congrArg SessionInfo.name heq
        rw [info_name header htype, info_name first hfirst] at hnames
        rw [hname, hvalues, hnames]
  · rintro ⟨hreadable, ⟨first, hhead, hfirst, hid⟩, hwhole, hnames⟩
    cases hlines : (readlineLines (D.decode file)).filterMap (lineValue G.parser) with
    | nil =>
      rw [hlines] at hhead
      cases hhead
    | cons first' others =>
      rw [hlines] at hhead hname hcount hsublist hsublist'
      obtain rfl := Option.some.inj hhead
      rw [filter_cons_of_neg (by simp [(header_untyped hfirst).1])] at hcount hsublist
      rw [filter_cons_of_neg (by simp [(header_untyped hfirst).2])] at hsublist'
      have hsame := hsublist.eq_of_length (hcount.mpr hwhole)
      refine ⟨_, sessionInfo_cons.mpr ⟨htype, hreadable, rfl⟩,
        sessionInfo_cons.mpr ⟨hfirst, fun entry hentry => ⟨fun h => ?_, fun h => ?_⟩, ?_⟩⟩
      · have hmem := List.mem_filter.mp (hsublist'.mem (List.mem_filter.mpr ⟨hentry, h⟩))
        exact (hreadable entry hmem.1).name h
      · have hmem := List.mem_filter.mp (hsublist.mem (List.mem_filter.mpr ⟨hentry, h⟩))
        exact (hreadable entry hmem.1).message h
      · refine info_congr hid.symm ?_ htype hfirst hsame.symm
        rw [← hvalues, ← hnames, hname]

/-! ## A name with a line separator -/

/-- Without the separators the list shows the session. -/
theorem listedAlike_of_whole {G : JsonGrammar} {text : Text} {header : Json} {rest : List Json}
    (hvalues : (textLines text).filterMap (lineValue G.parser) = header :: rest)
    (htype : isSessionType (property "type" header) = true)
    (hwritten : ∀ line ∈ textLines text, WrittenLine line) (hreturn : '\r' ∉ text)
    (hwhole : ∀ line ∈ textLines text, line.any isSeparator = false) :
    ListedAlike G.parser text header := by
  have hlines : (textLines text).filter (fun line => !line.any isSeparator) = textLines text :=
    List.filter_eq_self.mpr fun line hline => by rw [hwhole line hline]; rfl
  have hread : (readlineLines text).filterMap (lineValue G.parser) = header :: rest := by
    rw [filterMap_readlineLines hreturn, ← hvalues, filterMap_eq_flatMap_toList]
    refine flatMap_congr fun line hline => ?_
    have hpieces := pieces_values (G := G) (hwritten line hline)
    rwa [hwhole line hline, if_neg Bool.false_ne_true] at hpieces
  refine ⟨⟨header, by rw [hread]; rfl, htype, rfl⟩, fun line hline hseparated => ?_, by rw [hlines]⟩
  rw [hwhole line hline] at hseparated
  cases hseparated

/-- The fields of an object of texts, up to its end. -/
def readFields : List Frames.Symbol → Option (List (JsString × Json))
  | .string name :: .outside c :: .string value :: .outside d :: rest =>
    if c ≠ 0x3A then none
    else if d = 0x7D then if rest = [] then some [(name, .str value)] else none
    else if d = 0x2C then (readFields rest).map ((name, .str value) :: ·)
    else none
  | _ => none

/-- JSON as far as it is objects of texts. -/
def readObject : List Frames.Symbol → Option Json
  | .outside c :: rest => if c = 0x7B then (readFields rest).map .obj else none
  | _ => none

theorem readFields_spec {symbols : List Frames.Symbol} {fields : List (JsString × Json)}
    (h : readFields symbols = some fields) :
    .outside Frames.backslash ∉ symbols ∧ ∀ field ∈ fields, .string field.1 ∈ symbols := by
  have hcolon : Frames.backslash ≠ 0x3A := by decide
  have hcomma : Frames.backslash ≠ 0x2C := by decide
  have hend : Frames.backslash ≠ 0x7D := by decide
  fun_induction readFields symbols generalizing fields with
  | case2 name c value hc =>
    obtain rfl := Option.some.inj h
    simp_all
  | case4 name c value rest hc hd ih =>
    obtain ⟨tail, htail, rfl⟩ := Option.map_eq_some_iff.mp h
    obtain ⟨hnone, hnames⟩ := ih htail
    refine ⟨by simp_all, List.forall_mem_cons.mpr ⟨by simp, fun field hfield => ?_⟩⟩
    simp [hnames field hfield]
  | _ => cases h

theorem readObject_spec {symbols : List Frames.Symbol} {v : Json}
    (h : readObject symbols = some v) : .outside Frames.backslash ∉ symbols ∧
      ∃ fields, v = .obj fields ∧ ∀ field ∈ fields, .string field.1 ∈ symbols := by
  have hopen : Frames.backslash ≠ 0x7B := by decide
  unfold readObject at h
  split at h
  · split at h
    · rename_i c rest hc
      obtain ⟨fields, hfields, rfl⟩ := Option.map_eq_some_iff.mp h
      obtain ⟨hnone, hnames⟩ := readFields_spec hfields
      exact ⟨by simp_all, fields, rfl, fun field hfield =>
        mem_cons_of_mem _ (hnames field hfield)⟩
    · cases h
  · cases h

def objectGrammar : JsonGrammar where
  document := readObject
  noBackslash symbols hmem := by
    cases hread : readObject symbols with
    | none => rfl
    | some v => exact absurd hmem (readObject_spec hread).1
  names symbols fields h := by
    obtain ⟨-, fields', heq, hnames⟩ := readObject_spec h
    exact Json.obj.inj heq ▸ hnames

/-- A decoder that takes byte by byte. -/
def stepDecoder (step : Nat → UInt8 → Nat × Text) (finish : Nat → Text)
    (hfinish : ∀ state, '\n' ∉ finish state) : StringDecoder where
  State := Nat
  start := 0
  write state bytes := bytes.foldl (fun told byte =>
    ((step told.1 byte).1, told.2 ++ (step told.1 byte).2)) (state, [])
  finish := finish
  decode bytes :=
    let told := bytes.foldl (fun told byte =>
      ((step told.1 byte).1, told.2 ++ (step told.1 byte).2)) ((0, []) : Nat × Text)
    told.2 ++ finish told.1
  run_finish pieces := by
    have hshift (bytes : List UInt8) (state : Nat) (text : Text) :
        bytes.foldl (fun told byte => ((step told.1 byte).1, told.2 ++ (step told.1 byte).2))
          (state, text)
        = ((bytes.foldl (fun told byte => ((step told.1 byte).1, told.2 ++ (step told.1 byte).2))
            (state, [])).1, text ++ (bytes.foldl (fun told byte =>
              ((step told.1 byte).1, told.2 ++ (step told.1 byte).2)) (state, [])).2) := by
      induction bytes generalizing state text with
      | nil => simp
      | cons byte bytes ih =>
        rw [foldl_cons, foldl_cons, ih, ih _ ([] ++ _)]
        simp
    suffices h : ∀ told : Nat × Text, pieces.foldl (fun told bytes =>
        ((bytes.foldl (fun told byte => ((step told.1 byte).1, told.2 ++ (step told.1 byte).2))
          (told.1, [])).1, told.2 ++ (bytes.foldl (fun told byte =>
            ((step told.1 byte).1, told.2 ++ (step told.1 byte).2)) (told.1, [])).2)) told
        = pieces.flatten.foldl (fun told byte =>
            ((step told.1 byte).1, told.2 ++ (step told.1 byte).2)) told from
      congrArg (fun told : Nat × Text => told.2 ++ finish told.1) (h (0, []))
    induction pieces with
    | nil => exact fun told => rfl
    | cons bytes pieces ih =>
      intro told
      rw [foldl_cons, flatten_cons, foldl_append, ih, ← hshift]
  finish_line := hfinish

/-- UTF-8 as far as the characters are ASCII or U+2028. -/
def separatorStep : Nat → UInt8 → Nat × Text
  | 0, byte => if byte = 0xE2 then (1, []) else (0, [Char.ofNat byte.toNat])
  | 1, byte => if byte = 0x80 then (2, []) else (0, [Char.ofNat 0xFFFD])
  | _, byte => if byte = 0xA8 then (0, [lineSeparator]) else (0, [Char.ofNat 0xFFFD])

def separatorDecoder : StringDecoder :=
  stepDecoder separatorStep (fun state => if state = 0 then [] else [Char.ofNat 0xFFFD]) (by
    intro state
    split <;> decide)

/-- A header, and a name with the given bytes in it. -/
def namedFile (name : List UInt8) : List UInt8 :=
  (headerLine ++ ['\n', '\x7b', '"', 't', 'y', 'p', 'e', '"', ':', '"', 's', 'e', 's', 's', 'i', 'o',
    'n', '_', 'i', 'n', 'f', 'o', '"', ',', '"', 'n', 'a', 'm', 'e', '"', ':', '"']).map
      (fun c => UInt8.ofNat c.toNat) ++ name ++ [0x22, 0x7D]

def plainPiece : Frames.Piece → Bool
  | .outside c => c ∈ plainUnits
  | _ => true

theorem writtenLine_of_all {line : Text}
    (h : (!line.contains '\r' && (Frames.pieces (units line)).all plainPiece) = true) :
    WrittenLine line := by
  rw [Bool.and_eq_true, List.all_eq_true] at h
  refine ⟨by simpa using h.1, fun c hc => ?_⟩
  simpa [plainPiece] using h.2 _ hc

theorem listing_iff_sample :
    ∃ info, sessionInfo (fun _ => []) (loadEntriesFromFile objectGrammar.parser separatorDecoder
        (fun _ => 1) (namedFile [0x62])).1 = some info ∧
      buildSessionInfo (fun _ => []) objectGrammar.parser
        (separatorDecoder.decode (namedFile [0x62])) = some info := by
  have hwritten : ∀ line ∈ textLines (separatorDecoder.decode (namedFile [0x62])),
      WrittenLine line := by
    have hall : ∀ line ∈ textLines (separatorDecoder.decode (namedFile [0x62])),
        (!line.contains '\r' && (Frames.pieces (units line)).all plainPiece) = true := by
      decide +kernel
    exact fun line hline => writtenLine_of_all (hall line hline)
  have hwhole : ∀ line ∈ textLines (separatorDecoder.decode (namedFile [0x62])),
      line.any isSeparator = false := by decide +kernel
  have hreturn : '\r' ∉ separatorDecoder.decode (namedFile [0x62]) := by decide +kernel
  have hlength : ((textLines (separatorDecoder.decode (namedFile [0x62]))).filterMap
      (lineValue objectGrammar.parser)).length = 2 := by decide +kernel
  have hheader : ((textLines (separatorDecoder.decode (namedFile [0x62]))).filterMap
      (lineValue objectGrammar.parser)).head?.any isHeader = true := by decide +kernel
  have hsome : (sessionInfo (fun _ => []) ((textLines (separatorDecoder.decode
      (namedFile [0x62]))).filterMap (lineValue objectGrammar.parser))).isSome = true := by
    decide +kernel
  obtain ⟨header, entry, hvalues⟩ := List.length_eq_two.mp hlength
  have hload : (loadEntriesFromFile objectGrammar.parser separatorDecoder (fun _ => 1)
      (namedFile [0x62])).1 = [header, entry] := by
    rw [loadEntriesFromFile_eq, sessionValues, if_pos hheader, hvalues]
  rw [hvalues] at hsome
  obtain ⟨info, hinfo⟩ := Option.isSome_iff_exists.mp hsome
  obtain ⟨htype, hreadable, -⟩ := sessionInfo_cons.mp hinfo
  exact (listing_iff (fun _ => []) objectGrammar separatorDecoder (fun _ => 1) (namedFile [0x62])
    hload hwritten).mpr ⟨hreadable, listedAlike_of_whole hvalues htype hwritten hreturn hwhole⟩

/-- A name with U+2028 in it is shown by the session, and not in the list. -/
theorem not_listing :
    (loadEntriesFromFile objectGrammar.parser separatorDecoder (fun _ => 1)
        (namedFile [0x62, 0xE2, 0x80, 0xA8, 0x63])).1 ≠ [] ∧
      (∀ line ∈ textLines (separatorDecoder.decode (namedFile [0x62, 0xE2, 0x80, 0xA8, 0x63])),
        WrittenLine line) ∧
      ¬ ∃ info, sessionInfo (fun _ => []) (loadEntriesFromFile objectGrammar.parser
          separatorDecoder (fun _ => 1) (namedFile [0x62, 0xE2, 0x80, 0xA8, 0x63])).1 = some info ∧
        buildSessionInfo (fun _ => []) objectGrammar.parser
          (separatorDecoder.decode (namedFile [0x62, 0xE2, 0x80, 0xA8, 0x63])) = some info := by
  have hall : ∀ line ∈ textLines (separatorDecoder.decode (namedFile [0x62, 0xE2, 0x80, 0xA8, 0x63])),
      (!line.contains '\r' && (Frames.pieces (units line)).all plainPiece) = true := by
    decide +kernel
  have hlength : (sessionValues ((textLines (separatorDecoder.decode
      (namedFile [0x62, 0xE2, 0x80, 0xA8, 0x63]))).filterMap
        (lineValue objectGrammar.parser))).length = 2 := by decide +kernel
  have hopened : (sessionInfo (fun _ => []) (sessionValues ((textLines (separatorDecoder.decode
      (namedFile [0x62, 0xE2, 0x80, 0xA8, 0x63]))).filterMap (lineValue objectGrammar.parser)))).map
        SessionInfo.name = some (some [0x62, 0x2028, 0x63]) := by decide +kernel
  have hlisted : (buildSessionInfo (fun _ => []) objectGrammar.parser (separatorDecoder.decode
      (namedFile [0x62, 0xE2, 0x80, 0xA8, 0x63]))).map SessionInfo.name = some none := by
    decide +kernel
  rw [loadEntriesFromFile_eq]
  refine ⟨fun hnil => ?_, fun line hline => writtenLine_of_all (hall line hline), ?_⟩
  · rw [hnil] at hlength
    cases hlength
  · rintro ⟨info, hsession, hlist⟩
    rw [hsession] at hopened
    rw [hlist] at hlisted
    exact absurd (hopened.symm.trans hlisted) (by decide)

end ReflectivePi.Session.Discovery
