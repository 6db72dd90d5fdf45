import ReflectivePi.Delta.Json
import ReflectivePi.Session.File

/-!
# Session — Discovery

Two readers of a session file: `loadEntriesFromFile` parses all of it, and
`readSessionHeader` looks only for the first entry. Both read the bytes in pieces of
whatever sizes the system returns, with buffers of different lengths, and carry the
start of a line from one piece to the next.
-/

namespace ReflectivePi.Session.Discovery

open List
open Delta (Json js)
open Lines

/-! ## Values -/

/-- `value.name` of a parsed value, `none` for `undefined`. -/
def property (name : String) : Json → Option Json
  | .obj fields => InsertionMap.findEntry (js name) fields
  | _ => none

def truthy : Json → Bool
  | .null => false
  | .bool b => b
  | .num n => n ≠ 0
  | .str s => !s.isEmpty
  | .arr _ => true
  | .obj _ => true

def isString : Option Json → Bool
  | some (.str _) => true
  | _ => false

def isSessionType : Option Json → Bool
  | some (.str s) => s = js "session"
  | _ => false

/-- A session header with a string id. -/
def isHeader (entry : Json) : Bool :=
  isSessionType (property "type" entry) && isString (property "id" entry)

/-- `JSON.parse`, `none` where it throws, as it does for a blank line. -/
structure JsonParse where
  parse : Text → Option Json
  blank : ∀ line : Text, line.all isWhitespace = true → parse line = none

/-- `StringDecoder` without what it makes of the bytes. -/
structure Decoder where
  State : Type
  start : State
  write : State → List UInt8 → State × Text
  finish : State → Text

namespace Decoder

variable (D : Decoder)

/-- One piece after what was put out before it. -/
def feed (told : D.State × Text) (bytes : List UInt8) : D.State × Text :=
  let (state, text) := D.write told.1 bytes
  (state, told.2 ++ text)

def run (pieces : List (List UInt8)) : D.State × Text := pieces.foldl D.feed (D.start, [])

/-- The decoder has been given `bytes` in some pieces and has put out `text`. -/
def Told (state : D.State) (bytes : List UInt8) (text : Text) : Prop :=
  ∃ pieces : List (List UInt8), pieces.flatten = bytes ∧ D.run pieces = (state, text)

end Decoder

/-- `StringDecoder` for UTF-8: it puts out the decoding of all bytes, however they come
in, and at the end only what stands for an incomplete character. -/
structure StringDecoder extends Decoder where
  decode : List UInt8 → Text
  run_finish : ∀ pieces : List (List UInt8),
    (toDecoder.run pieces).2 ++ finish (toDecoder.run pieces).1 = decode pieces.flatten
  finish_line : ∀ state, '\n' ∉ finish state

/-! ## Reading -/

/-- `readSync` into a buffer of the given length: `size` is how many bytes the system
would return. Nothing is read only at the end of the file. -/
def readSync (size length : Nat) (file : List UInt8) : List UInt8 × List UInt8 :=
  file.splitAt (max 1 (min size length))

theorem readSync_append (size length : Nat) (file : List UInt8) :
    (readSync size length file).1 ++ (readSync size length file).2 = file := by
  simp [readSync]

theorem readSync_eq_nil {size length : Nat} {file : List UInt8} :
    (readSync size length file).1 = [] ↔ file = [] := by
  simp only [readSync, splitAt_eq, take_eq_nil_iff]
  simp

theorem readSync_shorter {size length : Nat} {file : List UInt8}
    (h : (readSync size length file).1 ≠ []) :
    (readSync size length file).2.length < file.length := by
  have hpos := List.length_pos_iff.mpr h
  have hlength := congrArg List.length (readSync_append size length file)
  rw [length_append] at hlength
  omega

def SESSION_READ_BUFFER_SIZE : Nat := 1024 * 1024
def SESSION_HEADER_READ_BUFFER_SIZE : Nat := 4096
def MAX_SESSION_HEADER_SCAN_BYTES : Nat := 1024 * 1024

section

variable (J : JsonParse) (D : StringDecoder)
-- how many bytes the reads return
variable (sizes : Nat → Nat)

/-- `null` for a blank or malformed line. -/
def parseSessionEntryLine (line : Text) : Json :=
  if line.all isWhitespace then .null else (J.parse line).getD .null

/-- The entry that is kept of a line. -/
def keptEntry (line : Text) : Option Json :=
  let entry := parseSessionEntryLine J line
  if truthy entry then some entry else none

structure Load where
  decoder : D.State
  entries : List Json
  pending : Text

def Load.chunk (r : Load D) (bytes : List UInt8) : Load D :=
  let (decoder, text) := D.write r.decoder bytes
  let (lines, pending) := split '\n' (r.pending ++ text)
  ⟨decoder, r.entries ++ lines.filterMap (keptEntry J), pending⟩

/-- The loop of `loadEntriesFromFile`. -/
def loadLoop (n : Nat) (r : Load D) (file : List UInt8) : Load D :=
  let read := readSync (sizes n) SESSION_READ_BUFFER_SIZE file
  if _h : read.1 = [] then r else loadLoop (n + 1) (r.chunk J D read.1) read.2
termination_by file.length
decreasing_by exact readSync_shorter _h

/-- The entries, and whether a last line without a newline is ended in the file. -/
def loadEntriesFromFile (file : List UInt8) : List Json × Bool :=
  let r := loadLoop J D sizes 0 ⟨D.start, [], []⟩ file
  let pending := r.pending ++ D.finish r.decoder
  let entries := r.entries ++ (keptEntry J pending).toList
  match entries with
  | [] => ([], false)
  | header :: rest =>
    if isHeader header then (header :: rest, !pending.isEmpty) else ([], false)

/-- `undefined` is `none`, which keeps scanning; `null` is `some none`. -/
def parseSessionHeaderCandidate (line : Text) : Option (Option Json) :=
  if line.all isWhitespace then none
  else
    let entry := parseSessionEntryLine J line
    if truthy entry then some (if isHeader entry then some entry else none) else none

/-- The complete lines of a piece, the first behind what `line` holds: the first
candidate, or what is held after them. -/
def scanLines (line : Text) : List Text → Option (Option Json) × Text
  | [] => (none, line)
  | next :: lines =>
    match parseSessionHeaderCandidate J (line ++ next) with
    | some header => (some header, [])
    | none => scanLines [] lines

/-- `SessionHeaderScanLimitError`. -/
inductive ScanError where
  | limit

/-- The loop of `readSessionHeader`, and the probe for the end of the file behind it. -/
def scanLoop (n scannedBytes : Nat) (decoder : D.State) (line : Text) (file : List UInt8) :
    Except ScanError (Option Json) :=
  if scannedBytes < MAX_SESSION_HEADER_SCAN_BYTES then
    let readLength :=
      min SESSION_HEADER_READ_BUFFER_SIZE (MAX_SESSION_HEADER_SCAN_BYTES - scannedBytes)
    let read := readSync (sizes n) readLength file
    if _h : read.1 = [] then
      .ok ((parseSessionHeaderCandidate J (line ++ D.finish decoder)).getD none)
    else
      let (decoder, chunk) := D.write decoder read.1
      let (lines, rest) := split '\n' chunk
      match scanLines J line lines with
      | (some header, _) => .ok header
      | (none, line) =>
        scanLoop (n + 1) (scannedBytes + read.1.length) decoder (line ++ rest) read.2
  else if (readSync 1 1 file).1 = [] then
    .ok ((parseSessionHeaderCandidate J (line ++ D.finish decoder)).getD none)
  else .error .limit
termination_by file.length
decreasing_by exact readSync_shorter _h

def readSessionHeader (file : List UInt8) : Except ScanError (Option Json) :=
  scanLoop J D sizes 0 0 D.start [] file

/-- The newline-separated lines; the last one may be empty. -/
def textLines (text : Text) : List Text := (split '\n' text).1 ++ [(split '\n' text).2]

/-- The truthy JSON value of a line. -/
def lineValue (line : Text) : Option Json := (J.parse line).filter truthy

/-- Values that begin with a session header, or nothing. -/
def sessionValues (values : List Json) : List Json :=
  if values.head?.any isHeader then values else []

end

/-! ## Lines of pieces -/

variable {J : JsonParse} {D : StringDecoder} {sizes sizes' : Nat → Nat} {n : Nat}
  {line text : Text} {bytes file before : List UInt8} {state : D.State}

theorem keptEntry_eq (line : Text) : keptEntry J line = lineValue J line := by
  unfold keptEntry parseSessionEntryLine lineValue
  cases hblank : line.all isWhitespace with
  | true => simp [J.blank line hblank, truthy]
  | false =>
    cases J.parse line with
    | none => simp [truthy]
    | some v => rfl

/-- What a line says about the first entry. -/
def verdict (v : Json) : Option Json := if isHeader v then some v else none

theorem parseSessionHeaderCandidate_eq (line : Text) :
    parseSessionHeaderCandidate J line = (lineValue J line).map verdict := by
  rw [← keptEntry_eq]
  unfold parseSessionHeaderCandidate keptEntry
  cases hblank : line.all isWhitespace with
  | true => simp [parseSessionEntryLine, hblank, truthy]
  | false => cases h : truthy (parseSessionEntryLine J line) <;> simp [h, verdict]

theorem Decoder.Told.start : D.Told D.start [] [] := ⟨[], rfl, rfl⟩

theorem Decoder.Told.write (h : D.Told state before text) (bytes : List UInt8) :
    D.Told (D.write state bytes).1 (before ++ bytes) (text ++ (D.write state bytes).2) := by
  obtain ⟨pieces, rfl, hrun⟩ := h
  refine ⟨pieces ++ [bytes], by simp, ?_⟩
  simp only [Decoder.run] at hrun
  rw [Decoder.run, foldl_append, hrun]
  rfl

theorem Decoder.Told.finish (h : D.Told state bytes text) :
    text ++ D.finish state = D.decode bytes := by
  obtain ⟨pieces, rfl, hrun⟩ := h
  rw [← D.run_finish pieces, hrun]

theorem Decoder.Told.begins (h : D.Told state before text) (rest : List UInt8) :
    ∃ more, D.decode (before ++ rest) = text ++ more := by
  refine ⟨(D.write state rest).2 ++ D.finish (D.write state rest).1, ?_⟩
  rw [← (h.write rest).finish, append_assoc]

theorem textLines_finish (h : D.Told state bytes text) :
    textLines (D.decode bytes)
      = (split '\n' text).1 ++ [(split '\n' text).2 ++ D.finish state] := by
  have hrest : '\n' ∉ (split '\n' text).2 ++ D.finish state := by
    rw [mem_append, not_or]
    exact ⟨newline_notMem_pending '\n' text, D.finish_line state⟩
  rw [← h.finish, textLines, split_append, feed, split_of_notMem '\n' hrest]
  simp

variable (J) in
/-- The entries so far are those of the complete lines of what was put out. -/
structure LoadedSo (r : Load D) (before : List UInt8) (text : Text) : Prop where
  told : D.Told r.decoder before text
  entries : r.entries = (split '\n' text).1.filterMap (lineValue J)
  pending : r.pending = (split '\n' text).2

theorem LoadedSo.chunk {r : Load D} (h : LoadedSo J r before text) (bytes : List UInt8) :
    LoadedSo J (r.chunk J D bytes) (before ++ bytes) (text ++ (D.write r.decoder bytes).2) := by
  refine ⟨h.told.write bytes, ?_, ?_⟩
  · rw [split_append, feed, filterMap_append, ← h.entries, ← h.pending, Load.chunk]
    simp only [funext keptEntry_eq]
  · rw [split_append, feed, ← h.pending, Load.chunk]

theorem loadLoop_spec {r : Load D} (h : LoadedSo J r before text) :
    ∃ text', LoadedSo J (loadLoop J D sizes n r file) (before ++ file) text' := by
  induction hlength : file.length using Nat.strongRecOn generalizing n r before text file with
  | _ length ih =>
    rw [loadLoop]
    split
    · rename_i hend
      rw [readSync_eq_nil.mp hend, append_nil]
      exact ⟨text, h⟩
    · rename_i hread
      obtain ⟨text', h'⟩ := ih _ (hlength ▸ readSync_shorter hread) (h.chunk _) rfl
      refine ⟨text', ?_⟩
      rw [append_assoc, readSync_append] at h'
      exact h'

theorem filterMap_single (line : Text) :
    [line].filterMap (lineValue J) = (keptEntry J line).toList := by
  rw [keptEntry_eq]
  rfl

theorem loadEntriesFromFile_eq (file : List UInt8) :
    (loadEntriesFromFile J D sizes file).1
      = sessionValues ((textLines (D.decode file)).filterMap (lineValue J)) := by
  have hstart : LoadedSo J (⟨D.start, [], []⟩ : Load D) [] [] := ⟨.start, rfl, rfl⟩
  have hspec : ∃ text, LoadedSo J (loadLoop J D sizes 0 ⟨D.start, [], []⟩ file) ([] ++ file) text :=
    loadLoop_spec hstart
  obtain ⟨text, h⟩ := hspec
  rw [nil_append] at h
  rw [textLines_finish h.told, filterMap_append, ← h.entries, ← h.pending,
    filterMap_single, loadEntriesFromFile]
  split
  · rename_i hnil
    rw [hnil]
    rfl
  · rename_i header rest hcons
    rw [hcons, sessionValues]
    cases hheader : isHeader header <;> simp [hheader]

/-! ## The search for the header -/

theorem scanLines_cons (line next : Text) (lines : List Text) :
    scanLines J line (next :: lines)
      = match ((line ++ next) :: lines).findSome? (parseSessionHeaderCandidate J) with
        | some header => (some header, [])
        | none => (none, []) := by
  induction lines generalizing line next with
  | nil =>
    rw [scanLines, findSome?_cons]
    cases parseSessionHeaderCandidate J (line ++ next) <;> rfl
  | cons after lines ih =>
    rw [scanLines, findSome?_cons]
    cases parseSessionHeaderCandidate J (line ++ next) with
    | some header => rfl
    | none => exact ih [] after

/-- A piece behind the start of a line: either a line that it completes decides, or what
is held after them is the start of the next line. -/
theorem scanLines_spec (hline : '\n' ∉ line) (chunk : Text) :
    match scanLines J line (split '\n' chunk).1 with
    | (some header, _) =>
      (split '\n' (line ++ chunk)).1.findSome? (parseSessionHeaderCandidate J) = some header
    | (none, held) =>
      (split '\n' (line ++ chunk)).1.findSome? (parseSessionHeaderCandidate J) = none ∧
        (split '\n' (line ++ chunk)).2 = held ++ (split '\n' chunk).2 := by
  rw [split_start '\n' hline]
  cases hlines : (split '\n' chunk).1 with
  | nil => simp [scanLines]
  | cons next lines =>
    rw [scanLines_cons]
    cases hfind : ((line ++ next) :: lines).findSome? (parseSessionHeaderCandidate J) with
    | none => simp
    | some header => simp

variable (J) in
/-- No complete line of what was put out decides. -/
structure ScannedSo (decoder : D.State) (line : Text) (before : List UInt8) (text : Text) :
    Prop where
  told : D.Told decoder before text
  none : (split '\n' text).1.findSome? (parseSessionHeaderCandidate J) = none
  line : line = (split '\n' text).2

/-- The candidate that comes first in a text. -/
def firstCandidate (J : JsonParse) (text : Text) : Option (Option Json) :=
  (textLines text).findSome? (parseSessionHeaderCandidate J)

theorem ScannedSo.finish (h : ScannedSo J state line before text) :
    (parseSessionHeaderCandidate J (line ++ D.finish state))
      = firstCandidate J (D.decode before) := by
  rw [firstCandidate, textLines_finish h.told, findSome?_append, h.none, ← h.line]
  simp

theorem ScannedSo.findSome_chunk (h : ScannedSo J state line before text) (chunk : Text) :
    (split '\n' (text ++ chunk)).1.findSome? (parseSessionHeaderCandidate J)
      = (split '\n' (line ++ chunk)).1.findSome? (parseSessionHeaderCandidate J) := by
  rw [split_append, feed, findSome?_append, h.none, ← h.line]
  rfl

theorem ScannedSo.chunk {held : Text} (h : ScannedSo J state line before text) (bytes : List UInt8)
    (hnone : (split '\n' (line ++ (D.write state bytes).2)).1.findSome?
      (parseSessionHeaderCandidate J) = Option.none)
    (hheld : held = (split '\n' (line ++ (D.write state bytes).2)).2) :
    ScannedSo J (D.write state bytes).1 held (before ++ bytes)
      (text ++ (D.write state bytes).2) := by
  refine ⟨h.told.write bytes, ?_, ?_⟩
  · rw [h.findSome_chunk, hnone]
  · rw [hheld, split_append '\n' text, feed, ← h.line]

theorem firstCandidate_of_told {header : Option Json} (h : D.Told state before text)
    (hfind : (split '\n' text).1.findSome? (parseSessionHeaderCandidate J) = some header)
    (rest : List UInt8) : firstCandidate J (D.decode (before ++ rest)) = some header := by
  obtain ⟨more, hmore⟩ := h.begins rest
  rw [firstCandidate, textLines, hmore, split_append, feed, findSome?_append,
    findSome?_append, hfind]
  rfl

theorem scanLoop_spec {scannedBytes : Nat} {header : Option Json}
    (h : ScannedSo J state line before text)
    (hscan : scanLoop J D sizes n scannedBytes state line file = .ok header) :
    header = (firstCandidate J (D.decode (before ++ file))).getD none := by
  induction hlength : file.length using Nat.strongRecOn
    generalizing n scannedBytes state line before text file with
  | _ length ih =>
    rw [scanLoop] at hscan
    dsimp only at hscan
    split at hscan
    · split at hscan
      · rename_i hend
        rw [readSync_eq_nil.mp hend, append_nil, ← h.finish]
        exact (Except.ok.inj hscan).symm
      · rename_i hread
        have hline : '\n' ∉ line := h.line ▸ newline_notMem_pending '\n' text
        have hspec := scanLines_spec (J := J) hline (D.write state
          (readSync (sizes n) (min SESSION_HEADER_READ_BUFFER_SIZE
            (MAX_SESSION_HEADER_SCAN_BYTES - scannedBytes)) file).1).2
        have hshorter := readSync_shorter hread
        rw [← readSync_append (sizes n) (min SESSION_HEADER_READ_BUFFER_SIZE
          (MAX_SESSION_HEADER_SCAN_BYTES - scannedBytes)) file, ← append_assoc]
        split at hscan
        · rename_i found _ hfound
          rw [hfound] at hspec
          have hfirst := firstCandidate_of_told (h.told.write _) ((h.findSome_chunk _).trans hspec)
          rw [hfirst]
          exact (Except.ok.inj hscan).symm
        · rename_i held hheld
          rw [hheld] at hspec
          have hnext := h.chunk _ hspec.1 hspec.2.symm
          exact ih _ (hlength ▸ hshorter) hnext hscan rfl
    · split at hscan
      · rename_i hend
        rw [readSync_eq_nil.mp hend, append_nil, ← h.finish]
        exact (Except.ok.inj hscan).symm
      · cases hscan

theorem readSessionHeader_eq {header : Option Json}
    (h : readSessionHeader J D sizes file = .ok header) :
    header = (firstCandidate J (D.decode file)).getD none := by
  have hstart : ScannedSo J D.start [] [] [] := ⟨.start, rfl, rfl⟩
  exact scanLoop_spec hstart h

theorem firstCandidate_eq (text : Text) : (firstCandidate J text).getD none
    = (sessionValues ((textLines text).filterMap (lineValue J))).head? := by
  rw [firstCandidate]
  induction textLines text with
  | nil => rfl
  | cons line lines ih =>
    rw [findSome?_cons, filterMap_cons, parseSessionHeaderCandidate_eq]
    cases lineValue J line with
    | none => exact ih
    | some v => cases hv : isHeader v <;> simp [verdict, sessionValues, hv]

/-- However the reads cut the file, a full load returns the truthy JSON values of its
lines in order, or nothing when the first of them is no session header, and the search
for the header, unless it reaches its limit, returns the first entry of that. -/
theorem readSessionHeader_loadEntries (J : JsonParse) (D : StringDecoder)
    (sizes sizes' : Nat → Nat) (file : List UInt8) :
    (loadEntriesFromFile J D sizes file).1
        = sessionValues ((textLines (D.decode file)).filterMap (lineValue J)) ∧
      ∀ header, readSessionHeader J D sizes' file = .ok header →
        header = (loadEntriesFromFile J D sizes file).1.head? := by
  refine ⟨loadEntriesFromFile_eq file, ?_⟩
  intro header h
  rw [readSessionHeader_eq h, firstCandidate_eq, loadEntriesFromFile_eq]

/-! ## Falsy lines -/

def isNull : Json → Bool
  | .null => true
  | _ => false

/-- The JSON value of a line, unless it is `null`. -/
def nonNullValue (J : JsonParse) (line : Text) : Option Json :=
  (J.parse line).filter fun v => !isNull v

def headerLine : Text := "\x7b\"type\":\"session\",\"id\":\"a\"\x7d".toList

def headerValue : Json := .obj [(js "type", .str (js "session")), (js "id", .str (js "a"))]

/-- What `JSON.parse` makes of the two lines below. -/
def parseSample (line : Text) : Option Json :=
  if line = ['0'] then some (.num 0)
  else if line = headerLine then some headerValue
  else none

def sampleParse : JsonParse where
  parse := parseSample
  blank line h := by
    unfold parseSample
    split
    · rename_i hzero
      rw [hzero] at h
      exact absurd h (by decide)
    · split
      · rename_i hheader
        rw [hheader] at h
        exact absurd h (by decide)
      · rfl

def asciiText (bytes : List UInt8) : Text := bytes.map fun b => Char.ofNat b.toNat

/-- UTF-8 on bytes that each are a character. -/
def asciiDecoder : StringDecoder where
  State := Unit
  start := ()
  write _ bytes := ((), asciiText bytes)
  finish _ := []
  decode := asciiText
  run_finish pieces := by
    have hrun : ∀ text : Text, (pieces.foldl
        (Decoder.feed ⟨Unit, (), fun _ bytes => ((), asciiText bytes), fun _ => []⟩)
        ((), text)).2 = text ++ asciiText pieces.flatten := by
      induction pieces with
      | nil => simp [asciiText]
      | cons bytes pieces ih =>
        intro text
        rw [foldl_cons, Decoder.feed, ih]
        simp [asciiText]
    simpa [Decoder.run] using hrun []
  finish_line _ := not_mem_nil

/-- The line `0` before the header. -/
def zeroFile : List UInt8 := (['0', '\n'] ++ headerLine).map fun c => UInt8.ofNat c.toNat

/-- The value `0` is not `null`, and is skipped all the same. -/
theorem loadEntries_skips_zero :
    ¬ ∀ (J : JsonParse) (D : StringDecoder) (sizes : Nat → Nat) (file : List UInt8),
      (loadEntriesFromFile J D sizes file).1
        = sessionValues ((textLines (D.decode file)).filterMap (nonNullValue J)) := by
  intro h
  have hload := (loadEntriesFromFile_eq zeroFile).symm.trans
    (h sampleParse asciiDecoder (fun _ => 1) zeroFile)
  have hnone : (sessionValues ((textLines (asciiText zeroFile)).filterMap
      (nonNullValue sampleParse))).length = 0 := by decide
  have hone : (sessionValues ((textLines (asciiText zeroFile)).filterMap
      (lineValue sampleParse))).length = 1 := by decide
  have hlength := congrArg List.length hload
  exact absurd (hone.symm.trans (hlength.trans hnone)) (by decide)

end ReflectivePi.Session.Discovery
