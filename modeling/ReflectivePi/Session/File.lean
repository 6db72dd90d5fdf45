import ReflectivePi.Lib.Lines
import ReflectivePi.Session.Live

/-!
# Session — File

The text of a session file: one JSON value a line. A read goes through the
file in chunks, skips what is blank or malformed, and ends a last line that
has no newline. What JSON makes of an entry is a parameter, with what a
round trip needs of it.
-/

namespace ReflectivePi.Session

open List Lines

abbrev Text := List Char

/-- What `trim` takes away. -/
def isWhitespace (c : Char) : Bool :=
  c.toNat ∈ [0x20, 0xA0, 0x1680, 0x2028, 0x2029, 0x202F, 0x205F, 0x3000, 0xFEFF]
    || (0x9 ≤ c.toNat && c.toNat ≤ 0xD) || (0x2000 ≤ c.toNat && c.toNat ≤ 0x200A)

/-- `JSON.stringify` and `JSON.parse` on entries: `parse` is `none` where
the text is malformed. A written entry is read back, and is one line. -/
structure LineFormat where
  stringify : FileEntry → Text
  parse : Text → Option FileEntry
  parse_stringify : ∀ e, parse (stringify e) = some e
  one_line : ∀ e, '\n' ∉ stringify e
  not_blank : ∀ e, (stringify e).all isWhitespace = false

namespace LineFormat

variable (F : LineFormat)

def parseSessionEntryLine (line : Text) : Option FileEntry :=
  if line.all isWhitespace then none else F.parse line

/-- The entries read so far and the start of the next line. -/
structure ReadState where
  entries : List FileEntry
  pending : Text

/-- One chunk: its complete lines are parsed, the rest is kept. -/
def readChunk (r : ReadState) (chunk : Text) : ReadState :=
  let (lines, pending) := split '\n' (r.pending ++ chunk)
  ⟨r.entries ++ lines.filterMap F.parseSessionEntryLine, pending⟩

/-- The entries of a text read in chunks, and whether a last line without
a newline is there to be ended. -/
def loadEntriesFromFile (chunks : List Text) : List FileEntry × Bool :=
  let r := chunks.foldl F.readChunk ⟨[], []⟩
  let entries := r.entries ++ (F.parseSessionEntryLine r.pending).toList
  match entries with
  | .session _ :: _ => (entries, !r.pending.isEmpty)
  | _ => ([], false)

/-! ## Writing -/

/-- One entry as it is written. -/
def line (e : FileEntry) : Text := F.stringify e ++ ['\n']

/-- The text is complete lines that parse to `entries`. -/
def Holds (text : Text) (entries : List FileEntry) : Prop :=
  (split '\n' text).2 = [] ∧ (split '\n' text).1.filterMap F.parseSessionEntryLine = entries

theorem parseSessionEntryLine_stringify (e : FileEntry) :
    F.parseSessionEntryLine (F.stringify e) = some e := by
  rw [parseSessionEntryLine, F.not_blank, F.parse_stringify]
  rfl

theorem parseSessionEntryLine_nil : F.parseSessionEntryLine [] = none := rfl

variable {F} {text : Text} {entries : List FileEntry}

theorem holds_nil : F.Holds [] [] := ⟨rfl, rfl⟩

/-- **An appended line is one more entry.** -/
theorem Holds.append (h : F.Holds text entries) (e : FileEntry) :
    F.Holds (text ++ F.line e) (entries ++ [e]) := by
  have hsplit := split_append_line '\n' h.1 (F.one_line e)
  refine ⟨?_, ?_⟩
  · rw [line, hsplit]
  · rw [line, hsplit, filterMap_append, h.2]
    simp [F.parseSessionEntryLine_stringify]

theorem holds_lines (entries : List FileEntry) : F.Holds (entries.flatMap F.line) entries := by
  induction entries using List.reverseRecOn with
  | nil => exact holds_nil
  | append_singleton entries e ih =>
    rw [flatMap_append, flatMap_singleton]
    exact ih.append e

theorem foldl_readChunk (chunks : List Text) :
    chunks.foldl F.readChunk ⟨[], []⟩
      = ⟨(split '\n' chunks.flatten).1.filterMap F.parseSessionEntryLine,
          (split '\n' chunks.flatten).2⟩ := by
  induction chunks using List.reverseRecOn with
  | nil => rfl
  | append_singleton chunks chunk ih =>
    rw [foldl_append, ih, flatten_append, split_append]
    simp [readChunk, feed]

/-- **What is held is what is loaded**, once a header comes first. -/
theorem Holds.load (h : F.Holds text entries) {header : SessionHeader}
    {rest : List FileEntry} (hheader : entries = .session header :: rest)
    {chunks : List Text} (hchunks : chunks.flatten = text) :
    F.loadEntriesFromFile chunks = (entries, false) := by
  rw [loadEntriesFromFile, foldl_readChunk, hchunks, h.1, h.2]
  simp [parseSessionEntryLine_nil, hheader]

theorem holds_of_load {chunks : List Text} {ended : Bool}
    (hload : F.loadEntriesFromFile chunks = (entries, ended)) (hentries : entries ≠ []) :
    F.Holds (chunks.flatten ++ if ended then ['\n'] else []) entries := by
  rw [loadEntriesFromFile, foldl_readChunk] at hload
  generalize chunks.flatten = text at hload ⊢
  simp only at hload
  split at hload
  · obtain ⟨rfl, rfl⟩ := Prod.mk.inj hload
    cases hpending : (split '\n' text).2 with
    | nil =>
      refine ⟨?_, ?_⟩
      · simpa using hpending
      · simp [parseSessionEntryLine_nil]
    | cons c pending =>
      refine ⟨?_, ?_⟩
      · simp [split_end]
      · cases hparse : F.parseSessionEntryLine (c :: pending) <;>
          simp [split_end, hpending, hparse]
  · obtain ⟨rfl, -⟩ := Prod.mk.inj hload
    exact absurd rfl hentries

end LineFormat

end ReflectivePi.Session
