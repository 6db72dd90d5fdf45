import ReflectivePi.Delta.Json
import ReflectivePi.Lib.Lines

/-!
# Rpc — Jsonl

Records of one line each over a stream of bytes. The reader works on the pieces
of text that the decoder makes of the chunks, and takes lines off its buffer
while there is a newline in it.
-/

namespace ReflectivePi.Rpc

open List
open Delta (JsString)

def newline : UInt16 := 10

def carriageReturn : UInt16 := 13

/-- `JSON.stringify`: control characters are escaped, so that the text of a value
has neither a newline nor a carriage return. -/
structure Stringify (ν : Type) where
  stringify : ν → JsString
  newline_notMem : ∀ v, newline ∉ stringify v
  carriageReturn_notMem : ∀ v, carriageReturn ∉ stringify v

def serializeJsonLine {ν : Type} (json : Stringify ν) (value : ν) : JsString :=
  json.stringify value ++ [newline]

def emitLine (line : JsString) : JsString :=
  if line.getLast? = some carriageReturn then line.dropLast else line

/-- The loop of `onData`: the lines it emits and the buffer it leaves. -/
def drain (buffer : JsString) : List JsString × JsString :=
  if newline ∈ buffer then
    let (lines, rest) := drain (buffer.drop (buffer.idxOf newline + 1))
    (emitLine (buffer.take (buffer.idxOf newline)) :: lines, rest)
  else ([], buffer)
termination_by buffer.length
decreasing_by
  have := idxOf_lt_length_of_mem ‹newline ∈ buffer›
  simp only [length_drop]
  omega

/-- `onData`, after the lines that were emitted before. -/
def onData (read : List JsString × JsString) (piece : JsString) : List JsString × JsString :=
  let (lines, buffer) := drain (read.2 ++ piece)
  (read.1 ++ lines, buffer)

def onEnd (read : List JsString × JsString) (final : JsString) : List JsString :=
  let buffer := read.2 ++ final
  if buffer.length > 0 then read.1 ++ [emitLine buffer] else read.1

/-- Everything the reader hands on of a stream that ends: `pieces` is what
`decoder.write` returns for its chunks, and `final` what `decoder.end` returns. -/
def readLines (pieces : List JsString) (final : JsString) : List JsString :=
  onEnd (pieces.foldl onData ([], [])) final

/-! ## What is read -/

theorem drain_line {line : JsString} (h : newline ∉ line) (rest : JsString) :
    drain (line ++ newline :: rest) = (emitLine line :: (drain rest).1, (drain rest).2) := by
  have hindex : (line ++ newline :: rest).idxOf newline = line.length := by
    simp [idxOf_append, h]
  rw [drain, if_pos (by simp), hindex]
  simp

theorem drain_eq (buffer : JsString) :
    drain buffer = ((Lines.split newline buffer).1.map emitLine, (Lines.split newline buffer).2) := by
  induction hlength : buffer.length using Nat.strongRecOn generalizing buffer with
  | ind n ih =>
  by_cases hmem : newline ∈ buffer
  · obtain ⟨line, rest, rfl, hline⟩ := eq_append_cons_of_mem hmem
    have hsplit : Lines.split newline (line ++ newline :: rest)
        = (line :: (Lines.split newline rest).1, (Lines.split newline rest).2) := by
      rw [append_cons, Lines.split_append, Lines.feed, Lines.split_line newline hline]
      rfl
    have hshorter : rest.length < n := by
      rw [← hlength, length_append, length_cons]
      omega
    rw [drain_line hline, ih rest.length hshorter rest rfl, hsplit]
    rfl
  · rw [drain, if_neg hmem, Lines.split_of_notMem newline hmem]
    rfl

theorem onData_eq (read : List JsString × JsString) (piece : JsString) :
    onData (read.1.map emitLine, read.2) piece =
      ((Lines.feed newline read piece).1.map emitLine, (Lines.feed newline read piece).2) := by
  rw [onData, drain_eq, Lines.feed]
  simp

/-- However the text was cut, the lines are those of the text. -/
theorem foldl_onData (pieces : List JsString) :
    pieces.foldl onData ([], []) = ((Lines.split newline pieces.flatten).1.map emitLine,
        (Lines.split newline pieces.flatten).2) := by
  rw [← Lines.foldl_feed]
  induction pieces using List.reverseRecOn with
  | nil => rfl
  | append_singleton pieces piece ih =>
    rw [foldl_append, foldl_append, ih]
    exact onData_eq _ piece

theorem emitLine_stringify {ν : Type} (json : Stringify ν) (v : ν) :
    emitLine (json.stringify v) = json.stringify v := by
  refine if_neg fun hlast => json.carriageReturn_notMem v ?_
  exact mem_of_getLast? hlast

theorem split_records {ν : Type} (json : Stringify ν) (records : List ν) :
    Lines.split newline (records.flatMap (serializeJsonLine json)) =
      (records.map json.stringify, []) := by
  induction records using List.reverseRecOn with
  | nil => rfl
  | append_singleton records v ih =>
    have hrest : (Lines.split newline (records.flatMap (serializeJsonLine json))).2 = [] := by
      rw [ih]
    rw [flatMap_append, flatMap_singleton, serializeJsonLine,
      Lines.split_append_line newline hrest (json.newline_notMem v), ih, map_append]
    rfl

/-- **The records come back**, however their text is cut into pieces. The decoder
has nothing left at the end, as the bytes of a record are whole. -/
theorem readLines_records {ν : Type} (json : Stringify ν) (records : List ν)
    (pieces : List JsString) (h : pieces.flatten = records.flatMap (serializeJsonLine json)) :
    readLines pieces [] = records.map json.stringify := by
  rw [readLines, foldl_onData, h, split_records, onEnd]
  simp only [append_nil, length_nil, Nat.lt_irrefl, if_false, map_map]
  exact map_congr_left fun v _ => emitLine_stringify json v

end ReflectivePi.Rpc
