import Mathlib.Algebra.Ring.Nat
import ReflectivePi.Tui.Editor.Text

/-!
# Tui — Editor segments

A segmenter cuts a text into graphemes or into words; which ones is Unicode's
affair. The segments of a text follow one another.
-/

namespace ReflectivePi.Tui

open List

/-- `Intl.SegmentData`. -/
structure Segment where
  text : Text
  index : Nat
  isWordLike : Bool := false

def Segment.stop (segment : Segment) : Nat := segment.index + segment.text.length

/-- The segments of a text one after the other, from an index on. -/
def indexed (index : Nat) : List (Text × Bool) → List Segment
  | [] => []
  | (text, isWordLike) :: rest =>
    { text, index, isWordLike } :: indexed (index + text.length) rest

/-- `Intl.Segmenter`: the pieces of a text, and which of them are words. -/
structure Segmenter where
  run : Text → List (Text × Bool)
  partition : ∀ text, ((run text).map Prod.fst).flatten = text
  nonempty : ∀ text, ∀ piece ∈ run text, piece.1 ≠ []

/-- `segmenter.segment(text)`. -/
def Segmenter.segment (segmenter : Segmenter) (text : Text) : List Segment :=
  indexed 0 (segmenter.run text)

/-- Segments between two positions, in order and without an overlap. -/
def InOrder (low high : Nat) : List Segment → Prop
  | [] => low ≤ high
  | segment :: segments =>
    low ≤ segment.index ∧ segment.text ≠ [] ∧ InOrder segment.stop high segments

theorem indexed_inOrder (index : Nat) (pieces : List (Text × Bool))
    (h : ∀ piece ∈ pieces, piece.1 ≠ []) :
    InOrder index (index + (pieces.map Prod.fst).flatten.length) (indexed index pieces) := by
  induction pieces generalizing index with
  | nil => exact Nat.le_refl _
  | cons piece pieces ih =>
    obtain ⟨text, isWordLike⟩ := piece
    rw [map_cons, flatten_cons, length_append, ← Nat.add_assoc]
    exact ⟨Nat.le_refl _, h _ mem_cons_self,
      ih _ fun piece hmem => h piece (mem_cons_of_mem _ hmem)⟩

theorem segment_inOrder (segmenter : Segmenter) (text : Text) :
    InOrder 0 text.length (segmenter.segment text) := by
  have h := indexed_inOrder 0 (segmenter.run text) (segmenter.nonempty text)
  rwa [segmenter.partition, Nat.zero_add] at h

end ReflectivePi.Tui
