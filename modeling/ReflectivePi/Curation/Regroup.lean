import ReflectivePi.Curation.Blocks

/-!
# Curation — Regroup

Grouping a list again after some of it is gone: as long as every block
keeps its first entry, each block is what it was without the entries that
are gone. A grouping is determined by its list (`groupFrom_flatMap`), so
the argument is about block lists of the right form (`Canonical`).
-/

namespace ReflectivePi.Curation

open List Session

/-! ## The form of a grouping -/

/-- What a block of a grouping holds. -/
structure Grouped (b : PruneBlock) : Prop where
  head : b.head.isSilent = false
  tail : ∀ e ∈ b.tail, e.isRawToolResult = true
  single : b.isToolExchange = false → b.tail = []
  messages : b.messages = none

/-- A block list a grouping can produce: no block could take the first
entry of the next one. -/
def Canonical : List PruneBlock → Prop
  | [] => True
  | b :: rest => Grouped b ∧ (∀ c ∈ rest.head?,
        (c.head.isRawToolResult && b.isToolExchange) = false) ∧
      Canonical rest

variable {b : PruneBlock} {l : List SessionEntry} {bs : List PruneBlock}

theorem head_groupFrom : ∀ c ∈ (groupFrom (some b) l).head?, c.head = b.head := by
  induction l generalizing b with
  | nil =>
    intro c hc
    cases hc
    rfl
  | cons e rest ih =>
    intro c hc
    unfold groupFrom at hc
    split at hc
    · exact ih c hc
    · simp only at hc
      split at hc
      · exact ih (b := b.push e) c hc
      · cases hc
        rfl

theorem canonical_groupFrom {last : Option PruneBlock}
    (hlast : ∀ b ∈ last, Grouped b) : Canonical (groupFrom last l) := by
  induction l generalizing last with
  | nil =>
    cases last with
    | none => exact trivial
    | some b => exact ⟨hlast b rfl, by simp, trivial⟩
  | cons e rest ih =>
    unfold groupFrom
    split
    · exact ih hlast
    · rename_i he
      rw [Bool.not_eq_true] at he
      have hfresh : Grouped { head := e, tail := [] } :=
        ⟨he, by simp, fun _ => rfl, rfl⟩
      cases last with
      | none => exact ih fun b hb => by cases hb; exact hfresh
      | some b =>
        have hb := hlast b rfl
        simp only
        split
        · rename_i hc
          rw [Bool.and_eq_true] at hc
          refine ih fun d hd => ?_
          cases hd
          refine ⟨hb.head, ?_, ?_, hb.messages⟩
          · intro x hx
            rcases List.mem_append.mp hx with hx | hx
            · exact hb.tail x hx
            · rw [List.mem_singleton.mp hx]
              exact hc.1
          · intro hn
            rw [PruneBlock.isToolExchange, PruneBlock.push] at hn
            rw [PruneBlock.isToolExchange, hn] at hc
            cases hc.2
        · rename_i hc
          refine ⟨hb, ?_, ih fun d hd => by cases hd; exact hfresh⟩
          intro c hcm
          rw [head_groupFrom c hcm]
          simpa using hc

theorem flatMap_groupFrom (last : Option PruneBlock) (l : List SessionEntry) :
    (groupFrom last l).flatMap PruneBlock.entries = last.toList.flatMap PruneBlock.entries
        ++ l.filter (fun e => !e.isSilent) := by
  induction l generalizing last with
  | nil => simp [groupFrom]
  | cons e rest ih =>
    unfold groupFrom
    cases he : e.isSilent with
    | true => simp [ih, he]
    | false =>
      rw [if_neg Bool.false_ne_true]
      cases last with
      | none => simp [ih, he, PruneBlock.entries]
      | some b =>
        simp only
        split
        · simp [ih, he, PruneBlock.entries, PruneBlock.push]
        · simp [ih, he, PruneBlock.entries]

theorem groupFrom_filter (last : Option PruneBlock) (l : List SessionEntry) :
    groupFrom last (l.filter (fun e => !e.isSilent)) = groupFrom last l := by
  induction l generalizing last with
  | nil => rfl
  | cons e rest ih =>
    cases he : e.isSilent with
    | true => simp [groupFrom, he, ih]
    | false =>
      rw [filter_cons_of_pos (by simp [he])]
      simp only [groupFrom, he, ih]

theorem groupFrom_fill {t : List SessionEntry}
    (hb : b.isToolExchange = true) (ht : ∀ e ∈ t, e.isRawToolResult = true) :
    groupFrom (some b) (t ++ l) = groupFrom (some { b with tail := b.tail ++ t }) l := by
  induction t generalizing b with
  | nil => simp
  | cons e t ih =>
    have he := ht e (by simp)
    rw [cons_append, groupFrom, SessionEntry.not_isSilent_of_isRawToolResult he]
    simp only [he, hb, Bool.and_self, if_true, Bool.false_eq_true, if_false]
    rw [ih (b := b.push e) hb fun x hx => ht x (mem_cons_of_mem _ hx)]
    simp [PruneBlock.push]

theorem groupFrom_tail (hb : Grouped b) (l : List SessionEntry) :
    groupFrom (some { head := b.head, tail := [] }) (b.tail ++ l) = groupFrom (some b) l := by
  obtain ⟨head, tail, messages⟩ := b
  obtain rfl : messages = none := hb.messages
  cases hex : (PruneBlock.mk head tail none).isToolExchange with
  | true =>
    have hfill := groupFrom_fill (b := { head := head, tail := [] }) (l := l) hex hb.tail
    rwa [nil_append] at hfill
  | false =>
    obtain rfl : tail = [] := hb.single hex
    rfl

theorem groupFrom_flatMap (h : Canonical bs)
    (hnext : ∀ c ∈ bs.head?, (c.head.isRawToolResult && b.isToolExchange) = false) :
    groupFrom (some b) (bs.flatMap PruneBlock.entries) = b :: bs := by
  induction bs generalizing b with
  | nil => rfl
  | cons c rest ih =>
    have hc := hnext c (by simp)
    rw [flatMap_cons, PruneBlock.entries, cons_append, groupFrom, h.1.head]
    simp only [hc, Bool.false_eq_true, if_false]
    rw [groupFrom_tail h.1, ih h.2.2 h.2.1]

theorem groupPruneBlocks_flatMap (h : Canonical bs) :
    groupPruneBlocks (bs.flatMap PruneBlock.entries) = bs := by
  cases bs with
  | nil => rfl
  | cons c rest =>
    rw [groupPruneBlocks, flatMap_cons, PruneBlock.entries, cons_append, groupFrom, h.1.head]
    simp only [Bool.false_eq_true, if_false]
    rw [groupFrom_tail h.1, groupFrom_flatMap h.2.2 h.2.1]

/-- A block without the entries of its tail that are gone. -/
def PruneBlock.keep (q : SessionEntry → Bool) (b : PruneBlock) : PruneBlock :=
  { b with tail := b.tail.filter q }

theorem Canonical.keep (h : Canonical bs)
    (q : SessionEntry → Bool) : Canonical (bs.map (PruneBlock.keep q)) := by
  induction bs with
  | nil => exact trivial
  | cons b rest ih =>
    refine ⟨⟨h.1.head, ?_, ?_, h.1.messages⟩, ?_, ih h.2.2⟩
    · exact fun e he => h.1.tail e (List.mem_filter.mp he).1
    · intro hex
      rw [PruneBlock.keep, h.1.single hex]
      rfl
    · intro c hc
      rw [head?_map] at hc
      obtain ⟨d, hd, rfl⟩ := Option.map_eq_some_iff.mp hc
      exact h.2.1 d hd

/-- **Nothing regroups** when entries go but no block loses its first. -/
theorem groupPruneBlocks_keep {q : SessionEntry → Bool}
    (hq : ∀ b ∈ groupPruneBlocks l, q b.head = true) :
    groupPruneBlocks (l.filter q) = (groupPruneBlocks l).map (PruneBlock.keep q) := by
  have hcanon : Canonical (groupPruneBlocks l) := canonical_groupFrom (by simp)
  have hflat : (groupPruneBlocks l).flatMap PruneBlock.entries
      = l.filter (fun e => !e.isSilent) := flatMap_groupFrom none l
  have hkept : ((groupPruneBlocks l).map (PruneBlock.keep q)).flatMap PruneBlock.entries
      = ((groupPruneBlocks l).flatMap PruneBlock.entries).filter q := by
    rw [flatMap_map, filter_flatMap]
    apply flatMap_congr
    intro b hb
    rw [PruneBlock.entries, PruneBlock.entries, filter_cons_of_pos (hq b hb)]
    rfl
  rw [← groupPruneBlocks_flatMap (hcanon.keep q), hkept, hflat,
    filter_filter, groupPruneBlocks, groupPruneBlocks, ← groupFrom_filter, filter_filter]
  congr 1
  apply filter_congr
  intro e _
  exact Bool.and_comm _ _

end ReflectivePi.Curation
