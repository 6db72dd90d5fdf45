import ReflectivePi.Session.Branch

/-!
# Curation — Blocks

`groupPruneBlocks`: context entries grouped into atomic blocks, a tool
exchange in one block and every other entry in a block of its own.

`Heads l a r` says what the grouping means for a tool result: the exchange
it belongs to in the list `l`. The grouping is used on two different lists
(the raw context entries and the visible ones); `Heads` is what a
statement about one carries over to the other.
-/

namespace ReflectivePi.Session.SessionEntry

def isRawToolResult (e : SessionEntry) : Bool :=
  match e.kind with
  | .message m => m.isToolResult
  | _ => false

/-- An assistant message entry whose raw message calls tools. -/
def isToolExchange (e : SessionEntry) : Bool :=
  match e.kind with
  | .message m => hasToolCalls m
  | _ => false

/-- Bookkeeping: an entry that does not contribute to context. -/
def isSilent (e : SessionEntry) : Bool :=
  (sessionEntryToContextMessages e).isEmpty

variable {e : SessionEntry}

theorem not_isRawToolResult_of_isToolExchange
    (h : e.isToolExchange = true) : e.isRawToolResult = false := by
  unfold isToolExchange at h
  unfold isRawToolResult
  cases hk : e.kind with
  | message m => cases m <;> simp_all [hasToolCalls, toolCalls, AgentMessage.isToolResult]
  | _ => rfl

theorem not_isSilent_of_isToolExchange
    (h : e.isToolExchange = true) : e.isSilent = false := by
  unfold isToolExchange at h
  unfold isSilent sessionEntryToContextMessages
  cases hk : e.kind <;> simp_all

theorem not_isSilent_of_isRawToolResult
    (h : e.isRawToolResult = true) : e.isSilent = false := by
  unfold isRawToolResult at h
  unfold isSilent sessionEntryToContextMessages
  cases hk : e.kind <;> simp_all

end ReflectivePi.Session.SessionEntry

namespace ReflectivePi.Curation

open List Session

/-! ## Grouping -/

/-- An atomic block of entries that must be pruned together; a block has
a first entry. -/
structure PruneBlock where
  head : SessionEntry
  tail : List SessionEntry
  /-- Model-visible contribution, when supplied by the agent tools. -/
  messages : Option (List AgentMessage) := none
  deriving DecidableEq

namespace PruneBlock

def entries (b : PruneBlock) : List SessionEntry := b.head :: b.tail

def entryIds (b : PruneBlock) : List EntryId := b.entries.map SessionEntry.id

/-- `entryIds[0]`. -/
def id (b : PruneBlock) : EntryId := b.head.id

def isToolExchange (b : PruneBlock) : Bool := b.head.isToolExchange

def push (b : PruneBlock) (e : SessionEntry) : PruneBlock :=
  { b with tail := b.tail ++ [e] }

end PruneBlock

/-- The grouping loop; `last` is the block at the end of the list. -/
def groupFrom : Option PruneBlock → List SessionEntry → List PruneBlock
  | last, [] => last.toList
  | last, e :: rest =>
    if e.isSilent then groupFrom last rest
    else
      match last with
      | none => groupFrom (some { head := e, tail := [] }) rest
      | some b =>
        if e.isRawToolResult && b.isToolExchange then
          groupFrom (some (b.push e)) rest
        else b :: groupFrom (some { head := e, tail := [] }) rest

/-- Group context entries into atomic prune blocks. -/
def groupPruneBlocks (entries : List SessionEntry) : List PruneBlock :=
  groupFrom none entries

/-! ## The exchange of a tool result -/

/-- Nothing but results and bookkeeping. -/
def Trailing (l : List SessionEntry) : Prop :=
  ∀ x ∈ l, x.isSilent = true ∨ x.isRawToolResult = true

/-- In `l`, the tool result `r` follows the exchange `a` directly. -/
def Heads (l : List SessionEntry) (a r : SessionEntry) : Prop :=
  a.isToolExchange = true ∧ r.isRawToolResult = true ∧
    ∃ l₁ l₂ l₃, l = l₁ ++ a :: (l₂ ++ r :: l₃) ∧ Trailing l₂

variable {l : List SessionEntry}

variable {a r e : SessionEntry}

theorem Heads.mem (h : Heads l a r) : a ∈ l ∧ r ∈ l := by
  obtain ⟨-, -, l₁, l₂, l₃, rfl, -⟩ := h
  simp

theorem Heads.filter (h : Heads l a r) {q : SessionEntry → Bool}
    (hqa : q a = true) (hqr : q r = true) : Heads (l.filter q) a r := by
  obtain ⟨ha, hr, l₁, l₂, l₃, rfl, ht⟩ := h
  refine ⟨ha, hr, l₁.filter q, l₂.filter q, l₃.filter q, ?_, ?_⟩
  · simp [filter_cons_of_pos, hqa, hqr]
  · exact fun x hx => ht x (List.mem_filter.mp hx).1

theorem Trailing.not_mem (h : Trailing l)
    (ha : a.isToolExchange = true) : a ∉ l := by
  intro hm
  rcases h a hm with hs | hr
  · rw [SessionEntry.not_isSilent_of_isToolExchange ha] at hs
    cases hs
  · rw [SessionEntry.not_isRawToolResult_of_isToolExchange ha] at hr
    cases hr

theorem append_cons_unique {l₁ l₂ m₁ m₂ : List SessionEntry} {x : SessionEntry}
    (hnd : (l₁ ++ x :: l₂).Nodup) (h : l₁ ++ x :: l₂ = m₁ ++ x :: m₂) : l₁ = m₁ ∧ l₂ = m₂ := by
  have hl : x ∉ l₁ := by
    intro hc
    exact (List.nodup_append.mp hnd).2.2 x hc x (by simp) rfl
  rw [h] at hnd
  have hm : x ∉ m₁ := by
    intro hc
    exact (List.nodup_append.mp hnd).2.2 x hc x (by simp) rfl
  have hlen : l₁.length = m₁.length := by
    have h1 : (l₁ ++ x :: l₂).idxOf x = l₁.length := by
      rw [idxOf_append_of_notMem hl]
      simp
    have h2 : (m₁ ++ x :: m₂).idxOf x = m₁.length := by
      rw [idxOf_append_of_notMem hm]
      simp
    rw [← h1, h, h2]
  obtain ⟨h1, h2⟩ := append_inj h hlen
  exact ⟨h1, (List.cons.inj h2).2⟩

theorem Heads.unique (hnd : l.Nodup) {b : SessionEntry} (ha : Heads l a r)
    (hb : Heads l b r) : a = b := by
  obtain ⟨hax, -, l₁, l₂, l₃, rfl, hl⟩ := ha
  obtain ⟨hbx, -, m₁, m₂, m₃, hm, hmt⟩ := hb
  have heq : (l₁ ++ a :: l₂) ++ r :: l₃ = (m₁ ++ b :: m₂) ++ r :: m₃ := by
    simpa using hm
  have hnd' : ((l₁ ++ a :: l₂) ++ r :: l₃).Nodup := by simpa using hnd
  obtain ⟨hpre, -⟩ := append_cons_unique hnd' heq
  -- both are the last entry of the same prefix that is not trailing
  rcases List.append_eq_append_iff.mp hpre with ⟨w, -, hw⟩ | ⟨w, -, hw⟩
  · cases w with
    | nil => exact (List.cons.inj hw).1
    | cons x w =>
      obtain ⟨-, hw⟩ := List.cons.inj hw
      exact absurd (show b ∈ l₂ by rw [hw]; simp) (hl.not_mem hbx)
  · cases w with
    | nil => exact ((List.cons.inj hw).1).symm
    | cons x w =>
      obtain ⟨-, hw⟩ := List.cons.inj hw
      exact absurd (show a ∈ m₂ by rw [hw]; simp) (hmt.not_mem hax)

theorem Heads.of_append {p : List SessionEntry}
    (hnd : (p ++ l).Nodup) (hr : r ∈ p) (h : Heads (p ++ l) a r) : Heads p a r := by
  obtain ⟨ha, hres, l₁, l₂, l₃, hl, ht⟩ := h
  obtain ⟨p₁, p₂, rfl⟩ := append_of_mem hr
  have heq : p₁ ++ r :: (p₂ ++ l) = (l₁ ++ a :: l₂) ++ r :: l₃ := by
    simpa using hl
  have hnd' : (p₁ ++ r :: (p₂ ++ l)).Nodup := by simpa using hnd
  obtain ⟨rfl, -⟩ := append_cons_unique hnd' heq
  exact ⟨ha, hres, l₁, l₂, p₂, by simp, ht⟩

/-! ## What the loop groups -/

/-- Where a block of `l` sits: its first entry, then trailing entries of
which it holds the ones that contribute. -/
structure BlockAt (l : List SessionEntry) (b : PruneBlock) : Prop where
  place : ∃ p₁ p₂ p₃, l = p₁ ++ b.head :: (p₂ ++ p₃) ∧ Trailing p₂ ∧
    b.tail = p₂.filter (fun e => !e.isSilent) ∧
    (b.isToolExchange = true → ∀ x ∈ p₃.head?, x.isSilent = false ∧ x.isRawToolResult = false)
  head : b.head.isSilent = false
  single : b.isToolExchange = false → b.tail = []
  orphan : b.head.isRawToolResult = true → ∀ a, ¬ Heads l a b.head

/-- The loop invariant: the block at the end of the list, against the
entries read so far. -/
inductive Filling (p : List SessionEntry) : Option PruneBlock → Prop where
  | start (h : ∀ x ∈ p, x.isSilent = true) : Filling p none
  | filled {b : PruneBlock} (p₁ p₂ : List SessionEntry)
      (hp : p = p₁ ++ b.head :: p₂) (head : b.head.isSilent = false)
      (trailing : Trailing p₂)
      (tail : b.tail = p₂.filter (fun e => !e.isSilent))
      (single : b.isToolExchange = false → b.tail = [])
      (orphan : b.head.isRawToolResult = true → ∀ a, ¬ Heads p a b.head) :
      Filling p (some b)

variable {p : List SessionEntry} {last : Option PruneBlock}

theorem Filling.silent (h : Filling p last) (he : e.isSilent = true)
    (hnd : (p ++ [e]).Nodup) : Filling (p ++ [e]) last := by
  cases h with
  | start h =>
    refine .start fun x hx => ?_
    rcases List.mem_append.mp hx with hx | hx
    · exact h x hx
    · rwa [List.mem_singleton.mp hx]
  | @filled b p₁ p₂ hp head trailing tail single orphan =>
    refine .filled p₁ (p₂ ++ [e]) (by simp [hp]) head ?_ ?_ single ?_
    · intro x hx
      rcases List.mem_append.mp hx with hx | hx
      · exact trailing x hx
      · rw [List.mem_singleton.mp hx]
        exact .inl he
    · simp [tail, he]
    · exact fun hr a hc => orphan hr a (hc.of_append hnd (by simp [hp]))

variable {b : PruneBlock}

theorem Filling.push (h : Filling p (some b)) (he : e.isSilent = false)
    (hr : e.isRawToolResult = true) (hb : b.isToolExchange = true)
    (hnd : (p ++ [e]).Nodup) : Filling (p ++ [e]) (some (b.push e)) := by
  cases h with
  | @filled b p₁ p₂ hp head trailing tail single orphan =>
    refine .filled p₁ (p₂ ++ [e]) (by simp [hp]; rfl) head ?_ ?_ ?_ ?_
    · intro x hx
      rcases List.mem_append.mp hx with hx | hx
      · exact trailing x hx
      · rw [List.mem_singleton.mp hx]
        exact .inr hr
    · simp [PruneBlock.push, tail, he]
    · intro hc
      rw [PruneBlock.push, PruneBlock.isToolExchange] at hc
      rw [PruneBlock.isToolExchange, hc] at hb
      cases hb
    · intro horphan a hc
      exact orphan horphan a (hc.of_append hnd (by simp [hp]))

theorem Filling.fresh (h : Filling p last) (he : e.isSilent = false)
    (hstart : ∀ b, last = some b →
      (e.isRawToolResult && b.isToolExchange) = false) (hnd : (p ++ [e]).Nodup) :
    Filling (p ++ [e]) (some { head := e, tail := [] }) := by
  refine .filled p [] rfl he (by simp [Trailing]) rfl (fun _ => rfl) ?_
  rintro hr a ⟨ha, -, l₁, l₂, l₃, hl, ht⟩
  have heq : p ++ e :: [] = (l₁ ++ a :: l₂) ++ e :: l₃ := by simpa using hl
  obtain ⟨hp, -⟩ := append_cons_unique hnd heq
  cases h with
  | start h =>
    have hs := h a (by rw [hp]; simp)
    rw [SessionEntry.not_isSilent_of_isToolExchange ha] at hs
    cases hs
  | @filled b p₁ p₂ hb head trailing tail single orphan =>
    have hnex : b.isToolExchange = false := by
      have := hstart b rfl
      rw [show e.isRawToolResult = true from hr, Bool.true_and] at this
      exact this
    -- the open block is a single entry, so the exchange lies before it
    have hsil : ∀ x ∈ p₂, x.isSilent = true := by
      have hnil := (single hnex).symm.trans tail
      intro x hx
      by_contra hc
      have hmem : x ∈ p₂.filter (fun e => !e.isSilent) :=
        List.mem_filter.mpr ⟨hx, by simpa using hc⟩
      rw [← hnil] at hmem
      cases hmem
    rw [hp] at hb
    rcases List.append_eq_append_iff.mp hb with ⟨w, -, hw⟩ | ⟨w, hl₁, hw⟩
    · cases w with
      | nil =>
        have hab : a = b.head := (List.cons.inj hw).1
        rw [PruneBlock.isToolExchange, ← hab, ha] at hnex
        cases hnex
      | cons x w =>
        have hl₂ : l₂ = w ++ b.head :: p₂ := (List.cons.inj hw).2
        have hbt := ht b.head (by rw [hl₂]; simp)
        rcases hbt with hbt | hbt
        · rw [head] at hbt
          cases hbt
        · refine orphan hbt a ⟨ha, hbt, l₁, w, p₂, ?_, ?_⟩
          · rw [hp, hl₂]
          · exact fun x hx => ht x (by rw [hl₂]; simp [hx])
    · have hmem : a ∈ b.head :: p₂ := by
        rw [hw]
        simp
      rcases List.mem_cons.mp hmem with hab | hab
      · rw [PruneBlock.isToolExchange, ← hab, ha] at hnex
        cases hnex
      · have hs := hsil a hab
        rw [SessionEntry.not_isSilent_of_isToolExchange ha] at hs
        cases hs

theorem Filling.blockAt (h : Filling p (some b)) (rest : List SessionEntry)
    (hnd : (p ++ rest).Nodup) (hrest : b.isToolExchange = true →
      ∀ x ∈ rest.head?, x.isSilent = false ∧ x.isRawToolResult = false) :
    BlockAt (p ++ rest) b := by
  cases h with
  | @filled b p₁ p₂ hp head trailing tail single orphan =>
    refine ⟨⟨p₁, p₂, rest, by simp [hp], trailing, tail, hrest⟩, head, single, ?_⟩
    exact fun hr a hc => orphan hr a (hc.of_append hnd (by simp [hp]))

theorem groupFrom_spec {p : List SessionEntry} (hfill : Filling p last) (hnd : (p ++ l).Nodup) :
    ∀ b ∈ groupFrom last l, BlockAt (p ++ l) b := by
  induction l generalizing p last with
  | nil =>
    intro b hb
    cases last with
    | none => cases hb
    | some c =>
      rw [List.mem_singleton.mp hb]
      exact hfill.blockAt [] hnd (by simp)
  | cons e rest ih =>
    have hsplit : p ++ e :: rest = (p ++ [e]) ++ rest := by simp
    have hnd₁ : (p ++ [e]).Nodup := by
      rw [hsplit] at hnd
      exact (List.nodup_append.mp hnd).1
    intro b hb
    unfold groupFrom at hb
    split at hb
    · rename_i he
      rw [hsplit] at hnd ⊢
      exact ih (hfill.silent he hnd₁) hnd b hb
    · rename_i he
      rw [Bool.not_eq_true] at he
      cases last with
      | none =>
        rw [hsplit] at hnd ⊢
        exact ih (hfill.fresh he (by simp) hnd₁) hnd b hb
      | some c =>
        simp only at hb
        split at hb
        · rename_i hc
          rw [Bool.and_eq_true] at hc
          rw [hsplit] at hnd ⊢
          exact ih (hfill.push he hc.1 hc.2 hnd₁) hnd b hb
        · rename_i hc
          rw [Bool.not_eq_true] at hc
          rcases List.mem_cons.mp hb with rfl | hb
          · refine hfill.blockAt _ hnd ?_
            intro hex x hx
            rw [head?_cons, Option.mem_some_iff] at hx
            rw [← hx]
            rw [hex, Bool.and_true] at hc
            exact ⟨he, hc⟩
          · rw [hsplit] at hnd ⊢
            refine ih (hfill.fresh he ?_ hnd₁) hnd b hb
            intro d hd
            rw [← Option.some.inj hd]
            exact hc

/-- **Every block of the grouping sits in the list as one run.** -/
theorem groupPruneBlocks_spec (hnd : l.Nodup) (hb : b ∈ groupPruneBlocks l) : BlockAt l b :=
  by
  have hfill : Filling [] none := .start (by simp)
  exact groupFrom_spec hfill (by simpa using hnd) b hb

theorem mem_entryIds {t : EntryId} : t ∈ b.entryIds ↔ ∃ e ∈ b.entries, e.id = t := by
  rw [PruneBlock.entryIds, List.mem_map]

namespace BlockAt

variable {l : List SessionEntry} {b : PruneBlock}

theorem mem_entries (h : BlockAt l b) {e : SessionEntry}
    (he : e ∈ b.entries) : e ∈ l ∧ e.isSilent = false := by
  obtain ⟨p₁, p₂, p₃, hl, -, htail, -⟩ := h.place
  rcases List.mem_cons.mp he with rfl | he
  · exact ⟨by rw [hl]; simp, h.head⟩
  · rw [htail, mem_filter] at he
    exact ⟨by rw [hl]; simp [he.1], by simpa using he.2⟩

theorem heads_tail (h : BlockAt l b) {r : SessionEntry} (hr : r ∈ b.tail) : Heads l b.head r := by
  obtain ⟨p₁, p₂, p₃, hl, ht, htail, -⟩ := h.place
  have hex : b.isToolExchange = true := by
    by_contra hc
    rw [h.single (by simpa using hc)] at hr
    cases hr
  rw [htail, mem_filter] at hr
  obtain ⟨hmem, hsil⟩ := hr
  have hres : r.isRawToolResult = true := by
    rcases ht r hmem with hs | hs
    · rw [hs] at hsil
      cases hsil
    · exact hs
  obtain ⟨q₁, q₂, rfl⟩ := append_of_mem hmem
  refine ⟨hex, hres, p₁, q₁, q₂ ++ p₃, by rw [hl]; simp, ?_⟩
  exact fun x hx => ht x (List.mem_append.mpr (.inl hx))

theorem eq_head_of_exchange (h : BlockAt l b) {a : SessionEntry}
    (ha : a.isToolExchange = true) (hab : a ∈ b.entries) : a = b.head := by
  rcases List.mem_cons.mp hab with hab | hab
  · exact hab
  · obtain ⟨-, hr, -⟩ := h.heads_tail hab
    rw [SessionEntry.not_isRawToolResult_of_isToolExchange ha] at hr
    cases hr

/-- **A block with an exchange has all its results.** -/
theorem mem_of_heads (h : BlockAt l b) (hnd : l.Nodup) {a r : SessionEntry}
    (har : Heads l a r) (ha : a ∈ b.entries) : r ∈ b.entries := by
  obtain rfl := h.eq_head_of_exchange har.1 ha
  obtain ⟨p₁, p₂, p₃, hl, ht, htail, hnext⟩ := h.place
  obtain ⟨hax, hres, l₁, l₂, l₃, hl', ht'⟩ := har
  have hrsil := SessionEntry.not_isSilent_of_isRawToolResult hres
  rw [hl] at hnd hl'
  obtain ⟨-, hrest⟩ := append_cons_unique hnd hl'
  rcases List.append_eq_append_iff.mp hrest with ⟨w, hw, hp₃⟩ | ⟨w, hw, -⟩
  · -- the run would end before the result: it would not stop there
    cases p₃ with
    | nil =>
      rcases List.append_eq_nil_iff.mp hp₃.symm with ⟨-, hc⟩
      cases hc
    | cons y p₃ =>
      have hy := hnext hax y (by simp)
      cases w with
      | nil =>
        obtain ⟨rfl, -⟩ := List.cons.inj hp₃
        rw [hres] at hy
        cases hy.2
      | cons z w =>
        obtain ⟨rfl, -⟩ := List.cons.inj hp₃
        rcases ht' y (by rw [hw]; simp) with hc | hc
        · rw [hy.1] at hc
          cases hc
        · rw [hy.2] at hc
          cases hc
  · cases w with
    | nil =>
      rw [append_nil] at hw
      cases p₃ with
      | nil => simp [hw] at hrest
      | cons y p₃ =>
        have hy := hnext hax y (by simp)
        rw [hw] at hrest
        have := append_cancel_left hrest
        obtain ⟨rfl, -⟩ := List.cons.inj this
        rw [hres] at hy
        cases hy.2
    | cons z w =>
      have hz : z = r := by
        rw [hw, append_assoc] at hrest
        exact (List.cons.inj (append_cancel_left hrest)).1
      apply mem_cons_of_mem
      rw [htail, mem_filter, hw, hz]
      simp [hrsil]

end BlockAt

end ReflectivePi.Curation
