import ReflectivePi.Curation.Blocks

/-!
# Curation — Pairing

A projection is paired when every tool result follows its call. Curation
changes what entries show and never moves them, so the argument is about a
fixed path and a function saying what each entry shows: `Anchored` pins
every shown result to the exchange that heads it on the path, and is kept
by hiding a set that has the results of its exchanges (`Anchored.hide`)
and by showing whole exchanges raw again (`Anchored.restore`).
-/

namespace ReflectivePi.Curation

open List Session

/-! ## Paired messages -/

def AnswersCall (r : ToolResultMessage) (a : AssistantMessage) : Prop :=
  r.toolCallId ∈ (toolCalls (.assistant a)).map ToolCall.id

/-- Every tool result is preceded, with only tool results in between, by
an assistant message that calls it. -/
def Paired (messages : List AgentMessage) : Prop :=
  ∀ pre r post, messages = pre ++ .toolResult r :: post →
    ∃ pre' a between, pre = pre' ++ .assistant a :: between ∧
      (∀ m ∈ between, m.isToolResult = true) ∧ AnswersCall r a

/-- The check in one pass: `last` is the assistant message that only
results have followed so far. -/
def pairedFrom : Option AssistantMessage → List AgentMessage → Bool
  | _, [] => true
  | _, .assistant a :: rest => pairedFrom (some a) rest
  | none, .toolResult _ :: _ => false
  | some a, .toolResult r :: rest =>
    decide (r.toolCallId ∈ (toolCalls (.assistant a)).map ToolCall.id) && pairedFrom (some a) rest
  | _, _ :: rest => pairedFrom none rest

theorem pairedFrom_sound {l p : List AgentMessage}
    {last : Option AssistantMessage} (h : pairedFrom last l = true)
    (hlast : ∀ a, last = some a → ∃ p' between, p = p' ++ .assistant a :: between ∧
        ∀ m ∈ between, m.isToolResult = true) :
    ∀ pre r post, l = pre ++ .toolResult r :: post →
      ∃ pre' a between, p ++ pre = pre' ++ .assistant a :: between ∧
        (∀ m ∈ between, m.isToolResult = true) ∧ AnswersCall r a := by
  induction l generalizing p last with
  | nil =>
    simp
  | cons m rest ih =>
    intro pre r post hl
    have hnext : ∀ last' : Option AssistantMessage, pairedFrom last' rest = true →
        (∀ a, last' = some a → ∃ p' between, p ++ [m] = p' ++ .assistant a :: between ∧
            ∀ m ∈ between, m.isToolResult = true) →
        ∀ pre', pre = m :: pre' → ∃ pre' a between, p ++ pre = pre' ++ .assistant a :: between ∧
            (∀ m ∈ between, m.isToolResult = true) ∧ AnswersCall r a := by
      rintro last' hrest hlast' pre' rfl
      have := ih hrest hlast' pre' r post (List.cons.inj hl).2
      rwa [append_assoc, singleton_append] at this
    cases pre with
    | nil =>
      obtain ⟨rfl, rfl⟩ := List.cons.inj hl
      cases last with
      | none => cases h
      | some a =>
        rw [pairedFrom, Bool.and_eq_true, decide_eq_true_eq] at h
        obtain ⟨p', between, rfl, hb⟩ := hlast a rfl
        exact ⟨p', a, between, by simp, hb, h.1⟩
    | cons x pre =>
      obtain ⟨rfl, -⟩ := List.cons.inj hl
      cases m with
      | assistant a =>
        refine hnext (some a) h ?_ pre rfl
        rintro b hb
        cases hb
        exact ⟨p, [], rfl, by simp⟩
      | toolResult t =>
        cases last with
        | none => cases h
        | some a =>
          rw [pairedFrom, Bool.and_eq_true] at h
          obtain ⟨p', between, rfl, hb⟩ := hlast a rfl
          refine hnext (some a) h.2 ?_ pre rfl
          rintro b hb'
          cases hb'
          refine ⟨p', between ++ [.toolResult t], by simp, ?_⟩
          intro m hm
          rcases List.mem_append.mp hm with hm | hm
          · exact hb m hm
          · rw [List.mem_singleton.mp hm]
            rfl
      | _ =>
        refine hnext none ?_ (by simp) pre rfl
        cases last <;> exact h

theorem paired_of_check {messages : List AgentMessage}
    (h : pairedFrom none messages = true) : Paired messages := by
  intro pre r post hm
  obtain ⟨pre', a, between, hpre, hb⟩ := pairedFrom_sound (p := []) h (by simp) pre r post hm
  exact ⟨pre', a, between, by simpa using hpre, hb⟩

/-- What an entry shows never makes a result or a call out of another
kind of entry. -/
structure Shows (shown : SessionEntry → List AgentMessage) : Prop where
  result : ∀ e r, .toolResult r ∈ shown e → e.isRawToolResult = true ∧ shown e = [.toolResult r]
  noAssistant : ∀ e, e.isRawToolResult = true → ∀ a, .assistant a ∉ shown e
  exchange : ∀ e, e.isToolExchange = true →
    shown e = [] ∨ ∃ m, shown e = [m] ∧ m.isToolResult = false

theorem paired_append_iff {pre messages : List AgentMessage}
    (hpre : ∀ m ∈ pre, m.isToolResult = false ∧ m.isAssistant = false) :
    Paired (pre ++ messages) ↔ Paired messages := by
  constructor
  · intro h p r post hm
    obtain ⟨p', a, between, hp, hb, hcall⟩ := h (pre ++ p) r post (by
      rw [hm, append_assoc])
    rcases List.append_eq_append_iff.mp hp with ⟨w, rfl, hw⟩ | ⟨w, hpr, -⟩
    · exact ⟨w, a, between, hw, hb, hcall⟩
    · cases w with
      | nil =>
        rw [append_nil] at hpr
        rw [hpr] at hp
        exact ⟨[], a, between, append_cancel_left hp, hb, hcall⟩
      | cons y w =>
        have hy : y = .assistant a := by
          rw [hpr, append_assoc] at hp
          exact (List.cons.inj (append_cancel_left hp)).1
        have hbad := (hpre y (by rw [hpr]; simp)).2
        rw [hy] at hbad
        cases hbad
  · intro h p r post hm
    rcases List.append_eq_append_iff.mp hm with ⟨w, rfl, hw⟩ | ⟨w, hpr, hw⟩
    · obtain ⟨p', a, between, hp, hb, hcall⟩ := h w r post hw
      exact ⟨pre ++ p', a, between, by rw [hp, append_assoc], hb, hcall⟩
    · cases w with
      | nil =>
        rw [append_nil] at hpr
        obtain ⟨p', a, between, hp, -, -⟩ := h [] r post hw.symm
        cases p' <;> cases hp
      | cons y w =>
        obtain ⟨rfl, -⟩ := List.cons.inj hw
        have hbad := (hpre (.toolResult r) (by rw [hpr]; simp)).1
        cases hbad

/-! ## Anchored results -/

/-- The exchange of a shown result, on the path: it is shown, calls the
result, and only results are shown in between. -/
structure Anchor (path : List SessionEntry)
    (shown : SessionEntry → List AgentMessage) (a r : SessionEntry)
    (result : ToolResultMessage) : Prop where
  exchange : a.isToolExchange = true
  place : ∃ l₁ l₂ l₃, path = l₁ ++ a :: (l₂ ++ r :: l₃) ∧ Trailing l₂ ∧
    ∀ x ∈ l₂, ∀ m ∈ shown x, m.isToolResult = true
  call : ∃ message, shown a = [.assistant message] ∧ AnswersCall result message

def Anchored (path : List SessionEntry)
    (shown : SessionEntry → List AgentMessage) : Prop :=
  ∀ r ∈ path, ∀ result, .toolResult result ∈ shown r → ∃ a, Anchor path shown a r result

variable {a r x : SessionEntry}

theorem Anchor.heads {path : List SessionEntry} {shown : SessionEntry → List AgentMessage}
    {result : ToolResultMessage} (h : Anchor path shown a r result)
    (hr : r.isRawToolResult = true) : Heads path a r := by
  obtain ⟨l₁, l₂, l₃, hp, ht, -⟩ := h.place
  exact ⟨h.exchange, hr, l₁, l₂, l₃, hp, ht⟩

/-- On the path, `x` stands between the exchange `a` and its result `r`. -/
def Between (path : List SessionEntry) (a r x : SessionEntry) : Prop :=
  a.isToolExchange = true ∧ r.isRawToolResult = true ∧ ∃ l₁ l₂ l₃,
    path = l₁ ++ a :: (l₂ ++ r :: l₃) ∧ Trailing l₂ ∧ x ∈ l₂

theorem flatMap_eq_append_cons {α β : Type} {f : α → List β} {l : List α}
    {pre post : List β} {b : β} (h : l.flatMap f = pre ++ b :: post) :
    ∃ l₁ x l₂ u v, l = l₁ ++ x :: l₂ ∧ f x = u ++ b :: v ∧ pre = l₁.flatMap f ++ u := by
  induction l generalizing pre with
  | nil => simp at h
  | cons y rest ih =>
    rw [flatMap_cons] at h
    rcases List.append_eq_append_iff.mp h with ⟨w, hpre, hrest⟩ | ⟨w, hy, hw⟩
    · obtain ⟨l₁, x, l₂, u, v, rfl, hx, hw⟩ := ih hrest
      exact ⟨y :: l₁, x, l₂, u, v, rfl, hx, by
        rw [hpre, hw, flatMap_cons, append_assoc]⟩
    · cases w with
      | nil =>
        rw [append_nil] at hy
        rw [nil_append] at hw
        have hrest : rest.flatMap f = [] ++ b :: post := hw.symm
        obtain ⟨l₁, x, l₂, u, v, rfl, hx, hu⟩ := ih hrest
        refine ⟨y :: l₁, x, l₂, u, v, rfl, hx, ?_⟩
        rw [flatMap_cons, append_assoc, ← hu, append_nil, hy]
      | cons z w =>
        obtain ⟨rfl, -⟩ := List.cons.inj hw
        exact ⟨[], y, rest, pre, w, rfl, hy, rfl⟩

variable {path : List SessionEntry} {shown shown' : SessionEntry → List AgentMessage}

/-- **Anchored results make a paired projection.** -/
theorem Anchored.paired (h : Anchored path shown) (hs : Shows shown)
    (hnd : path.Nodup) : Paired (path.flatMap shown) := by
  intro pre result post hm
  obtain ⟨l₁, r, l₃, u, v, hp, hr, hpre⟩ := flatMap_eq_append_cons hm
  have hmem : .toolResult result ∈ shown r := by
    rw [hr]
    simp
  have hu : u = [] := by
    have hone := (hs.result r result hmem).2
    rw [hr] at hone
    cases u with
    | nil => rfl
    | cons x u =>
      have hlen := congrArg List.length hone
      simp at hlen
  obtain ⟨a, ha⟩ := h r (by rw [hp]; simp) result hmem
  obtain ⟨m₁, m₂, m₃, hp', -, hbetween⟩ := ha.place
  obtain ⟨message, hshow, hcall⟩ := ha.call
  have heq : l₁ ++ r :: l₃ = (m₁ ++ a :: m₂) ++ r :: m₃ := by
    rw [← hp, hp']
    simp
  obtain ⟨rfl, -⟩ := append_cons_unique (hp ▸ hnd) heq
  refine ⟨m₁.flatMap shown, message, m₂.flatMap shown, ?_, ?_, hcall⟩
  · rw [hpre, hu, append_nil, flatMap_append, flatMap_cons, hshow]
    rfl
  · intro m hm
    obtain ⟨x, hx, hmx⟩ := List.mem_flatMap.mp hm
    exact hbetween x hx m hmx

/-- A paired projection is anchored when each shown result has its own
exchange shown and bookkeeping between the two shows nothing. -/
theorem Paired.anchored (h : Paired (path.flatMap shown)) (hs : Shows shown)
    (hsilent : ∀ a r x, Between path a r x → shown a ≠ [] → x.isSilent = true → shown x = [])
    (hheads : ∀ r ∈ path, ∀ result, .toolResult result ∈ shown r →
      ∃ a, Heads path a r ∧ shown a ≠ []) : Anchored path shown := by
  intro r hr result hmem
  obtain ⟨a, ⟨hax, hres, l₁, l₂, l₃, hp, ht⟩, hvis⟩ := hheads r hr result hmem
  have hone := (hs.result r result hmem).2
  obtain ⟨m, ham, hmres⟩ := (hs.exchange a hax).resolve_left hvis
  have hflat : path.flatMap shown = (l₁.flatMap shown ++ m :: l₂.flatMap shown)
        ++ .toolResult result :: l₃.flatMap shown := by
    rw [hp]
    simp [hone, ham]
  obtain ⟨pre', message, between, hpre, hbetween, hcall⟩ := h _ _ _ hflat
  -- nothing after the exchange is an assistant message
  have hnoasst : ∀ x ∈ l₂.flatMap shown, ∀ b, x ≠ .assistant b := by
    rintro x hx b rfl
    obtain ⟨y, hy, hxy⟩ := List.mem_flatMap.mp hx
    rcases ht y hy with hc | hc
    · rw [hsilent a r y ⟨hax, hres, l₁, l₂, l₃, hp, ht, hy⟩ hvis hc] at hxy
      cases hxy
    · exact hs.noAssistant y hc b hxy
  rcases List.append_eq_append_iff.mp hpre with ⟨w, -, hw⟩ | ⟨w, -, hw⟩
  · cases w with
    | nil =>
      obtain ⟨rfl, hb⟩ := List.cons.inj hw
      refine ⟨a, hax, ⟨l₁, l₂, l₃, hp, ht, ?_⟩, message, ham, hcall⟩
      intro x hx m hm
      exact hbetween m (hb ▸ List.mem_flatMap.mpr ⟨x, hx, hm⟩)
    | cons y w =>
      obtain ⟨-, hw⟩ := List.cons.inj hw
      exact absurd rfl (hnoasst (.assistant message) (by rw [hw]; simp) message)
  · cases w with
    | nil =>
      obtain ⟨rfl, hb⟩ := List.cons.inj hw
      refine ⟨a, hax, ⟨l₁, l₂, l₃, hp, ht, ?_⟩, message, ham, hcall⟩
      intro x hx m hm
      exact hbetween m (hb.symm ▸ List.mem_flatMap.mpr ⟨x, hx, hm⟩)
    | cons y w =>
      obtain ⟨-, hw⟩ := List.cons.inj hw
      have hbad := hbetween m (by rw [hw]; simp)
      rw [hmres] at hbad
      cases hbad

/-! ## What keeps results anchored -/

theorem Between.mem (h : Between path a r x) : a ∈ path ∧ r ∈ path ∧ x ∈ path := by
  obtain ⟨-, -, l₁, l₂, l₃, rfl, -, hx⟩ := h
  simp [hx]

theorem Between.of_append {rest : List SessionEntry} (hnd : (path ++ rest).Nodup) (hr : r ∈ path)
    (h : Between (path ++ rest) a r x) : Between path a r x := by
  obtain ⟨hax, hres, l₁, l₂, l₃, hl, ht, hx⟩ := h
  obtain ⟨p₁, p₂, rfl⟩ := append_of_mem hr
  have heq : p₁ ++ r :: (p₂ ++ rest) = (l₁ ++ a :: l₂) ++ r :: l₃ := by
    simpa using hl
  have hnd' : (p₁ ++ r :: (p₂ ++ rest)).Nodup := by simpa using hnd
  obtain ⟨rfl, -⟩ := append_cons_unique hnd' heq
  exact ⟨hax, hres, l₁, l₂, p₂, by simp, ht, hx⟩

theorem heads_between {l₁ l₂ l₃ : List SessionEntry}
    (ha : a.isToolExchange = true) (hp : path = l₁ ++ a :: (l₂ ++ r :: l₃))
    (ht : Trailing l₂) (hx : x ∈ l₂) (hres : x.isRawToolResult = true) : Heads path a x := by
  obtain ⟨q₁, q₂, rfl⟩ := append_of_mem hx
  refine ⟨ha, hres, l₁, q₁, q₂ ++ r :: l₃, by rw [hp]; simp, ?_⟩
  exact fun y hy => ht y (List.mem_append.mpr (.inl hy))

theorem isToolResult_of_raw {e : SessionEntry} (he : e.isRawToolResult = true) :
    ∀ m ∈ sessionEntryToContextMessages e, m.isToolResult = true := by
  unfold SessionEntry.isRawToolResult at he
  unfold sessionEntryToContextMessages
  cases hk : e.kind <;> simp_all

theorem Anchored.append (h : Anchored path shown) {rest : List SessionEntry}
    (hrest : ∀ e ∈ rest, ∀ r, .toolResult r ∉ shown e) : Anchored (path ++ rest) shown := by
  intro r hr result hmem
  rcases List.mem_append.mp hr with hr | hr
  · obtain ⟨a, hax, ⟨l₁, l₂, l₃, hp, ht, hbetween⟩, hcall⟩ := h r hr result hmem
    exact ⟨a, hax, ⟨l₁, l₂, l₃ ++ rest, by rw [hp]; simp, ht, hbetween⟩, hcall⟩
  · exact absurd hmem (hrest r hr result)

/-- **Hiding** a set of entries that has every shown result of the
exchanges in it. -/
theorem Anchored.hide (h : Anchored path shown) (hs : Shows shown) (hidden : SessionEntry → Prop)
    (hkeep : ∀ e ∈ path, ¬ hidden e → shown' e = shown e)
    (hhide : ∀ e ∈ path, hidden e → (∀ r, .toolResult r ∉ shown' e) ∧
      (e.isRawToolResult = true → shown' e = []))
    (hsilent : ∀ a r x, Between path a r x → shown' a ≠ [] → x.isSilent = true → shown' x = [])
    (hclosed : ∀ a r result, Heads path a r → .toolResult result ∈ shown r →
      hidden a → hidden r) : Anchored path shown' := by
  intro r hr result hmem
  by_cases hhr : hidden r
  · exact absurd hmem ((hhide r hr hhr).1 result)
  · rw [hkeep r hr hhr] at hmem
    obtain ⟨a, ha⟩ := h r hr result hmem
    have hheads := ha.heads (hs.result r result hmem).1
    have hha : ¬ hidden a := fun hc => hhr (hclosed a r result hheads hmem hc)
    obtain ⟨l₁, l₂, l₃, hp, ht, hbetween⟩ := ha.place
    obtain ⟨message, hshow, hcall⟩ := ha.call
    have hshow' : shown' a = [.assistant message] := by
      rw [hkeep a hheads.mem.1 hha, hshow]
    refine ⟨a, ha.exchange, ⟨l₁, l₂, l₃, hp, ht, ?_⟩, message, hshow', hcall⟩
    intro x hx m hm
    have hxp : x ∈ path := by
      rw [hp]
      simp [hx]
    by_cases hhx : hidden x
    · rcases ht x hx with hc | hc
      · rw [hsilent a r x ⟨ha.exchange, hheads.2.1, l₁, l₂, l₃, hp, ht, hx⟩
          (by simp [hshow']) hc] at hm
        cases hm
      · rw [(hhide x hxp hhx).2 hc] at hm
        cases hm
    · rw [hkeep x hxp hhx] at hm
      exact hbetween x hx m hm

/-- **Showing raw again** a set of entries in which every result has its
exchange. -/
theorem Anchored.restore (h : Anchored path shown) (hs : Shows shown)
    (hnd : path.Nodup) (hraw : Anchored path sessionEntryToContextMessages)
    (restored : SessionEntry → Prop) (hkeep : ∀ e ∈ path, ¬ restored e → shown' e = shown e)
    (hother : ∀ e ∈ path, restored e → e.isRawToolResult = false → ∀ r, .toolResult r ∉ shown' e)
    (hrestore : ∀ e ∈ path, restored e → e.isRawToolResult = true ∨ e.isToolExchange = true →
        shown' e = sessionEntryToContextMessages e)
    (hsilent : ∀ a r x, Between path a r x → shown' a ≠ [] → x.isSilent = true → shown' x = [])
    (hexchange : ∀ r, restored r → r.isRawToolResult = true → ∃ a, restored a ∧ Heads path a r)
    (hclosed : ∀ a x, Heads path a x → restored a →
      restored x ∨ shown x = []) : Anchored path shown' := by
  intro r hr result hmem
  by_cases hrr : restored r
  · have hres : r.isRawToolResult = true := by
      by_contra hc
      exact hother r hr hrr (by simpa using hc) result hmem
    rw [hrestore r hr hrr (.inl hres)] at hmem
    obtain ⟨a, ha⟩ := hraw r hr result hmem
    have hheads := ha.heads hres
    have har : restored a := by
      obtain ⟨b, hb, hbh⟩ := hexchange r hrr hres
      rwa [hheads.unique hnd hbh]
    obtain ⟨l₁, l₂, l₃, hp, ht, -⟩ := ha.place
    obtain ⟨message, hshow, hcall⟩ := ha.call
    have hshow' : shown' a = [.assistant message] := by
      rw [hrestore a hheads.mem.1 har (.inr ha.exchange), hshow]
    refine ⟨a, ha.exchange, ⟨l₁, l₂, l₃, hp, ht, ?_⟩, message, hshow', hcall⟩
    intro x hx m hm
    have hxp : x ∈ path := by
      rw [hp]
      simp [hx]
    rcases ht x hx with hc | hc
    · rw [hsilent a r x ⟨ha.exchange, hres, l₁, l₂, l₃, hp, ht, hx⟩ (by simp [hshow']) hc] at hm
      cases hm
    · have hax := heads_between ha.exchange hp ht hx hc
      by_cases hxr : restored x
      · rw [hrestore x hxp hxr (.inl hc)] at hm
        exact isToolResult_of_raw hc m hm
      · rw [hkeep x hxp hxr, (hclosed a x hax har).resolve_left hxr] at hm
        cases hm
  · rw [hkeep r hr hrr] at hmem
    have hres := (hs.result r result hmem).1
    obtain ⟨a, ha⟩ := h r hr result hmem
    have hheads := ha.heads hres
    have har : ¬ restored a := by
      intro hc
      rcases hclosed a r hheads hc with hc | hc
      · exact hrr hc
      · rw [hc] at hmem
        cases hmem
    obtain ⟨l₁, l₂, l₃, hp, ht, hbetween⟩ := ha.place
    obtain ⟨message, hshow, hcall⟩ := ha.call
    have hshow' : shown' a = [.assistant message] := by
      rw [hkeep a hheads.mem.1 har, hshow]
    refine ⟨a, ha.exchange, ⟨l₁, l₂, l₃, hp, ht, ?_⟩, message, hshow', hcall⟩
    intro x hx m hm
    have hxp : x ∈ path := by
      rw [hp]
      simp [hx]
    rcases ht x hx with hc | hc
    · rw [hsilent a r x ⟨ha.exchange, hres, l₁, l₂, l₃, hp, ht, hx⟩ (by simp [hshow']) hc] at hm
      cases hm
    · have hax := heads_between ha.exchange hp ht hx hc
      have hxr : ¬ restored x := by
        intro hxr
        obtain ⟨b, hb, hbh⟩ := hexchange x hxr hc
        exact har (hax.unique hnd hbh ▸ hb)
      rw [hkeep x hxp hxr] at hm
      exact hbetween x hx m hm

end ReflectivePi.Curation
