import ReflectivePi.Components.Renders

/-!
# Components — markdown tokens of an extended source

The tokens that a component keeps when text is added to its source, with those of
the rest, are the tokens of the source, as long as the lexer splits it there.
-/

namespace ReflectivePi.Components

open List

variable {D : Type} {options : Options D} {s s' : Markdown D} {cached : CachedTokens D}
  {entries : List (Token D × Nat)} {source : Text} {width : Nat}

/-- A source that its tokens cover, without `html`, definitions, unclosed labels or
unrecognised dollar blocks. -/
structure Plain (source : Text) (lexed : TokensList D) : Prop where
  covers : rawOf lexed.tokens = source
  links : lexed.links = []
  html : tokensHaveHtml lexed.tokens = false
  closed : ∀ token ∈ lexed.tokens, token.isOpen = false

/-- All tokens of a plain source but the last two stay when text is added, and the
rest is a document of its own. -/
def KeepsTokens (lexer : Text → TokensList D) : Prop :=
  ∀ source, Plain source (lexer source) → ∀ added, let kept := (lexer source).tokens.length - 2
    let rest := lexer (rawOf ((lexer source).tokens.drop kept) ++ added)
    lexer (source ++ added) = ⟨(lexer source).tokens.take kept ++ rest.tokens, rest.links⟩

/-- The lexer splits the source where the component does. -/
def SplitsAt (lexer : Text → TokensList D) (cached : CachedTokens D) (source : Text) : Prop :=
  let tail := lexer (source.drop cached.stableSourceLength)
  lexer source
    = ⟨(lexer cached.source).tokens.take cached.stableTokenCount ++ tail.tokens, tail.links⟩

theorem Lexed.kept {n : Nat} (h : Lexed options n cached) (hpos : 0 < cached.stableTokenCount) :
    Kept cached.source (options.lexer cached.source) := by
  refine kept_of_pos ?_
  rw [← h.stable]
  exact hpos

theorem KeepsTokens.splitsAt {n : Nat} (hlexer : KeepsTokens options.lexer)
    (h : Lexed options n cached) (hpos : 0 < cached.stableTokenCount)
    (hplain : Plain cached.source (options.lexer cached.source))
    (hadded : cached.source <+: source) : SplitsAt options.lexer cached source := by
  obtain ⟨added, rfl⟩ := hadded
  have hkept := h.kept hpos
  have hcount : cached.stableTokenCount = (options.lexer cached.source).tokens.length - 2 := by
    rw [← hkept.closed hplain.closed, ← h.stable]
  have hlength : cached.stableSourceLength =
      (rawOf ((options.lexer cached.source).tokens.take cached.stableTokenCount)).length := by
    have hlength := hkept.length
    rw [← h.stable] at hlength
    exact hlength
  have hdrop : (cached.source ++ added).drop cached.stableSourceLength =
      rawOf ((options.lexer cached.source).tokens.drop cached.stableTokenCount) ++ added := by
    have hsource : cached.source =
        rawOf ((options.lexer cached.source).tokens.take cached.stableTokenCount) ++
          rawOf ((options.lexer cached.source).tokens.drop cached.stableTokenCount) := by
      rw [rawOf, rawOf, ← flatMap_append, take_append_drop]
      exact hkept.covers.symm
    calc (cached.source ++ added).drop cached.stableSourceLength
      _ = ((rawOf ((options.lexer cached.source).tokens.take cached.stableTokenCount) ++
            rawOf ((options.lexer cached.source).tokens.drop cached.stableTokenCount))
              ++ added).drop cached.stableSourceLength := by rw [← hsource]
      _ = _ := by rw [hlength, append_assoc, drop_left]
  have hkeeps := hlexer cached.source hplain added
  simp only [← hcount, ← hdrop] at hkeeps
  exact hkeeps

/-! ## The tokens of a source -/

theorem map_snd_trimLast (entries : List (Token D × Nat)) :
    (Markdown.trimLast entries).map Prod.snd = entries.map Prod.snd := by
  induction entries with
  | nil => rfl
  | cons entry rest ih =>
    cases rest with
    | nil => rfl
    | cons other rest => simpa [Markdown.trimLast] using ih

theorem getElem?_trimLast {j : Nat} {token : Token D} {id : Nat}
    (h : (Markdown.trimLast entries)[j]? = some (token, id)) :
    entries[j]? = some (token, id) ∨
      entries[j + 1]? = none ∧ ∃ token, entries[j]? = some (token, id) := by
  induction entries generalizing j with
  | nil => cases h
  | cons entry rest ih =>
    cases rest with
    | nil =>
      cases j with
      | zero =>
        cases h
        exact .inr ⟨rfl, entry.1, rfl⟩
      | succ j => cases h
    | cons other rest =>
      cases j with
      | zero => exact .inl h
      | succ j => exact ih h

theorem nextType_trimLast (entries : List (Token D × Nat)) (j : Nat) :
    nextType (Markdown.trimLast entries) j = nextType entries j := by
  have htype : ∀ (entries : List (Token D × Nat)) (j : Nat),
      ((Markdown.trimLast entries)[j]?.map fun entry => entry.1.type)
        = entries[j]?.map fun entry => entry.1.type := by
    intro entries
    induction entries with
    | nil => exact fun _ => rfl
    | cons entry rest ih =>
      intro j
      cases rest with
      | nil =>
        cases j with
        | zero => simp [Markdown.trimLast]
        | succ j => rfl
      | cons other rest =>
        cases j with
        | zero => rfl
        | succ j => exact ih j
  exact htype entries (j + 1)

theorem mem_zipIdx_range {tokens : List (Token D)} {n id : Nat}
    (h : id ∈ (tokens.zipIdx n).map Prod.snd) : n ≤ id ∧ id < n + tokens.length := by
  rw [zipIdx_map_snd] at h
  exact List.mem_range'_1.mp h

/-- A list of tokens for the source: old ones that were kept and new ones. -/
structure Fresh (options : Options D) (s : Markdown D) (width : Nat) (source : Text)
    (entries : List (Token D × Nat)) (links : List String) : Prop where
  tokens : entries.map Prod.fst = (options.lexer source).tokens
  links : links = (options.lexer source).links
  distinct : (entries.map Prod.snd).Nodup
  made : ∀ id ∈ entries.map Prod.snd, id < s.nextToken + entries.length
  usable : Usable options width (Markdown.trimLast entries) s.renderedBlocks

theorem fresh_lexed (hmade : ∀ id block, s.renderedBlocks id = some block → id < s.nextToken) :
    Fresh options s width source ((options.lexer source).tokens.zipIdx s.nextToken)
      (options.lexer source).links := by
  refine ⟨zipIdx_map_fst .., rfl, ?_, fun id hid => ?_, ?_⟩
  · rw [zipIdx_map_snd]
    exact nodup_range'
  · rw [length_zipIdx]
    exact (mem_zipIdx_range hid).2
  · intro j token id block hj hblock
    have hid : id ∈ ((options.lexer source).tokens.zipIdx s.nextToken).map Prod.snd := by
      rw [← map_snd_trimLast]
      exact List.mem_map.mpr ⟨_, mem_of_getElem? hj, rfl⟩
    have := (mem_zipIdx_range hid).1
    have := hmade id block hblock
    omega

/-- **Old tokens and new ones.** An old token that has become the last one is trimmed,
but its lines were those of a token with another one behind it. -/
theorem fresh_appended (h : Inv options s) (hcached : s.cachedTokens = some cached)
    (hpos : 0 < cached.stableTokenCount) (hsplits : SplitsAt options.lexer cached source) :
    Fresh options s width source
      (cached.tokens.take cached.stableTokenCount ++
        (options.lexer (source.drop cached.stableSourceLength)).tokens.zipIdx s.nextToken)
      (options.lexer (source.drop cached.stableSourceLength)).links := by
  have hlexed := h.lexed cached hcached
  have hlength : cached.tokens.length = (options.lexer cached.source).tokens.length := by
    have := congrArg List.length hlexed.tokens
    simpa using this
  have hbound : cached.stableTokenCount ≤ cached.tokens.length - 2 := by
    have hbound := (hlexed.kept hpos).bound
    rw [← hlexed.stable, ← hlength] at hbound
    exact hbound
  have hold : ∀ id ∈ (cached.tokens.take cached.stableTokenCount).map Prod.snd,
      id < s.nextToken := by
    intro id hid
    rw [map_take] at hid
    exact hlexed.made id (mem_of_mem_take hid)
  refine ⟨?_, ?_, ?_, fun id hid => ?_, ?_⟩
  · rw [hsplits, map_append, zipIdx_map_fst, map_take, hlexed.tokens, take_trimLastToken (by omega)]
  · rw [hsplits]
  · rw [map_append, nodup_append]
    refine ⟨?_, ?_, ?_⟩
    · rw [map_take]
      exact hlexed.distinct.sublist (take_sublist _ _)
    · rw [zipIdx_map_snd]
      exact nodup_range'
    · rintro a ha _ hb rfl
      have := hold a ha
      have := (mem_zipIdx_range hb).1
      omega
  · rw [length_append, length_zipIdx]
    rw [map_append, mem_append] at hid
    rcases hid with hid | hid
    · have := hold id hid
      omega
    · have := (mem_zipIdx_range hid).2
      omega
  · intro j token id block hj hblock hwidth hnext
    rw [nextType_trimLast] at hnext ⊢
    have hplace : ∀ token, (cached.tokens.take cached.stableTokenCount ++
        (options.lexer (source.drop cached.stableSourceLength)).tokens.zipIdx s.nextToken)[j]?
          = some (token, id) → j < cached.stableTokenCount ∧ cached.tokens[j]? = some (token, id) := by
      intro token hj
      have hmade := h.made id block hblock
      rcases Nat.lt_or_ge j (cached.tokens.take cached.stableTokenCount).length with hlt | hge
      · rw [getElem?_append_left hlt, getElem?_take] at hj
        rw [length_take] at hlt
        rw [if_pos (by omega)] at hj
        exact ⟨by omega, hj⟩
      · rw [getElem?_append_right hge] at hj
        have hmem : id ∈ ((options.lexer (source.drop cached.stableSourceLength)).tokens.zipIdx
            s.nextToken).map Prod.snd := List.mem_map.mpr ⟨_, mem_of_getElem? hj, rfl⟩
        have := (mem_zipIdx_range hmem).1
        omega
    rcases getElem?_trimLast hj with hsame | ⟨hlast, old, hsame⟩
    · have hdrawn := h.drawn cached hcached j token id block (hplace token hsame).2 hblock
      rw [hdrawn.2, hwidth, hnext]
    · -- an old token was not the last one when it was drawn
      obtain ⟨hj, hentry⟩ := hplace old hsame
      have hdrawn := (h.drawn cached hcached j old id block hentry hblock).1
      have hnone : nextType (cached.tokens.take cached.stableTokenCount ++
          (options.lexer (source.drop cached.stableSourceLength)).tokens.zipIdx s.nextToken) j
            = none := by
        rw [nextType, hlast]
        rfl
      have hsome : (nextType cached.tokens j).isSome = true := by
        rw [nextType, getElem?_eq_getElem (by omega)]
        rfl
      rw [← hdrawn, hnext, hnone] at hsome
      cases hsome

theorem Fresh.lexed {links : List String} (h : Fresh options s width source entries links) :
    Lexed options (s.nextToken + (Markdown.trimLast entries).length)
      ⟨source, Markdown.trimLast entries,
        (stablePart source ⟨(Markdown.trimLast entries).map Prod.fst, links⟩).1,
        (stablePart source ⟨(Markdown.trimLast entries).map Prod.fst, links⟩).2⟩ := by
  have hlength : (Markdown.trimLast entries).length = entries.length := by
    have := congrArg List.length (map_snd_trimLast entries)
    simpa using this
  refine ⟨?_, ?_, ?_, ?_⟩
  · rw [map_trimLast, h.tokens]
  · rw [map_trimLast, stablePart_trimLastToken, h.tokens, h.links]
  · rw [map_snd_trimLast]
    exact h.distinct
  · rw [map_snd_trimLast, hlength]
    exact h.made

/-- What the component relies on when the text has only been added to. -/
def Splits (options : Options D) (s : Markdown D) (source : Text) : Prop :=
  ∀ cached, s.cachedTokens = some cached → 0 < cached.stableTokenCount → cached.source <+: source →
      Plain cached.source (options.lexer cached.source) ∨ SplitsAt options.lexer cached source

theorem fresh_entries (width : Nat) (hlexer : KeepsTokens options.lexer) (h : Inv options s)
    (hsplits : Splits options s source) :
    Fresh options s width source
      ((Markdown.appended options s.cachedTokens source s.nextToken).getD
        ((options.lexer source).tokens.zipIdx s.nextToken, (options.lexer source).links)).1
      ((Markdown.appended options s.cachedTokens source s.nextToken).getD
        ((options.lexer source).tokens.zipIdx s.nextToken, (options.lexer source).links)).2 := by
  cases happended : Markdown.appended options s.cachedTokens source s.nextToken with
  | none => exact fresh_lexed h.made
  | some result =>
    cases hcached : s.cachedTokens with
    | none => rw [hcached] at happended; cases happended
    | some cached =>
      rw [hcached] at happended
      simp only [Markdown.appended] at happended
      split at happended
      case isFalse => cases happended
      case isTrue hadded =>
        simp only [Bool.and_eq_true, decide_eq_true_eq, isPrefixOf_iff_prefix] at hadded
        split at happended
        case isFalse => cases happended
        case isTrue =>
          obtain rfl := Option.some.inj happended
          refine fresh_appended h hcached hadded.1 ?_
          rcases hsplits cached hcached hadded.1 hadded.2 with hplain | hsplits
          · exact hlexer.splitsAt (h.lexed cached hcached) hadded.1 hplain hadded.2
          · exact hsplits

/-- **The tokens of a source**, whichever way they are found. -/
theorem parse_spec (width : Nat) (hlexer : KeepsTokens options.lexer) (h : Inv options s)
    (hsplits : Splits options s source) :
    (Markdown.parse options s source).1.source = source ∧
      Lexed options (Markdown.parse options s source).2 (Markdown.parse options s source).1 ∧
      s.nextToken ≤ (Markdown.parse options s source).2 ∧
      Usable options width (Markdown.parse options s source).1.tokens s.renderedBlocks := by
  unfold Markdown.parse
  split
  case h_1 cached hfound =>
    obtain ⟨hcached, hsource⟩ := Option.filter_eq_some_iff.mp hfound
    exact ⟨of_decide_eq_true hsource, h.lexed cached hcached, Nat.le_refl _,
      (h.drawn cached hcached).usable⟩
  case h_2 =>
    have hfresh := fresh_entries width hlexer h hsplits
    exact ⟨rfl, hfresh.lexed, Nat.le_add_right _ _, hfresh.usable⟩

end ReflectivePi.Components
