import ReflectivePi.Components.Markdown

/-!
# Components — markdown sources

What the scan of the tokens says about the part of a source that is kept when
text is added to it. Trimming the last token changes neither.
-/

namespace ReflectivePi.Components

open List

variable {D : Type} {source : Text} {token : Token D} {tokens all : List (Token D)}
  {scan : Scan} {i k : Nat}

/-! ## Trimmed tokens -/

@[simp] theorem trimPartialClosingFences_type (token : Token D) :
    token.trimPartialClosingFences.type = token.type := by
  obtain ⟨type, raw, text, groups, data⟩ := token
  cases type <;> simp [Token.trimPartialClosingFences, Token.type]

@[simp] theorem trimPartialClosingFences_raw (token : Token D) :
    token.trimPartialClosingFences.raw = token.raw := by
  obtain ⟨type, raw, text, groups, data⟩ := token
  cases type <;> simp [Token.trimPartialClosingFences, Token.raw]

mutual

theorem trimPartialClosingFences_hasHtml : ∀ token : Token D,
    token.trimPartialClosingFences.hasHtml = token.hasHtml
  | .mk type raw text groups data => by
    have hgroups := trimLastGroup_haveHtml groups
    cases type <;> simp [Token.trimPartialClosingFences, Token.hasHtml, hgroups]

theorem trimLastGroup_haveHtml : ∀ groups : List (List (Token D)),
    groupsHaveHtml (trimLastGroup groups) = groupsHaveHtml groups
  | [] => rfl
  | [group] => by
    simp [trimLastGroup, groupsHaveHtml, trimLastToken_haveHtml group]
  | group :: other :: groups => by
    simp [trimLastGroup, groupsHaveHtml, trimLastGroup_haveHtml (other :: groups)]

theorem trimLastToken_haveHtml : ∀ tokens : List (Token D),
    tokensHaveHtml (trimLastToken tokens) = tokensHaveHtml tokens
  | [] => rfl
  | [token] => by
    simp [trimLastToken, tokensHaveHtml, trimPartialClosingFences_hasHtml token]
  | token :: other :: tokens => by
    simp [trimLastToken, tokensHaveHtml, trimLastToken_haveHtml (other :: tokens)]

end

@[simp] theorem trimPartialClosingFences_isOpen (token : Token D) :
    token.trimPartialClosingFences.isOpen = token.isOpen := by
  simp [Token.isOpen]

@[simp] theorem length_trimLastToken (tokens : List (Token D)) :
    (trimLastToken tokens).length = tokens.length := by
  induction tokens with
  | nil => rfl
  | cons token rest ih =>
    cases rest with
    | nil => rfl
    | cons other rest => simpa [trimLastToken] using ih

theorem take_trimLastToken (h : k < tokens.length) :
    (trimLastToken tokens).take k = tokens.take k := by
  induction tokens generalizing k with
  | nil => cases h
  | cons token rest ih =>
    cases k with
    | zero => rfl
    | succ k =>
      cases rest with
      | nil => simp at h
      | cons other rest =>
        simp only [trimLastToken, take_succ_cons]
        rw [ih (by simpa using h)]

theorem map_trimLast (entries : List (Token D × Nat)) :
    (Markdown.trimLast entries).map Prod.fst = trimLastToken (entries.map Prod.fst) := by
  induction entries with
  | nil => rfl
  | cons entry rest ih =>
    cases rest with
    | nil => rfl
    | cons other rest => simpa [Markdown.trimLast, trimLastToken] using ih

/-! ## The scan -/

theorem scanTokens_trimLastToken (tokens : List (Token D)) (i : Nat) (scan : Scan) :
    scanTokens source i (trimLastToken tokens) scan = scanTokens source i tokens scan := by
  have hnext : ∀ (scan : Scan) (i : Nat) (token : Token D),
      scan.next i token.trimPartialClosingFences = scan.next i token := by
    intro scan i token
    simp [Scan.next]
  induction tokens generalizing i scan with
  | nil => rfl
  | cons token rest ih =>
    cases rest with
    | nil => simp [trimLastToken, scanTokens, hnext]
    | cons other rest => simp only [trimLastToken, scanTokens, ih]

theorem stablePart_trimLastToken (tokens : List (Token D)) (links : List String) :
    stablePart source ⟨trimLastToken tokens, links⟩ = stablePart source ⟨tokens, links⟩ := by
  simp only [stablePart, scanTokens_trimLastToken, trimLastToken_haveHtml, length_trimLastToken]

/-- The raw text of tokens. -/
def rawOf (tokens : List (Token D)) : Text :=
  tokens.flatMap Token.raw

/-- Where the scan stands before token `i`. -/
structure Scanned (source : Text) (all : List (Token D)) (i : Nat) (scan : Scan) : Prop where
  start : rawOf (all.take i) <+: source
  sourceLength : scan.sourceLength = (rawOf (all.take i)).length
  bound : scan.stableTokenCount ≤ all.length - 2
  stable : scan.stableTokenCount ≤ i →
    scan.stableSourceLength = (rawOf (all.take scan.stableTokenCount)).length
  closed : (∀ token ∈ all, token.isOpen = false) → scan.stableTokenCount = all.length - 2

theorem rawOf_take_succ (h : all[i]? = some token) :
    rawOf (all.take (i + 1)) = rawOf (all.take i) ++ token.raw := by
  rw [take_add_one, h, rawOf, flatMap_append]
  simp [rawOf]

theorem Scanned.next (h : Scanned source all i scan) (htoken : all[i]? = some token)
    (hraw : token.raw <+: source.drop scan.sourceLength) :
    Scanned source all (i + 1) (scan.next i token) := by
  have hlength : scan.sourceLength + token.raw.length = (rawOf (all.take (i + 1))).length := by
    rw [rawOf_take_succ htoken, length_append, h.sourceLength]
  have hstart : rawOf (all.take (i + 1)) <+: source := by
    obtain ⟨rest, hrest⟩ := h.start
    obtain ⟨more, hmore⟩ := hraw
    refine ⟨more, ?_⟩
    rw [h.sourceLength, ← hrest, drop_left] at hmore
    rw [rawOf_take_succ htoken, append_assoc, hmore, hrest]
  by_cases hopen : i < scan.stableTokenCount ∧ token.isOpen = true
  · -- the tokens before this one are all that stays
    have hscan : scan.next i token = ⟨i, scan.sourceLength, (rawOf (all.take (i + 1))).length⟩ := by
      simp [Scan.next, hopen, hlength]
    rw [hscan]
    refine ⟨hstart, rfl, ?_, fun _ => h.sourceLength, fun hclosed => ?_⟩
    · have := h.bound
      simp only
      omega
    · rw [hclosed token (mem_of_getElem? htoken)] at hopen
      cases hopen.2
  · have hscan : scan.next i token = ⟨scan.stableTokenCount,
        if i + 1 = scan.stableTokenCount then (rawOf (all.take (i + 1))).length
          else scan.stableSourceLength, (rawOf (all.take (i + 1))).length⟩ := by
      have hfalse : (decide (i < scan.stableTokenCount) && token.isOpen) = false := by
        simpa using hopen
      simp [Scan.next, hfalse, hlength]
    rw [hscan]
    refine ⟨hstart, rfl, h.bound, fun hle => ?_, h.closed⟩
    simp only at hle ⊢
    split
    case isTrue heq => rw [heq]
    case isFalse hne => exact h.stable (by omega)

/-- **The scan**, once it has seen every token. -/
theorem scanTokens_scanned (h : Scanned source all i scan) (hrest : all.drop i = tokens)
    (hpos : 0 < (scanTokens source i tokens scan).stableTokenCount) :
    Scanned source all all.length (scanTokens source i tokens scan) := by
  induction tokens generalizing i scan with
  | nil =>
    have hlen : all.length ≤ i := List.drop_eq_nil_iff.mp hrest
    have htake : all.take i = all.take all.length := by
      rw [take_of_length_le hlen, take_length]
    simp only [scanTokens]
    refine ⟨htake ▸ h.start, htake ▸ h.sourceLength, h.bound, fun hle => ?_, h.closed⟩
    exact h.stable (Nat.le_trans hle hlen)
  | cons token rest ih =>
    have htoken : all[i]? = some token := by
      rw [← Nat.add_zero i, ← getElem?_drop, hrest]
      rfl
    have hdrop : all.drop (i + 1) = rest := by
      rw [← drop_drop, hrest]
      rfl
    simp only [scanTokens] at hpos ⊢
    split at hpos
    case isTrue hraw =>
      rw [if_pos hraw]
      exact ih (h.next htoken (List.isPrefixOf_iff_prefix.mp hraw)) hdrop hpos
    case isFalse => simp at hpos

/-- What is known of a source of which a part is kept. -/
structure Kept (source : Text) (lexed : TokensList D) : Prop where
  covers : rawOf lexed.tokens = source
  links : lexed.links = []
  html : tokensHaveHtml lexed.tokens = false
  bound : (stablePart source lexed).1 ≤ lexed.tokens.length - 2
  length : (stablePart source lexed).2 =
    (rawOf (lexed.tokens.take (stablePart source lexed).1)).length
  closed : (∀ token ∈ lexed.tokens, token.isOpen = false) →
    (stablePart source lexed).1 = lexed.tokens.length - 2

theorem kept_of_pos {lexed : TokensList D} (h : 0 < (stablePart source lexed).1) :
    Kept source lexed := by
  obtain ⟨scan, hscan⟩ :
      ∃ scan, scanTokens source 0 lexed.tokens ⟨lexed.tokens.length - 2, 0, 0⟩ = scan := ⟨_, rfl⟩
  have heq : stablePart source lexed =
      if scan.sourceLength ≠ source.length || !lexed.links.isEmpty || tokensHaveHtml lexed.tokens
        then (0, scan.stableSourceLength)
        else (scan.stableTokenCount, scan.stableSourceLength) := by
    rw [← hscan]
    rfl
  rw [heq] at h
  split at h
  case isTrue => simp at h
  case isFalse hno =>
    rw [if_neg hno] at heq
    simp only [ne_eq, Bool.or_eq_true, decide_eq_true_eq, Bool.not_eq_true', not_or, not_not,
      Bool.not_eq_false, List.isEmpty_iff, Bool.not_eq_true] at hno
    obtain ⟨⟨hlength, hlinks⟩, hhtml⟩ := hno
    have hinit : Scanned source lexed.tokens 0 ⟨lexed.tokens.length - 2, 0, 0⟩ := by
      refine ⟨ nil_prefix, rfl, Nat.le_refl _, fun hle => ?_, fun _ => rfl⟩
      have hzero : lexed.tokens.length - 2 = 0 := Nat.le_zero.mp hle
      simp only [hzero]
      rfl
    have hdone := scanTokens_scanned hinit (drop_zero ..) (hscan ▸ h)
    rw [hscan] at hdone
    have hstart := hdone.start
    have hsame := hdone.sourceLength
    rw [take_length] at hstart hsame
    refine ⟨hstart.eq_of_length (by rw [← hsame, hlength]), hlinks, hhtml, ?_, ?_, ?_⟩
    · rw [heq]
      exact hdone.bound
    · rw [heq]
      exact hdone.stable (Nat.le_trans hdone.bound (Nat.sub_le _ _))
    · rw [heq]
      exact hdone.closed

end ReflectivePi.Components
