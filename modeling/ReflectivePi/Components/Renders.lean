import Mathlib.Data.List.Nodup
import ReflectivePi.Components.Stable

/-!
# Components — markdown renderings

What the caches hold: the output of a text, the tokens of a source, and for each
of these tokens its lines. A rendering draws the tokens as if for the first time.
-/

namespace ReflectivePi.Components

open List

variable {D : Type} {options : Options D} {s : Markdown D} {cached : CachedTokens D}
  {entries : List (Token D × Nat)} {blocks : Nat → Option Block} {width : Nat}

/-- The lines of the tokens of a document. -/
def Options.drawn (options : Options D) (width : Nat) : List (Token D) → List Text
  | [] => []
  | token :: rest => options.blockLines token width (rest.head?.map Token.type)
      ++ options.drawn width rest

/-- The tokens of a text with the last one trimmed. -/
def Options.tokensOf (options : Options D) (text : Text) (width : Nat) : List (Token D) :=
  trimLastToken (options.lexer (normalize (options.transformed text width))).tokens

/-- The lines that a text comes to. -/
def Options.output (options : Options D) (text : Text) (width : Nat) : List Text :=
  if isBlank (options.transformed text width) then []
  else options.emptyLines width ++ options.drawn width (options.tokensOf text width)
    ++ options.emptyLines width

/-! ## The loop over the tokens -/

/-- The type of the token behind the one at a place. -/
def nextType (entries : List (Token D × Nat)) (j : Nat) : Option TokenType :=
  entries[j + 1]?.map fun entry => entry.1.type

/-- Lines that the loop takes from the cache are those of the token. -/
def Usable (options : Options D) (width : Nat) (entries : List (Token D × Nat))
    (blocks : Nat → Option Block) : Prop :=
  ∀ (j : Nat) token id block, entries[j]? = some (token, id) → blocks id = some block →
    block.width = width → block.nextTokenType = nextType entries j →
      block.lines = options.blockLines token width (nextType entries j)

/-- Every token has its lines in the cache. -/
def Complete (options : Options D) (width : Nat) (entries : List (Token D × Nat))
    (blocks : Nat → Option Block) : Prop :=
  ∀ (j : Nat) token id, entries[j]? = some (token, id) →
    blocks id = some ⟨width, nextType entries j,
      options.blockLines token width (nextType entries j)⟩

theorem nextType_zero (entry : Token D × Nat) (rest : List (Token D × Nat)) :
    nextType (entry :: rest) 0 = rest.head?.map fun next => next.1.type := by
  simp [nextType, head?_eq_getElem?]

theorem Usable.tail {entry : Token D × Nat} {rest : List (Token D × Nat)}
    (h : Usable options width (entry :: rest) blocks) (hid : entry.2 ∉ rest.map Prod.snd)
    {blocks' : Nat → Option Block} (hblocks : ∀ id, id ≠ entry.2 → blocks' id = blocks id) :
    Usable options width rest blocks' := by
  intro j token id block hj hblock
  have hne : id ≠ entry.2 := by
    rintro rfl
    exact hid (List.mem_map.mpr ⟨_, mem_of_getElem? hj, rfl⟩)
  rw [hblocks id hne] at hblock
  exact h (j + 1) token id block hj hblock

theorem Complete.cons {token : Token D} {id : Nat} {rest : List (Token D × Nat)}
    (h : Complete options width rest blocks)
    (hfirst : blocks id = some ⟨width, nextType ((token, id) :: rest) 0,
      options.blockLines token width (nextType ((token, id) :: rest) 0)⟩) :
    Complete options width ((token, id) :: rest) blocks := by
  intro j token' id' hj
  cases j with
  | zero =>
    cases hj
    exact hfirst
  | succ j => exact h j token' id' hj

/-- **The loop** draws every token and leaves its lines in the cache. -/
theorem renderTokens_spec (hnodup : (entries.map Prod.snd).Nodup)
    (husable : Usable options width entries blocks) :
    (Markdown.renderTokens options width entries blocks).1
        = options.drawn width (entries.map Prod.fst) ∧
      (∀ id, id ∉ entries.map Prod.snd →
        (Markdown.renderTokens options width entries blocks).2 id = blocks id) ∧
      Complete options width entries (Markdown.renderTokens options width entries blocks).2 := by
  induction entries generalizing blocks with
  | nil => exact ⟨rfl, fun _ _ => rfl, fun j _ _ hj => by cases hj⟩
  | cons entry rest ih =>
    obtain ⟨token, id⟩ := entry
    rw [map_cons, nodup_cons] at hnodup
    obtain ⟨hid, hnodup⟩ := hnodup
    have hnext : (rest.head?.map fun next => next.1.type) =
        (rest.map Prod.fst).head?.map Token.type := by
      cases rest <;> rfl
    simp only [Markdown.renderTokens]
    split
    case h_1 block hblock =>
      obtain ⟨hblock, hmatch⟩ := Option.filter_eq_some_iff.mp hblock
      simp only [Bool.and_eq_true, decide_eq_true_eq] at hmatch
      obtain ⟨hdrawn, hothers, hcomplete⟩ := ih hnodup (husable.tail hid fun _ _ => rfl)
      have hlines : block.lines = options.blockLines token width (nextType ((token, id) :: rest) 0) :=
        husable 0 token id block rfl hblock hmatch.1 (hmatch.2.trans (nextType_zero _ _).symm)
      refine ⟨?_, fun other hother => hothers other ?_, hcomplete.cons ?_⟩
      · rw [hlines, hdrawn, nextType_zero, hnext]
        rfl
      · exact fun hmem => hother (mem_cons_of_mem _ hmem)
      · rw [hothers id hid, hblock, ← hlines, nextType_zero, ← hmatch.1, ← hmatch.2]
    case h_2 =>
      have hsame : ∀ other, other ≠ id → Function.update blocks id (some ⟨width,
          rest.head?.map fun next => next.1.type, options.blockLines token width
            (rest.head?.map fun next => next.1.type)⟩) other = blocks other :=
        fun other hne => Function.update_of_ne hne _ _
      obtain ⟨hdrawn, hothers, hcomplete⟩ := ih hnodup (husable.tail hid hsame)
      refine ⟨?_, fun other hother => ?_, hcomplete.cons ?_⟩
      · rw [hdrawn, hnext]
        rfl
      · rw [hothers other fun hmem => hother (mem_cons_of_mem _ hmem)]
        exact hsame other fun heq => hother (heq ▸ mem_cons_self)
      · rw [hothers id hid, Function.update_self, nextType_zero]

/-- The cached tokens are those of their source, each an object of its own. -/
structure Lexed (options : Options D) (nextToken : Nat) (cached : CachedTokens D) : Prop where
  tokens : cached.tokens.map Prod.fst = trimLastToken (options.lexer cached.source).tokens
  stable : (cached.stableTokenCount, cached.stableSourceLength)
    = stablePart cached.source (options.lexer cached.source)
  distinct : (cached.tokens.map Prod.snd).Nodup
  made : ∀ id ∈ cached.tokens.map Prod.snd, id < nextToken

/-- Lines in the cache are those of a token and of the type that follows it. -/
def Drawn (options : Options D) (entries : List (Token D × Nat))
    (blocks : Nat → Option Block) : Prop :=
  ∀ (j : Nat) token id block, entries[j]? = some (token, id) → blocks id = some block →
    block.nextTokenType = nextType entries j ∧
      block.lines = options.blockLines token block.width block.nextTokenType

structure Inv (options : Options D) (s : Markdown D) : Prop where
  output : ∀ lines text width, s.cachedLines = some lines → s.cachedText = some text →
    s.cachedWidth = some width → lines = options.output text width
  made : ∀ id block, s.renderedBlocks id = some block → id < s.nextToken
  lexed : ∀ cached, s.cachedTokens = some cached → Lexed options s.nextToken cached
  drawn : ∀ cached, s.cachedTokens = some cached → Drawn options cached.tokens s.renderedBlocks

theorem Drawn.usable (h : Drawn options entries blocks) : Usable options width entries blocks := by
  intro j token id block hj hblock hwidth hnext
  rw [(h j token id block hj hblock).2, hwidth, hnext]

theorem Complete.drawn (h : Complete options width entries blocks) :
    Drawn options entries blocks := by
  intro j token id block hj hblock
  rw [h j token id hj, Option.some.injEq] at hblock
  subst hblock
  exact ⟨rfl, rfl⟩

end ReflectivePi.Components
