import Mathlib.Logic.Function.Basic
import ReflectivePi.Components.Tokens

/-!
# Components — Markdown

A component with its three caches: the output of the last rendering, the tokens of
the last source, and the lines of the tokens that were rendered. Tokens are
objects: the lines are kept under the identity of the token, which is a number
here, and a token that is cut keeps its identity.
-/

namespace ReflectivePi.Components

variable {D : Type}

/-- What a component is made with, and the functions that it calls. -/
structure Options (D : Type) where
  paddingX : Nat
  paddingY : Nat
  transform : Option (Text → Nat → Text)
  /-- `applyBackgroundToLine` with the background of the default text style. -/
  background : Option (Text → Nat → Text)
  lexer : Text → TokensList D
  renderToken : Token D → Nat → Option TokenType → List Text
  wrapTextWithAnsi : Text → Nat → List Text
  isImageLine : Text → Bool
  visibleWidth : Text → Nat

structure Block where
  width : Nat
  nextTokenType : Option TokenType
  lines : List Text

structure CachedTokens (D : Type) where
  source : Text
  tokens : List (Token D × Nat)
  stableTokenCount : Nat
  stableSourceLength : Nat

structure Markdown (D : Type) where
  text : Text
  cachedText : Option Text := none
  cachedWidth : Option Nat := none
  cachedLines : Option (List Text) := none
  cachedTokens : Option (CachedTokens D) := none
  renderedBlocks : Nat → Option Block := fun _ => none
  nextToken : Nat := 0

/-! ## Texts -/

/-- The white space that `trim` removes. -/
def isWhitespace (unit : UInt16) : Bool :=
  (9 ≤ unit && unit ≤ 13) || unit = 32 || unit = 0xa0 || unit = 0x1680
    || (0x2000 ≤ unit && unit ≤ 0x200a) || unit = 0x2028 || unit = 0x2029
    || unit = 0x202f || unit = 0x205f || unit = 0x3000 || unit = 0xfeff

/-- `!text || text.trim() === ""`. -/
def isBlank (text : Text) : Bool :=
  text.all isWhitespace

def expandTabs (text : Text) : Text :=
  text.flatMap fun unit => if unit = 9 then [32, 32, 32] else [unit]

/-- `replace(/\r\n|\r/g, "\n")`. -/
def unifyBreaks : Text → Text
  | [] => []
  | unit :: rest =>
    if unit = 13 then
      match rest with
      | [] => [10]
      | next :: more => 10 :: if next = 10 then unifyBreaks more else unifyBreaks (next :: more)
    else unit :: unifyBreaks rest

def normalize (text : Text) : Text :=
  unifyBreaks (expandTabs text)

def blanks (n : Nat) : Text :=
  List.replicate n 32

namespace Options

def contentWidth (options : Options D) (width : Nat) : Nat :=
  max 1 (width - options.paddingX * 2)

def transformed (options : Options D) (text : Text) (width : Nat) : Text :=
  match options.transform with
  | some transform => transform text (options.contentWidth width)
  | none => text

/-- A line as wide as the component. -/
def filled (options : Options D) (line : Text) (width : Nat) : Text :=
  match options.background with
  | some background => background line width
  | none => line ++ blanks (width - options.visibleWidth line)

def blockLines (options : Options D) (token : Token D) (width : Nat)
    (nextTokenType : Option TokenType) : List Text :=
  let contentWidth := options.contentWidth width
  (options.renderToken token contentWidth nextTokenType).flatMap fun line =>
    if options.isImageLine line then [line]
    else (options.wrapTextWithAnsi line contentWidth).map fun wrappedLine =>
      if options.isImageLine wrappedLine then wrappedLine
      else options.filled (blanks options.paddingX ++ wrappedLine ++ blanks options.paddingX) width

def emptyLines (options : Options D) (width : Nat) : List Text :=
  let emptyLine := blanks width
  List.replicate options.paddingY (match options.background with
      | some background => background emptyLine width
      | none => emptyLine)

end Options

namespace Markdown

/-! ## The operations -/

def invalidate (s : Markdown D) : Markdown D :=
  { s with
    cachedText := none
    cachedWidth := none
    cachedLines := none
    renderedBlocks := fun _ => none }

/-- Blocks stay when the text changes. -/
def setText (s : Markdown D) (text : Text) : Markdown D :=
  if text = s.text then s.invalidate
  else { s with text, cachedText := none, cachedWidth := none, cachedLines := none }

/-- The tokens of the last source that stay, with the tokens of the text from
there on, if the source has only been added to. -/
def appended (options : Options D) (cached : Option (CachedTokens D)) (source : Text)
    (nextToken : Nat) : Option (List (Token D × Nat) × List String) :=
  match cached with
  | none => none
  | some cached =>
    if 0 < cached.stableTokenCount && cached.source.isPrefixOf source then
      let tail := options.lexer (source.drop cached.stableSourceLength)
      -- a new definition can resolve references anywhere in the earlier document
      if tail.links.isEmpty then
        some (cached.tokens.take cached.stableTokenCount ++ tail.tokens.zipIdx nextToken,
          tail.links)
      else none
    else none

/-- `trimPartialClosingFences(tokens)`, which changes the last token in place. -/
def trimLast : List (Token D × Nat) → List (Token D × Nat)
  | [] => []
  | [(token, id)] => [(token.trimPartialClosingFences, id)]
  | entry :: other :: tokens => entry :: trimLast (other :: tokens)

/-- The tokens of the source, from the cache if it is the last one. -/
def parse (options : Options D) (s : Markdown D) (source : Text) : CachedTokens D × Nat :=
  match s.cachedTokens.filter fun cached => cached.source = source with
  | some cached => (cached, s.nextToken)
  | none =>
    let lexed := options.lexer source
    let (tokens, links) := (appended options s.cachedTokens source s.nextToken).getD
      (lexed.tokens.zipIdx s.nextToken, lexed.links)
    let tokens := trimLast tokens
    let stable := stablePart source ⟨tokens.map Prod.fst, links⟩
    (⟨source, tokens, stable.1, stable.2⟩, s.nextToken + tokens.length)

/-- The loop over the tokens. -/
def renderTokens (options : Options D) (width : Nat) :
    List (Token D × Nat) → (Nat → Option Block) → List Text × (Nat → Option Block)
  | [], blocks => ([], blocks)
  | (token, id) :: rest, blocks =>
    let nextTokenType := rest.head?.map fun next => next.1.type
    match (blocks id).filter fun block =>
        block.width = width && block.nextTokenType = nextTokenType with
    | some block =>
      let (lines, blocks) := renderTokens options width rest blocks
      (block.lines ++ lines, blocks)
    | none =>
      let lines := options.blockLines token width nextTokenType
      let (more, blocks) := renderTokens options width rest
        (Function.update blocks id (some ⟨width, nextTokenType, lines⟩))
      (lines ++ more, blocks)

/-- `render(width)`: the lines that it returns, and the component after it. -/
def render (options : Options D) (s : Markdown D) (width : Nat) : List Text × Markdown D :=
  match s.cachedLines.filter fun _ => s.cachedText = some s.text && s.cachedWidth = some width with
  | some lines => (lines, s)
  | none =>
    let text := options.transformed s.text width
    if isBlank text then
      ([], { s with
        cachedTokens := none
        renderedBlocks := fun _ => none
        cachedText := some s.text
        cachedWidth := some width
        cachedLines := some [] })
    else
      let (cached, nextToken) := parse options s (normalize text)
      let (contentLines, renderedBlocks) :=
        renderTokens options width cached.tokens s.renderedBlocks
      let result := options.emptyLines width ++ contentLines ++ options.emptyLines width
      (if result.isEmpty then [[]] else result, { s with
          cachedTokens := some cached
          nextToken
          renderedBlocks
          cachedText := some s.text
          cachedWidth := some width
          cachedLines := some result })

end Markdown

inductive Label where
  | setText (text : Text)
  | invalidate
  | render (width : Nat)

def step (options : Options D) (s : Markdown D) : Label → Option (Markdown D)
  | .setText text => some (s.setText text)
  | .invalidate => some s.invalidate
  | .render width => some (s.render options width).2

end ReflectivePi.Components
