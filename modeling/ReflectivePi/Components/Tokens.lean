import Mathlib.Init

/-!
# Components — markdown tokens

The block tokens of a document, the trimming of a closing fence that has arrived
in part, and the number of tokens that text added later cannot change.
Texts are lists of UTF-16 code units.
-/

namespace ReflectivePi.Components

abbrev Text := List UInt16

inductive TokenType where
  | code
  | list
  | blockquote
  | html
  | paragraph
  | text
  | other (name : String)
  deriving DecidableEq

/-- A token with the groups of tokens in it: the items of a list, the cells of a
table, or what another block holds. `data` is everything else it carries. -/
inductive Token (D : Type) where
  | mk (type : TokenType) (raw text : Text) (groups : List (List (Token D))) (data : D)

variable {D : Type}

namespace Token

def type : Token D → TokenType
  | mk type _ _ _ _ => type

def raw : Token D → Text
  | mk _ raw _ _ _ => raw

end Token

/-! ## Partial closing fences -/

/-- `/^(`{3,}|~{3,})/`: backticks are 96, tildes 126. -/
def fenceMarker (raw : Text) : Option Text :=
  let backticks := raw.takeWhile (· = 96)
  let tildes := raw.takeWhile (· = 126)
  if 3 ≤ backticks.length then some backticks
  else if 3 ≤ tildes.length then some tildes
  else none

/-- `raw.split("\n").pop()`. -/
def lastLine (raw : Text) : Text :=
  (raw.reverse.takeWhile (· ≠ 10)).reverse

/-- The text of a code token without a part of its closing fence. -/
def withoutPartialFence (raw text : Text) : Text :=
  match fenceMarker raw with
  | none => text
  | some marker =>
    let line := lastLine raw
    if line = [] || marker.length ≤ line.length
        || line ≠ List.replicate line.length (marker.headD 0) then
      text
    else
      let rest := text.take (text.length - line.length)
      if rest.getLast? = some 10 then rest.dropLast else rest

mutual

/-- `trimPartialClosingFences` at the last token of a document. -/
def Token.trimPartialClosingFences : Token D → Token D
  | .mk .list raw text groups data => .mk .list raw text (trimLastGroup groups) data
  | .mk .blockquote raw text groups data => .mk .blockquote raw text (trimLastGroup groups) data
  | .mk .code raw text groups data => .mk .code raw (withoutPartialFence raw text) groups data
  | token => token

def trimLastGroup : List (List (Token D)) → List (List (Token D))
  | [] => []
  | [group] => [trimLastToken group]
  | group :: other :: groups => group :: trimLastGroup (other :: groups)

def trimLastToken : List (Token D) → List (Token D)
  | [] => []
  | [token] => [token.trimPartialClosingFences]
  | token :: other :: tokens => token :: trimLastToken (other :: tokens)

end

mutual

/-- The search for `html` through the groups of the tokens. -/
def Token.hasHtml : Token D → Bool
  | .mk type _ _ groups _ => type = .html || groupsHaveHtml groups

def groupsHaveHtml : List (List (Token D)) → Bool
  | [] => false
  | group :: groups => tokensHaveHtml group || groupsHaveHtml groups

def tokensHaveHtml : List (Token D) → Bool
  | [] => false
  | token :: tokens => token.hasHtml || tokensHaveHtml tokens

end

/-! ## Stable tokens -/

/-- The starts of lines, as the rest of the text from there. -/
def lineStarts : Text → List Text
  | [] => []
  | unit :: rest => if unit = 10 then rest :: lineStarts rest else lineStarts rest

/-- `/ {0,3}opening/` at the start of a line, with what follows it. -/
def afterIndent (opening line : Text) : Option Text :=
  let rest := line.dropWhile (· = 32)
  if (line.takeWhile (· = 32)).length ≤ 3 && opening.isPrefixOf rest then
    some (rest.drop opening.length)
  else none

/-- `/(?:\\[\s\S]|[^[\]\\])*\\?$/`: no bracket but behind a backslash. -/
def isUnclosed : Text → Bool
  | [] => true
  | unit :: rest =>
    if unit = 92 then
      match rest with
      | [] => true
      | _ :: rest => isUnclosed rest
    else unit ≠ 91 && unit ≠ 93 && isUnclosed rest

def hasUnclosedLabel (raw : Text) : Bool :=
  (raw :: lineStarts raw).any fun line => ((afterIndent [91] line).map isUnclosed).getD false

def hasDollarBlock (raw : Text) : Bool :=
  (raw :: lineStarts raw).any fun line => (afterIndent [36, 36] line).isSome

/-- A token that can absorb any number of the following ones. -/
def Token.isOpen (token : Token D) : Bool :=
  token.type ≠ .code && hasUnclosedLabel token.raw
    || (token.type = .paragraph || token.type = .text) && hasDollarBlock token.raw

/-- The variables of the loop over the tokens. -/
structure Scan where
  stableTokenCount : Nat
  stableSourceLength : Nat
  sourceLength : Nat

/-- What the loop does with token `i`, which the source has at this place. -/
def Scan.next (scan : Scan) (i : Nat) (token : Token D) : Scan :=
  let opened := if i < scan.stableTokenCount && token.isOpen then
      { scan with stableTokenCount := i, stableSourceLength := scan.sourceLength }
    else scan
  let sourceLength := opened.sourceLength + token.raw.length
  { opened with
    stableSourceLength :=
      if i + 1 = opened.stableTokenCount then sourceLength else opened.stableSourceLength
    sourceLength }

def scanTokens (source : Text) : Nat → List (Token D) → Scan → Scan
  | _, [], scan => scan
  | i, token :: tokens, scan =>
    if token.raw.isPrefixOf (source.drop scan.sourceLength) then
      scanTokens source (i + 1) tokens (scan.next i token)
    else { scan with stableTokenCount := 0 }

/-- What the lexer returns: the tokens, and the labels that the document defines. -/
structure TokensList (D : Type) where
  tokens : List (Token D)
  links : List String

/-- `stableTokenCount` and `stableSourceLength` of a source with these tokens. -/
def stablePart (source : Text) (lexed : TokensList D) : Nat × Nat :=
  let scan := scanTokens source 0 lexed.tokens ⟨lexed.tokens.length - 2, 0, 0⟩
  if scan.sourceLength ≠ source.length || !lexed.links.isEmpty || tokensHaveHtml lexed.tokens then
    (0, scan.stableSourceLength)
  else (scan.stableTokenCount, scan.stableSourceLength)

end ReflectivePi.Components
