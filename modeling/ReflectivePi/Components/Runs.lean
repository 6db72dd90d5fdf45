import ReflectivePi.Components.Fresh
import ReflectivePi.Lib.LabelledRun

/-!
# Components — markdown in every run

A rendering is that of a new component with the same text, unless a text without
lines is rendered a second time at the same width, or the lexer does not split an
extended source where the component does.
-/

namespace ReflectivePi.Components

open List

variable {D : Type} {options : Options D} {s s' : Markdown D} {width : Nat}

/-- The rendering comes from the cache. -/
def Markdown.isRendered (s : Markdown D) (width : Nat) : Bool :=
  (s.cachedLines.filter fun _ =>
    s.cachedText = some s.text && s.cachedWidth = some width).isSome

/-- There is padding, or some token has lines. -/
def Options.hasLines (options : Options D) (text : Text) (width : Nat) : Bool :=
  0 < options.paddingY || !(options.drawn width (options.tokensOf text width)).isEmpty

/-- What a rendering needs: a text with lines if it is repeated, else a source that is
new, or a plain one with text added, or one that the lexer splits. -/
def meets (options : Options D) (s : Markdown D) : Label → Prop
  | .render width =>
    isBlank (options.transformed s.text width) = true ∨
      (if s.isRendered width then options.hasLines s.text width = true
        else Splits options s (normalize (options.transformed s.text width)))
  | _ => True

/-! ## One rendering -/

/-- What a new component shows. -/
def Options.shown (options : Options D) (text : Text) (width : Nat) : List Text :=
  if isBlank (options.transformed text width) then []
  else if (options.output text width).isEmpty then [[]] else options.output text width

theorem Options.shown_of_hasLines {text : Text}
    (h : isBlank (options.transformed text width) = true ∨ options.hasLines text width = true) :
    options.shown text width = options.output text width := by
  unfold Options.shown
  cases hblank : isBlank (options.transformed text width) with
  | true => simp [Options.output, hblank]
  | false =>
    rw [hblank] at h
    have hlines := h.resolve_left Bool.false_ne_true
    have hne : (options.output text width).isEmpty = false := by
      simp only [Options.hasLines, Bool.or_eq_true, decide_eq_true_eq, Bool.not_eq_true',
        isEmpty_eq_false_iff] at hlines
      simp only [Options.output, hblank, Bool.false_eq_true, if_false,
        isEmpty_eq_false_iff, ne_eq, append_eq_nil_iff, not_and]
      rintro ⟨hpadding, hdrawn⟩
      rcases hlines with hpos | hdrawn'
      · have hzero := congrArg List.length hpadding
        rw [Options.emptyLines, length_replicate] at hzero
        exact absurd hzero (Nat.pos_iff_ne_zero.mp hpos)
      · exact absurd hdrawn hdrawn'
    simp [hne]

theorem output_of_none (hlines : s.cachedLines = none) (lines : List Text) (text : Text) (w : Nat)
    (h : s.cachedLines = some lines) (_ : s.cachedText = some text)
    (_ : s.cachedWidth = some w) : lines = options.output text w := by
  rw [hlines] at h
  cases h

theorem Inv.created (text : Text) : Inv options { text } := by
  refine ⟨output_of_none rfl, fun _ _ hblock => ?_, fun _ hcached => ?_, fun _ hcached => ?_⟩
  · cases hblock
  · cases hcached
  · cases hcached

theorem Inv.invalidate (h : Inv options s) : Inv options s.invalidate := by
  refine ⟨output_of_none rfl, fun _ _ hblock => ?_, h.lexed, fun _ _ _ _ _ _ _ hblock => ?_⟩
  · cases hblock
  · cases hblock

theorem Inv.setText (h : Inv options s) (text : Text) : Inv options (s.setText text) := by
  unfold Markdown.setText
  split
  case isTrue => exact h.invalidate
  case isFalse => exact ⟨output_of_none rfl, h.made, h.lexed, h.drawn⟩

/-- **One rendering** shows what a new component would, and keeps the caches right. -/
theorem render_spec (hlexer : KeepsTokens options.lexer) (h : Inv options s)
    (hmeets : meets options s (.render width)) :
    (s.render options width).1 = options.shown s.text width ∧
      Inv options (s.render options width).2 ∧ (s.render options width).2.text = s.text := by
  unfold Markdown.render
  split
  case h_1 lines hfound =>
    have hrendered : s.isRendered width = true := by
      rw [Markdown.isRendered, hfound]
      rfl
    simp only [meets, hrendered, if_true] at hmeets
    obtain ⟨hlines, hsame⟩ := Option.filter_eq_some_iff.mp hfound
    simp only [Bool.and_eq_true, decide_eq_true_eq] at hsame
    exact ⟨(h.output lines s.text width hlines hsame.1 hsame.2).trans
      (Options.shown_of_hasLines hmeets).symm, h, rfl⟩
  case h_2 hfound =>
    have hrendered : s.isRendered width = false := by
      rw [Markdown.isRendered, hfound]
      rfl
    simp only [meets, hrendered, Bool.false_eq_true, if_false] at hmeets
    cases hblank : isBlank (options.transformed s.text width) with
    | true =>
      simp only [hblank, if_true]
      refine ⟨by simp [Options.shown, hblank], ⟨?_, ?_, ?_, ?_⟩, trivial⟩
      · intro lines text w hlines htext hwidth
        cases hlines
        cases htext
        cases hwidth
        simp [Options.output, hblank]
      · nofun
      · nofun
      nofun
    | false =>
      rw [hblank] at hmeets
      obtain ⟨hsource, hlexed, hle, husable⟩ :=
        parse_spec width hlexer h (hmeets.resolve_left Bool.false_ne_true)
      obtain ⟨hdrawn, hothers, hcomplete⟩ := renderTokens_spec hlexed.distinct husable
      have htokens := hlexed.tokens
      rw [hsource] at htokens
      have houtput : options.emptyLines width ++
          (Markdown.renderTokens options width (Markdown.parse options s
            (normalize (options.transformed s.text width))).1.tokens s.renderedBlocks).1
            ++ options.emptyLines width = options.output s.text width := by
        rw [hdrawn, htokens]
        simp [Options.output, Options.tokensOf, hblank]
      simp only [hblank, Bool.false_eq_true, if_false, houtput]
      refine ⟨by simp [Options.shown, hblank], ⟨?_, ?_, ?_, ?_⟩, trivial⟩
      · simp
      · intro id block hblock
        by_cases hmem : id ∈ (Markdown.parse options s
            (normalize (options.transformed s.text width))).1.tokens.map Prod.snd
        · exact hlexed.made id hmem
        · have hold := (hothers id hmem).symm.trans hblock
          exact Nat.lt_of_lt_of_le (h.made id block hold) hle
      · intro cached hcached
        cases hcached
        exact hlexed
      · intro cached hcached
        cases hcached
        exact hcomplete.drawn

/-- A component that has just been made. -/
def Created (s : Markdown D) : Prop :=
  ∃ text, s = { text }

theorem inv_run (hlexer : KeepsTokens options.lexer)
    (h : Run Created (step options) (meets options) s) : Inv options s := by
  refine h.invariant ?_ ?_
  · rintro _ ⟨text, rfl⟩
    exact .created text
  · intro s label s' hinv hmeets hstep
    cases label with
    | setText text =>
      obtain rfl := Option.some.inj hstep
      exact hinv.setText text
    | invalidate =>
      obtain rfl := Option.some.inj hstep
      exact hinv.invalidate
    | render width =>
      obtain rfl := Option.some.inj hstep
      exact (render_spec hlexer hinv hmeets).2.1

theorem render_created (hlexer : KeepsTokens options.lexer) (text : Text) (width : Nat) :
    (Markdown.render options { text } width).1 = options.shown text width := by
  refine (render_spec hlexer (.created text) (.inr ?_)).1
  nofun

/-- **A component shows what a new one with its text would show**, and the same again
when it is rendered again. -/
theorem render_fresh (hlexer : KeepsTokens options.lexer)
    (h : Run Created (step options) (meets options) s) (hmeets : meets options s (.render width)) :
    (s.render options width).1 = (Markdown.render options { text := s.text } width).1 ∧
      (meets options (s.render options width).2 (.render width) →
        ((s.render options width).2.render options width).1 = (s.render options width).1) := by
  obtain ⟨hshown, hinv, htext⟩ := render_spec hlexer (inv_run hlexer h) hmeets
  refine ⟨hshown.trans (render_created hlexer s.text width).symm, fun hagain => ?_⟩
  rw [(render_spec hlexer hinv hagain).1, htext, hshown]

/-! ## Headings -/

def breakLines : Text → List Text
  | [] => []
  | unit :: rest =>
    if unit = 10 then [10] :: breakLines rest
    else
      match breakLines rest with
      | [] => [[unit]]
      | line :: lines => (unit :: line) :: lines

theorem flatten_breakLines (text : Text) : (breakLines text).flatten = text := by
  induction text with
  | nil => rfl
  | cons unit rest ih =>
    rw [breakLines]
    split
    case isTrue heq => rw [flatten_cons, ih, heq]; rfl
    case isFalse =>
      split
      case h_1 hnil => rw [← ih, hnil]; rfl
      case h_2 line lines hcons => rw [← ih, hcons]; rfl

theorem breakLines_append (text added : Text) (k : Nat) (hk : k < (breakLines text).length) :
    breakLines (text ++ added) = (breakLines text).take k ++
      breakLines (((breakLines text).drop k).flatten ++ added) := by
  induction text generalizing k with
  | nil => cases hk
  | cons unit rest ih =>
    cases k with
    | zero => rw [take_zero, drop_zero, flatten_breakLines, nil_append]
    | succ k =>
      rw [cons_append]
      simp only [breakLines] at hk ⊢
      split at hk
      case isTrue heq =>
        have hk : k < (breakLines rest).length := Nat.lt_of_succ_lt_succ hk
        rw [if_pos heq, if_pos heq, ih k hk]
        rfl
      case isFalse hne =>
        rw [if_neg hne, if_neg hne]
        cases hrest : breakLines rest with
        | nil => rw [hrest] at hk; cases Nat.lt_of_succ_lt_succ hk
        | cons line lines =>
          rw [hrest] at hk
          rw [ih (k + 1) (by rw [hrest]; exact hk), hrest]
          rfl

/-- A line `# text` as a heading. -/
def headingToken (line : Text) : Token Unit :=
  .mk (.other "heading") line ((line.drop 2).filter (· ≠ 10)) [] ()

def headingLexer (source : Text) : TokensList Unit :=
  ⟨(breakLines source).map headingToken, []⟩

theorem rawOf_headings (lines : List Text) : rawOf (lines.map headingToken) = lines.flatten := by
  induction lines with
  | nil => rfl
  | cons line lines ih =>
    rw [flatten_cons, ← ih]
    rfl

theorem headingLexer_keeps : KeepsTokens headingLexer := by
  intro source _ added
  simp only [headingLexer, length_map, ← map_drop, ← map_take, rawOf_headings, ← map_append]
  rcases Nat.eq_zero_or_pos (breakLines source).length with hzero | hpos
  · have hnil := List.length_eq_zero_iff.mp hzero
    have hsource : source = [] := by rw [← flatten_breakLines source, hnil]; rfl
    subst hsource
    rfl
  · rw [← breakLines_append source added _ (by omega)]

/-- Headings without styles. -/
def headingOptions : Options Unit where
  paddingX := 1
  paddingY := 0
  transform := none
  background := none
  lexer := headingLexer
  renderToken
    | .mk _ _ text _ _, _, none => [text]
    | .mk _ _ text _ _, _, some _ => [text, []]
  wrapTextWithAnsi line _ := [line]
  isImageLine _ := false
  visibleWidth := List.length

/-- `# a`, `# b` and `# c`, a line each. -/
def threeHeadings : Text :=
  [35, 32, 97, 10, 35, 32, 98, 10, 35, 32, 99, 10]

/-- A fourth heading has been added since the rendering. -/
def extended : Markdown Unit :=
  (Markdown.render headingOptions { text := threeHeadings } 6).2.setText
    (threeHeadings ++ [35, 32, 100, 10])

theorem threeHeadings_plain : Plain threeHeadings (headingLexer threeHeadings) :=
  ⟨by rfl, rfl, by decide +kernel, by decide +kernel⟩

theorem render_fresh_sample :
    (extended.render headingOptions 6).1 =
      (Markdown.render headingOptions { text := extended.text } 6).1 := by
  have hrendered : Run Created (step headingOptions) (meets headingOptions)
      (Markdown.render headingOptions { text := threeHeadings } 6).2 := by
    have hmeets : meets headingOptions { text := threeHeadings } (.render 6) :=
      .inr fun _ hcached => by cases hcached
    exact .step (.init ⟨threeHeadings, rfl⟩) hmeets rfl
  have hextended : Run Created (step headingOptions) (meets headingOptions) extended := by
    have hmeets : meets headingOptions (Markdown.render headingOptions { text := threeHeadings } 6).2
        (.setText (threeHeadings ++ [35, 32, 100, 10])) := trivial
    exact .step hrendered hmeets rfl
  refine (render_fresh headingLexer_keeps hextended (.inr ?_)).1
  intro cached hcached _ _
  have hsource : some cached.source = some threeHeadings := by
    rw [← Option.map_some, ← hcached]
    decide +kernel
  rw [Option.some.inj hsource]
  exact .inl threeHeadings_plain

/-- A document of one definition, which has no lines. -/
def definitionOptions : Options Unit :=
  { headingOptions with
    lexer := fun source => ⟨[.mk (.other "def") source [] [] ()], ["a"]⟩
    renderToken := fun _ _ _ => [] }

/-- **A definition is shown as one empty line, and then as none.** -/
theorem render_changes : KeepsTokens definitionOptions.lexer ∧
    ∃ s : Markdown Unit, Run Created (step definitionOptions) (fun _ _ => True) s ∧
      s.text = [91, 97, 93, 58, 32, 98] ∧ (s.render definitionOptions 6).1 = [[]] ∧
        ((s.render definitionOptions 6).2.render definitionOptions 6).1 = [] := by
  refine ⟨fun source hplain => ?_, { text := [91, 97, 93, 58, 32, 98] }, .init ⟨_, rfl⟩, rfl, ?_, ?_⟩
  · cases hplain.links
  · decide +kernel
  · decide +kernel

end ReflectivePi.Components
