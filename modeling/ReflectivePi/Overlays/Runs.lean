import ReflectivePi.Lib.LabelledRun
import ReflectivePi.Overlays.Keys

/-!
# Overlays — Runs

The runs in which the focus is where it belongs: those that do not show a
removed overlay again, in which an overlay with the focus has a predecessor to
leave it to, and in which no key finds the focus on its way to an overlay that
is not visible.
-/

namespace ReflectivePi.Overlays

open List Option

variable {C : Type} [DecidableEq C] {s s' : Tui C} {e o : Entry C} {c : C}
  {p : Option C} {label : Label C} {A : Tui C → Option C → Prop}

/-! ## What every step keeps -/

namespace Tui

/-- A removed overlay does not come back through its handle. -/
def canReappear (s : Tui C) (e : Entry C) : Bool :=
  !e.removed || e.nonCapturing || !e.visible || s.isOverlay e.component

/-- A removed overlay has no focus to give away through its handle. -/
def canVanish (s : Tui C) (e : Entry C) : Bool :=
  !e.removed || s.focusedComponent ≠ some e.component || s.getTopmostVisibleOverlay.isSome

end Tui

/-- **The condition of a step**, on the state before it. -/
def meets (s : Tui C) : Label C → Bool
  | .hide i => (s.entry? i).all fun e => e.removed || (s.isRemovable e && s.canLeave e)
  | .hideOverlay => s.overlayStack.getLast?.all fun e => s.isRemovable e && s.canLeave e
  | .setHidden i hidden => (s.entry? i).all fun e =>
    e.hidden = hidden ||
      if hidden then s.canVanish e && (e.removed || s.canLeave e) else s.canReappear e
  | .unfocus i options => (s.entry? i).all fun e =>
    (options.all fun target => target.all fun c => !s.isGone c) &&
      (!e.removed || options.isSome || s.focusedComponent ≠ some e.component ||
        e.preFocus.all fun c => !s.isGone c)
  | .setFocus c => !s.isGone c
  | .key _ => s.canRedirect && s.canRelease
  | _ => true

/-- The calls that ask for the focus to be somewhere. -/
def Label.refocuses : Label C → Bool
  | .setFocus _ => true
  | .unfocus _ _ => true
  | _ => false

namespace Keeps

section

variable (hA : Admissible A) (h : Keeps A s)

include hA h

theorem showOverlay (c : C) (nonCapturing visible : Bool) :
    Keeps A (s.showOverlay c nonCapturing visible) := by
  let entry : Entry C :=
    { id := s.entries.length, component := c, nonCapturing, visible
      preFocus := s.focusedComponent, hidden := false
      focusOrder := s.focusOrderCounter + 1, removed := false }
  let t : Tui C :=
    { s with
      entries := s.entries ++ [entry]
      focusOrderCounter := s.focusOrderCounter + 1 }
  have hstack : t.overlayStack = s.overlayStack ++ [entry] := by
    simp [t, Tui.overlayStack, entry]
  have hnew : entry ∈ t.overlayStack := by
    rw [hstack]
    simp
  have hkept : ∀ q, A s q → A t q := by
    intro q hq
    refine hA.transfer s t q (fun c _ hc => ?_) (fun c hc => ?_) hq
    · rw [Tui.isOverlay, hstack, any_append, Bool.or_eq_true]
      exact .inl hc
    · obtain ⟨o, ho, hcomp⟩ := Tui.wasShown_iff.mp hc
      rcases List.mem_append.mp ho with hold | hlast
      · exact .inl (Tui.wasShown_iff.mpr ⟨o, hold, hcomp⟩)
      · rw [List.mem_singleton.mp hlast] at hcomp
        exact .inr (Tui.isOverlay_iff.mpr ⟨entry, hnew, hcomp⟩)
  have hbase : Keeps A t := by
    refine ⟨⟨?_, fun overlay heq => ?_, fun o ho => ?_,
      fun overlay blockedBy q heq ho => ?_⟩, hkept _ h.focused⟩
    · have hids : s.entries.map Entry.id = List.range s.entries.length := h.numbered
      simp [Tui.Numbered, t, entry, hids, range_succ]
    · have hlt := h.known overlay heq
      simp only [t, length_append, length_singleton]
      omega
    · rw [hstack] at ho
      rcases List.mem_append.mp ho with hold | hlast
      · exact hkept _ (h.preFocus o hold)
      · rw [List.mem_singleton.mp hlast]
        exact hkept _ h.focused
    · have hraw : s.overlayFocusRestore = .blocked overlay blockedBy (.focusTarget q) := heq
      obtain ⟨o, ho, hid⟩ := ho
      rw [hstack] at ho
      rcases List.mem_append.mp ho with hold | hlast
      · exact hkept _ (h.target overlay blockedBy q hraw ⟨o, hold, hid⟩)
      · -- the new overlay has a number of its own
        have hlt := h.known overlay (by rw [hraw]; rfl)
        rw [List.mem_singleton.mp hlast] at hid
        exact absurd hid (Nat.ne_of_gt hlt)
  show Keeps A (if !nonCapturing && entry.isOverlayVisible then t.setFocus (some c) else t)
  split
  · exact hbase.toHolds.setFocus hA (component hA hnew)
  · exact hbase

theorem hide (he : e ∈ s.entries)
    (hok : (e.removed || s.isRemovable e) = true) : Keeps A (s.hide e) := by
  unfold Tui.hide
  split
  case isTrue => exact h
  case isFalse hstays =>
    rw [Bool.not_eq_true] at hstays
    rw [hstays, Bool.false_or] at hok
    exact h.removeOverlay hA (Tui.mem_overlayStack.mpr ⟨he, hstays⟩) hok

theorem hideOverlay
    (hok : ∀ e, s.overlayStack.getLast? = some e → s.isRemovable e = true) :
    Keeps A s.hideOverlay := by
  unfold Tui.hideOverlay
  split
  case h_1 => exact h
  case h_2 e hlast => exact h.removeOverlay hA (mem_of_getLast? hlast) (hok e hlast)

theorem setHidden (he : e ∈ s.entries) (hidden : Bool)
    (hvanish : hidden = true → s.canVanish e = true)
    (hreappear : hidden = false → s.canReappear e = true) : Keeps A (s.setHidden e hidden) := by
  have hg : Entry.InPlace fun overlay : Entry C => { overlay with hidden } :=
    fun _ => ⟨rfl, rfl, rfl, rfl⟩
  have hchanged := h.update hA hg e.id
  unfold Tui.setHidden
  split
  · exact h
  dsimp only
  cases hidden with
  | true =>
    have hcleared := hchanged.clearFor hA e.id
    rw [if_pos rfl]
    split
    case isFalse => exact hcleared
    case isTrue hfocus =>
      refine hcleared.toHolds.setFocus hA (fallback hA fun hnone => ?_)
      cases hremoved : e.removed with
      | false =>
        have hpre := h.preFocus e (Tui.mem_overlayStack.mpr ⟨he, hremoved⟩)
        exact hA.congr (Tui.clearFor_entries _ _) (hA.update hg e.id hpre)
      | true =>
        rw [Tui.clearFor_focused] at hfocus
        have hfocus : s.focusedComponent = some e.component := hfocus
        have hsome : s.getTopmostVisibleOverlay.isSome = true := by
          simpa [Tui.canVanish, hremoved, hfocus] using hvanish rfl
        obtain ⟨top, htop⟩ := Option.isSome_iff_exists.mp hsome
        obtain ⟨hmem, hcaptures, -⟩ := Tui.topmost_eq_some htop
        -- the overlay is not in the stack, so hiding it changes nothing there
        have hid : top.id ≠ e.id := by
          intro heq
          obtain ⟨hin, hstays⟩ := Tui.mem_overlayStack.mp hmem
          rw [h.numbered.eq_of_id hin he heq, hremoved] at hstays
          cases hstays
        have hentries := Tui.clearFor_entries (s.update e.id fun overlay =>
          { overlay with hidden := true }) e.id
        have hmem' := (mem_stack_map (hg.update e.id) hentries).mpr ⟨top, hmem, if_neg hid⟩
        rw [Tui.topmost_eq_none hnone top hmem'] at hcaptures
        cases hcaptures
  | false =>
    rw [if_neg (by simp)]
    split
    case isFalse => exact hchanged
    case isTrue hshows =>
      refine (hchanged.raise hA e.id).toHolds.setFocus hA ?_
      simp only [Bool.and_eq_true, Bool.not_eq_true'] at hshows
      have hover : s.isOverlay e.component = true := by
        cases hremoved : e.removed with
        | false => exact Tui.isOverlay_iff.mpr ⟨e, Tui.mem_overlayStack.mpr ⟨he, hremoved⟩, rfl⟩
        | true => simpa [Tui.canReappear, hremoved, hshows.1, hshows.2] using hreappear rfl
      exact hA.raise e.id (hA.update hg e.id (hA.stacked s _ hover))

theorem focus (he : e ∈ s.entries) : Keeps A (s.focus e) := by
  unfold Tui.focus
  split
  case isTrue => exact h
  case isFalse hstays =>
    simp only [Bool.or_eq_true, not_or, Bool.not_eq_true] at hstays
    have hmem := Tui.mem_overlayStack.mpr ⟨he, hstays.1⟩
    exact (h.raise hA e.id).toHolds.setFocus hA (hA.raise e.id (component hA hmem))

theorem unfocus (he : e ∈ s.entries)
    (options : Option (Option C)) (htarget : ∀ q, options = some q → A s q)
    (hpre : options = none → s.focusedComponent = some e.component → A s e.preFocus) :
    Keeps A (s.unfocus e options) := by
  have hcleared := h.clearFor hA e.id
  have hkept : ∀ q, A s q → A (s.clearOverlayFocusRestoreFor e.id) q :=
    fun q hq => hA.congr (Tui.clearFor_entries _ _) hq
  unfold Tui.unfocus
  split
  · exact h
  split
  case h_1 blockedBy hblocker =>
    cases options with
    | none => exact h.clear hA
    | some target =>
      refine ⟨⟨h.numbered, fun overlay heq => ?_, fun o ho => ?_, fun overlay b q heq _ => ?_⟩, ?_⟩
      · cases heq
        exact h.numbered.id_lt he
      · exact hA.congr (s := s) rfl (h.preFocus o ho)
      · cases heq
        exact hA.congr (s := s) rfl (htarget target rfl)
      · exact hA.congr (s := s) rfl h.focused
  case h_2 =>
    cases options with
    | some target => exact hcleared.toHolds.setFocus hA (hkept _ (htarget target rfl))
    | none =>
      dsimp only
      split
      case isFalse => exact hcleared
      case isTrue hfocus =>
        refine hcleared.toHolds.setFocus hA ?_
        unfold Tui.releaseTarget
        split
        case h_2 => exact hkept _ (hpre rfl hfocus)
        case h_1 top htop =>
          split
          · exact component hA (Tui.topmost_eq_some htop).1
          · exact hkept _ (hpre rfl hfocus)

theorem redirectFocus : Keeps A s.redirectFocus := by
  unfold Tui.redirectFocus
  split
  case h_1 => exact h
  case h_2 f hf =>
    split
    · exact h
    · split
      case h_1 top htop =>
        exact h.toHolds.setFocus hA (component hA (Tui.topmost_eq_some htop).1)
      case h_2 =>
        exact h.toHolds.setFocusInternal hA (h.preFocus f (Tui.focusedOverlay_eq_some hf).1)

theorem restored {i : Nat}
    (hvisible : s.isVisibleInStack i = true) :
    Keeps A (s.setFocus ((s.entry? i).map Entry.component)) := by
  obtain ⟨e, he, hentry, -⟩ := h.numbered.restored hvisible
  rw [hentry]
  exact h.toHolds.setFocus hA (component hA he)

theorem restoreFocus : Keeps A s.restoreFocus := by
  unfold Tui.restoreFocus
  split
  · exact h
  split
  case h_1 => exact h
  case h_2 overlay hrestore => exact h.restored hA (Tui.getVisible_eq_eligible.mp hrestore).2
  case h_3 overlay blockedBy resume hrestore =>
    obtain ⟨hraw, hvisible⟩ := Tui.getVisible_eq_blocked.mp hrestore
    split
    · exact h
    split
    case h_1 => exact h.restored hA hvisible
    case h_2 target =>
      obtain ⟨e, he, hid, -⟩ := Tui.isVisibleInStack_iff.mp hvisible
      have htarget := h.target _ _ _ hraw ⟨e, he, hid⟩
      exact (h.clear hA).toHolds.setFocus hA (hA.congr (s := s) rfl htarget)

/-- **Every step** that meets the condition keeps the focus, the predecessors
and the targets admissible, as long as calls ask for admissible places. -/
theorem step (hok : meets s label = true)
    (hset : ∀ c, label = .setFocus c → A s (some c))
    (hunfocus : ∀ i options, label = .unfocus i options → (∀ q, options = some q → A s q) ∧
        ∀ e, s.entry? i = some e → e.removed = true → options = none →
          s.focusedComponent = some e.component → A s e.preFocus)
    (hstep : Overlays.step s label = some s') : Keeps A s' := by
  cases label with
  | showOverlay c nonCapturing visible =>
    cases hstep
    exact h.showOverlay hA c nonCapturing visible
  | hide i =>
    obtain ⟨e, hentry, rfl⟩ := Option.map_eq_some_iff.mp hstep
    refine h.hide hA (Tui.mem_of_entry? hentry).1 ?_
    simp only [meets, hentry, all_some, Bool.or_eq_true, Bool.and_eq_true] at hok ⊢
    exact hok.imp id And.left
  | setHidden i hidden =>
    obtain ⟨e, hentry, rfl⟩ := Option.map_eq_some_iff.mp hstep
    have he := (Tui.mem_of_entry? hentry).1
    by_cases hsame : e.hidden = hidden
    · rw [Tui.setHidden, if_pos hsame]
      exact h
    · simp only [meets, hentry, all_some, hsame, decide_false, Bool.false_or] at hok
      refine h.setHidden hA he hidden (fun htrue => ?_) (fun hfalse => ?_)
      · rw [htrue, if_pos rfl, Bool.and_eq_true] at hok
        exact hok.1
      · rwa [hfalse, if_neg (by simp)] at hok
  | focus i =>
    obtain ⟨e, hentry, rfl⟩ := Option.map_eq_some_iff.mp hstep
    exact h.focus hA (Tui.mem_of_entry? hentry).1
  | unfocus i options =>
    obtain ⟨e, hentry, rfl⟩ := Option.map_eq_some_iff.mp hstep
    have he := (Tui.mem_of_entry? hentry).1
    obtain ⟨htarget, hremoved⟩ := hunfocus i options rfl
    refine h.unfocus hA he options htarget fun hnone hfocus => ?_
    cases hr : e.removed with
    | false => exact h.preFocus e (Tui.mem_overlayStack.mpr ⟨he, hr⟩)
    | true => exact hremoved e hentry hr hnone hfocus
  | hideOverlay =>
    cases hstep
    refine h.hideOverlay hA fun e hlast => ?_
    simp only [meets, hlast, all_some, Bool.and_eq_true] at hok
    exact hok.1
  | setFocus c =>
    simp only [Overlays.step] at hstep
    split at hstep
    · cases hstep
      exact h.toHolds.setFocus hA (hset c rfl)
    · cases hstep
  | answer i visible =>
    cases hstep
    have hg : Entry.InPlace fun entry : Entry C => { entry with visible } :=
      fun _ => ⟨rfl, rfl, rfl, rfl⟩
    exact h.update hA hg i
  | mount components =>
    cases hstep
    exact h.map hA (g := id) (fun _ => ⟨rfl, rfl, rfl, rfl⟩) (List.map_id _).symm (.inl rfl) rfl
  | key handles =>
    cases hstep
    exact (h.redirectFocus hA).restoreFocus hA

end

end Keeps

end ReflectivePi.Overlays
