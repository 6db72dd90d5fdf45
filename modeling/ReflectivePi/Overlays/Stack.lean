import Mathlib.Init

/-!
# Overlays — Stack

The overlays of a terminal interface and the focus that moves between them. An
entry stays known to its handle after it has left the stack, so the entries
ever made are kept and the stack is the part of them that is not removed, in
the order of creation.
-/

namespace ReflectivePi.Overlays

/-- An overlay. `visible` is what its `visible` option answers at the moment,
`true` when it has none. -/
structure Entry (C : Type) where
  id : Nat
  component : C
  nonCapturing : Bool
  visible : Bool
  preFocus : Option C
  hidden : Bool
  focusOrder : Nat
  removed : Bool

/-- What happens when the component that blocks a restore goes. -/
inductive Resume (C : Type) where
  | restoreOverlay
  | focusTarget (target : Option C)
  deriving DecidableEq

inductive FocusRestore (C : Type) where
  | inactive
  | eligible (overlay : Nat)
  | blocked (overlay : Nat) (blockedBy : C) (resume : Resume C)

inductive FocusRestorePolicy where
  | clear
  | preserve
  deriving DecidableEq

/-- The part of the interface that holds the focus. `mounted` are the components
of the tree below the roots. -/
structure Tui (C : Type) where
  entries : List (Entry C) := []
  focusedComponent : Option C := none
  overlayFocusRestore : FocusRestore C := .inactive
  focusOrderCounter : Nat := 0
  mounted : List C := []

def Entry.isOverlayVisible {C : Type} (entry : Entry C) : Bool :=
  !entry.hidden && entry.visible

def FocusRestore.overlay? {C : Type} : FocusRestore C → Option Nat
  | .inactive => none
  | .eligible overlay => some overlay
  | .blocked overlay _ _ => some overlay

namespace Tui

variable {C : Type} [DecidableEq C]

/-! ## Reading the stack -/

def overlayStack (s : Tui C) : List (Entry C) :=
  s.entries.filter fun entry => !entry.removed

def entry? (s : Tui C) (i : Nat) : Option (Entry C) :=
  s.entries.find? fun entry => entry.id = i

/-- Some overlay of the stack has the component. -/
def isOverlay (s : Tui C) (c : C) : Bool :=
  s.overlayStack.any fun entry => entry.component = c

/-- The first visible overlay of the stack whose component has this focus. -/
def findVisible (s : Tui C) (focus : Option C) : Option (Entry C) :=
  s.overlayStack.find? fun entry => some entry.component = focus && entry.isOverlayVisible

def topmostStep (topmost : Option (Entry C)) (overlay : Entry C) : Option (Entry C) :=
  if overlay.nonCapturing || !overlay.isOverlayVisible then topmost
  else
    match topmost with
    | none => some overlay
    | some top => if overlay.focusOrder > top.focusOrder then some overlay else some top

def getTopmostVisibleOverlay (s : Tui C) : Option (Entry C) :=
  s.overlayStack.foldl topmostStep none

def isVisibleInStack (s : Tui C) (i : Nat) : Bool :=
  s.overlayStack.any fun entry => entry.id = i && entry.isOverlayVisible

def getVisibleOverlayFocusRestore (s : Tui C) : FocusRestore C :=
  match s.overlayFocusRestore with
  | .inactive => .inactive
  | .eligible overlay =>
    if s.isVisibleInStack overlay then .eligible overlay else .inactive
  | .blocked overlay blockedBy resume =>
    if s.isVisibleInStack overlay then .blocked overlay blockedBy resume else .inactive

/-- The loop of `isOverlayFocusAncestor`. Each round but the last one passes a
component of the stack that it has not seen. -/
def focusAncestorLoop (s : Tui C) (component : C) : Nat → List C → Option C → Bool
  | 0, _, _ => false
  | _ + 1, _, none => false
  | rounds + 1, visited, some current =>
    if current ∈ visited then false
    else if current = component then true
    else
      s.focusAncestorLoop component rounds (current :: visited)
        ((s.overlayStack.find? fun overlay => overlay.component = current).bind Entry.preFocus)

def isOverlayFocusAncestor (s : Tui C) (entry : Entry C) (component : C) : Bool :=
  s.focusAncestorLoop component (s.overlayStack.length + 1) [] entry.preFocus

def isComponentMounted (s : Tui C) (c : C) : Bool := decide (c ∈ s.mounted)

/-! ## Moving the focus -/

def clearOverlayFocusRestore (s : Tui C) : Tui C :=
  { s with overlayFocusRestore := .inactive }

def clearOverlayFocusRestoreFor (s : Tui C) (i : Nat) : Tui C :=
  if s.overlayFocusRestore.overlay? = some i then s.clearOverlayFocusRestore else s

def resolveBlockedOverlayFocusResume (s : Tui C) (overlay : Nat) (resume : Resume C) :
    Option C × FocusRestore C :=
  match resume with
  | .restoreOverlay => ((s.entry? overlay).map Entry.component, s.overlayFocusRestore)
  | .focusTarget target => (target, .inactive)

/-- A component takes the focus from the overlay that the restore is about. -/
def blockRestore (s : Tui C) (overlay : Nat) (next : C) : Option C × FocusRestore C :=
  match s.findVisible s.focusedComponent with
  | some previous =>
    if previous.id = overlay && !s.isOverlayFocusAncestor previous next then
      (some next, .blocked overlay next .restoreOverlay)
    else (some next, s.overlayFocusRestore)
  | none => (some next, s.overlayFocusRestore)

/-- Where the focus really goes, and the restore state to go with it. -/
def nextFocus (s : Tui C) (component : Option C) (policy : FocusRestorePolicy) :
    Option C × FocusRestore C :=
  match component with
  | some next =>
    if s.isOverlay next then (some next, s.overlayFocusRestore)
    else
      match s.getVisibleOverlayFocusRestore with
      | .inactive => (some next, s.overlayFocusRestore)
      | .eligible overlay => s.blockRestore overlay next
      | .blocked overlay blockedBy resume =>
        if s.focusedComponent = some blockedBy then
          if resume ≠ .restoreOverlay || !s.isComponentMounted blockedBy then
            s.resolveBlockedOverlayFocusResume overlay resume
          else (some next, .blocked overlay next resume)
        else s.blockRestore overlay next
  | none =>
    let cleared : FocusRestore C := if policy = .clear then .inactive else s.overlayFocusRestore
    match s.getVisibleOverlayFocusRestore with
    | .blocked overlay blockedBy resume =>
      if s.focusedComponent = some blockedBy then
        s.resolveBlockedOverlayFocusResume overlay resume
      else (none, cleared)
    | _ => (none, cleared)

/-- The focus is on a component; a visible overlay that has it is the one to
restore. -/
def place (s : Tui C) (focus : Option C) (restore : FocusRestore C) : Tui C :=
  { s with
    focusedComponent := focus
    overlayFocusRestore := match s.findVisible focus with
      | some overlay => .eligible overlay.id
      | none => restore }

def setFocusInternal (s : Tui C) (component : Option C) (policy : FocusRestorePolicy) : Tui C :=
  s.place (s.nextFocus component policy).1 (s.nextFocus component policy).2

def setFocus (s : Tui C) (component : Option C) : Tui C :=
  s.setFocusInternal component .clear

/-! ## Overlays and their handles -/

def update (s : Tui C) (i : Nat) (f : Entry C → Entry C) : Tui C :=
  { s with entries := s.entries.map fun entry => if entry.id = i then f entry else entry }

/-- `entry.focusOrder = ++this.focusOrderCounter`. -/
def raise (s : Tui C) (i : Nat) : Tui C :=
  { s.update i fun entry => { entry with focusOrder := s.focusOrderCounter + 1 } with
    focusOrderCounter := s.focusOrderCounter + 1 }

def retargetOverlayPreFocus (s : Tui C) (removed : Entry C) : Tui C :=
  { s with
    entries := s.entries.map fun overlay =>
      if !overlay.removed && overlay.id ≠ removed.id
          && overlay.preFocus = some removed.component then
        { overlay with preFocus := removed.preFocus }
      else overlay }

/-- `topVisible?.component ?? entry.preFocus`. -/
def fallback (s : Tui C) (entry : Entry C) : Option C :=
  match s.getTopmostVisibleOverlay with
  | some top => some top.component
  | none => entry.preFocus

def showOverlay (s : Tui C) (component : C) (nonCapturing visible : Bool) : Tui C :=
  let entry : Entry C :=
    { id := s.entries.length, component, nonCapturing, visible
      preFocus := s.focusedComponent, hidden := false
      focusOrder := s.focusOrderCounter + 1, removed := false }
  let pushed : Tui C :=
    { s with
      entries := s.entries ++ [entry]
      focusOrderCounter := s.focusOrderCounter + 1 }
  if !nonCapturing && entry.isOverlayVisible then pushed.setFocus (some component)
  else pushed

/-- The entry leaves the stack. -/
def splice (s : Tui C) (entry : Entry C) : Tui C :=
  ((s.clearOverlayFocusRestoreFor entry.id).retargetOverlayPreFocus entry).update entry.id
    fun overlay => { overlay with removed := true }

/-- What `hide` and `hideOverlay` do to an overlay of the stack. -/
def removeOverlay (s : Tui C) (entry : Entry C) : Tui C :=
  let spliced := s.splice entry
  if spliced.focusedComponent = some entry.component then
    spliced.setFocus (spliced.fallback entry)
  else spliced

def hide (s : Tui C) (entry : Entry C) : Tui C :=
  if entry.removed then s else s.removeOverlay entry

def hideOverlay (s : Tui C) : Tui C :=
  match s.overlayStack.getLast? with
  | none => s
  | some overlay => s.removeOverlay overlay

def setHidden (s : Tui C) (entry : Entry C) (hidden : Bool) : Tui C :=
  if entry.hidden = hidden then s
  else
    let changed := s.update entry.id fun overlay => { overlay with hidden }
    if hidden then
      let cleared := changed.clearOverlayFocusRestoreFor entry.id
      if cleared.focusedComponent = some entry.component then
        cleared.setFocus (cleared.fallback entry)
      else cleared
    else if !entry.nonCapturing && entry.visible then
      -- no look at the stack here, unlike in `focus`
      (changed.raise entry.id).setFocus (some entry.component)
    else changed

def focus (s : Tui C) (entry : Entry C) : Tui C :=
  if entry.removed || !entry.isOverlayVisible then s
  else (s.raise entry.id).setFocus (some entry.component)

/-- The component that blocks the restore of the entry and has the focus. -/
def blockerOf (s : Tui C) (entry : Entry C) : Option C :=
  match s.overlayFocusRestore with
  | .blocked overlay blockedBy _ =>
    if overlay = entry.id && s.focusedComponent = some blockedBy then some blockedBy else none
  | _ => none

/-- The fallback of `unfocus`: another visible overlay, or the previous focus. -/
def releaseTarget (s : Tui C) (entry : Entry C) : Option C :=
  match s.getTopmostVisibleOverlay with
  | some top => if top.id ≠ entry.id then some top.component else entry.preFocus
  | none => entry.preFocus

/-- `unfocus`, with the target of its options if it is given any. -/
def unfocus (s : Tui C) (entry : Entry C) (options : Option (Option C)) : Tui C :=
  if s.focusedComponent ≠ some entry.component
      ∧ s.overlayFocusRestore.overlay? ≠ some entry.id then s
  else
    match s.blockerOf entry with
    | some blockedBy =>
      match options with
      | some target =>
        { s with
          overlayFocusRestore := .blocked entry.id blockedBy (.focusTarget target) }
      | none => s.clearOverlayFocusRestore
    | none =>
      let cleared := s.clearOverlayFocusRestoreFor entry.id
      match options with
      | some target => cleared.setFocus target
      | none =>
        if s.focusedComponent = some entry.component then
          cleared.setFocus (cleared.releaseTarget entry)
        else cleared

/-- The first overlay of the stack whose component has the focus. -/
def focusedOverlay (s : Tui C) : Option (Entry C) :=
  s.overlayStack.find? fun overlay => some overlay.component = s.focusedComponent

/-- A focused overlay that is not visible any more gives the focus up. -/
def redirectFocus (s : Tui C) : Tui C :=
  match s.focusedOverlay with
  | none => s
  | some focusedOverlay =>
    if focusedOverlay.isOverlayVisible then s
    else
      match s.getTopmostVisibleOverlay with
      | some top => s.setFocus (some top.component)
      | none => s.setFocusInternal focusedOverlay.preFocus .preserve

/-- Outside of the stack, the focus may have to go back to an overlay. -/
def restoreFocus (s : Tui C) : Tui C :=
  if s.overlayStack.any fun overlay => some overlay.component = s.focusedComponent then s
  else
    match s.getVisibleOverlayFocusRestore with
    | .inactive => s
    | .eligible overlay => s.setFocus ((s.entry? overlay).map Entry.component)
    | .blocked overlay blockedBy resume =>
      if s.focusedComponent = some blockedBy then s
      else
        match resume with
        | .restoreOverlay => s.setFocus ((s.entry? overlay).map Entry.component)
        | .focusTarget target => s.clearOverlayFocusRestore.setFocus target

/-- What a key does to the focus before the focused component gets it. -/
def handleTerminalInput (s : Tui C) : Tui C := s.redirectFocus.restoreFocus

end Tui

/-- A step: a call of the interface or of the handle of an overlay, a new answer
of a `visible` option, a change of what is mounted, a key with the components
that take it. -/
inductive Label (C : Type) where
  | showOverlay (component : C) (nonCapturing visible : Bool)
  | hide (overlay : Nat)
  | setHidden (overlay : Nat) (hidden : Bool)
  | focus (overlay : Nat)
  | unfocus (overlay : Nat) (options : Option (Option C))
  | hideOverlay
  | setFocus (component : C)
  | answer (overlay : Nat) (visible : Bool)
  | mount (components : List C)
  | key (handles : C → Bool)

variable {C : Type} [DecidableEq C]

def step (s : Tui C) : Label C → Option (Tui C)
  | .showOverlay component nonCapturing visible =>
    some (s.showOverlay component nonCapturing visible)
  | .hide i => (s.entry? i).map s.hide
  | .setHidden i hidden => (s.entry? i).map fun entry => s.setHidden entry hidden
  | .focus i => (s.entry? i).map s.focus
  | .unfocus i options => (s.entry? i).map fun entry => s.unfocus entry options
  | .hideOverlay => some s.hideOverlay
  | .setFocus component =>
    if s.isComponentMounted component || s.isOverlay component then
      some (s.setFocus (some component))
    else none
  | .answer i visible => some (s.update i fun entry => { entry with visible })
  | .mount components => some { s with mounted := components }
  | .key _ => some s.handleTerminalInput

/-- The component that a key is delivered to. -/
def receiver (s : Tui C) (handles : C → Bool) : Option C :=
  s.handleTerminalInput.focusedComponent.filter handles

end ReflectivePi.Overlays
