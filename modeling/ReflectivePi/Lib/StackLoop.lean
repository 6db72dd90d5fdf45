import Mathlib.Data.Fintype.Card
import Mathlib.Data.List.Basic
import Mathlib.Data.Set.Finite.List
import Mathlib.Logic.Relation

/-!
# Lib — loops over a stack

`run` pops the node on top of a stack, lets `step` look at it, and pushes the nodes
that it leads to. No node is remembered as visited, so the loop ends exactly when no
node on the stack can be followed for ever (`terminates_iff`), and where only
finitely many nodes can be met that says that none of them leads back to itself
(`acc_iff`). `countP_visited` counts how often a node is popped.
-/

namespace ReflectivePi.StackLoop

open List Relation

variable {σ τ : Type}

/-- The loop, with the state that `step` keeps. It ends with an empty stack. -/
def run (step : τ → σ → τ × List σ) : Nat → τ → List σ → Option τ
  | _, t, [] => some t
  | 0, _, _ :: _ => none
  | n + 1, t, x :: stack => run step n (step t x).1 ((step t x).2 ++ stack)

def Terminates (step : τ → σ → τ × List σ) (t : τ) (stack : List σ) : Prop :=
  ∃ n, (run step n t stack).isSome

/-- `b` is one of the nodes that `a` leads to. -/
def Edge (next : σ → List σ) (a b : σ) : Prop := b ∈ next a

/-- The node cannot be followed for ever. -/
abbrev Ends (next : σ → List σ) : σ → Prop := Acc (Function.swap (Edge next))

/-- In the states of `inv`, the step pushes what `next` says, in some order. -/
structure Follows (step : τ → σ → τ × List σ) (inv : τ → Prop) (next : σ → List σ) :
    Prop where
  keeps : ∀ {t}, inv t → ∀ x, inv (step t x).1
  pushes : ∀ {t}, inv t → ∀ x y, y ∈ (step t x).2 ↔ y ∈ next x

variable {step : τ → σ → τ × List σ} {inv : τ → Prop} {next : σ → List σ} {t : τ}
  {stack : List σ} {x y : σ} {n : Nat}

theorem ends_of_run (h : Follows step inv next) (hinv : inv t)
    (hrun : (run step n t stack).isSome) : ∀ x ∈ stack, Ends next x := by
  induction n generalizing t stack with
  | zero =>
    cases stack with
    | nil => simp
    | cons a stack => simp [run] at hrun
  | succ n ih =>
    cases stack with
    | nil => simp
    | cons a stack =>
      have hrest := ih (h.keeps hinv a) hrun
      intro x hx
      rcases List.mem_cons.mp hx with rfl | hx
      · -- every node pushed for it ends
        apply Acc.intro
        intro y hy
        exact hrest y (mem_append_left _ ((h.pushes hinv x y).mpr hy))
      · exact hrest x (mem_append_right _ hx)

theorem inv_of_run (h : Follows step inv next) (hinv : inv t) {t' : τ}
    (hrun : run step n t stack = some t') : inv t' := by
  induction n generalizing t stack with
  | zero =>
    cases stack with
    | nil =>
      cases hrun
      exact hinv
    | cons a stack => simp [run] at hrun
  | succ n ih =>
    cases stack with
    | nil =>
      cases hrun
      exact hinv
    | cons a stack => exact ih (h.keeps hinv a) hrun

/-- Whatever is done with the rest of the stack, a node that ends is worked off first. -/
theorem terminates_append {top : List σ}
    (htop : ∀ x ∈ top, ∀ t, inv t → ∀ stack, (∀ t', inv t' → Terminates step t' stack) →
      Terminates step t (x :: stack))
    (hinv : inv t) (hstack : ∀ t', inv t' → Terminates step t' stack) :
    Terminates step t (top ++ stack) := by
  induction top generalizing t with
  | nil => exact hstack t hinv
  | cons x top ih =>
    apply htop x mem_cons_self t hinv
    intro t' ht'
    exact ih (fun y hy => htop y (mem_cons_of_mem x hy)) ht'

theorem terminates_cons (h : Follows step inv next) (hx : Ends next x) :
    ∀ t, inv t → ∀ stack, (∀ t', inv t' → Terminates step t' stack) →
      Terminates step t (x :: stack) := by
  induction hx with
  | intro x _ ih =>
    intro t hinv stack hstack
    have hpushed : Terminates step (step t x).1 ((step t x).2 ++ stack) := by
      apply terminates_append _ (h.keeps hinv x) hstack
      intro y hy
      exact ih y ((h.pushes hinv x y).mp hy)
    obtain ⟨n, hn⟩ := hpushed
    exact ⟨n + 1, hn⟩

/-- The loop ends exactly when no node on the stack can be followed for ever. -/
theorem terminates_iff (h : Follows step inv next) (hinv : inv t) :
    Terminates step t stack ↔ ∀ x ∈ stack, Ends next x := by
  constructor
  · rintro ⟨n, hn⟩
    exact ends_of_run h hinv hn
  · intro hends
    have hnil : ∀ t', inv t' → Terminates step t' [] := fun t' _ => ⟨0, rfl⟩
    have := terminates_append (fun x hx => terminates_cons h (hends x hx)) hinv hnil
    rwa [append_nil] at this

theorem not_of_acc {r : σ → σ → Prop} (h : Acc r x) : ¬ r x x := by
  induction h with
  | intro x _ ih => exact fun hx => ih x hx hx

theorem Ends.of_reach (h : Ends next x) (hy : ReflTransGen (Edge next) x y) : Ends next y := by
  induction hy with
  | refl => exact h
  | tail _ hedge ih => exact ih.inv hedge

/-- A relation without cycles on finitely many nodes can be followed only finitely often. -/
theorem wellFounded_of_no_cycle [Finite σ] {r : σ → σ → Prop} (h : ∀ x, ¬ TransGen r x x) :
    WellFounded r := by
  have : IsTrans σ (TransGen r) := ⟨fun _ _ _ => TransGen.trans⟩
  have : Std.Irrefl (TransGen r) := ⟨h⟩
  have hwf := Finite.wellFounded_of_trans_of_irrefl (TransGen r)
  exact Subrelation.wf (fun hr => TransGen.single hr) hwf

/-- Where every edge leads into a finite list, a node can be followed only finitely
often exactly when no node that it reaches leads back to itself. -/
theorem acc_iff {nodes : List σ} (hnodes : ∀ a, ∀ b ∈ next a, b ∈ nodes) :
    Ends next x ↔ ∀ y, ReflTransGen (Edge next) x y → ¬ TransGen (Edge next) y y := by
  constructor
  · intro h y hy hcycle
    have hacc := (h.of_reach hy).transGen
    exact not_of_acc hacc (TransGen.swap _ _ hcycle)
  · intro h
    -- the nodes that are reached, on which there is no cycle
    let Reached := {y // ReflTransGen (Edge next) x y}
    have hin : ∀ y : Reached, y.1 ∈ x :: nodes := by
      rintro ⟨y, hy⟩
      rcases ReflTransGen.cases_tail hy with rfl | ⟨z, _, hz⟩
      · exact mem_cons_self
      · exact mem_cons_of_mem _ (hnodes z y hz)
    have : Finite {y // y ∈ x :: nodes} := (finite_toSet (x :: nodes)).to_subtype
    have hinj : Function.Injective fun y : Reached =>
        (⟨y.1, hin y⟩ : {y // y ∈ x :: nodes}) := by
      intro y z hyz
      exact Subtype.ext (Subtype.mk.inj hyz)
    have : Finite Reached := Finite.of_injective _ hinj
    let r : Reached → Reached → Prop := fun b a => Edge next a.1 b.1
    have hup : ∀ {a b : Reached}, TransGen r a b → TransGen (Edge next) b.1 a.1 := by
      intro a b hab
      induction hab with
      | single hr => exact TransGen.single hr
      | tail _ hr ih => exact TransGen.head hr ih
    have hwf : WellFounded r := wellFounded_of_no_cycle fun y hy => h y.1 y.2 (hup hy)
    have hacc : ∀ y : Reached, Ends next y.1 := by
      intro y
      induction y using hwf.induction with
      | _ y ih =>
        apply Acc.intro
        intro z hz
        exact ih ⟨z, y.2.tail hz⟩ hz
    exact hacc ⟨x, ReflTransGen.refl⟩

/-! ## Reading a forest -/

/-- The nodes in the order in which they are popped. -/
def visited (next : σ → List σ) (n : Nat) (stack : List σ) : Option (List σ) :=
  run (fun seen x => (seen ++ [x], next x)) n [] stack

theorem follows_visited : Follows (fun seen x => (seen ++ [x], next x)) (fun _ => True) next :=
  ⟨fun _ _ => trivial, fun _ _ _ => Iff.rfl⟩

theorem run_seen {p : σ → Prop} [DecidablePred p] [DecidableEq σ] {seen out : List σ}
    (hnext : ∀ x, (next x).count y = if p x then 1 else 0)
    (hrun : run (fun seen x => (seen ++ [x], next x)) n seen stack = some out) :
    ∃ new, out = seen ++ new ∧ new.count y = stack.count y + new.countP p := by
  induction n generalizing seen stack with
  | zero =>
    cases stack with
    | nil =>
      cases hrun
      exact ⟨[], by simp⟩
    | cons a stack => simp [run] at hrun
  | succ n ih =>
    cases stack with
    | nil =>
      cases hrun
      exact ⟨[], by simp⟩
    | cons a stack =>
      obtain ⟨new, rfl, hcount⟩ := ih hrun
      refine ⟨a :: new, by simp, ?_⟩
      rw [count_append, hnext a] at hcount
      simp only [count_cons, countP_cons, decide_eq_true_eq]
      omega

/-- A node that is among the next ones exactly of the nodes of `p`, once each, is
popped once for each of them, and as often as it was on the stack. -/
theorem count_visited {p : σ → Prop} [DecidablePred p] [DecidableEq σ] {out : List σ}
    (hnext : ∀ x, (next x).count y = if p x then 1 else 0) (h : visited next n stack = some out) :
    out.count y = stack.count y + out.countP p := by
  obtain ⟨new, rfl, hcount⟩ := run_seen hnext h
  exact hcount

/-- What is popped was on the stack or is reached from there. -/
theorem reached_of_run {seen out : List σ}
    (hrun : run (fun seen x => (seen ++ [x], next x)) n seen stack = some out) (hy : y ∈ out) :
    y ∈ seen ∨ ∃ x ∈ stack, ReflTransGen (Edge next) x y := by
  induction n generalizing seen stack with
  | zero =>
    cases stack with
    | nil =>
      cases hrun
      exact .inl hy
    | cons a stack => simp [run] at hrun
  | succ n ih =>
    cases stack with
    | nil =>
      cases hrun
      exact .inl hy
    | cons a stack =>
      rcases ih hrun with h | ⟨x, hx, hreach⟩
      · rcases List.mem_append.mp h with h | h
        · exact .inl h
        · obtain rfl := List.mem_singleton.mp h
          exact .inr ⟨y, mem_cons_self, ReflTransGen.refl⟩
      · right
        rcases List.mem_append.mp hx with hx | hx
        · exact ⟨a, mem_cons_self, ReflTransGen.head hx hreach⟩
        · exact ⟨x, mem_cons_of_mem a hx, hreach⟩

theorem reached_of_visited {out : List σ} (h : visited next n stack = some out) (hy : y ∈ out) :
    ∃ x ∈ stack, ReflTransGen (Edge next) x y := by
  rcases reached_of_run h hy with h | h
  · simp at h
  · exact h

/-- Where every node is next of one node only, what a node without one before it
reaches lies on no cycle. -/
theorem no_cycle_of_root (hone : ∀ {a b c : σ}, Edge next a c → Edge next b c → a = b)
    (hroot : ∀ a, ¬ Edge next a x) (hy : ReflTransGen (Edge next) x y) :
    ¬ TransGen (Edge next) y y := by
  induction hy with
  | refl =>
    intro hcycle
    obtain ⟨a, -, ha⟩ := TransGen.tail'_iff.mp hcycle
    exact hroot a ha
  | tail _ hedge ih =>
    intro hcycle
    obtain ⟨a, ha, hlast⟩ := TransGen.tail'_iff.mp hcycle
    obtain rfl := hone hedge hlast
    exact ih (TransGen.head'_iff.mpr ⟨_, hedge, ha⟩)

end ReflectivePi.StackLoop
