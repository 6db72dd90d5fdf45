/-!
# Lib — codecs with a dictionary on either side

An encoder and a decoder that both learn from what they have passed: each
keeps a state, and one item may become several words on the wire. They
are `Synced` when the decoder's state is a mirror of the encoder's. An
item that is read back from synced states, into synced states, is
`Faithful`; one that is so from ANY two states is a recovery point.
-/

namespace ReflectivePi

open List

namespace StatefulCodec

variable {σ τ α β ε : Type}

/-- Encode a list of items, the state passed along. -/
def encodeRun (enc : σ → α → σ × List β) (s : σ) : List α → σ × List β
  | [] => (s, [])
  | x :: xs =>
    let (s', ws) := enc s x
    let (s'', rest) := encodeRun enc s' xs
    (s'', ws ++ rest)

/-- Decode a list of words, stopping at the first error. -/
def decodeRun (dec : τ → β → Except ε (τ × List α)) (t : τ) :
    List β → Except ε (τ × List α)
  | [] => .ok (t, [])
  | w :: ws => do
    let (t', xs) ← dec t w
    let (t'', rest) ← decodeRun dec t' ws
    .ok (t'', xs ++ rest)

variable {enc : σ → α → σ × List β} {dec : τ → β → Except ε (τ × List α)}

variable {t : τ} {xs : List α} {s : σ}

theorem decodeRun_append {t₁ : τ} (ws rest : List β) (h : decodeRun dec t ws = .ok (t₁, xs)) :
    decodeRun dec t (ws ++ rest) = (decodeRun dec t₁ rest).map (fun r => (r.1, xs ++ r.2)) := by
  induction ws generalizing t xs with
  | nil =>
    obtain ⟨rfl, rfl⟩ : t = t₁ ∧ [] = xs := by simpa [decodeRun] using h
    show decodeRun dec t rest = _
    cases decodeRun dec t rest with
    | error e => rfl
    | ok r => rfl
  | cons w ws ih =>
    simp only [decodeRun, cons_append] at h ⊢
    cases hw : dec t w with
    | error e => rw [hw] at h; cases h
    | ok r =>
      cases hr : decodeRun dec r.1 ws with
      | error e =>
        rw [hw] at h
        simp only [bind, Except.bind, hr] at h
        cases h
      | ok r' =>
        rw [hw] at h
        simp only [bind, Except.bind, hr, Except.ok.injEq, Prod.mk.injEq] at h ⊢
        obtain ⟨rfl, rfl⟩ := h
        rw [ih hr]
        cases decodeRun dec r'.1 rest with
        | error e => rfl
        | ok r'' => simp [Except.map]

theorem ok_of_bind {γ δ : Type} {x : Except ε γ} {f : γ → Except ε δ} {r : δ}
    (h : x >>= f = .ok r) : ∃ a, x = .ok a ∧ f a = .ok r := by
  cases x with
  | error e => cases h
  | ok a => exact ⟨a, rfl, h⟩

/-- What every word keeps of the state and gives of items holds of a run. -/
theorem decodeRun_keeps {Inv : τ → Prop} {Good : α → Prop} {Word : β → Prop}
    (hstep : ∀ t w t' xs, Inv t → Word w → dec t w = .ok (t', xs) → Inv t' ∧ ∀ x ∈ xs, Good x)
    {ws : List β} (hws : ∀ w ∈ ws, Word w) {t' : τ} (ht : Inv t)
    (h : decodeRun dec t ws = .ok (t', xs)) : Inv t' ∧ ∀ x ∈ xs, Good x := by
  induction ws generalizing t xs with
  | nil =>
    cases h
    exact ⟨ht, fun x hx => by cases hx⟩
  | cons w ws ih =>
    obtain ⟨hw, hws⟩ := List.forall_mem_cons.mp hws
    obtain ⟨⟨t₁, ys⟩, hfirst, h⟩ := ok_of_bind h
    obtain ⟨⟨t₂, rest⟩, hrest, h⟩ := ok_of_bind h
    cases h
    obtain ⟨ht₁, hys⟩ := hstep t w t₁ ys ht hw hfirst
    obtain ⟨ht', hxs⟩ := ih hws ht₁ hrest
    exact ⟨ht', List.forall_mem_append.mpr ⟨hys, hxs⟩⟩

/-- What is encoded for `x` in `s` is read as `x` in `t`, and leaves the
two sides synced. -/
def Faithful (enc : σ → α → σ × List β)
    (dec : τ → β → Except ε (τ × List α)) (Synced : σ → τ → Prop)
    (s : σ) (t : τ) (x : α) : Prop :=
  ∃ t', decodeRun dec t (enc s x).2 = .ok (t', [x]) ∧ Synced (enc s x).1 t'

variable {Synced : σ → τ → Prop} {Good : α → Prop}

theorem run_cons {x : α} (hstep : ∀ s t x, Synced s t → Good x → Faithful enc dec Synced s t x)
    (hx : Faithful enc dec Synced s t x) (hxs : ∀ y ∈ xs, Good y) :
    ∃ t', decodeRun dec t (encodeRun enc s (x :: xs)).2 = .ok (t', x :: xs)
      ∧ Synced (encodeRun enc s (x :: xs)).1 t' := by
  induction xs generalizing s t x with
  | nil =>
    obtain ⟨t', hd, hs⟩ := hx
    exact ⟨t', by simpa [encodeRun] using hd, by simpa [encodeRun] using hs⟩
  | cons y ys ih =>
    obtain ⟨t', hd, hs⟩ := hx
    have hy := hstep _ _ y hs (hxs y mem_cons_self)
    obtain ⟨t'', hd', hs'⟩ := ih hy (fun z hz => hxs z (mem_cons_of_mem _ hz))
    refine ⟨t'', ?_, hs'⟩
    show decodeRun dec t ((enc s x).2 ++ (encodeRun enc (enc s x).1 (y :: ys)).2) = _
    rw [decodeRun_append _ _ hd, hd']
    rfl

/-- **Between synced sides a run of good items is read back unchanged.** -/
theorem run_lossless (hstep : ∀ s t x, Synced s t → Good x → Faithful enc dec Synced s t x)
    (h : Synced s t) (hxs : ∀ x ∈ xs, Good x) :
    ∃ t', decodeRun dec t (encodeRun enc s xs).2 = .ok (t', xs)
      ∧ Synced (encodeRun enc s xs).1 t' := by
  cases xs with
  | nil => exact ⟨t, rfl, h⟩
  | cons x xs =>
    exact run_cons hstep (hstep s t x h (hxs x mem_cons_self))
      (fun y hy => hxs y (mem_cons_of_mem _ hy))

/-- An encoder that turns every item into one word writes the words of a
later item where that item stands. -/
theorem encodeRun_drop (hone : ∀ s x, (enc s x).2.length = 1) (k : Nat) (s : σ) (xs : List α) :
    ∃ s', (encodeRun enc s xs).2.drop k = (encodeRun enc s' (xs.drop k)).2 := by
  induction k generalizing s xs with
  | zero => exact ⟨s, rfl⟩
  | succ k ih =>
    cases xs with
    | nil => exact ⟨s, rfl⟩
    | cons x xs =>
      obtain ⟨s', hs'⟩ := ih (enc s x).1 xs
      have hskip : ∀ rest : List β, ((enc s x).2 ++ rest).drop (k + 1) = rest.drop k := by
        intro rest
        rw [Nat.add_comm, ← drop_drop, drop_left' (hone s x)]
      exact ⟨s', (hskip _).trans hs'⟩

/-- **From an item that is faithful on any two sides, what follows is read
back by a decoder that saw nothing before it.** -/
theorem run_recovers {x : α} {ys : List α} {k : Nat} (hone : ∀ s x, (enc s x).2.length = 1)
    (hstep : ∀ s t x, Synced s t → Good x → Faithful enc dec Synced s t x)
    (hx : ∀ s, Faithful enc dec Synced s t x) (hk : ys.drop k = x :: xs) (hxs : ∀ y ∈ xs, Good y) :
    ∃ t', decodeRun dec t ((encodeRun enc s ys).2.drop k) = .ok (t', x :: xs) := by
  obtain ⟨s', hs'⟩ := encodeRun_drop hone k s ys
  obtain ⟨t', hd, -⟩ := run_cons hstep (hx s') hxs
  exact ⟨t', by rw [hs', hk, hd]⟩

end StatefulCodec

end ReflectivePi
