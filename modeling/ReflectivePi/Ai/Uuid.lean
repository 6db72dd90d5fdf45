import Mathlib.Data.Rat.Floor

/-!
# Ai — Uuid

Identifiers in time order. The clock may stand still or go back: a sequence
number that only ever grows sits right behind the timestamp, so the order of
the texts is that of the calls.
-/

namespace ReflectivePi.Ai.Uuid

open List

def maxUuidV7Timestamp : Int := 0xffffffffffff

def maxSequence : Nat := 2 ^ 41 - 1

/-- The variables of the generator. -/
structure Generator where
  lastOrdinaryTimestamp : Int := -1
  sequence : Option Nat := none

/-- A call, with what the clock and the source of random bytes give it. -/
structure Call where
  timestampMs : Option ℚ
  dateNow : ℚ
  random : Fin 16 → UInt8

/-- `byte.toString(16).padStart(2, "0")` -/
def hexByte (byte : Nat) : List Char := (Nat.toDigits 16 byte).leftpad 2 '0'

def uuidBytes (timestamp sequence : Nat) (random : Fin 16 → UInt8) : List Nat :=
  ([5, 4, 3, 2, 1, 0].map fun place => timestamp >>> (place * 8) &&& 0xff) ++
    [0x70 ||| (sequence >>> 37 &&& 0x0f), sequence >>> 29 &&& 0xff,
      0x80 ||| (sequence >>> 23 &&& 0x3f), sequence >>> 15 &&& 0xff, sequence >>> 7 &&& 0xff,
      (sequence &&& 0x7f) <<< 1 ||| ((random 11).toNat &&& 0x01),
      (random 12).toNat, (random 13).toNat, (random 14).toNat, (random 15).toNat]

/-- The bytes in groups of 4, 2, 2, 2 and 6. -/
def uuidText (bytes : List Nat) : List Char :=
  let hex := bytes.map hexByte
  (hex.take 4).flatten ++ '-' :: ((hex.take 6).drop 4).flatten ++ '-' ::
    ((hex.take 8).drop 6).flatten ++ '-' :: ((hex.take 10).drop 8).flatten ++ '-' ::
    (hex.drop 10).flatten

/-- The first sequence number is random, with room above it. -/
def nextSequence (sequence : Option Nat) (random : Fin 16 → UInt8) : Option Nat :=
  match sequence with
  | none => some ((random 1).toNat <<< 32 ||| (random 2).toNat <<< 24 ||| (random 3).toNat <<< 16
      ||| (random 4).toNat <<< 8 ||| (random 5).toNat)
  | some sequence => if sequence = maxSequence then none else some (sequence + 1)

/-- The timestamp and the sequence number of a call; `none` stands for a `RangeError`. -/
def stamp (g : Generator) (call : Call) : Generator × Option (Nat × Nat) :=
  let requestedTimestamp := call.timestampMs.getD call.dateNow
  if !requestedTimestamp.isInt || requestedTimestamp < 0 || requestedTimestamp > maxUuidV7Timestamp
  then (g, none)
  else
    let effectiveTimestamp := if call.timestampMs.isNone
      then max requestedTimestamp.num g.lastOrdinaryTimestamp else requestedTimestamp.num
    let g := { g with lastOrdinaryTimestamp := if call.timestampMs.isNone
      then effectiveTimestamp else g.lastOrdinaryTimestamp }
    match nextSequence g.sequence call.random with
    | none => (g, none)
    | some sequence =>
      ({ g with sequence := some sequence }, some (effectiveTimestamp.toNat, sequence))

def uuidv7 (g : Generator) (call : Call) : Generator × Option (List Char) :=
  let (g, stamped) := stamp g call
  (g, stamped.map fun (timestamp, sequence) =>
    uuidText (uuidBytes timestamp sequence call.random))

/-- The identifiers that the calls return, each with its call. -/
def uuids (g : Generator) : List Call → List (Call × List Char)
  | [] => []
  | call :: calls =>
    ((uuidv7 g call).2.map (call, ·)).toList ++ uuids (uuidv7 g call).1 calls

def hexDigit (c : Char) : Nat :=
  if c.isDigit then c.toNat - '0'.toNat else c.toNat - 'a'.toNat + 10

def parseTimestamp (uuid : List Char) : Nat :=
  (((uuid.filter (· ≠ '-')).take 12).map hexDigit).foldl (fun n digit => n * 16 + digit) 0

/-! ## The order -/

theorem append_lt_append {α : Type} [LT α] {l l' : List α} (h : l < l')
    (hlength : l.length = l'.length) (m m' : List α) : l ++ m < l' ++ m' := by
  induction l generalizing l' with
  | nil =>
    obtain rfl := List.length_eq_zero_iff.mp hlength.symm
    cases h
  | cons a l ih =>
    cases l' with
    | nil => cases hlength
    | cons b l' =>
      rw [cons_lt_cons_iff] at h
      refine cons_lt_cons_iff.mpr (h.imp_right fun hrest => ⟨hrest.1, ?_⟩)
      exact ih hrest.2 (Nat.succ.inj hlength)

/-- The digits of a number, each of its own width in bits. -/
def digits : List Nat → Nat → List Nat
  | [], _ => []
  | width :: widths, n => n / 2 ^ widths.sum % 2 ^ width :: digits widths n

theorem digits_lt {widths : List Nat} {n n' : Nat}
    (h : n % 2 ^ widths.sum < n' % 2 ^ widths.sum) : digits widths n < digits widths n' := by
  induction widths with
  | nil => simp [Nat.mod_one] at h
  | cons width widths ih =>
    rw [sum_cons, Nat.add_comm, Nat.pow_add, Nat.mod_mul, Nat.mod_mul] at h
    have hn := Nat.mod_lt n (Nat.two_pow_pos widths.sum)
    have hn' := Nat.mod_lt n' (Nat.two_pow_pos widths.sum)
    rw [digits, digits, cons_lt_cons_iff]
    rcases Nat.lt_trichotomy (n / 2 ^ widths.sum % 2 ^ width) (n' / 2 ^ widths.sum % 2 ^ width)
      with hdigit | hdigit | hdigit
    · exact .inl hdigit
    · rw [hdigit] at h
      exact .inr ⟨hdigit, ih (Nat.lt_of_add_lt_add_right h)⟩
    · have hmul := Nat.mul_le_mul_left (2 ^ widths.sum) hdigit
      rw [Nat.mul_succ] at hmul
      omega

/-- The timestamp, and the sequence number around the version and the variant. -/
theorem uuidBytes_eq (t s : Nat) (random : Fin 16 → UInt8) :
    ∃ a b c d e f, digits [4, 8, 6, 8, 8, 7] s = [a, b, c, d, e, f] ∧
      a < 16 ∧ b < 256 ∧ c < 64 ∧ d < 256 ∧ e < 256 ∧ f < 128 ∧
      uuidBytes t s random = digits [8, 8, 8, 8, 8, 8] t ++ [112 + a, b, 128 + c, d, e,
        f * 2 + (random 11).toNat % 2, (random 12).toNat, (random 13).toNat, (random 14).toNat,
        (random 15).toNat] := by
  have hversion : ∀ n < 16, 0x70 ||| n = 112 + n := by decide
  have hvariant : ∀ n < 64, 0x80 ||| n = 128 + n := by decide
  have hlast : ∀ n < 128, ∀ b < 2, n <<< 1 ||| b = n * 2 + b := by decide +kernel
  have hmask (n k : Nat) : n &&& (2 ^ k - 1) = n % 2 ^ k := Nat.and_two_pow_sub_one_eq_mod n k
  have hbyte (n : Nat) : n &&& 255 = n % 256 := hmask n 8
  refine ⟨_, _, _, _, _, _, rfl, ?_⟩
  have hlt (n k : Nat) : n % 2 ^ k < 2 ^ k := Nat.mod_lt _ (Nat.two_pow_pos k)
  refine ⟨hlt _ 4, hlt _ 8, hlt _ 6, hlt _ 8, hlt _ 8, hlt _ 7, ?_⟩
  rw [← hversion _ (hlt _ 4), ← hvariant _ (hlt _ 6),
    ← hlast _ (hlt _ 7) _ (Nat.mod_lt _ Nat.two_pos), ← hmask, ← hmask, ← hmask, ← hmask, ← hmask,
    ← hmask]
  simp [uuidBytes, digits, Nat.shiftRight_eq_div_pow, hbyte]

theorem uuidBytes_lt {t t' s s' : Nat} (ht : t < 2 ^ 48) (ht' : t' < 2 ^ 48) (hs : s' < 2 ^ 41)
    (h : t < t' ∨ t = t' ∧ s < s') (random random' : Fin 16 → UInt8) :
    uuidBytes t s random < uuidBytes t' s' random' := by
  obtain ⟨a, b, c, d, e, f, hdigits, -, -, -, -, -, -, hbytes⟩ := uuidBytes_eq t s random
  obtain ⟨a', b', c', d', e', f', hdigits', -, -, -, -, -, -, hbytes'⟩ := uuidBytes_eq t' s' random'
  rw [hbytes, hbytes']
  rcases h with h | ⟨rfl, h⟩
  · have hlt : digits [8, 8, 8, 8, 8, 8] t < digits [8, 8, 8, 8, 8, 8] t' := digits_lt <|
      (Nat.mod_eq_of_lt ht).trans_lt (h.trans_eq (Nat.mod_eq_of_lt ht').symm)
    exact append_lt_append hlt rfl _ _
  · have hlt : digits [4, 8, 6, 8, 8, 7] s < digits [4, 8, 6, 8, 8, 7] s' := digits_lt <|
      (Nat.mod_eq_of_lt (h.trans hs)).trans_lt (h.trans_eq (Nat.mod_eq_of_lt hs).symm)
    rw [hdigits, hdigits'] at hlt
    refine List.append_left_lt ?_
    simp only [cons_lt_cons_iff, not_lt_nil, and_false, or_false] at hlt ⊢
    omega

theorem hexByte_lt {b b' : Nat} (h : b < b') (hb : b' < 256) : hexByte b < hexByte b' := by
  have hstep : ∀ b < 255, hexByte b < hexByte (b + 1) := by decide +kernel
  induction h with
  | refl => exact hstep b (by omega)
  | step _ ih => exact List.lt_trans (ih (by omega)) (hstep _ (by omega))

theorem hexByte_length : ∀ b < 256, (hexByte b).length = 2 := by decide +kernel

/-- The cells of a text: a byte, and what stands behind it. -/
def cells (bytes : List Nat) (separators : List (List Char)) : List Char :=
  (zipWith (fun byte separator => hexByte byte ++ separator) bytes separators).flatten

def separators : List (List Char) :=
  [[], [], [], ['-'], [], ['-'], [], ['-'], [], ['-'], [], [], [], [], [], []]

theorem uuidText_eq {bytes : List Nat} (h : bytes.length = 16) :
    uuidText bytes = cells bytes separators := by
  match bytes, h with
  | [_, _, _, _, _, _, _, _, _, _, _, _, _, _, _, _], _ => simp [uuidText, cells, separators]

theorem cells_lt {bytes bytes' : List Nat} {separators : List (List Char)}
    (hlength : bytes.length = separators.length) (hlength' : bytes'.length = separators.length)
    (hbytes : ∀ b ∈ bytes, b < 256) (hbytes' : ∀ b ∈ bytes', b < 256) (h : bytes < bytes') :
    cells bytes separators < cells bytes' separators := by
  induction separators generalizing bytes bytes' with
  | nil =>
    obtain rfl := length_eq_zero_iff.mp hlength
    obtain rfl := length_eq_zero_iff.mp hlength'
    exact absurd h (not_lt_nil _)
  | cons separator separators ih =>
    match bytes, bytes', hlength, hlength' with
    | b :: bytes, b' :: bytes', hlength, hlength' =>
      obtain ⟨hb, hrest⟩ := forall_mem_cons.mp hbytes
      obtain ⟨hb', hrest'⟩ := forall_mem_cons.mp hbytes'
      simp only [cells, zipWith_cons_cons, flatten_cons, append_assoc]
      rcases cons_lt_cons_iff.mp h with h | ⟨rfl, hlt⟩
      · exact append_lt_append (hexByte_lt h hb')
          ((hexByte_length b hb).trans (hexByte_length b' hb').symm) _ _
      · exact append_left_lt (append_left_lt
          (ih (Nat.succ.inj hlength) (Nat.succ.inj hlength') hrest hrest' hlt))

theorem uuidBytes_bounded (t s : Nat) (random : Fin 16 → UInt8) :
    ∀ byte ∈ uuidBytes t s random, byte < 256 := by
  obtain ⟨a, b, c, d, e, f, -, ha, hb, hc, hd, he, hf, hbytes⟩ := uuidBytes_eq t s random
  have hrandom (i : Fin 16) : (random i).toNat < 256 := (random i).toNat_lt
  have htime (n : Nat) : n % 2 ^ 8 < 256 := Nat.mod_lt n (by decide)
  rw [hbytes]
  simp only [digits, forall_mem_append, forall_mem_cons, not_mem_nil, htime, hrandom, hb, hd, he]
  refine ⟨by simp, by omega, trivial, by omega, trivial, trivial, by omega, by simp⟩

/-! ## The runs -/

/-- The least sequence number that may still come. -/
def Generator.next (g : Generator) : Nat := g.sequence.elim 0 (· + 1)

structure Inv (g : Generator) : Prop where
  timestamp : g.lastOrdinaryTimestamp < 2 ^ 48
  sequence : g.next ≤ 2 ^ 41

/-- What holds of every stamp that is given from `g` on. -/
structure Given (g : Generator) (call : Call) (t s : Nat) : Prop where
  timestamp : t < 2 ^ 48
  sequence : s < 2 ^ 41
  fresh : g.next ≤ s
  ordinary : call.timestampMs = none → g.lastOrdinaryTimestamp ≤ t ∧ call.dateNow ≤ t
  follower : ∀ q ∈ call.timestampMs, q = t

theorem nextSequence_spec {g : Generator} (hnext : g.next ≤ 2 ^ 41) {random : Fin 16 → UInt8}
    {s : Nat} (hs : nextSequence g.sequence random = some s) : g.next ≤ s ∧ s < 2 ^ 41 := by
  rw [Generator.next] at hnext ⊢
  cases hsequence : g.sequence with
  | none =>
    rw [hsequence] at hs
    have hshift (i : Fin 16) {k : Nat} (hk : k ≤ 32) : (random i).toNat <<< k < 2 ^ 41 := by
      have hpow : 2 ^ k ≤ 2 ^ 32 := Nat.pow_le_pow_right (by decide) hk
      have hmul := Nat.mul_lt_mul_of_lt_of_le (random i).toNat_lt hpow (by decide)
      exact (Nat.shiftLeft_eq _ k).trans_lt (hmul.trans (by decide))
    have hbyte : (random 5).toNat < 2 ^ 41 := (random 5).toNat_lt.trans (by decide)
    refine ⟨Nat.zero_le s, ?_⟩
    rw [← Option.some.inj hs]
    exact Nat.or_lt_two_pow (Nat.or_lt_two_pow (Nat.or_lt_two_pow (Nat.or_lt_two_pow
      (hshift 1 (by decide)) (hshift 2 (by decide))) (hshift 3 (by decide)))
      (hshift 4 (by decide))) hbyte
  | some last =>
    rw [hsequence] at hs hnext
    rw [nextSequence, maxSequence] at hs
    split at hs
    · cases hs
    · obtain rfl := Option.some.inj hs
      simp only [Option.elim_some] at hnext ⊢
      omega

theorem stamp_spec {g : Generator} (h : Inv g) (call : Call) :
    Inv (stamp g call).1 ∧ g.lastOrdinaryTimestamp ≤ (stamp g call).1.lastOrdinaryTimestamp ∧
      g.next ≤ (stamp g call).1.next ∧ ∀ t s, (stamp g call).2 = some (t, s) →
        Given g call t s ∧ (stamp g call).1.next = s + 1 ∧
          (call.timestampMs = none → (stamp g call).1.lastOrdinaryTimestamp = t) := by
  simp only [stamp]
  split
  · exact ⟨h, Int.le_refl _, Nat.le_refl _, fun _ _ h => by cases h⟩
  rename_i hinvalid
  simp only [Bool.or_eq_true, not_or, Bool.not_eq_true', Bool.not_eq_false,
    decide_eq_true_eq] at hinvalid
  obtain ⟨⟨hint, hlow⟩, hhigh⟩ := hinvalid
  have hnum := Rat.eq_num_of_isInt hint
  rw [hnum] at hlow hhigh
  have hlow := Int.not_lt.mp fun hneg => hlow (Rat.intCast_lt_intCast.mpr hneg)
  have hhigh := Int.not_lt.mp fun hlt => hhigh (Rat.intCast_lt_intCast.mpr hlt)
  rw [maxUuidV7Timestamp] at hhigh
  have hlast := h.timestamp
  generalize (call.timestampMs.getD call.dateNow).num = n at *
  generalize he : (if call.timestampMs.isNone then max n g.lastOrdinaryTimestamp else n) = e
  generalize hl : (if call.timestampMs.isNone then e else g.lastOrdinaryTimestamp) = l
  have hkept : (0 ≤ e ∧ e < 2 ^ 48) ∧ (g.lastOrdinaryTimestamp ≤ l ∧ l < 2 ^ 48) ∧
      (call.timestampMs = none → (g.lastOrdinaryTimestamp ≤ e ∧ call.dateNow ≤ e) ∧ l = e) ∧
      ∀ q ∈ call.timestampMs, q = e := by
    cases htime : call.timestampMs with
    | none =>
      obtain rfl : max n g.lastOrdinaryTimestamp = e := by simpa [htime] using he
      obtain rfl : _ = l := by simpa [htime] using hl
      have hclock : call.dateNow ≤ (max n g.lastOrdinaryTimestamp : Int) := by
        rw [← Option.getD_none (a := call.dateNow), ← htime, hnum]
        exact Rat.intCast_le_intCast.mpr (by omega)
      exact ⟨by omega, by omega, fun _ => ⟨⟨by omega, hclock⟩, rfl⟩, fun _ h => by cases h⟩
    | some q =>
      obtain rfl : n = e := by simpa [htime] using he
      obtain rfl : _ = l := by simpa [htime] using hl
      refine ⟨by omega, by omega, fun h => (by cases h), fun q' hq => ?_⟩
      rw [← hnum, htime, ← Option.some.inj hq, Option.getD_some]
  obtain ⟨he, hl, hordinary, hfollower⟩ := hkept
  cases hs : nextSequence g.sequence call.random with
  | none => exact ⟨⟨hl.2, h.sequence⟩, hl.1, Nat.le_refl _, fun _ _ h => by cases h⟩
  | some s =>
    obtain ⟨hfresh, hlt⟩ := nextSequence_spec h.sequence hs
    refine ⟨⟨hl.2, hlt⟩, hl.1, hfresh.trans (Nat.le_succ s), fun t s' hgiven => ?_⟩
    obtain ⟨rfl, rfl⟩ := Prod.mk.inj (Option.some.inj hgiven)
    have htime := Int.toNat_of_nonneg he.1
    refine ⟨⟨by omega, hlt, hfresh, fun h => ?_, fun q hq => ?_⟩, rfl, fun h => ?_⟩
    · rw [← Rat.intCast_natCast, htime]
      exact (hordinary h).1
    · rw [hfollower q hq, ← Rat.intCast_natCast, htime]
    · exact (hordinary h).2.trans htime.symm

/-- The identifiers that are given from `g` on, each with its two numbers. -/
def stamps (g : Generator) : List Call → List (Call × Nat × Nat)
  | [] => []
  | call :: calls =>
    ((stamp g call).2.map (call, ·)).toList ++ stamps (stamp g call).1 calls

theorem uuids_eq (calls : List Call) (g : Generator) :
    uuids g calls = (stamps g calls).map fun p =>
      (p.1, uuidText (uuidBytes p.2.1 p.2.2 p.1.random)) := by
  induction calls generalizing g with
  | nil => rfl
  | cons call calls ih =>
    have hcall : uuidv7 g call = ((stamp g call).1, (stamp g call).2.map fun p =>
        uuidText (uuidBytes p.1 p.2 call.random)) := rfl
    rw [uuids, stamps, map_append, ih, hcall]
    cases (stamp g call).2 <;> rfl

theorem stamps_given (calls : List Call) {g : Generator} (h : Inv g) :
    (∀ p ∈ stamps g calls, Given g p.1 p.2.1 p.2.2) ∧ (stamps g calls).Pairwise fun p p' =>
      p.2.2 < p'.2.2 ∧
        (p.1.timestampMs = none → p'.1.timestampMs = none → p.2.1 ≤ p'.2.1) := by
  induction calls generalizing g with
  | nil => exact ⟨fun _ h => (not_mem_nil h).elim, .nil⟩
  | cons call calls ih =>
    obtain ⟨hinv, hlast, hnext, hgiven⟩ := stamp_spec h call
    obtain ⟨hlater, hpairwise⟩ := ih hinv
    have hrest : ∀ p ∈ stamps (stamp g call).1 calls, Given g p.1 p.2.1 p.2.2 := fun p hp =>
      { hlater p hp with
        fresh := hnext.trans (hlater p hp).fresh
        ordinary := fun h => ((hlater p hp).ordinary h).imp_left (Int.le_trans hlast) }
    rw [stamps]
    cases hstamped : (stamp g call).2 with
    | none => exact ⟨hrest, hpairwise⟩
    | some p =>
      obtain ⟨hhead, hsequence, htime⟩ := hgiven p.1 p.2 hstamped
      refine ⟨forall_mem_cons.mpr ⟨hhead, hrest⟩, .cons (fun p' hp' => ⟨?_, fun h h' => ?_⟩)
        hpairwise⟩
      · exact hsequence.symm.trans_le (hlater p' hp').fresh
      · exact Int.ofNat_le.mp (htime h ▸ ((hlater p' hp').ordinary h').1)

theorem Given.lt {g g' : Generator} {call call' : Call} {t t' s s' : Nat} (h : Given g call t s)
    (h' : Given g' call' t' s') (hlt : t < t' ∨ t = t' ∧ s < s') :
    uuidText (uuidBytes t s call.random) < uuidText (uuidBytes t' s' call'.random) := by
  rw [uuidText_eq rfl, uuidText_eq rfl]
  exact cells_lt rfl rfl (uuidBytes_bounded _ _ _) (uuidBytes_bounded _ _ _)
    (uuidBytes_lt h.timestamp h'.timestamp h'.sequence hlt _ _)

theorem Given.ne {g g' : Generator} {call call' : Call} {t t' s s' : Nat} (h : Given g call t s)
    (h' : Given g' call' t' s') (hs : s < s') :
    uuidText (uuidBytes t s call.random) ≠ uuidText (uuidBytes t' s' call'.random) := by
  have hne {id id' : List Char} (hlt : id < id') : id ≠ id' := fun h => List.lt_irrefl id' (h ▸ hlt)
  rcases Nat.lt_trichotomy t t' with ht | ht | ht
  · exact hne (h.lt h' (.inl ht))
  · exact hne (h.lt h' (.inr ⟨ht, hs⟩))
  · exact (hne (h'.lt h (.inl ht))).symm

theorem start_inv : Inv {} := ⟨by decide, by decide⟩

/-- Of two identifiers the later one is another, and above an ordinary one comes an ordinary
one: the clock may go back, and followers may come in between. -/
theorem uuids_ordered (calls : List Call) : (uuids {} calls).Pairwise fun p p' =>
    p.2 ≠ p'.2 ∧ (p.1.timestampMs = none → p'.1.timestampMs = none → p.2 < p'.2) := by
  obtain ⟨hgiven, hpairwise⟩ := stamps_given calls start_inv
  rw [uuids_eq, pairwise_map]
  refine hpairwise.imp_of_mem fun {p p'} hp hp' ⟨hsequence, htime⟩ => ⟨?_, fun h h' => ?_⟩
  · exact (hgiven p hp).ne (hgiven p' hp') hsequence
  · exact (hgiven p hp).lt (hgiven p' hp')
      ((htime h h').lt_or_eq.imp_right fun heq => ⟨heq, hsequence⟩)

theorem filter_cells {bytes : List Nat} {separators : List (List Char)}
    (hlength : bytes.length = separators.length) (hbytes : ∀ b ∈ bytes, b < 256)
    (hseparators : ∀ separator ∈ separators, separator.filter (· ≠ '-') = []) :
    (cells bytes separators).filter (· ≠ '-') = bytes.flatMap hexByte := by
  have hbyte : ∀ b < 256, (hexByte b).filter (· ≠ '-') = hexByte b := by decide +kernel
  induction separators generalizing bytes with
  | nil => rw [length_eq_zero_iff.mp hlength]; rfl
  | cons separator separators ih =>
    match bytes, hlength with
    | b :: bytes, hlength =>
      obtain ⟨hb, hrest⟩ := forall_mem_cons.mp hbytes
      obtain ⟨hseparator, hseparators⟩ := forall_mem_cons.mp hseparators
      have ih := ih (Nat.succ.inj hlength) hrest hseparators
      rw [cells] at ih ⊢
      rw [zipWith_cons_cons, flatten_cons, filter_append, filter_append, hbyte b hb, hseparator,
        ih, append_nil, flatMap_cons]

theorem foldl_flatMap_hexByte {bytes : List Nat} (hbytes : ∀ b ∈ bytes, b < 256) (n : Nat) :
    ((bytes.flatMap hexByte).map hexDigit).foldl (fun n digit => n * 16 + digit) n =
      bytes.foldl (fun n b => n * 256 + b) n := by
  have hbyte : ∀ b < 256, (hexByte b).map hexDigit = [b / 16, b % 16] := by decide +kernel
  induction bytes generalizing n with
  | nil => rfl
  | cons b bytes ih =>
    obtain ⟨hb, hrest⟩ := forall_mem_cons.mp hbytes
    have hn : (n * 16 + b / 16) * 16 + b % 16 = n * 256 + b := by omega
    rw [flatMap_cons, map_append, foldl_append, hbyte b hb, ih hrest, foldl_cons, foldl_cons,
      foldl_cons, foldl_nil, hn]

theorem parseTimestamp_uuid {t : Nat} (ht : t < 2 ^ 48) (s : Nat) (random : Fin 16 → UInt8) :
    parseTimestamp (uuidText (uuidBytes t s random)) = t := by
  have hbounded := uuidBytes_bounded t s random
  obtain ⟨_, _, _, _, _, _, -, -, -, -, -, -, -, hbytes⟩ := uuidBytes_eq t s random
  rw [parseTimestamp, uuidText_eq rfl, filter_cells rfl hbounded (by decide)]
  rw [hbytes, forall_mem_append] at hbounded
  have htake : ((digits [8, 8, 8, 8, 8, 8] t).flatMap hexByte).length = 12 := by
    simp [digits, hexByte_length, Nat.mod_lt]
  rw [hbytes, flatMap_append, take_left' htake, foldl_flatMap_hexByte hbounded.1]
  simp only [digits, sum_cons, sum_nil, foldl_cons, foldl_nil]
  omega

/-- A follower's identifier gives its timestamp back, and an ordinary one is never behind the
clock. -/
theorem parseTimestamp_uuids (calls : List Call) : ∀ p ∈ uuids {} calls,
    (∀ q ∈ p.1.timestampMs, (parseTimestamp p.2 : ℚ) = q) ∧
      (p.1.timestampMs = none → p.1.dateNow ≤ parseTimestamp p.2) := by
  intro p hp
  rw [uuids_eq] at hp
  obtain ⟨⟨call, t, s⟩, hmem, rfl⟩ := mem_map.mp hp
  have hgiven := (stamps_given calls start_inv).1 _ hmem
  rw [parseTimestamp_uuid hgiven.timestamp]
  exact ⟨fun q hq => (hgiven.follower q hq).symm, fun h => (hgiven.ordinary h).2⟩

theorem parseTimestamp_uuids_follower :
    (parseTimestamp (uuidText (uuidBytes 7 0 fun _ => 0)) : ℚ) = 7 :=
  (parseTimestamp_uuids [⟨some 7, 0, fun _ => 0⟩] (_, _) (.head _)).1 7 rfl

end ReflectivePi.Ai.Uuid
