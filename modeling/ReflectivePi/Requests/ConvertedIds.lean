import ReflectivePi.Requests.DistinctCalls

/-!
# Requests — ConvertedIds

Mistral's rule gives an id the first candidate that no other rewritten id
has; an id that goes out unchanged has no owner there. With it, what each of
the three converters needs of a transcript.
-/

namespace ReflectivePi.Requests.Ids

open List InsertionMap
open Delta (JsString)

theorem mem_toBase36 {fuel n : Nat} {digits : JsString} {u : UInt16} (h : u ∈ digits) :
    u ∈ toBase36 fuel n digits := by
  induction fuel generalizing n digits with
  | zero => exact h
  | succ fuel ih =>
    simp only [toBase36]
    split
    · exact mem_cons_of_mem _ h
    · exact ih (mem_cons_of_mem _ h)

theorem isAlphanumeric_digit : ∀ r < 36,
    isAlphanumeric (UInt16.ofNat (if r < 10 then 0x30 + r else 0x57 + r)) := by
  decide

theorem exists_mem_toBase36 (fuel n : Nat) (digits : JsString) :
    ∃ u ∈ toBase36 (fuel + 1) n digits, isAlphanumeric u := by
  refine ⟨_, ?_, isAlphanumeric_digit (n % 36) (Nat.mod_lt _ (by decide))⟩
  simp only [toBase36]
  split
  · exact mem_cons_self
  · exact mem_toBase36 mem_cons_self

theorem derive_ne_nil (id : JsString) (attempt : Nat) : deriveMistralToolCallId id attempt ≠ [] := by
  simp only [deriveMistralToolCallId]
  split
  · rename_i h
    intro hnil
    rw [hnil] at h
    exact absurd h.2 (by decide)
  · intro hnil
    generalize (if attempt = 0 then _ else _ : JsString) = seed at hnil
    have hempty : alphanumeric (shortHash seed) = [] :=
      (List.take_eq_nil_iff.mp hnil).resolve_left (by decide)
    obtain ⟨u, hu, halpha⟩ := exists_mem_toBase36 6 _ []
    have hmem : u ∈ shortHash seed := mem_append_left _ hu
    have hkept : u ∈ alphanumeric (shortHash seed) := List.mem_filter.mpr ⟨hmem, halpha⟩
    rw [hempty] at hkept
    cases hkept

/-! ## The search -/

/-- The pairs of an id and its candidate that the maps hold. -/
structure MistralIds.Owns (ids : MistralIds) (owned : List (JsString × JsString)) : Prop where
  mapped : ∀ id candidate, ids.idMap.get? id = some candidate → id ∈ owned.map Prod.fst
  free : ∀ candidate, ids.reverseMap.get? candidate = none ↔ candidate ∉ owned.map Prod.snd
  owner : ∀ candidate owner, ids.reverseMap.get? candidate = some owner → owner ∈ owned.map Prod.fst
  nonempty : ∀ owner ∈ owned.map Prod.fst, owner ≠ []

namespace MistralIds

theorem owns_start : Owns {} [] where
  mapped := fun id candidate h => by cases h
  free := fun candidate => by simp
  owner := fun candidate owner h => by cases h
  nonempty := fun owner h => by cases h

variable {id : JsString}

theorem Owns.set {ids : MistralIds} {owned : List (JsString × JsString)} (h : ids.Owns owned)
    (hne : id ≠ []) (candidate : JsString) :
    Owns ⟨ids.idMap.set id candidate, ids.reverseMap.set candidate id⟩
      ((id, candidate) :: owned) where
  mapped := by
    intro id' candidate' hget
    rw [get?_set] at hget
    split at hget
    · rename_i heq
      rw [← heq]
      exact mem_cons_self
    · exact mem_cons_of_mem _ (h.mapped _ _ hget)
  free := by
    intro candidate'
    rw [get?_set, map_cons, mem_cons]
    by_cases heq : candidate = candidate'
    · simp [heq]
    · rw [if_neg heq, h.free candidate', not_or]
      exact ⟨fun hfree => ⟨fun h => heq h.symm, hfree⟩, And.right⟩
  owner := by
    intro candidate' owner hget
    rw [get?_set] at hget
    split at hget
    · cases hget
      exact mem_cons_self
    · exact mem_cons_of_mem _ (h.owner _ _ hget)
  nonempty := List.forall_mem_cons.mpr ⟨hne, h.nonempty⟩

variable {ids : MistralIds} {owned : List (JsString × JsString)}

section

variable (h : ids.Owns owned) (hfresh : id ∉ owned.map Prod.fst)

include h hfresh

theorem Owns.findCandidate_succ
    (fuel attempt : Nat) :
    findCandidate ids.reverseMap id (fuel + 1) attempt
      = if deriveMistralToolCallId id attempt ∈ owned.map Prod.snd then
          findCandidate ids.reverseMap id fuel (attempt + 1)
        else some (deriveMistralToolCallId id attempt) := by
  simp only [findCandidate]
  cases hget : ids.reverseMap.get? (deriveMistralToolCallId id attempt) with
  | none => rw [if_neg ((h.free _).mp hget)]
  | some owner =>
    have howner := h.owner _ _ hget
    have htaken : deriveMistralToolCallId id attempt ∈ owned.map Prod.snd := by
      by_contra hfree
      rw [(h.free _).mpr hfree] at hget
      cases hget
    rw [if_pos htaken]
    refine if_neg (not_or.mpr ⟨h.nonempty _ howner, ?_⟩)
    rintro rfl
    exact hfresh howner

theorem Owns.findCandidate_iff
    (fuel attempt : Nat) (candidate : JsString) :
    findCandidate ids.reverseMap id fuel attempt = some candidate ↔
      ∃ n < fuel, deriveMistralToolCallId id (attempt + n) = candidate ∧
        candidate ∉ owned.map Prod.snd ∧
        ∀ m < n, deriveMistralToolCallId id (attempt + m) ∈ owned.map Prod.snd := by
  induction fuel generalizing attempt with
  | zero => simp [findCandidate]
  | succ fuel ih =>
    rw [h.findCandidate_succ hfresh]
    split
    · rename_i htaken
      rw [ih]
      constructor
      · rintro ⟨n, hn, hcandidate, hfree, hbefore⟩
        refine ⟨n + 1, by omega, by rw [← hcandidate]; congr 1; omega, hfree, fun m hm => ?_⟩
        cases m with
        | zero => exact htaken
        | succ m =>
          have hm' := hbefore m (by omega)
          rwa [Nat.add_assoc, Nat.add_comm 1 m] at hm'
      · rintro ⟨n, hn, hcandidate, hfree, hbefore⟩
        cases n with
        | zero =>
          exact absurd (hcandidate ▸ htaken) hfree
        | succ n =>
          refine ⟨n, by omega, by rw [← hcandidate]; congr 1; omega, hfree, fun m hm => ?_⟩
          have hm' := hbefore (m + 1) (by omega)
          rwa [Nat.add_comm m 1, ← Nat.add_assoc] at hm'
    · rename_i hfree
      constructor
      · intro heq
        cases heq
        exact ⟨0, by omega, rfl, hfree, fun m hm => by omega⟩
      · rintro ⟨n, hn, hcandidate, hfree', hbefore⟩
        cases n with
        | zero => exact congrArg some hcandidate
        | succ n => exact absurd (hbefore 0 (by omega)) hfree

theorem Owns.normalizer_eq (fuel : Nat) :
    createMistralToolCallIdNormalizer fuel ids id
      = (findCandidate ids.reverseMap id fuel 0).map fun candidate =>
        (⟨ids.idMap.set id candidate, ids.reverseMap.set candidate id⟩, candidate) := by
  have hnone : ids.idMap.get? id = none := by
    cases hget : ids.idMap.get? id with
    | none => rfl
    | some candidate => exact absurd (h.mapped _ _ hget) hfresh
  rw [createMistralToolCallIdNormalizer, hnone]

end

end MistralIds

/-! ## The candidates of a transcript -/

/-- The candidate of an id at its attempt. -/
def candidateAt (attempts : JsString → Nat) (id : JsString) : JsString :=
  deriveMistralToolCallId id (attempts id)

theorem candidateAt_ne_nil (attempts : JsString → Nat) (id : JsString) :
    candidateAt attempts id ≠ [] := by
  exact derive_ne_nil id (attempts id)

variable {attempts : JsString → Nat}

theorem isAlphanumeric_candidateAt {id : JsString} {u : UInt16}
    (h : u ∈ candidateAt attempts id) : isAlphanumeric u := by
  exact isAlphanumeric_derive h

/-- Each call of another model has the first attempt whose candidate is not taken. -/
def FirstFree (attempts : JsString → Nat) : List JsString → List (Bool × JsString) → Prop
  | _, [] => True
  | taken, (true, _) :: rest => FirstFree attempts taken rest
  | taken, (false, id) :: rest =>
    (candidateAt attempts id ∉ taken ∧
      ∀ attempt < attempts id, deriveMistralToolCallId id attempt ∈ taken) ∧
    FirstFree attempts (candidateAt attempts id :: taken) rest

theorem FirstFree.congr {attempts' : JsString → Nat} {taken : List JsString}
    {calls : List (Bool × JsString)} (h : FirstFree attempts taken calls)
    (heq : ∀ id ∈ calls.map Prod.snd, attempts' id = attempts id) :
    FirstFree attempts' taken calls := by
  induction calls generalizing taken with
  | nil => trivial
  | cons call rest ih =>
    obtain ⟨isSameModel, id⟩ := call
    obtain ⟨hid, hrest⟩ := List.forall_mem_cons.mp heq
    cases isSameModel with
    | true => exact ih h hrest
    | false =>
      have hsame : candidateAt attempts' id = candidateAt attempts id :=
        congrArg (deriveMistralToolCallId id) hid
      obtain ⟨⟨hfree, hbefore⟩, h⟩ := h
      rw [FirstFree, hsame]
      exact ⟨⟨hfree, fun attempt hlt => hbefore attempt (hid ▸ hlt)⟩, ih h hrest⟩

theorem FirstFree.apart {taken : List JsString}
    {calls : List (Bool × JsString)} (h : FirstFree attempts taken calls) :
    (∀ call ∈ calls, call.1 = false → candidateAt attempts call.2 ∉ taken) ∧
      calls.Pairwise fun a b => a.1 = false → b.1 = false →
        candidateAt attempts a.2 ≠ candidateAt attempts b.2 := by
  induction calls generalizing taken with
  | nil => simp
  | cons call rest ih =>
    obtain ⟨isSameModel, id⟩ := call
    cases isSameModel with
    | true =>
      obtain ⟨hfree, hapart⟩ := ih h
      exact ⟨List.forall_mem_cons.mpr ⟨fun h => (by cases h), hfree⟩,
        List.pairwise_cons.mpr ⟨fun _ _ h => (by cases h), hapart⟩⟩
    | false =>
      obtain ⟨hfree, hapart⟩ := ih h.2
      refine ⟨List.forall_mem_cons.mpr ⟨fun _ => h.1.1, fun call hcall hforeign hmem => ?_⟩,
        List.pairwise_cons.mpr ⟨fun call hcall _ hforeign heq => ?_, hapart⟩⟩
      · exact hfree call hcall hforeign (mem_cons_of_mem _ hmem)
      · exact hfree call hcall hforeign (heq ▸ mem_cons_self)

section
variable {ids : MistralIds} {owned : List (JsString × JsString)}

/-- A run of the normalizer gives each call the first candidate that is free. -/
theorem firstFree_of_outgoing (h : ids.Owns owned) {calls : List (Bool × JsString)}
    (hnodup : (owned.map Prod.fst ++ calls.map Prod.snd).Nodup)
    (hnonempty : ∀ call ∈ calls, call.2 ≠ []) {fuel : Nat} {last : MistralIds} {out : List JsString}
    (hout : outgoing (createMistralToolCallIdNormalizer fuel) ids calls = some (last, out)) :
    ∃ attempts, FirstFree attempts (owned.map Prod.snd) calls ∧
      out = calls.map (written (candidateAt attempts)) := by
  induction calls generalizing ids owned out with
  | nil =>
    cases hout
    exact ⟨fun _ => 0, trivial, rfl⟩
  | cons call rest ih =>
    obtain ⟨isSameModel, id⟩ := call
    obtain ⟨hid, hrest⟩ : id ≠ [] ∧ ∀ call ∈ rest, call.2 ≠ [] := List.forall_mem_cons.mp hnonempty
    have hmiddle := List.nodup_middle.mp hnodup
    cases isSameModel with
    | true =>
      obtain ⟨⟨last', ids'⟩, hrun, heq⟩ := Option.map_eq_some_iff.mp hout
      cases heq
      obtain ⟨attempts, hfirst, rfl⟩ := ih h (List.nodup_cons.mp hmiddle).2 hrest hrun
      exact ⟨attempts, hfirst, by rw [map_cons, written_own]⟩
    | false =>
      obtain ⟨⟨ids', candidate⟩, hnormal, hout⟩ := Option.bind_eq_some_iff.mp hout
      have hfresh := (List.nodup_cons.mp hmiddle).1
      have hfresh' : id ∉ owned.map Prod.fst := fun hmem =>
        hfresh (mem_append_left _ hmem)
      rw [h.normalizer_eq hfresh'] at hnormal
      obtain ⟨found, hfind, heq⟩ := Option.map_eq_some_iff.mp hnormal
      cases heq
      obtain ⟨⟨last', ids'⟩, hrun, heq⟩ := Option.map_eq_some_iff.mp hout
      cases heq
      obtain ⟨n, -, hn, hfree, hbefore⟩ := (h.findCandidate_iff hfresh' _ _ _).mp hfind
      obtain ⟨attempts, hfirst, rfl⟩ := ih (h.set hid candidate) hmiddle hrest hrun
      have hother : ∀ id' ∈ rest.map Prod.snd, Function.update attempts id n id' = attempts id' :=
        fun id' hmem => Function.update_of_ne
          (fun heq => hfresh (mem_append_right _ (by rwa [heq] at hmem))) ..
      have hcandidate : candidateAt (Function.update attempts id n) id = candidate := by
        rw [candidateAt, Function.update_self, ← hn, Nat.zero_add]
      refine ⟨Function.update attempts id n, ⟨⟨?_, ?_⟩, ?_⟩, ?_⟩
      · rwa [hcandidate]
      · intro attempt hlt
        rw [Function.update_self] at hlt
        have hattempt := hbefore attempt hlt
        rwa [Nat.zero_add] at hattempt
      · rw [hcandidate]
        exact hfirst.congr hother
      · rw [map_cons, written_foreign, hcandidate]
        refine congrArg _ (map_congr_left fun call hcall => ?_)
        rw [written, written, candidateAt, candidateAt, hother _ (mem_map_of_mem hcall)]

/-- With fuel enough it gives them so. -/
theorem outgoing_of_firstFree (h : ids.Owns owned) {calls : List (Bool × JsString)}
    (hnodup : (owned.map Prod.fst ++ calls.map Prod.snd).Nodup)
    (hnonempty : ∀ call ∈ calls, call.2 ≠ []) {attempts : JsString → Nat}
    (hfirst : FirstFree attempts (owned.map Prod.snd) calls) :
    ∃ bound, ∀ fuel ≥ bound, ∃ last, outgoing (createMistralToolCallIdNormalizer fuel) ids calls
        = some (last, calls.map (written (candidateAt attempts))) := by
  induction calls generalizing ids owned with
  | nil => exact ⟨0, fun _ _ => ⟨ids, rfl⟩⟩
  | cons call rest ih =>
    obtain ⟨isSameModel, id⟩ := call
    obtain ⟨hid, hrest⟩ : id ≠ [] ∧ ∀ call ∈ rest, call.2 ≠ [] := List.forall_mem_cons.mp hnonempty
    have hmiddle := List.nodup_middle.mp hnodup
    cases isSameModel with
    | true =>
      obtain ⟨bound, hbound⟩ := ih h (List.nodup_cons.mp hmiddle).2 hrest hfirst
      refine ⟨bound, fun fuel hfuel => ?_⟩
      obtain ⟨last, hlast⟩ := hbound fuel hfuel
      exact ⟨last, by simp [outgoing, hlast]⟩
    | false =>
      obtain ⟨⟨hfree, hbefore⟩, hfirst⟩ := hfirst
      have hfresh : id ∉ owned.map Prod.fst := fun hmem =>
        (List.nodup_cons.mp hmiddle).1 (mem_append_left _ hmem)
      obtain ⟨bound, hbound⟩ := ih (h.set hid (candidateAt attempts id)) hmiddle hrest hfirst
      refine ⟨max bound (attempts id + 1), fun fuel hfuel => ?_⟩
      obtain ⟨last, hlast⟩ := hbound fuel (le_trans (le_max_left _ _) hfuel)
      have hfind := (h.findCandidate_iff hfresh fuel 0 (candidateAt attempts id)).mpr
        ⟨attempts id, le_trans (le_max_right bound _) hfuel, by rw [Nat.zero_add, candidateAt], hfree,
          fun m hm => by rw [Nat.zero_add]; exact hbefore m hm⟩
      refine ⟨last, ?_⟩
      rw [outgoing, if_neg Bool.false_ne_true, h.normalizer_eq hfresh, hfind, Option.map_some,
        Option.bind_some]
      dsimp only
      rw [hlast, Option.map_some, map_cons, written_foreign]

end

/-- What the candidates of a transcript owe to the request. -/
theorem mistral_of_firstFree {messages : List IdMessage}
    (h : WellNamed Converter.mistralConversations.Format messages)
    (hfirst : FirstFree attempts [] (allCalls messages)) {wire : JsString → JsString}
    (hwire : ∀ call ∈ allCalls messages, wire call.2 = written (candidateAt attempts) call) :
    (((keptIds messages).map wire).Nodup ∧
      (∀ id ∈ keptIds messages, Converter.mistralConversations.Format (wire id)) ∧
      (∀ id ∈ givenIds messages, Converter.mistralConversations.Format (answered wire id)) ∧
      ∀ id ∈ givenIds messages, id ∈ keptIds messages → wire id ≠ []) ↔
      (∀ id, (false, id) ∈ allCalls messages → id ∈ keptIds messages ∨ id ∈ givenIds messages →
          (candidateAt attempts id).length = 9) ∧
        ∀ id own, (false, id) ∈ keptCalls messages → (true, own) ∈ keptCalls messages →
          candidateAt attempts id ≠ own := by
  have hforeign : ∀ id, (false, id) ∈ allCalls messages → wire id = candidateAt attempts id :=
    fun id hid => (hwire (false, id) hid).trans (written_foreign _ _)
  have hown : ∀ id, (true, id) ∈ allCalls messages → wire id = id := fun id hid =>
    (hwire (true, id) hid).trans (written_own _ _)
  have hkept := (keptCalls_sublist messages).subset
  have hne : ∀ id ∈ callIds messages, wire id ≠ [] := by
    rw [callIds_eq_allCalls]
    refine List.forall_mem_map.mpr fun ⟨isSameModel, id⟩ hcall => ?_
    cases isSameModel with
    | true =>
      rw [hown id hcall]
      exact h.nonempty id (by rw [callIds_eq_allCalls]; exact mem_map_of_mem hcall)
    | false =>
      rw [hforeign id hcall]
      exact candidateAt_ne_nil attempts id
  have hformat : (∀ id ∈ callIds messages, id ∈ keptIds messages ∨ id ∈ givenIds messages →
      Converter.mistralConversations.Format (wire id)) ↔
      ∀ id, (false, id) ∈ allCalls messages → id ∈ keptIds messages ∨ id ∈ givenIds messages →
        (candidateAt attempts id).length = 9 := by
    rw [callIds_eq_allCalls]
    constructor
    · intro hall id hid hout
      rw [← hforeign id hid]
      exact (hall id (mem_map_of_mem hid) hout).1
    · refine fun hlength => List.forall_mem_map.mpr fun ⟨isSameModel, id⟩ hcall hout => ?_
      cases isSameModel with
      | true =>
        rw [hown id hcall]
        exact h.formatted _ hcall rfl
      | false =>
        rw [hforeign id hcall]
        exact ⟨hlength id hcall hout, fun u hu => isAlphanumeric_candidateAt hu⟩
  have hnodup : ((keptIds messages).map wire).Nodup ↔
      ∀ id own, (false, id) ∈ keptCalls messages → (true, own) ∈ keptCalls messages →
        candidateAt attempts id ≠ own := by
    rw [keptIds_eq_keptCalls, map_map]
    constructor
    · intro hnodup id own hid hmem heq
      have hsame := inj_on_of_nodup_map hnodup hid hmem
        ((hforeign id (hkept hid)).trans (heq.trans (hown own (hkept hmem)).symm))
      cases hsame
    · intro hapart
      have hids := h.nodup_kept
      rw [keptIds_eq_keptCalls, List.Nodup, pairwise_map] at hids
      rw [List.Nodup, pairwise_map]
      refine (hids.and (hfirst.apart.2.sublist (keptCalls_sublist messages))).imp_of_mem ?_
      rintro ⟨isSameModel, id⟩ ⟨isSameModel', id'⟩ hmem hmem' ⟨hne, hcandidates⟩
      rw [Function.comp_apply, Function.comp_apply]
      cases isSameModel with
      | true =>
        rw [hown id (hkept hmem)]
        cases isSameModel' with
        | true => rwa [hown id' (hkept hmem')]
        | false =>
          rw [hforeign id' (hkept hmem')]
          exact (hapart id' id hmem' hmem).symm
      | false =>
        rw [hforeign id (hkept hmem)]
        cases isSameModel' with
        | true =>
          rw [hown id' (hkept hmem')]
          exact hapart id id' hmem hmem'
        | false =>
          rw [hforeign id' (hkept hmem')]
          exact hcandidates rfl rfl
  rw [hnodup, ← hformat]
  have hanswered : ∀ id ∈ callIds messages, answered wire id = wire id := fun id hid =>
    if_pos (hne id hid)
  constructor
  · rintro ⟨hapart, hcalls, hgiven, -⟩
    refine ⟨fun id hid hout => ?_, hapart⟩
    rcases hout with hout | hout
    · exact hcalls id hout
    · rw [← hanswered id hid]
      exact hgiven id hout
  · rintro ⟨hcalls, hapart⟩
    refine ⟨hapart, fun id hid => hcalls id (mem_callIds_of_kept hid) (.inl hid), fun id hid => ?_,
      fun id hid _ => hne id (h.mem_of_given hid)⟩
    rw [hanswered id (h.mem_of_given hid)]
    exact hcalls id (h.mem_of_given hid) (.inr hid)

/-- **Mistral** holds its side when each call of another model comes to a candidate
that is free, of nine characters where it goes out, and no id that goes out unchanged. -/
theorem mistral_iff {messages : List IdMessage}
    (h : WellNamed Converter.mistralConversations.Format messages) :
    (∃ fuel request wire,
        transformMessages (createMistralToolCallIdNormalizer fuel) {} messages = some request ∧
        Carries Converter.mistralConversations.Format messages request wire) ↔
      ∃ attempts, FirstFree attempts [] (allCalls messages) ∧
        (∀ id, (false, id) ∈ allCalls messages → id ∈ keptIds messages ∨ id ∈ givenIds messages →
          (candidateAt attempts id).length = 9) ∧
        ∀ id own, (false, id) ∈ keptCalls messages → (true, own) ∈ keptCalls messages →
          candidateAt attempts id ≠ own := by
  have hdistinct : ((allCalls messages).map Prod.snd).Nodup := by
    rw [← callIds_eq_allCalls]
    exact h.distinct
  have hnonempty : ∀ call ∈ allCalls messages, call.2 ≠ [] := fun call hcall =>
    h.nonempty _ (by rw [callIds_eq_allCalls]; exact mem_map_of_mem hcall)
  constructor
  · rintro ⟨fuel, request, wire, hrequest, hcarries⟩
    have hsome : (outgoing (createMistralToolCallIdNormalizer fuel) {} (allCalls messages)).isSome := by
      obtain ⟨transformed, hfirst, -⟩ := Option.map_eq_some_iff.mp hrequest
      have hpass := @firstPass_isSome _ (createMistralToolCallIdNormalizer fuel) messages
        ⟨{}, .empty⟩
      rw [hfirst] at hpass
      exact hpass.symm
    obtain ⟨⟨last, out⟩, hout⟩ := Option.isSome_iff_exists.mp hsome
    obtain ⟨attempts, hfirst, rfl⟩ :=
      firstFree_of_outgoing MistralIds.owns_start hdistinct hnonempty hout
    obtain ⟨wire', hwire⟩ := exists_written h (candidateAt attempts)
    exact ⟨attempts, hfirst, (mistral_of_firstFree h hfirst hwire).mp
      ((written_iff h hout hwire).mp ⟨request, wire, hrequest, hcarries⟩)⟩
  · rintro ⟨attempts, hfirst, hcondition⟩
    obtain ⟨bound, hbound⟩ := outgoing_of_firstFree MistralIds.owns_start hdistinct hnonempty hfirst
    obtain ⟨last, hout⟩ := hbound bound le_rfl
    obtain ⟨wire, hwire⟩ := exists_written h (candidateAt attempts)
    exact ⟨bound, (written_iff h hout hwire).mpr
      ((mistral_of_firstFree h hfirst hwire).mpr hcondition)⟩

/-! ## The three converters -/

/-- What a converter needs of the ids: Anthropic, that no two that go out are alike; Chat
Completions, that they are spelled apart and a call `|` has no result; Mistral, that another
model's calls come to candidates of nine characters beside the ids left as they are. -/
def Converter.Separates (messages : List IdMessage) : Converter → Prop
  | anthropicMessages => (keptIds messages).Pairwise (¬ Alike · ·)
  | openaiCompletions =>
    (keptCalls messages).Pairwise (fun a b => spelled a ≠ spelled b) ∧
      ∀ id ∈ givenIds messages, (false, id) ∈ keptCalls messages → id ≠ [pipe]
  | mistralConversations =>
    ∃ attempts, FirstFree attempts [] (allCalls messages) ∧
      (∀ id, (false, id) ∈ allCalls messages → id ∈ keptIds messages ∨ id ∈ givenIds messages →
        (candidateAt attempts id).length = 9) ∧
      ∀ id own, (false, id) ∈ keptCalls messages → (true, own) ∈ keptCalls messages →
        candidateAt attempts id ≠ own

/-- **Converted ids**: the calls of the request have distinct ids of the provider's
format and every result has that of its call, exactly when the converter separates them. -/
theorem convertedIds_iff (converter : Converter) {messages : List IdMessage}
    (h : WellNamed converter.Format messages) :
    (∃ fuel request wire, converter.transformMessages fuel messages = some request ∧
        Carries converter.Format messages request wire) ↔ converter.Separates messages := by
  cases converter with
  | anthropicMessages =>
    refine Iff.trans ⟨?_, fun hcarried => ⟨0, hcarried⟩⟩ (anthropic_iff h)
    exact fun ⟨_, hcarried⟩ => hcarried
  | openaiCompletions =>
    refine Iff.trans ⟨?_, fun hcarried => ⟨0, hcarried⟩⟩ (completions_iff h)
    exact fun ⟨_, hcarried⟩ => hcarried
  | mistralConversations => exact mistral_iff h

/-- A turn of another model with one call of two, and its result. -/
def answeredCalls : List IdMessage :=
  [.user, .assistant ⟨false, false, [[0x61, 0x2E], [0x62]]⟩, .toolResult [0x62] true]

theorem convertedIds_iff_sample :
    (∃ fuel request wire,
        Converter.anthropicMessages.transformMessages fuel answeredCalls = some request ∧
        Carries Converter.anthropicMessages.Format answeredCalls request wire) ↔
      Converter.anthropicMessages.Separates answeredCalls :=
  convertedIds_iff .anthropicMessages
    { nonempty := by decide
      distinct := by decide
      formatted := fun call hcall hown =>
        absurd hown (by revert call; decide)
      named := by simp [answeredCalls, Named]
      given := rfl }

/-- A turn of another model with the calls `a.b` and `a_b`. -/
def meetingCalls : List IdMessage :=
  [.assistant ⟨false, false, [[0x61, 0x2E, 0x62], [0x61, 0x5F, 0x62]]⟩]

theorem meetingCalls_meet :
    WellNamed Converter.anthropicMessages.Format meetingCalls ∧
      ¬ ∃ fuel request wire,
        Converter.anthropicMessages.transformMessages fuel meetingCalls = some request ∧
        Carries Converter.anthropicMessages.Format meetingCalls request wire := by
  have hnamed : WellNamed Converter.anthropicMessages.Format meetingCalls :=
    { nonempty := by decide
      distinct := by decide
      formatted := fun call hcall hown => absurd hown (by revert call; decide)
      named := by simp [meetingCalls, Named]
      given := rfl }
  refine ⟨hnamed, fun ⟨_, hcarried⟩ => ?_⟩
  have hapart := (anthropic_iff hnamed).mp hcarried
  refine (List.pairwise_cons.mp hapart).1 _ (List.mem_singleton.mpr rfl) ?_
  rw [← anthropicId_eq_iff]
  decide

end ReflectivePi.Requests.Ids
