import ReflectivePi.Delta.Codec
import ReflectivePi.Services.Types

/-!
# Services — StateCodec

The wire codecs of one service subscription: a registry of one
path-interning codec per live state, on either side. The two registries
stay in lockstep because every event that makes, resets or drops a codec
on one side does so on the other; `Lockstep` says what that means and
`Live` follows which states there are.
-/

namespace ReflectivePi.Services

open List Delta

/-! ## Registries -/

inductive StateCodecError where
  | duplicate (key : StateKey)
  | unknown (key : StateKey)
  | delta (e : DeltaError)

/-- A codec as the registry uses it: how one is made, and one batch through
it. -/
structure StateCodec (C ω ω' : Type) where
  create : C
  run : C → ω → Except DeltaError (C × ω')

def encoderCodec : StateCodec Encoder (List Op) (List Json) :=
  ⟨.new, fun s ops => .ok (encode s ops)⟩

def decoderCodec : StateCodec Decoder (List Json) (List Op) :=
  ⟨.new, decode⟩

/-- One codec per state. -/
abbrev StateCodecRegistry (C : Type) := InsertionMap StateKey C

def removeInstance {C : Type} (codecs : StateCodecRegistry C)
    (address : ServiceInstanceAddress) : StateCodecRegistry C where
  entries := codecs.entries.filter fun p => decide (p.1.1 ≠ some address)
  nodup := codecs.nodup.sublist (List.filter_sublist.map Prod.fst)

section Conversion

variable {C ω ω' : Type} (codec : StateCodec C ω ω')

/-- `codecs.get(…)`, then the batch through it. -/
def runState (codecs : StateCodecRegistry C) (key : StateKey) (ops : ω) :
    Except StateCodecError (StateCodecRegistry C × ω') :=
  match codecs.get? key with
  | none => .error (.unknown key)
  | some c =>
    match codec.run c ops with
    | .error e => .error (.delta e)
    | .ok (c, ops) => .ok (codecs.set key c, ops)

/-- `codecs.add(…)`, then the batch through the new codec. -/
def addState (codecs : StateCodecRegistry C) (key : StateKey) (ops : ω) :
    Except StateCodecError (StateCodecRegistry C × ω') :=
  if codecs.has key then .error (.duplicate key)
  else
    match codec.run codec.create ops with
    | .error e => .error (.delta e)
    | .ok (c, ops) => .ok (codecs.set key c, ops)

def convertMembers (address : Option ServiceInstanceAddress) :
    StateCodecRegistry C → List (ServiceMemberSnapshot ω) →
      Except StateCodecError (StateCodecRegistry C × List (ServiceMemberSnapshot ω'))
  | codecs, [] => .ok (codecs, [])
  | codecs, .method name :: members => do
    let (codecs, members) ← convertMembers address codecs members
    .ok (codecs, .method name :: members)
  | codecs, .state name sequence ops :: members => do
    let (codecs, ops) ← addState codec codecs (address, name) ops
    let (codecs, members) ← convertMembers address codecs members
    .ok (codecs, .state name sequence ops :: members)

def convertInstance (codecs : StateCodecRegistry C) (snapshot : ServiceInstanceSnapshot ω) :
    Except StateCodecError
      (StateCodecRegistry C × ServiceInstanceSnapshot ω') := do
  let (codecs, members) ← convertMembers codec snapshot.address codecs snapshot.members
  .ok (codecs, ⟨snapshot.address, members⟩)

def convertInstances :
    StateCodecRegistry C → List (ServiceInstanceSnapshot ω) →
      Except StateCodecError (StateCodecRegistry C × List (ServiceInstanceSnapshot ω'))
  | codecs, [] => .ok (codecs, [])
  | codecs, snapshot :: snapshots => do
    let (codecs, snapshot) ← convertInstance codec codecs snapshot
    let (codecs, snapshots) ← convertInstances codecs snapshots
    .ok (codecs, snapshot :: snapshots)

def convertSnapshot (_ : StateCodecRegistry C) (snapshot : ServiceSubscriptionSnapshot ω) :
    Except StateCodecError
      (StateCodecRegistry C × ServiceSubscriptionSnapshot ω') := do
  -- `codecs.reset()`
  let (codecs, instances) ← convertInstances codec .empty snapshot.instances
  .ok (codecs, ⟨snapshot.serviceId, snapshot.mode, instances⟩)

def convertUpdate (codecs : StateCodecRegistry C) :
    ServiceProviderUpdate ω → Except StateCodecError
      (StateCodecRegistry C × ServiceProviderUpdate ω')
  | .state address member sequence ops => do
    let (codecs, ops) ← runState codec codecs (address, member) ops
    .ok (codecs, .state address member sequence ops)
  | .replaced snapshot => do
    let (codecs, snapshot) ← convertInstance codec .empty snapshot
    .ok (codecs, .replaced snapshot)
  | .spawned snapshot => do
    let (codecs, snapshot) ← convertInstance codec codecs snapshot
    .ok (codecs, .spawned snapshot)
  | .unavailable => .ok (.empty, .unavailable)
  | .closed address => .ok (removeInstance codecs address, .closed address)

/-- Updates in order with one registry. -/
def convertUpdates : StateCodecRegistry C → List (ServiceProviderUpdate ω) →
    Except StateCodecError (StateCodecRegistry C × List (ServiceProviderUpdate ω'))
  | codecs, [] => .ok (codecs, [])
  | codecs, update :: updates => do
    let (codecs, update) ← convertUpdate codec codecs update
    let (codecs, updates) ← convertUpdates codecs updates
    .ok (codecs, update :: updates)

end Conversion

def encodeInstance := convertInstance encoderCodec
def decodeInstance := convertInstance decoderCodec
def encodeSnapshot := convertSnapshot encoderCodec
def decodeSnapshot := convertSnapshot decoderCodec
def encodeUpdate := convertUpdate encoderCodec
def decodeUpdate := convertUpdate decoderCodec
def encodeUpdates := convertUpdates encoderCodec
def decodeUpdates := convertUpdates decoderCodec

/-! ## Valid streams -/

/-- The states that are live. -/
abbrev Live := StateKey → Prop

def Live.none : Live := fun _ => False

def Live.insert (live : Live) (key : StateKey) : Live :=
  fun x => live x ∨ x = key

/-- The instance's states are new, and named once. -/
def ValidInstance (live : Live)
    (snapshot : ServiceInstanceSnapshot (List Op)) : Prop :=
  snapshot.stateKeys.Nodup ∧ (∀ key ∈ snapshot.stateKeys, ¬ live key) ∧
    ∀ ops ∈ snapshot.batches, ∀ op ∈ ops, op.Valid

def Live.add (live : Live) (snapshot : ServiceInstanceSnapshot (List Op)) : Live :=
  fun key => live key ∨ key ∈ snapshot.stateKeys

def ValidInstances (live : Live) :
    List (ServiceInstanceSnapshot (List Op)) → Prop
  | [] => True
  | snapshot :: snapshots =>
    ValidInstance live snapshot ∧ ValidInstances (live.add snapshot) snapshots

def Live.addAll (live : Live)
    (snapshots : List (ServiceInstanceSnapshot (List Op))) : Live :=
  snapshots.foldl Live.add live

/-- An update of a live state, or a life cycle event that starts new
ones. -/
def ValidUpdate (live : Live) : ServiceProviderUpdate (List Op) → Prop
  | .state address member _ ops =>
    live (address, member) ∧ ∀ op ∈ ops, op.Valid
  | .replaced snapshot => ValidInstance .none snapshot
  | .spawned snapshot => ValidInstance live snapshot
  | .unavailable => True
  | .closed _ => True

def Live.after (live : Live) : ServiceProviderUpdate (List Op) → Live
  | .state .. => live
  | .replaced snapshot => Live.none.add snapshot
  | .spawned snapshot => live.add snapshot
  | .unavailable => .none
  | .closed address => fun key => live key ∧ key.1 ≠ some address

def ValidUpdates (live : Live) : List (ServiceProviderUpdate (List Op)) → Prop
  | [] => True
  | update :: updates =>
    ValidUpdate live update ∧ ValidUpdates (live.after update) updates

/-- A snapshot and the updates that may follow it. -/
structure ValidStream (snapshot : ServiceSubscriptionSnapshot (List Op))
    (updates : List (ServiceProviderUpdate (List Op))) : Prop where
  instances : ValidInstances .none snapshot.instances
  following : ValidUpdates (Live.none.addAll snapshot.instances) updates

/-! ## Lockstep -/

/-- Both sides have a codec for exactly the live states, and the two of one
state share a dictionary. -/
structure Lockstep (live : Live) (encoders : StateCodecRegistry Encoder)
    (decoders : StateCodecRegistry Decoder) : Prop where
  paired : ∀ key, live key → ∃ s paths, encoders.get? key = some s ∧
    decoders.get? key = some paths ∧ DictionarySynced s paths
  fresh : ∀ key, ¬ live key → encoders.get? key = none ∧ decoders.get? key = none

theorem Lockstep.empty : Lockstep .none .empty .empty :=
  ⟨fun _ h => h.elim, fun _ _ => ⟨rfl, rfl⟩⟩

@[simp] theorem get?_removeInstance {C : Type}
    (codecs : StateCodecRegistry C) (address : ServiceInstanceAddress) (key : StateKey) :
    (removeInstance codecs address).get? key
      = if key.1 ≠ some address then codecs.get? key else none := by
  have h := InsertionMap.findEntry_filter_key
    (fun key : StateKey => decide (key.1 ≠ some address)) key codecs.entries
  simp only [decide_eq_true_eq] at h
  exact h

variable {encoders : StateCodecRegistry Encoder} {decoders : StateCodecRegistry Decoder}
    {live : Live}

theorem Lockstep.removeInstance (h : Lockstep live encoders decoders)
    (address : ServiceInstanceAddress) :
    Lockstep (fun key => live key ∧ key.1 ≠ some address)
      (removeInstance encoders address) (removeInstance decoders address) := by
  constructor
  · rintro key ⟨hlive, hne⟩
    obtain ⟨s, paths, hs, hp, hsync⟩ := h.paired key hlive
    refine ⟨s, paths, ?_, ?_, hsync⟩
    · rw [get?_removeInstance, if_pos hne, hs]
    · rw [get?_removeInstance, if_pos hne, hp]
  · intro key hnot
    rw [get?_removeInstance, get?_removeInstance]
    by_cases hne : key.1 ≠ some address
    · rw [if_pos hne, if_pos hne]
      exact h.fresh key (fun hlive => hnot ⟨hlive, hne⟩)
    · rw [if_neg hne, if_neg hne]
      exact ⟨rfl, rfl⟩

theorem Lockstep.set {live live' : Live} {key : StateKey} {s : Encoder} {paths : Decoder}
    (h : Lockstep live encoders decoders) (hsync : DictionarySynced s paths)
    (hlive : ∀ x, live' x ↔ live x ∨ x = key) :
    Lockstep live' (encoders.set key s) (decoders.set key paths) := by
  constructor
  · intro x hx
    simp only [InsertionMap.get?_set]
    by_cases heq : key = x
    · exact ⟨s, paths, if_pos heq, if_pos heq, hsync⟩
    · rw [if_neg heq, if_neg heq]
      exact h.paired x (((hlive x).mp hx).resolve_right (fun e => heq e.symm))
  · intro x hx
    have hnot : ¬ live x ∧ x ≠ key := by
      rw [hlive x, not_or] at hx
      exact hx
    simp only [InsertionMap.get?_set, if_neg (Ne.symm hnot.2)]
    exact h.fresh x hnot.1

theorem runState_lockstep {key : StateKey} {ops : List Op}
    (h : Lockstep live encoders decoders) (hkey : live key) (hops : ∀ op ∈ ops, op.Valid) :
    ∃ encoders' decoders' wire, runState encoderCodec encoders key ops = .ok (encoders', wire) ∧
      runState decoderCodec decoders key wire = .ok (decoders', ops) ∧
      Lockstep live encoders' decoders' := by
  obtain ⟨s, paths, hs, hp, hsync⟩ := h.paired key hkey
  obtain ⟨paths', hd, hsync'⟩ := decode_encode hsync hops
  have hsame : ∀ x, live x ↔ live x ∨ x = key :=
    fun x => ⟨Or.inl, fun hx => hx.elim id (fun e => e ▸ hkey)⟩
  refine ⟨encoders.set key (encode s ops).1, decoders.set key paths',
    (encode s ops).2, ?_, ?_, h.set hsync' hsame⟩
  · simp only [runState, hs, encoderCodec]
  · simp only [runState, hp, decoderCodec, hd]

theorem addState_lockstep {key : StateKey} {ops : List Op}
    (h : Lockstep live encoders decoders) (hkey : ¬ live key) (hops : ∀ op ∈ ops, op.Valid) :
    ∃ encoders' decoders' wire, addState encoderCodec encoders key ops = .ok (encoders', wire) ∧
      addState decoderCodec decoders key wire = .ok (decoders', ops) ∧
      Lockstep (live.insert key) encoders' decoders' := by
  obtain ⟨hs, hp⟩ := h.fresh key hkey
  obtain ⟨paths', hd, hsync'⟩ := decode_encode DictionarySynced.new hops
  refine ⟨encoders.set key (encode .new ops).1, decoders.set key paths',
    (encode .new ops).2, ?_, ?_, h.set hsync' (fun _ => Iff.rfl)⟩
  · simp only [addState, InsertionMap.has, hs, encoderCodec,
      Option.isSome_none, Bool.false_eq_true, if_false]
  · simp only [addState, InsertionMap.has, hp, decoderCodec,
      Option.isSome_none, Bool.false_eq_true, if_false, hd]

/-- The members of an instance cross, in order. -/
theorem convertMembers_lockstep {address : Option ServiceInstanceAddress}
    {live live' : Live} {members : List (ServiceMemberSnapshot (List Op))}
    (h : Lockstep live encoders decoders) (hvalid : ValidInstance live ⟨address, members⟩)
    (hlive : ∀ x, live' x ↔ live.add ⟨address, members⟩ x) :
    ∃ encoders' decoders' wire, convertMembers encoderCodec address encoders members
        = .ok (encoders', wire) ∧
      convertMembers decoderCodec address decoders wire = .ok (decoders', members) ∧
      Lockstep live' encoders' decoders' := by
  induction members generalizing live encoders decoders with
  | nil =>
    obtain rfl : live' = live := by
      funext x
      exact propext ((hlive x).trans (by
        simp [Live.add, ServiceInstanceSnapshot.stateKeys]))
    exact ⟨encoders, decoders, [], rfl, rfl, h⟩
  | cons member members ih =>
    obtain ⟨hnd, hnew, hops⟩ := hvalid
    cases member with
    | method name =>
      obtain ⟨encoders', decoders', wire, he, hd, hl⟩ := ih h ⟨hnd, hnew, hops⟩ hlive
      refine ⟨encoders', decoders', .method name :: wire, ?_, ?_, hl⟩
      · simp only [convertMembers, he]
        rfl
      · simp only [convertMembers, hd]
        rfl
    | state name sequence ops =>
      -- the head's key is new, and the tail's keys differ from it
      obtain ⟨hhead, htail⟩ := List.nodup_cons.mp hnd
      obtain ⟨encoders₁, decoders₁, wireOps, he₁, hd₁, hl₁⟩ :=
        addState_lockstep h (hnew _ mem_cons_self) (hops ops mem_cons_self)
      have hrest : ValidInstance (live.insert (address, name))
          ⟨address, members⟩ := by
        refine ⟨htail, ?_, fun o ho => hops o (mem_cons_of_mem _ ho)⟩
        rintro key hkey (hl | rfl)
        · exact hnew key (mem_cons_of_mem _ hkey) hl
        · exact hhead hkey
      have hsplit : ∀ x, live' x ↔ (live.insert (address, name)).add ⟨address, members⟩ x := by
        intro x
        refine (hlive x).trans ?_
        show live x ∨ x ∈ (address, name) :: _ ↔ _
        rw [mem_cons, ← or_assoc]
        rfl
      obtain ⟨encoders', decoders', wire, he, hd, hl⟩ := ih hl₁ hrest hsplit
      refine ⟨encoders', decoders', .state name sequence wireOps :: wire, ?_, ?_, hl⟩
      · simp only [convertMembers, he₁, he, bind, Except.bind]
      · simp only [convertMembers, hd₁, hd, bind, Except.bind]

theorem convertInstance_lockstep {snapshot : ServiceInstanceSnapshot (List Op)}
    (h : Lockstep live encoders decoders) (hvalid : ValidInstance live snapshot) :
    ∃ encoders' decoders' wire, encodeInstance encoders snapshot = .ok (encoders', wire) ∧
      decodeInstance decoders wire = .ok (decoders', snapshot) ∧
      Lockstep (live.add snapshot) encoders' decoders' := by
  obtain ⟨encoders', decoders', wire, he, hd, hl⟩ :=
    convertMembers_lockstep h hvalid (fun _ => Iff.rfl)
  refine ⟨encoders', decoders', ⟨snapshot.address, wire⟩, ?_, ?_, hl⟩
  · simp only [encodeInstance, convertInstance, he, bind, Except.bind]
  · simp only [decodeInstance, convertInstance, hd, bind, Except.bind]

theorem convertInstances_lockstep {snapshots : List (ServiceInstanceSnapshot (List Op))}
    (h : Lockstep live encoders decoders) (hvalid : ValidInstances live snapshots) :
    ∃ encoders' decoders' wire, convertInstances encoderCodec encoders snapshots
        = .ok (encoders', wire) ∧
      convertInstances decoderCodec decoders wire = .ok (decoders', snapshots) ∧
      Lockstep (live.addAll snapshots) encoders' decoders' := by
  induction snapshots generalizing live encoders decoders with
  | nil => exact ⟨encoders, decoders, [], rfl, rfl, h⟩
  | cons snapshot snapshots ih =>
    obtain ⟨encoders₁, decoders₁, wire₁, he₁, hd₁, hl₁⟩ := convertInstance_lockstep h hvalid.1
    obtain ⟨encoders', decoders', wire, he, hd, hl⟩ := ih hl₁ hvalid.2
    refine ⟨encoders', decoders', wire₁ :: wire, ?_, ?_, hl⟩
    · unfold encodeInstance at he₁
      simp only [convertInstances, he₁, he, bind, Except.bind]
    · unfold decodeInstance at hd₁
      simp only [convertInstances, hd₁, hd, bind, Except.bind]

/-- One update crosses, and both sides make, reset or drop the same
codecs. -/
theorem convertUpdate_lockstep {update : ServiceProviderUpdate (List Op)}
    (h : Lockstep live encoders decoders) (hvalid : ValidUpdate live update) :
    ∃ encoders' decoders' wire, encodeUpdate encoders update = .ok (encoders', wire) ∧
      decodeUpdate decoders wire = .ok (decoders', update) ∧
      Lockstep (live.after update) encoders' decoders' := by
  cases update with
  | state address member sequence ops =>
    obtain ⟨encoders', decoders', wire, he, hd, hl⟩ := runState_lockstep h hvalid.1 hvalid.2
    refine ⟨encoders', decoders', .state address member sequence wire, ?_, ?_, hl⟩
    · simp only [encodeUpdate, convertUpdate, he, bind, Except.bind]
    · simp only [decodeUpdate, convertUpdate, hd, bind, Except.bind]
  | unavailable => exact ⟨.empty, .empty, .unavailable, rfl, rfl, .empty⟩
  | replaced snapshot =>
    obtain ⟨encoders', decoders', wire, he, hd, hl⟩ :=
      convertInstance_lockstep Lockstep.empty hvalid
    unfold encodeInstance at he
    unfold decodeInstance at hd
    refine ⟨encoders', decoders', .replaced wire, ?_, ?_, hl⟩
    · simp only [encodeUpdate, convertUpdate, he, bind, Except.bind]
    · simp only [decodeUpdate, convertUpdate, hd, bind, Except.bind]
  | spawned snapshot =>
    obtain ⟨encoders', decoders', wire, he, hd, hl⟩ := convertInstance_lockstep h hvalid
    unfold encodeInstance at he
    unfold decodeInstance at hd
    refine ⟨encoders', decoders', .spawned wire, ?_, ?_, hl⟩
    · simp only [encodeUpdate, convertUpdate, he, bind, Except.bind]
    · simp only [decodeUpdate, convertUpdate, hd, bind, Except.bind]
  | closed address =>
    exact ⟨_, _, .closed address, rfl, rfl, h.removeInstance address⟩

theorem convertUpdates_lockstep {updates : List (ServiceProviderUpdate (List Op))}
    (h : Lockstep live encoders decoders) (hvalid : ValidUpdates live updates) :
    ∃ encoders' decoders' wires, encodeUpdates encoders updates = .ok (encoders', wires) ∧
      decodeUpdates decoders wires = .ok (decoders', updates) := by
  induction updates generalizing live encoders decoders with
  | nil => exact ⟨encoders, decoders, [], rfl, rfl⟩
  | cons update updates ih =>
    obtain ⟨encoders₁, decoders₁, wire, he₁, hd₁, hl⟩ := convertUpdate_lockstep h hvalid.1
    obtain ⟨encoders', decoders', wires, he, hd⟩ := ih hl hvalid.2
    unfold encodeUpdate at he₁
    unfold decodeUpdate at hd₁
    unfold encodeUpdates at he
    unfold decodeUpdates at hd
    refine ⟨encoders', decoders', wire :: wires, ?_, ?_⟩
    · simp only [encodeUpdates, convertUpdates, he₁, he, bind, Except.bind]
    · simp only [decodeUpdates, convertUpdates, hd₁, hd, bind, Except.bind]

/-- **A snapshot and the updates after it cross the wire unchanged**,
whatever the two registries held before. -/
theorem stateCodecs_lockstep (snapshot : ServiceSubscriptionSnapshot (List Op))
    (updates : List (ServiceProviderUpdate (List Op))) (encoders₀ : StateCodecRegistry Encoder)
    (decoders₀ : StateCodecRegistry Decoder) (hvalid : ValidStream snapshot updates) :
    ∃ encoders wireSnapshot encoders' wireUpdates,
      encodeSnapshot encoders₀ snapshot = .ok (encoders, wireSnapshot) ∧
      encodeUpdates encoders updates = .ok (encoders', wireUpdates) ∧
      ∃ decoders decoders', decodeSnapshot decoders₀ wireSnapshot = .ok (decoders, snapshot) ∧
        decodeUpdates decoders wireUpdates = .ok (decoders', updates) := by
  obtain ⟨encoders, decoders, wire, he, hd, hl⟩ :=
    convertInstances_lockstep Lockstep.empty hvalid.instances
  obtain ⟨encoders', decoders', wires, he', hd'⟩ := convertUpdates_lockstep hl hvalid.following
  refine ⟨encoders, ⟨snapshot.serviceId, snapshot.mode, wire⟩, encoders',
    wires, ?_, he', decoders, decoders', ?_, hd'⟩
  · simp only [encodeSnapshot, convertSnapshot, he, bind, Except.bind]
  · simp only [decodeSnapshot, convertSnapshot, hd, bind, Except.bind]

/-- One life of the key `a`: a method and a state. -/
def sampleInstance (generation : Nat) : ServiceInstanceSnapshot (List Op) :=
  ⟨some ⟨"a", generation⟩, [.method "run", .state "view" 0 [.replace (.obj [])]]⟩

def sampleSnapshot : ServiceSubscriptionSnapshot (List Op) :=
  ⟨"service", .keyed, [sampleInstance 1]⟩

/-- The key is closed and respawned, and its state updated in both lives. -/
def sampleUpdates : List (ServiceProviderUpdate (List Op)) :=
  let set : Op := .edit [.key (js "text")] (.set .null)
  [.state (some ⟨"a", 1⟩) "view" 1 [set, set], .closed ⟨"a", 1⟩, .spawned (sampleInstance 2),
    .state (some ⟨"a", 2⟩) "view" 1 [set]]

theorem stateCodecs_lockstep_sample :
    ∃ encoders wireSnapshot encoders' wireUpdates,
      encodeSnapshot .empty sampleSnapshot = .ok (encoders, wireSnapshot) ∧
      encodeUpdates encoders sampleUpdates = .ok (encoders', wireUpdates) ∧
      ∃ decoders decoders', decodeSnapshot .empty wireSnapshot = .ok (decoders, sampleSnapshot) ∧
        decodeUpdates decoders wireUpdates = .ok (decoders', sampleUpdates) := by
  have hops : ∀ op : Op, op = .replace (.obj []) → op.Valid := by
    rintro _ rfl
    trivial
  have hset : (Op.edit [.key (js "text")] (.set .null)).Valid := by decide
  refine stateCodecs_lockstep sampleSnapshot sampleUpdates .empty .empty
    ⟨?_, ?_⟩
  · refine ⟨⟨by decide, fun _ _ h => h, ?_⟩, trivial⟩
    simpa [sampleInstance, ServiceInstanceSnapshot.batches] using hops
  · refine ⟨⟨Or.inr (by decide), ?_⟩, trivial, ⟨by decide, ?_, ?_⟩,
      ⟨Or.inr (by decide), ?_⟩, trivial⟩
    · simpa using hset
    · rintro key hkey ⟨hlive, hne⟩
      -- the states of the first life are gone with it
      rcases hlive with h | h
      · exact h
      · obtain rfl : key = (some ⟨"a", 1⟩, "view") := List.mem_singleton.mp h
        exact hne rfl
    · simpa [sampleInstance, ServiceInstanceSnapshot.batches] using hops
    · simpa using hset

end ReflectivePi.Services
