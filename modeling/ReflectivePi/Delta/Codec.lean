import ReflectivePi.Delta.Op
import ReflectivePi.Lib.StatefulCodec

/-!
# Delta — Codec

What crosses a boundary. `encode` interns a path on its SECOND use and
drops a path that repeats the previous one's; `decode` undoes both. Wire
operations travel as plain tuples, so that which form a tuple has is
decided where the source decides it, by arity and by number against array.
-/

namespace ReflectivePi.Delta

open List StatefulCodec

/-! ## Wire operations -/

/-- A path inline, or an id assigned by the encoder on second use. -/
inductive PathRef where
  | id (n : Nat)
  | inline (path : Path)

inductive WireOp where
  | replace (value : Json)
  | define (id : Nat) (path : Path)
  /-- No reference: the previous operation's path. -/
  | edit (ref : Option PathRef) (e : Edit)

def PathRef.toJson : PathRef → Json
  | .id n => .ofNat n
  | .inline path => pathJson path

def WireOp.tuple : WireOp → Json
  | .replace value => .arr [.str (js "r"), value]
  | .define id path => .arr [.str (js "#"), .ofNat id, pathJson path]
  | .edit none e => .arr (.str e.verb :: e.payload)
  | .edit (some ref) e => .arr (.str e.verb :: ref.toJson :: e.payload)

/-- `okRef`: a number is an id, an array is a path. -/
def okRef : Json → Except DeltaError PathRef
  | .num n =>
    match natOf (.num n) with
    | some id => .ok (.id id)
    | none => .error (.type "bad path id")
  | .arr segments => do
    let path ← assertSafePath segments
    .ok (.inline path)
  | _ => .error (.type "path is not an array")

def readText : Json → Except DeltaError Edit
  | .str text => .ok (.append text)
  | _ => .error (.type "a value")

def readCount (count : Json) : Except DeltaError Edit :=
  match natOf count with
  | some count => .ok (.truncate count)
  | none => .error (.type "t count")

def readMove (permutation : Json) : Except DeltaError Edit := do
  let permutation ← assertPermutation permutation
  .ok (.move permutation)

/-- A reference, then the payload. -/
def longForm (ref : Json) (payload : Except DeltaError Edit) :
    Except DeltaError WireOp := do
  let ref ← okRef ref
  let e ← payload
  .ok (.edit (some ref) e)

/-- The payload alone. -/
def shortForm (payload : Except DeltaError Edit) :
    Except DeltaError WireOp := do
  let e ← payload
  .ok (.edit none e)

/-- The same checks for the wire grammar: ids and short forms are legal. -/
def assertValidWireOp : Json → Except DeltaError WireOp
  | .arr (.str verb :: args) =>
    if verb = js "r" then
      match args with
      | [value] => .ok (.replace value)
      | _ => .error (.type "r arity")
    else if verb = js "s" then
      match args with
      | [ref, value] => longForm ref (.ok (.set value))
      | [value] => shortForm (.ok (.set value))
      | _ => .error (.type "s arity")
    else if verb = js "d" then
      match args with
      | [ref] => longForm ref (.ok .delete)
      | [] => shortForm (.ok .delete)
      | _ => .error (.type "d arity")
    else if verb = js "a" then
      match args with
      | [ref, text] => longForm ref (readText text)
      | [text] => shortForm (readText text)
      | _ => .error (.type "a arity")
    else if verb = js "t" then
      match args with
      | [ref, count] => longForm ref (readCount count)
      | [count] => shortForm (readCount count)
      | _ => .error (.type "t arity")
    else if verb = js "p" then
      match args with
      | [ref, i, r, items] => longForm ref (readSplice i r items)
      | [i, r, items] => shortForm (readSplice i r items)
      | _ => .error (.type "p arity")
    else if verb = js "m" then
      match args with
      | [ref, permutation] => longForm ref (readMove permutation)
      | [permutation] => shortForm (readMove permutation)
      | _ => .error (.type "m arity")
    else if verb = js "#" then
      match args with
      | [id, .arr segments] =>
        match natOf id with
        | some id => do
          let path ← assertSafePath segments
          .ok (.define id path)
        | none => .error (.type "# shape")
      | _ => .error (.type "# shape")
    else .error (.unknownVerb (.str verb))
  | .arr (verb :: _) => .error (.unknownVerb verb)
  | _ => .error (.type "op is not a tuple")

/-- What `encoder()` closes over. `pathKey` is injective, so a path stands
for its own key. -/
structure Encoder where
  seen : List Path
  ids : InsertionMap Path Nat
  nextId : Nat
  previous : Option Path

def Encoder.new : Encoder := ⟨[], .empty, 0, none⟩

/-- One operation of the loop in `encode`. -/
def encodeOp (s : Encoder) : Op → Encoder × List Json
  | .replace value => (.new, [(WireOp.replace value).tuple])
  | .edit path e =>
    -- same path as the previous op: drop the ref entirely
    if some path = s.previous then (s, [(WireOp.edit none e).tuple])
    else
      match s.ids.get? path with
      | some id =>
        ({ s with previous := some path }, [(WireOp.edit (some (.id id)) e).tuple])
      | none =>
        if path ∈ s.seen then
          -- second use: define, then reference
          ({ s with
              ids := s.ids.set path s.nextId
              nextId := s.nextId + 1
              previous := some path }, [(WireOp.define s.nextId path).tuple,
              (WireOp.edit (some (.id s.nextId)) e).tuple])
        else
          ({ s with seen := path :: s.seen, previous := some path },
            [(WireOp.edit (some (.inline path)) e).tuple])

/-- `encode`: arity omission is scoped to a batch. -/
def encode (s : Encoder) (ops : List Op) : Encoder × List Json :=
  encodeRun encodeOp { s with previous := none } ops

/-! ## The decoder -/

/-- What `decoder()` closes over. -/
abbrev Decoder := InsertionMap Nat Path

def Decoder.new : Decoder := .empty

/-- The variables of one call of `decode`. -/
structure Decoding where
  paths : Decoder
  previous : Option Path

/-- The path of an operation that carries one. -/
def resolveRef (d : Decoding) : Option PathRef → Except DeltaError Path
  | none =>
    match d.previous with
    | some path => .ok path
    | none => .error (.path [])
  | some (.id id) =>
    match d.paths.get? id with
    | some path => .ok path
    | none => .error (.pathId id)
  | some (.inline path) => .ok path

/-- One operation of the loop in `decode`. -/
def decodeOp (d : Decoding) (wire : Json) :
    Except DeltaError (Decoding × List Op) := do
  match ← assertValidWireOp wire with
  | .define id path => .ok ({ d with paths := d.paths.set id path }, [])
  | .replace value => .ok (⟨.new, none⟩, [.replace value])
  | .edit ref e =>
    let path ← resolveRef d ref
    if !e.mayTargetRoot && path.isEmpty then .error (.path path)
    else .ok ({ d with previous := some path }, [.edit path e])

def decode (paths : Decoder) (wire : List Json) :
    Except DeltaError (Decoder × List Op) := do
  let (d, ops) ← decodeRun decodeOp ⟨paths, none⟩ wire
  .ok (d.paths, ops)

def encodeAll (s : Encoder) (batches : List (List Op)) : Encoder × List (List Json) :=
  encodeRun (fun s ops => ((encode s ops).1, [(encode s ops).2])) s batches

def decodeAll (paths : Decoder) (wires : List (List Json)) :
    Except DeltaError (Decoder × List (List Op)) :=
  decodeRun (fun paths wire => do
    let (paths, ops) ← decode paths wire
    .ok (paths, [ops])) paths wires

/-! ## Tuples are read as what they were written from -/

variable {path : Path} {e : Edit} {ops : List Op}

theorem okRef_pathJson (h : SafePath path) : okRef (pathJson path) = .ok (.inline path) := by
  show (do let path ← assertSafePath (path.map Seg.toJson)
           .ok (PathRef.inline path)) = _
  rw [assertSafePath_toJson h]
  rfl

theorem okRef_ofNat (id : Nat) : okRef (.ofNat id) = .ok (.id id) := by
  rfl

theorem readMove_ofNat {permutation : List Nat} (h : IsPermutation permutation) :
    readMove (.arr (permutation.map Json.ofNat)) = .ok (.move permutation) := by
  simp only [readMove, assertPermutation_ofNat h]
  rfl

theorem readCount_ofNat (count : Nat) : readCount (.ofNat count) = .ok (.truncate count) := by
  simp [readCount]

theorem assertValidWireOp_long (he : e.Valid) (ref : PathRef) (href : okRef ref.toJson = .ok ref) :
    assertValidWireOp (WireOp.edit (some ref) e).tuple = .ok (.edit (some ref) e) := by
  have hlong : ∀ payload, payload = .ok e →
      longForm ref.toJson payload = .ok (.edit (some ref) e) := by
    rintro _ rfl
    simp only [longForm, href]
    rfl
  cases e with
  | truncate count => exact hlong _ (readCount_ofNat count)
  | splice index remove items =>
    exact hlong _ (readSplice_ofNat index remove items)
  | move permutation => exact hlong _ (readMove_ofNat he)
  | _ => exact hlong _ rfl

theorem assertValidWireOp_short (he : e.Valid) :
    assertValidWireOp (WireOp.edit none e).tuple = .ok (.edit none e) := by
  have hshort : ∀ payload, payload = .ok e → shortForm payload = .ok (.edit none e) := by
    rintro _ rfl
    rfl
  cases e with
  | truncate count => rfl
  | splice index remove items =>
    rfl
  | move permutation => exact hshort _ (readMove_ofNat he)
  | _ => exact hshort _ rfl

theorem assertValidWireOp_define (id : Nat) (h : SafePath path) :
    assertValidWireOp (WireOp.define id path).tuple = .ok (.define id path) := by
  show (match natOf (.ofNat id) with
    | some id => do
      let path ← assertSafePath (path.map Seg.toJson)
      .ok (WireOp.define id path)
    | none => .error (.type "# shape")) = _
  rw [natOf_ofNat, assertSafePath_toJson h]
  rfl

/-! ## One operation -/

/-- Every id the encoder has given out names the same path on the other
side, and ids not given out yet are free. -/
structure DictionarySynced (s : Encoder) (paths : Decoder) : Prop where
  ids : ∀ path id, s.ids.get? path = some id → id < s.nextId ∧ paths.get? id = some path

/-- Within a batch the two sides also agree on the previous path. -/
structure Synced (s : Encoder) (d : Decoding) : Prop
    extends DictionarySynced s d.paths where
  previous : s.previous = d.previous

theorem DictionarySynced.new : DictionarySynced .new .new :=
  ⟨fun _ _ h => by cases h⟩

variable {paths : Decoder} {s : Encoder}

theorem DictionarySynced.batch (h : DictionarySynced s paths) :
    Synced { s with previous := none } ⟨paths, none⟩ :=
  ⟨⟨h.ids⟩, rfl⟩

theorem DictionarySynced.define (h : DictionarySynced s paths) (path : Path) :
    DictionarySynced { s with ids := s.ids.set path s.nextId, nextId := s.nextId + 1 }
      (paths.set s.nextId path) := by
  refine ⟨fun p id hp => ?_⟩
  simp only [InsertionMap.get?_set] at hp ⊢
  by_cases heq : path = p
  · subst heq
    rw [if_pos rfl] at hp
    obtain rfl := Option.some.inj hp
    simp
  · rw [if_neg heq] at hp
    obtain ⟨hlt, hget⟩ := h.ids p id hp
    refine ⟨Nat.lt_succ_of_lt hlt, ?_⟩
    rw [if_neg (Nat.ne_of_gt hlt), hget]

theorem decodeOp_edit {d : Decoding}
    {ref : Option PathRef} (hroot : path = [] → e.mayTargetRoot = true)
    (htuple : assertValidWireOp (WireOp.edit ref e).tuple = .ok (.edit ref e))
    (href : resolveRef d ref = .ok path) :
    decodeRun decodeOp d [(WireOp.edit ref e).tuple]
      = .ok ({ d with previous := some path }, [.edit path e]) := by
  have hpath : (!e.mayTargetRoot && path.isEmpty) = false := by
    cases path with
    | nil => simp [hroot rfl]
    | cons s path => simp
  simp [decodeRun, decodeOp, htuple, href, hpath, bind, Except.bind]

/-- **One operation crosses between synced sides.** -/
theorem encodeOp_faithful {d : Decoding} {op : Op} (h : Synced s d) (hop : op.Valid) :
    Faithful encodeOp decodeOp Synced s d op := by
  cases op with
  | replace value =>
    exact ⟨⟨.new, none⟩, rfl, DictionarySynced.new.batch⟩
  | edit path e =>
    obtain ⟨hsafe, hroot, he⟩ := hop
    by_cases hprev : some path = s.previous
    · simp only [Faithful, encodeOp, if_pos hprev]
      have hd : resolveRef d none = .ok path := by
        simp [resolveRef, ← h.previous, ← hprev]
      refine ⟨_, decodeOp_edit hroot (assertValidWireOp_short he) hd, ?_⟩
      exact ⟨h.toDictionarySynced, hprev.symm⟩
    · simp only [Faithful, encodeOp, if_neg hprev]
      cases hid : s.ids.get? path with
      | some id =>
        have hd : resolveRef d (some (.id id)) = .ok path := by
          simp [resolveRef, (h.ids path id hid).2]
        exact ⟨_, decodeOp_edit hroot (assertValidWireOp_long he _ (okRef_ofNat id)) hd,
          ⟨⟨h.ids⟩, rfl⟩⟩
      | none =>
        by_cases hseen : path ∈ s.seen
        · simp only [if_pos hseen]
          have hsynced := h.toDictionarySynced.define path
          have hd : resolveRef { d with paths := d.paths.set s.nextId path }
              (some (.id s.nextId)) = .ok path := by
            simp [resolveRef]
          have hdef : decodeRun decodeOp d [(WireOp.define s.nextId path).tuple]
              = .ok ({ d with paths := d.paths.set s.nextId path }, []) := by
            simp [decodeRun, decodeOp, assertValidWireOp_define _ hsafe, bind, Except.bind]
          have hedit := decodeOp_edit hroot (assertValidWireOp_long he (.id s.nextId)
              (okRef_ofNat s.nextId)) hd
          refine ⟨{ paths := d.paths.set s.nextId path, previous := some path },
            ?_, ⟨⟨hsynced.ids⟩, rfl⟩⟩
          show decodeRun decodeOp d ([_] ++ [_]) = _
          rw [decodeRun_append _ _ hdef, hedit]
          rfl
        · simp only [if_neg hseen]
          exact ⟨_, decodeOp_edit hroot (assertValidWireOp_long he _ (okRef_pathJson hsafe)) rfl,
            ⟨⟨h.ids⟩, rfl⟩⟩

theorem encodeOp_replace_faithful (s : Encoder) (d : Decoding) (value : Json) :
    Faithful encodeOp decodeOp Synced s d (.replace value) :=
  ⟨⟨.new, none⟩, rfl, DictionarySynced.new.batch⟩

/-! ## Batches -/

/-- One batch, as an item of a stream. -/
abbrev encodeBatch (s : Encoder) (ops : List Op) : Encoder × List (List Json) :=
  ((encode s ops).1, [(encode s ops).2])

theorem decode_of_run
    (h : ∃ d, decodeRun decodeOp ⟨paths, none⟩ (encode s ops).2
      = .ok (d, ops) ∧ Synced (encode s ops).1 d) :
    ∃ paths', decode paths (encode s ops).2 = .ok (paths', ops)
      ∧ DictionarySynced (encode s ops).1 paths' := by
  obtain ⟨d, hd, hs⟩ := h
  refine ⟨d.paths, ?_, hs.toDictionarySynced⟩
  simp [decode, hd, bind, Except.bind]

/-- **One batch crosses between two sides that share a dictionary.** -/
theorem decode_encode (h : DictionarySynced s paths) (hops : ∀ op ∈ ops, op.Valid) :
    ∃ paths', decode paths (encode s ops).2 = .ok (paths', ops)
      ∧ DictionarySynced (encode s ops).1 paths' :=
  decode_of_run (run_lossless (fun _ _ _ => encodeOp_faithful) h.batch hops)

theorem batch_faithful (h : ∃ paths', decode paths (encode s ops).2 = .ok (paths', ops)
      ∧ DictionarySynced (encode s ops).1 paths') :
    Faithful encodeBatch (fun paths wire => do
      let (paths, ops) ← decode paths wire
      .ok (paths, [ops])) DictionarySynced s paths ops := by
  obtain ⟨paths', hd, hs⟩ := h
  refine ⟨paths', ?_, hs⟩
  simp [decodeRun, hd, bind, Except.bind]

theorem encode_faithful (s : Encoder) (paths : Decoder) (ops : List Op)
    (h : DictionarySynced s paths) (hops : ∀ op ∈ ops, op.Valid) :
    Faithful encodeBatch (fun paths wire => do
      let (paths, ops) ← decode paths wire
      .ok (paths, [ops])) DictionarySynced s paths ops :=
  batch_faithful (decode_encode h hops)

theorem encode_base_faithful (s : Encoder) (paths : Decoder)
    (hbase : isBase ops = true) (hops : ∀ op ∈ ops, op.Valid) :
    Faithful encodeBatch (fun paths wire => do
      let (paths, ops) ← decode paths wire
      .ok (paths, [ops])) DictionarySynced s paths ops := by
  cases ops with
  | nil => cases hbase
  | cons op rest =>
    cases op with
    | edit path e => cases hbase
    | replace value =>
      have hrest : ∀ op ∈ rest, op.Valid :=
        fun op hop => hops op (mem_cons_of_mem _ hop)
      exact batch_faithful (decode_of_run (run_cons (fun _ _ _ => encodeOp_faithful)
          (encodeOp_replace_faithful _ _ value) hrest))

/-- **Interning is lossless, and decoding may start at any base batch.** -/
theorem encodeAll_lossless (batches : List (List Op))
    (hvalid : ∀ batch ∈ batches, ∀ op ∈ batch, op.Valid) :
    (∃ paths, decodeAll .new (encodeAll .new batches).2 = .ok (paths, batches)) ∧
    ∀ k batch, batches[k]? = some batch → isBase batch = true →
      ∃ paths, decodeAll .new ((encodeAll .new batches).2.drop k)
        = .ok (paths, batches.drop k) := by
  constructor
  · obtain ⟨paths, hd, -⟩ := run_lossless (fun s t x h hx => encode_faithful s t x h hx)
      DictionarySynced.new hvalid
    exact ⟨paths, hd⟩
  · intro k batch hk hbase
    obtain ⟨hlt, hget⟩ := List.getElem?_eq_some_iff.mp hk
    have hdrop : batches.drop k = batch :: batches.drop (k + 1) := by
      rw [drop_eq_getElem_cons hlt, hget]
    have hmem : ∀ b ∈ batches.drop (k + 1), ∀ op ∈ b, op.Valid :=
      fun b hb => hvalid b ((drop_subset _ _) hb)
    have hbatch := hvalid batch (mem_of_getElem? hk)
    obtain ⟨paths, hd⟩ := run_recovers (s := Encoder.new) (t := Decoder.new)
      (fun _ _ => rfl) (fun s t x h hx => encode_faithful s t x h hx)
      (fun s => encode_base_faithful s .new hbase hbatch) hdrop hmem
    exact ⟨paths, hdrop ▸ hd⟩

/-- A stream that uses one path inline, repeated, defined and by its id,
and starts again in its third batch. -/
def sampleBatches : List (List Op) :=
  let text : Path := [.key (js "text")]
  let list : Path := [.key (js "list"), .index 0]
  [[.replace (.obj []), .edit text (.append (js "a"))],
    [.edit text (.append (js "b")), .edit text (.truncate 1), .edit list (.move [1, 0])],
    [.replace (.arr []), .edit [] (.splice 0 0 [.null])],
    [.edit text .delete, .edit list (.set (.num 1)), .edit text .delete]]

theorem encodeAll_lossless_sample :
    (∃ paths, decodeAll .new (encodeAll .new sampleBatches).2 = .ok (paths, sampleBatches)) ∧
    ∃ paths, decodeAll .new ((encodeAll .new sampleBatches).2.drop 2)
      = .ok (paths, sampleBatches.drop 2) := by
  have hvalid : ∀ batch ∈ sampleBatches, ∀ op ∈ batch, op.Valid := by decide
  have h := encodeAll_lossless sampleBatches hvalid
  exact ⟨h.1, h.2 2 _ rfl rfl⟩

end ReflectivePi.Delta
