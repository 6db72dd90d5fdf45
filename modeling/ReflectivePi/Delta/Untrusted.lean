import ReflectivePi.Delta.Codec
import ReflectivePi.Delta.Apply

/-!
# Delta — Untrusted

What any input can make of a value: operations that are decoded are valid,
and applying them keeps a dense value dense and leaves alone what is not
along their paths.
-/

namespace ReflectivePi.Delta

open List Option InsertionMap
open StatefulCodec (ok_of_bind decodeRun_keeps)

variable (numberString : Nat → JsString)

/-! ## Places along a path -/

/-- A step is what a segment names, in an array or in an object. -/
def SameProperty (seg s : Seg) : Prop := s = seg ∨ s = .key (seg.property numberString)

/-- The place goes along the path, and from there as `T` says. -/
def Below (T : Place → Prop) : Path → Place → Prop
  | [], place => T place
  | _ :: _, [] => False
  | seg :: path, s :: place => SameProperty numberString seg s ∧ Below T path place

/-- The place is the one the path names, or one in it. -/
def Along (path : Path) (place : Place) : Prop := Below numberString (fun _ => True) path place

/-- The places named by the path of an operation. -/
def Op.Names (op : Op) (place : Place) : Prop :=
  match op with
  | .replace _ => True
  | .edit path _ => Along numberString path place

/-- The elements behind one that is deleted move down. -/
def Edit.Shifts : Edit → Seg → Seg → Prop
  | .delete, .index k, .index j => k < j
  | _, _, _ => False

/-- The places that an operation moves beside the one it names. -/
def Op.Shifts (op : Op) (place : Place) : Prop :=
  match op with
  | .replace _ => False
  | .edit path e => ∃ key, path.getLast? = some key ∧
      Below numberString (fun rest => ∃ s ∈ rest.head?, e.Shifts key s) path.dropLast place

variable {path : Path} {T T' : Place → Prop}

variable {place : Place} {wire : WireOp} {paths : Decoder}

theorem Below.mono (hT : ∀ place, T place → T' place)
    (h : Below numberString T path place) : Below numberString T' path place := by
  induction path generalizing place with
  | nil => exact hT place h
  | cons seg path ih =>
    cases place with
    | nil => cases h
    | cons s place => exact ⟨h.1, ih h.2⟩

theorem below_or :
    Below numberString (fun rest => T rest ∨ T' rest) path place ↔
      Below numberString T path place ∨ Below numberString T' path place := by
  induction path generalizing place with
  | nil => rfl
  | cons seg path ih =>
    cases place with
    | nil => simp [Below]
    | cons s place => simp only [Below, ih, and_or_left]

theorem below_concat {seg : Seg} :
    Below numberString T (path ++ [seg]) place ↔
      Below numberString (Below numberString T [seg]) path place := by
  induction path generalizing place with
  | nil => rfl
  | cons first path ih =>
    cases place with
    | nil => rfl
    | cons s place => exact and_congr_right fun _ => ih

/-! ## What a write keeps -/

/-- A value that is dense again and has what it had, except as `T` says. -/
structure Kept (T : Place → Prop) (v v' : Value) : Prop where
  dense : v'.Dense
  agrees : ∀ place, ¬ T place → v'.nodeAt place = v.nodeAt place

theorem Kept.mono {v v' : Value} (h : Kept T v v') (hT : ∀ place, T place → T' place) :
    Kept T' v v' :=
  ⟨h.dense, fun place hplace => h.agrees place fun ht => hplace (hT place ht)⟩

theorem Kept.trans {v v' v'' : Value} (h : Kept T v v') (h' : Kept T' v' v'') :
    Kept (fun place => T place ∨ T' place) v v'' :=
  ⟨h'.dense, fun place hplace =>
    (h'.agrees place fun ht => hplace (.inr ht)).trans (h.agrees place fun ht => hplace (.inl ht))⟩

namespace Value

/-- A property that can be written: of an object, or at most one past the end of an array. -/
def Writable (v : Value) (seg : Seg) : Prop :=
  match v with
  | .arr items => ∃ i, seg = .index i ∧ i ≤ items.length
  | .obj _ => True
  | _ => False

variable {items : List Value} {v w : Value} {seg : Seg}

theorem defineItem_append {value : Value} :
    defineItem items items.length value = items ++ [value] := by
  simp [defineItem]

theorem mem_defineItem {i : Nat} (h : i ≤ items.length) {value item : Value}
    (hmem : item ∈ defineItem items i value) : item ∈ items ∨ item = value := by
  by_cases hlt : i < items.length
  · rw [defineItem, if_pos hlt] at hmem
    exact mem_or_eq_of_mem_set hmem
  · rw [Nat.le_antisymm h (Nat.not_lt.mp hlt), defineItem_append] at hmem
    simpa using hmem

theorem getElem?_defineItem {i : Nat} (h : i ≤ items.length) (value : Value)
    (j : Nat) : (defineItem items i value)[j]? = if j = i then some value else items[j]? := by
  by_cases hlt : i < items.length
  · rw [defineItem, if_pos hlt, getElem?_set]
    by_cases hij : i = j
    · simp [hij, hij ▸ hlt]
    · rw [if_neg hij, if_neg (Ne.symm hij)]
  · have hi : i = items.length := Nat.le_antisymm h (Nat.not_lt.mp hlt)
    rw [hi, defineItem_append, getElem?_append]
    by_cases hj : j < items.length
    · rw [if_pos hj, if_neg (by omega)]
    · rw [if_neg hj]
      by_cases hje : j = items.length
      · simp [hje]
      · rw [if_neg hje, getElem?_eq_none (by simp; omega), getElem?_eq_none (by omega)]

variable {numberString}

theorem node_setOwn (v : Value) (seg : Seg) (w : Value) :
    (v.setOwn numberString seg w).node = v.node := by
  cases v with
  | arr items => cases seg <;> rfl
  | _ => rfl

section

variable (hv : v.Dense) (hw : w.Dense) (h : v.Writable seg)

include hv hw h

theorem Dense.setOwn
    : (v.setOwn numberString seg w).Dense := by
  cases v with
  | arr items =>
    obtain ⟨i, rfl, hi⟩ := h
    rw [Value.setOwn, dense_arr]
    intro item hitem
    rcases mem_defineItem hi hitem with hitem | rfl
    · exact dense_arr.mp hv item hitem
    · exact hw
  | obj fields =>
    obtain ⟨hkeys, hfields⟩ := dense_obj.mp hv
    rw [Value.setOwn, dense_obj]
    have hnodup := nodup_setEntry (k := seg.property numberString) (v := w) hkeys
    refine ⟨hnodup, fun field hfield => ?_⟩
    have hfind := findEntry_of_mem hnodup hfield
    rw [findEntry_setEntry] at hfind
    split at hfind
    · cases hfind
      exact hw
    · exact hfields (field.1, field.2) (mem_of_findEntry hfind)
  | _ => cases h

theorem own?_setOwn (s : Seg) :
    (v.setOwn numberString seg w).own? s
      = if s = v.name numberString seg then some w else v.own? s := by
  have hdense : (v.setOwn numberString seg w).Dense := hv.setOwn hw h
  cases v with
  | arr items =>
    obtain ⟨i, rfl, hi⟩ := h
    cases s with
    | key k => rfl
    | index j =>
      rw [Value.setOwn] at hdense ⊢
      rw [own?_arr hdense, own?_arr hv, getElem?_defineItem hi]
      simp only [name, Seg.index.injEq]
  | obj fields =>
    cases s with
    | index j => rfl
    | key k =>
      rw [Value.setOwn, own?, findEntry_setEntry, own?]
      simp only [name, Seg.key.injEq, eq_comm]
  | _ => cases h

theorem nodeAt_cons_setOwn
    (s : Seg) (place : Place) :
    (v.setOwn numberString seg w).nodeAt (s :: place)
      = if s = v.name numberString seg then w.nodeAt place else v.nodeAt (s :: place) := by
  rw [nodeAt_cons, own?_setOwn hv hw h, nodeAt_cons]
  split <;> rfl

end

theorem sameProperty_name (v : Value) (seg : Seg) :
    SameProperty numberString seg (v.name numberString seg) := by
  cases v with
  | obj fields => exact .inr rfl
  | _ => exact .inl rfl

end Value

/-! ## What an operation keeps -/

section
variable {numberString} {T : Place → Prop}

theorem ownProperty_ok {node child : Value} {seg : Seg}
    (h : ownProperty numberString path node seg = .ok child) :
    node.own? (node.name numberString seg) = some child ∧ node.Writable seg := by
  simp only [ownProperty] at h
  cases node with
  | arr items =>
    cases seg with
    | key k => cases h
    | index i =>
      dsimp only at h
      split at h
      · rename_i found hfound
        cases h
        refine ⟨hfound, i, rfl, ?_⟩
        obtain ⟨hi, -⟩ := Option.filter_eq_some_iff.mp hfound
        exact Nat.le_of_lt (List.getElem?_eq_some_iff.mp hi).1
      · cases h
  | obj fields =>
    dsimp only at h
    split at h
    · rename_i found hfound
      cases h
      exact ⟨hfound, trivial⟩
    · cases h
  | _ => cases h

/-- **A write at the end of a path** keeps what is not below it. -/
theorem updateAt_kept {full : Path} {write : Value → Except DeltaError Value}
    (hwrite : ∀ node node', node.Dense → write node = .ok node' → Kept T node node')
    {root root' : Value} (hroot : root.Dense)
    (h : updateAt numberString full write path root = .ok root') :
    Kept (Below numberString T path) root root' := by
  induction path generalizing root root' with
  | nil => exact hwrite root root' hroot h
  | cons seg path ih =>
    obtain ⟨child, hown, h⟩ := ok_of_bind h
    obtain ⟨child', hupdate, h⟩ := ok_of_bind h
    cases h
    obtain ⟨hown, hwritable⟩ := ownProperty_ok hown
    have hchild := ih (hroot.of_own? hown) hupdate
    refine ⟨hroot.setOwn hchild.dense hwritable, fun place hplace => ?_⟩
    cases place with
    | nil => exact congrArg some (Value.node_setOwn root seg child')
    | cons s place =>
      rw [Value.nodeAt_cons_setOwn hroot hchild.dense hwritable]
      split
      · rename_i hs
        rw [Value.nodeAt_cons, hs, hown, bind_some]
        refine hchild.agrees place fun hbelow => hplace ⟨?_, hbelow⟩
        rw [hs]
        exact Value.sameProperty_name root seg
      · rfl

/-- The places in the property named, and in those that move. -/
def AtProperty (numberString : Nat → JsString) (e : Edit) (key : Seg) : Place → Prop
  | [] => False
  | s :: _ => SameProperty numberString key s ∨ e.Shifts key s

theorem setOwn_kept {e : Edit} {key : Seg} {parent w : Value} (hparent : parent.Dense)
    (hw : w.Dense) (h : parent.Writable key) :
    Kept (AtProperty numberString e key) parent (parent.setOwn numberString key w) := by
  refine ⟨hparent.setOwn hw h, fun place hplace => ?_⟩
  cases place with
  | nil => exact congrArg some (Value.node_setOwn parent key w)
  | cons s place =>
    rw [Value.nodeAt_cons_setOwn hparent hw h, if_neg]
    rintro rfl
    exact hplace (.inl (Value.sameProperty_name parent key))

theorem dense_splice {items inserted : List Value} (hitems : (Value.arr items).Dense)
    (hinserted : ∀ item ∈ inserted, item.Dense) (start deleteCount : Nat) :
    (Value.arr (Value.splice items start deleteCount inserted)).Dense := by
  rw [Value.dense_arr] at hitems ⊢
  intro item hitem
  rcases List.mem_append.mp hitem with hitem | hitem
  · rcases List.mem_append.mp hitem with hitem | hitem
    · exact hitems item (mem_of_mem_take hitem)
    · exact hinserted item hitem
  · exact hitems item (mem_of_mem_drop hitem)

theorem deleteItem_kept {items : List Value} (hitems : (Value.arr items).Dense) {i : Nat} :
    Kept (AtProperty numberString .delete (.index i)) (.arr items)
      (.arr (Value.splice items i 1 [])) := by
  have hdense := dense_splice hitems (forall_mem_nil _) i 1
  refine ⟨hdense, fun place hplace => ?_⟩
  cases place with
  | nil => rfl
  | cons s place =>
    rw [Value.nodeAt_cons, Value.nodeAt_cons]
    cases s with
    | key k => rfl
    | index j =>
      have hlt : j < i := by
        by_contra hle
        rcases Nat.lt_or_eq_of_le (Nat.not_lt.mp hle) with hlt | rfl
        · exact hplace (.inr hlt)
        · exact hplace (.inl (.inl rfl))
      rw [Value.own?_arr hdense, Value.own?_arr hitems, Value.splice, append_nil]
      by_cases hj : j < items.length
      · rw [getElem?_append_left (by simp; omega), getElem?_take_of_lt hlt]
      · rw [getElem?_eq_none (by simp; omega), getElem?_eq_none (by omega)]

theorem deleteField_kept {fields : List (JsString × Value)} (hfields : (Value.obj fields).Dense)
    {key : Seg} : Kept (AtProperty numberString .delete key) (.obj fields)
      (.obj (fields.filter fun field => decide (field.1 ≠ key.property numberString))) := by
  obtain ⟨hkeys, hvalues⟩ := Value.dense_obj.mp hfields
  refine ⟨Value.dense_obj.mpr ⟨hkeys.sublist (List.filter_sublist.map _),
    fun field hfield => hvalues field (List.mem_filter.mp hfield).1⟩, fun place hplace => ?_⟩
  cases place with
  | nil => rfl
  | cons s place =>
    rw [Value.nodeAt_cons, Value.nodeAt_cons]
    cases s with
    | index j => rfl
    | key k =>
      rw [Value.own?, Value.own?, findEntry_filter_ne, if_neg]
      rintro rfl
      exact hplace (.inl (.inr rfl))

end

/-- The values an operation carries are JSON values. -/
def Edit.WellFormed : Edit → Prop
  | .set value => value.WellFormed
  | .splice _ _ items => Json.ItemsWellFormed items
  | _ => True

def Op.WellFormed : Op → Prop
  | .replace value => value.WellFormed
  | .edit _ e => e.WellFormed

section
variable {numberString}

variable {key : Seg} {e : Edit}

theorem editOwn_kept (he : e.WellFormed)
    {parent parent' : Value} (hparent : parent.Dense) (hwritable : parent.Writable key)
    (h : editOwn numberString path key e parent = .ok parent') :
    Kept (AtProperty numberString e key) parent parent' := by
  cases e with
  | set value =>
    cases h
    exact setOwn_kept hparent (Json.dense_toValue he) hwritable
  | delete =>
    cases parent with
    | arr items =>
      obtain ⟨i, rfl, -⟩ := hwritable
      simp only [editOwn] at h
      split at h
      · cases h
      · cases h
        exact deleteItem_kept hparent
    | obj fields =>
      cases h
      exact deleteField_kept hparent
    | _ => cases hwritable
  | append text =>
    simp only [editOwn] at h
    split at h
    · cases h
      exact setOwn_kept hparent trivial hwritable
    · cases h
  | truncate count =>
    simp only [editOwn] at h
    split at h
    · cases h
      exact setOwn_kept hparent trivial hwritable
    · cases h
  | _ => cases h

theorem editProperty_kept (he : e.WellFormed) {parent parent' : Value} (hparent : parent.Dense)
    (h : editProperty numberString path key e parent = .ok parent') :
    Kept (AtProperty numberString e key) parent parent' := by
  cases parent with
  | arr items =>
    cases key with
    | key k => cases h
    | index i =>
      simp only [editProperty] at h
      split at h
      · cases h
      · rename_i hi
        exact editOwn_kept he hparent ⟨i, rfl, Nat.not_lt.mp hi⟩ h
  | obj fields => exact editOwn_kept he hparent trivial h
  | _ => cases h

theorem dense_insertChunks {fuel index : Nat} {target items : List Value}
    (htarget : (Value.arr target).Dense) (hitems : ∀ item ∈ items, item.Dense) :
    (Value.arr (Value.insertChunks fuel target index items)).Dense := by
  induction fuel generalizing target index items with
  | zero => exact htarget
  | succ fuel ih =>
    rw [Value.insertChunks]
    split
    · exact htarget
    · exact ih (dense_splice htarget (fun item h => hitems item (mem_of_mem_take h)) _ _)
        fun item h => hitems item (mem_of_mem_drop h)

theorem editArray_kept (he : e.WellFormed) (hvalid : e.Valid)
    {target target' : Value} (htarget : target.Dense) (h : editArray path e target = .ok target') :
    Kept (fun _ => True) target target' := by
  refine ⟨?_, fun place hplace => absurd trivial hplace⟩
  cases target with
  | arr items =>
    cases e with
    | splice index remove inserted =>
      cases h
      exact dense_insertChunks (dense_splice htarget (forall_mem_nil _) _ _)
        (itemsDense_toValues he)
    | move permutation =>
      simp only [editArray] at h
      split at h
      · cases h
      · rename_i hlength
        cases h
        rw [Value.dense_arr] at htarget ⊢
        refine List.forall_mem_map.mpr fun i hi => ?_
        have hlt : i < items.length := by
          rw [not_not.mp hlength]
          exact hvalid.2 i hi
        rw [getElem?_eq_getElem hlt, getD_some]
        exact htarget _ (getElem_mem hlt)
    | _ => cases h
  | _ => cases h

theorem names_of_property (hkey : path.getLast? = some key)
    {place : Place} (h : Below numberString (AtProperty numberString e key) path.dropLast place) :
    Op.Names numberString (.edit path e) place ∨ Op.Shifts numberString (.edit path e) place := by
  have hpath : path.dropLast ++ [key] = path := dropLast_append_getLast? key hkey
  have hsplit : Below numberString (fun rest => Below numberString (fun _ => True) [key] rest ∨
      ∃ s ∈ rest.head?, e.Shifts key s) path.dropLast place := by
    refine h.mono numberString fun rest hrest => ?_
    cases rest with
    | nil => cases hrest
    | cons s rest => exact hrest.imp (fun hs => ⟨hs, trivial⟩) fun hs => ⟨s, rfl, hs⟩
  refine ((below_or numberString).mp hsplit).imp (fun hnames => ?_) fun hshifts =>
    ⟨key, hkey, hshifts⟩
  rw [Op.Names, Along, ← hpath]
  exact (below_concat numberString).mpr hnames

end

section
variable {numberString}

/-- **One operation** keeps a value dense and changes it where it says. -/
theorem applyOp_kept {op : Op} (hvalid : op.Valid) (hop : op.WellFormed) {root root' : Value}
    (hroot : root.Dense) (h : applyOp numberString root op = .ok root') :
    Kept (fun place => op.Names numberString place ∨ op.Shifts numberString place) root root' := by
  rw [applyOp, assertValidOp_tuple hvalid] at h
  obtain ⟨_, hread, h⟩ := ok_of_bind h
  cases hread
  cases op with
  | replace value =>
    cases h
    exact ⟨Json.dense_toValue hop, fun place hplace => absurd (.inl trivial) hplace⟩
  | edit path e =>
    obtain ⟨hsafe, -, he⟩ := hvalid
    obtain ⟨_, hpath, h⟩ := ok_of_bind h
    rw [assertSafePath_toJson hsafe] at hpath
    cases hpath
    split at h
    · have hkept := updateAt_kept (fun node node' => editArray_kept hop he) hroot h
      exact hkept.mono fun place hbelow => .inl hbelow
    · split at h
      · cases h
      · rename_i key hkey
        have hkept := updateAt_kept (fun node node' => editProperty_kept hop) hroot h
        exact hkept.mono fun place hbelow => names_of_property hkey hbelow

/-- **A batch** keeps what none of its operations changes. -/
theorem applyOps_kept {ops : List Op} (hvalid : ∀ op ∈ ops, op.Valid)
    (hops : ∀ op ∈ ops, op.WellFormed) {root root' : Value} (hroot : root.Dense)
    (h : applyOps numberString root ops = .ok root') :
    Kept (fun place => ∃ op ∈ ops, op.Names numberString place ∨ op.Shifts numberString place)
      root root' := by
  induction ops generalizing root with
  | nil =>
    cases h
    exact ⟨hroot, fun _ _ => rfl⟩
  | cons op ops ih =>
    obtain ⟨hop, hrest⟩ := List.forall_mem_cons.mp hvalid
    obtain ⟨hop', hrest'⟩ := List.forall_mem_cons.mp hops
    obtain ⟨middle, hmiddle, h⟩ := ok_of_bind h
    have hfirst := applyOp_kept hop hop' hroot hmiddle
    refine (hfirst.trans (ih hrest hrest' hfirst.dense h)).mono fun place hplace => ?_
    rcases hplace with hplace | ⟨other, hother, hplace⟩
    · exact ⟨op, mem_cons_self, hplace⟩
    · exact ⟨other, mem_cons_of_mem _ hother, hplace⟩

end

/-! ## What is decoded -/

theorem safePath_of_assert {segments : List Json} (h : assertSafePath segments = .ok path) :
    SafePath path := by
  induction segments generalizing path with
  | nil =>
    cases h
    nofun
  | cons json segments ih =>
    rw [assertSafePath, mapM_cons] at h
    obtain ⟨seg, hseg, h⟩ := ok_of_bind h
    obtain ⟨rest, hrest, h⟩ := ok_of_bind h
    cases h
    refine List.forall_mem_cons.mpr ⟨?_, ih hrest⟩
    simp only [assertSafeSegment] at hseg
    split at hseg
    · split at hseg
      · cases hseg
      · rename_i hsafe
        cases hseg
        exact hsafe
    · split at hseg
      · cases hseg
        trivial
      · cases hseg

theorem readPermutation_ok {length : Nat} {seen : List Nat} {values : List Json}
    {permutation : List Nat} (h : readPermutation length seen values = .ok permutation) :
    permutation.Nodup ∧ (∀ i ∈ permutation, i < length ∧ i ∉ seen) ∧
      permutation.length = values.length := by
  induction values generalizing seen permutation with
  | nil =>
    cases h
    simp
  | cons value values ih =>
    rw [readPermutation] at h
    split at h
    · rename_i index hindex
      split at h
      · rename_i hfree
        obtain ⟨rest, hrest, h⟩ := ok_of_bind h
        cases h
        obtain ⟨hnodup, hall, hlength⟩ := ih hrest
        refine ⟨List.nodup_cons.mpr ⟨fun hmem => ?_, hnodup⟩,
          List.forall_mem_cons.mpr ⟨hfree, fun i hi => ?_⟩, congrArg Nat.succ hlength⟩
        · exact (hall index hmem).2 mem_cons_self
        · exact ⟨(hall i hi).1, fun hmem => (hall i hi).2 (mem_cons_of_mem _ hmem)⟩
      · cases h
    · cases h

theorem isPermutation_of_assert {json : Json} {permutation : List Nat}
    (h : assertPermutation json = .ok permutation) : IsPermutation permutation := by
  cases json with
  | arr values =>
    obtain ⟨hnodup, hall, hlength⟩ := readPermutation_ok h
    exact ⟨hnodup, fun i hi => hlength ▸ (hall i hi).1⟩
  | _ => cases h

/-- An operation of the wire whose path, if it has one inline, is safe. -/
def WireOp.Safe : WireOp → Prop
  | .replace value => value.WellFormed
  | .define _ path => SafePath path
  | .edit ref e => (∀ path, ref = some (.inline path) → SafePath path) ∧ e.Valid ∧ e.WellFormed

/-- An edit that is read is valid, and its values are the input's. -/
def Reads (payload : Except DeltaError Edit) : Prop :=
  ∀ e, payload = .ok e → e.Valid ∧ e.WellFormed

theorem longForm_safe {ref : Json} {payload : Except DeltaError Edit} (hpayload : Reads payload)
    (h : longForm ref payload = .ok wire) : wire.Safe := by
  obtain ⟨r, href, h⟩ := ok_of_bind h
  obtain ⟨e, he, h⟩ := ok_of_bind h
  cases h
  refine ⟨fun path hpath => ?_, hpayload e he⟩
  cases hpath
  cases ref with
  | num n =>
    simp only [okRef] at href
    split at href <;> cases href
  | arr segments =>
    obtain ⟨path', hsafe, heq⟩ := ok_of_bind href
    cases heq
    exact safePath_of_assert hsafe
  | _ => cases href

theorem shortForm_safe {payload : Except DeltaError Edit} (hpayload : Reads payload)
    (h : shortForm payload = .ok wire) : wire.Safe := by
  obtain ⟨e, he, h⟩ := ok_of_bind h
  cases h
  exact ⟨fun path hpath => (by cases hpath), hpayload e he⟩

theorem reads_set {value : Json} (h : value.WellFormed) : Reads (.ok (.set value)) := by
  intro e he
  cases he
  exact ⟨trivial, h⟩

theorem reads_delete : Reads (.ok .delete) := by
  intro e he
  cases he
  exact ⟨trivial, trivial⟩

theorem reads_text (text : Json) : Reads (readText text) := by
  intro e he
  cases text with
  | str text =>
    cases he
    exact ⟨trivial, trivial⟩
  | _ => cases he

theorem reads_count (count : Json) : Reads (readCount count) := by
  intro e he
  rw [readCount] at he
  split at he
  · cases he
    exact ⟨trivial, trivial⟩
  · cases he

theorem reads_splice (i r : Json) {items : Json} (h : items.WellFormed) :
    Reads (readSplice i r items) := by
  intro e he
  rw [readSplice] at he
  split at he
  · cases he
  · split at he
    · cases he
    · split at he
      · cases he
        exact ⟨trivial, by rwa [Json.WellFormed] at h⟩
      · cases he

theorem reads_move (permutation : Json) : Reads (readMove permutation) := by
  intro e he
  obtain ⟨p, hp, he⟩ := ok_of_bind he
  cases he
  exact ⟨isPermutation_of_assert hp, trivial⟩

theorem itemsWellFormed_iff {items : List Json} :
    Json.ItemsWellFormed items ↔ ∀ item ∈ items, item.WellFormed := by
  induction items with
  | nil => simp [Json.ItemsWellFormed]
  | cons item items ih => simp [Json.ItemsWellFormed, ih]

theorem wellFormed_args {verb : Json} {args : List Json}
    (h : (Json.arr (verb :: args)).WellFormed) : ∀ arg ∈ args, arg.WellFormed := by
  rw [Json.WellFormed, itemsWellFormed_iff] at h
  exact (List.forall_mem_cons.mp h).2

/-- **What passes the wire's check** is safe. -/
theorem assertValidWireOp_safe {json : Json} (hjson : json.WellFormed)
    (h : assertValidWireOp json = .ok wire) : wire.Safe := by
  unfold assertValidWireOp at h
  split at h
  · rename_i verb args
    have hargs := wellFormed_args hjson
    split at h
    -- r
    · split at h
      · cases h
        exact hargs _ (by simp)
      · cases h
    split at h
    -- s
    · split at h
      · exact longForm_safe (reads_set (hargs _ (by simp))) h
      · exact shortForm_safe (reads_set (hargs _ (by simp))) h
      · cases h
    split at h
    -- d
    · split at h
      · exact longForm_safe reads_delete h
      · exact shortForm_safe reads_delete h
      · cases h
    split at h
    -- a
    · split at h
      · exact longForm_safe (reads_text _) h
      · exact shortForm_safe (reads_text _) h
      · cases h
    split at h
    -- t
    · split at h
      · exact longForm_safe (reads_count _) h
      · exact shortForm_safe (reads_count _) h
      · cases h
    split at h
    -- p
    · split at h
      · exact longForm_safe (reads_splice _ _ (hargs _ (by simp))) h
      · exact shortForm_safe (reads_splice _ _ (hargs _ (by simp))) h
      · cases h
    split at h
    -- m
    · split at h
      · exact longForm_safe (reads_move _) h
      · exact shortForm_safe (reads_move _) h
      · cases h
    split at h
    -- #
    · split at h
      · split at h
        · obtain ⟨path, hpath, h⟩ := ok_of_bind h
          cases h
          exact safePath_of_assert hpath
        · cases h
      · cases h
    · cases h
  · cases h
  · cases h

/-! ## Decoding -/

/-- The paths that later operations can refer to. -/
def SafePaths (paths : Decoder) : Prop := ∀ id path, paths.get? id = some path → SafePath path

structure Decoding.Safe (d : Decoding) : Prop where
  paths : SafePaths d.paths
  previous : ∀ path, d.previous = some path → SafePath path

theorem safePaths_new : SafePaths .new := fun id path h => by cases h

theorem SafePaths.set (h : SafePaths paths) (id : Nat)
    (hpath : SafePath path) : SafePaths (paths.set id path) := by
  intro id' path' hget
  rw [get?_set] at hget
  split at hget
  · cases hget
    exact hpath
  · exact h id' path' hget

theorem resolveRef_safe {d : Decoding} (hd : d.Safe) {ref : Option PathRef}
    (href : ∀ path, ref = some (.inline path) → SafePath path)
    (h : resolveRef d ref = .ok path) : SafePath path := by
  cases ref with
  | none =>
    rw [resolveRef] at h
    split at h
    · rename_i previous hprevious
      cases h
      exact hd.previous _ hprevious
    · cases h
  | some ref =>
    cases ref with
    | id id =>
      rw [resolveRef] at h
      split at h
      · rename_i found hfound
        cases h
        exact hd.paths _ _ hfound
      · cases h
    | inline path' =>
      cases h
      exact href path rfl

/-- **One operation of the wire** gives valid operations and leaves safe paths. -/
theorem decodeOp_safe (d : Decoding) (wire : Json) (d' : Decoding) (ops : List Op) (hd : d.Safe)
    (hwire : wire.WellFormed) (h : decodeOp d wire = .ok (d', ops)) :
    d'.Safe ∧ ∀ op ∈ ops, op.Valid ∧ op.WellFormed := by
  obtain ⟨op, hop, h⟩ := ok_of_bind h
  have hsafe := assertValidWireOp_safe hwire hop
  cases op with
  | define id path =>
    cases h
    exact ⟨⟨hd.paths.set id hsafe, hd.previous⟩, forall_mem_nil _⟩
  | replace value =>
    cases h
    exact ⟨⟨safePaths_new, fun path hpath => (by cases hpath)⟩,
      List.forall_mem_singleton.mpr ⟨trivial, hsafe⟩⟩
  | edit ref e =>
    obtain ⟨href, he, hvalues⟩ := hsafe
    obtain ⟨path, hpath, h⟩ := ok_of_bind h
    have hpathSafe := resolveRef_safe hd href hpath
    split at h
    · cases h
    · rename_i hroot
      cases h
      refine ⟨⟨hd.paths, fun path' heq => ?_⟩,
        List.forall_mem_singleton.mpr ⟨⟨hpathSafe, fun hempty => ?_, he⟩, hvalues⟩⟩
      · cases heq
        exact hpathSafe
      · subst hempty
        simpa using hroot

theorem decode_safe {paths' : Decoder} (hpaths : SafePaths paths) {wire : List Json}
    (hwire : ∀ json ∈ wire, json.WellFormed) {ops : List Op}
    (h : decode paths wire = .ok (paths', ops)) :
    SafePaths paths' ∧ ∀ op ∈ ops, op.Valid ∧ op.WellFormed := by
  obtain ⟨⟨d, ops'⟩, hrun, h⟩ := ok_of_bind h
  cases h
  obtain ⟨hd, hops⟩ := decodeRun_keeps decodeOp_safe hwire
    ⟨hpaths, fun path hpath => (by cases hpath)⟩ hrun
  exact ⟨hd.paths, hops⟩

/-- `decode` of any JSON value: `for` takes an array, or a string by its characters. -/
def decodeInput (paths : Decoder) : Json → Except DeltaError (Decoder × List Op)
  | .arr wire => decode paths wire
  | .str [] => .ok (paths, [])
  | .str (_ :: _) => .error (.type "op is not a tuple")
  | _ => .error (.type "wire is not iterable")

/-- The decoders after accepted batches. -/
inductive Reachable : Decoder → Prop where
  | new : Reachable .new
  | decoded {paths paths' : Decoder} {input : Json} {ops : List Op} :
      Reachable paths → input.WellFormed → decodeInput paths input = .ok (paths', ops) →
      Reachable paths'

theorem decodeInput_safe {paths' : Decoder} (hpaths : SafePaths paths) {input : Json}
    (hinput : input.WellFormed) {ops : List Op} (h : decodeInput paths input = .ok (paths', ops)) :
    SafePaths paths' ∧ ∀ op ∈ ops, op.Valid ∧ op.WellFormed := by
  cases input with
  | arr wire =>
    rw [Json.WellFormed, itemsWellFormed_iff] at hinput
    exact decode_safe hpaths hinput h
  | str text =>
    cases text with
    | nil =>
      cases h
      exact ⟨hpaths, forall_mem_nil _⟩
    | cons u text => cases h
  | _ => cases h

theorem Reachable.safePaths (h : Reachable paths) : SafePaths paths := by
  induction h with
  | new => exact safePaths_new
  | decoded _ hinput hdecode ih => exact (decodeInput_safe ih hinput hdecode).1

/-- **Untrusted batches**: what is decoded passes the applier's check, with a safe path
inline; applied to a dense value it leaves one, changed only along the paths of the
operations and, behind a deleted element, where the elements move down. -/
theorem decodeInput_applies {paths paths' : Decoder} (hreach : Reachable paths) {input : Json}
    (hinput : input.WellFormed) {ops : List Op} (h : decodeInput paths input = .ok (paths', ops)) :
    (∀ op ∈ ops, assertValidOp op.tuple = .ok op ∧ op.Valid) ∧
      ∀ root root', root.Dense → applyOps numberString root ops = .ok root' → root'.Dense ∧
        ∀ place, (∀ op ∈ ops, ¬ op.Names numberString place ∧ ¬ op.Shifts numberString place) →
          root'.nodeAt place = root.nodeAt place := by
  obtain ⟨-, hops⟩ := decodeInput_safe hreach.safePaths hinput h
  refine ⟨fun op hop => ⟨assertValidOp_tuple (hops op hop).1, (hops op hop).1⟩,
    fun root root' hroot happly => ?_⟩
  have hkept := applyOps_kept (fun op hop => (hops op hop).1) (fun op hop => (hops op hop).2) hroot
    happly
  refine ⟨hkept.dense, fun place hplace => hkept.agrees place ?_⟩
  rintro ⟨op, hop, hnames | hshifts⟩
  · exact (hplace op hop).1 hnames
  · exact (hplace op hop).2 hshifts

/-- A definition in one batch, and its use before a deletion in the next. -/
def definingBatch : Json :=
  .arr [.arr [.str (js "#"), .ofNat 0, .arr [.str (js "xs"), .ofNat 1]]]

def usingBatch : Json :=
  .arr [.arr [.str (js "s"), .ofNat 0, .ofNat 7],
    .arr [.str (js "d"), .arr [.str (js "xs"), .ofNat 0]]]

theorem decodeInput_applies_sample :
    let path : Path := [.key (js "xs"), .index 1]
    let ops : List Op := [.edit path (.set (.ofNat 7)), .edit [.key (js "xs"), .index 0] .delete]
    (∀ op ∈ ops, assertValidOp op.tuple = .ok op ∧ op.Valid) ∧
      ∀ root root', root.Dense → applyOps natString root ops = .ok root' → root'.Dense ∧
        ∀ place, (∀ op ∈ ops, ¬ op.Names natString place ∧ ¬ op.Shifts natString place) →
          root'.nodeAt place = root.nodeAt place := by
  intro path ops
  have hdefine : decodeInput .new definingBatch = .ok (Decoder.new.set 0 path, []) := rfl
  have huse : decodeInput (Decoder.new.set 0 path) usingBatch
      = .ok (Decoder.new.set 0 path, ops) := rfl
  have hwell : definingBatch.WellFormed ∧ usingBatch.WellFormed := by
    simp [definingBatch, usingBatch, Json.WellFormed, Json.ItemsWellFormed, Json.ofNat]
  exact decodeInput_applies natString (.decoded .new hwell.1 hdefine) hwell.2 huse

/-- Deleting an element moves one that is not along the path. -/
theorem deletion_moves_others :
    ¬ ∀ (paths paths' : Decoder) (input : Json) (ops : List Op), Reachable paths →
      input.WellFormed → decodeInput paths input = .ok (paths', ops) →
      (∀ op ∈ ops, assertValidOp op.tuple = .ok op ∧ op.Valid) ∧
        ∀ root root', root.Dense → applyOps natString root ops = .ok root' → root'.Dense ∧
          ∀ place, (∀ op ∈ ops, ¬ op.Names natString place) →
            root'.nodeAt place = root.nodeAt place := by
  intro hall
  have hwell : (Json.arr [.arr [.str (js "d"), .arr [.ofNat 0]]]).WellFormed := by
    simp [Json.WellFormed, Json.ItemsWellFormed, Json.ofNat]
  have hdense : (Value.arr [.num 1, .num 2]).Dense := by
    rw [Value.dense_arr]
    exact List.forall_mem_cons.mpr ⟨trivial, List.forall_mem_singleton.mpr trivial⟩
  have happly : applyOps natString (.arr [.num 1, .num 2]) [.edit [.index 0] .delete]
      = .ok (.arr [.num 2]) := rfl
  have hplace := ((hall .new .new _ [.edit [.index 0] .delete] .new hwell rfl).2 _ _ hdense
    happly).2 [.index 1]
  have hsame := hplace (by simp [Op.Names, Along, Below, SameProperty])
  cases hsame

end ReflectivePi.Delta
