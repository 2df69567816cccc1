import BehaviorTree.Proofs.Scope.Reading

/-!
# Access at a type

Values are written and asked for at types: four that a blackboard keeps as they are, and any number
of types of objects. Whichever way a value of a type is written, be it as an object that carries a
value of one of the four, it is what a read at this type finds, from the scope itself and from every
scope below that has no value of the key in between, and a read at another type fails there. Of
several values in a chain of scopes a read looks at the nearest alone (`accesses_agree`).
-/

namespace BehaviorTree

/-! ### The nearest value -/

private theorem nearest?_eq_none_iff {key : String} {scopes : List Scope} :
    nearest? key scopes = none ↔ ∀ s ∈ scopes, s.entries[key]? = none := by
  induction scopes with
  | nil => simp [nearest?]
  | cons s outer ih => simp [nearest?, ih]

private theorem nearest?_append (key : String) (inner outer : List Scope) :
    nearest? key (inner ++ outer) = (nearest? key inner).or (nearest? key outer) := by
  induction inner with
  | nil => rfl
  | cons s inner ih => rw [List.cons_append, nearest?, nearest?, ih, Option.or_assoc]

namespace Blackboard

/-- Whether a key has no value in any scope. -/
def Lacks (b : Blackboard) (key : String) : Prop := ∀ s ∈ b.scopes, s.entries[key]? = none

/-- Whether some scope has a value of a key, and no scope further in has one. -/
def Shows (b : Blackboard) (key : String) (v : Value) : Prop :=
  ∃ inner s outer, b.scopes = inner ++ s :: outer ∧ (∀ t ∈ inner, t.entries[key]? = none) ∧
    s.entries[key]? = some v

/-- Whether a blackboard is another one, or lies below it with no value of a key in between. -/
def SeesThrough (d b : Blackboard) (key : String) : Prop :=
  ∃ inner, d.scopes = inner ++ b.scopes ∧ ∀ s ∈ inner, s.entries[key]? = none

private theorem value?_eq_none_iff {b : Blackboard} {key : String} :
    b.value? key = none ↔ b.Lacks key :=
  nearest?_eq_none_iff

private theorem value?_eq_some_iff {b : Blackboard} {key : String} {v : Value} :
    b.value? key = some v ↔ b.Shows key v := by
  rw [value?, Shows]
  generalize b.scopes = scopes
  constructor
  · intro h
    induction scopes with
    | nil => cases h
    | cons s outer ih =>
      cases hs : s.entries[key]? with
      | some w =>
        have hw : w = v := by simpa [nearest?, hs] using h
        exact ⟨[], s, outer, rfl, List.forall_mem_nil _, hw ▸ hs⟩
      | none =>
        obtain ⟨inner, t, outer, rfl, hinner, ht⟩ := ih (by simpa [nearest?, hs] using h)
        exact ⟨s :: inner, t, outer, rfl, List.forall_mem_cons.mpr ⟨hs, hinner⟩, ht⟩
  · rintro ⟨inner, s, outer, rfl, hinner, hs⟩
    rw [nearest?_append, nearest?_eq_none_iff.mpr hinner, nearest?, hs]
    rfl

private theorem SeesThrough.value?_eq {d b : Blackboard} {key : String} (h : d.SeesThrough b key) :
    d.value? key = b.value? key := by
  obtain ⟨inner, hscopes, hinner⟩ := h
  rw [value?, hscopes, nearest?_append, nearest?_eq_none_iff.mpr hinner]
  rfl

end Blackboard

/-! ### Types -/

/-- A type of objects: the payloads that carry its values, none of which is kept inline, and how
they are told from others. -/
structure ObjectType (α : Type) where
  name : String
  carry : α → Payload
  recognise : Payload → Option α
  recognise_eq_some_iff : ∀ p x, recognise p = some x ↔ carry x = p
  ofPayload_carry : ∀ id x, Value.ofPayload id (carry x) = .object id (carry x)

/-- The types at which values are written and asked for. -/
inductive AccessType : Type → Type 1 where
  | int : AccessType Int64
  | float : AccessType Float32
  | bool : AccessType Bool
  | vector : AccessType Vec3
  | object {α : Type} (type : ObjectType α) : AccessType α

/-- A typed read that failed: the key, the name of the type, and the kind of the value that is
there. -/
structure Mismatch where
  key : String
  requested : String
  stored : Kind
  deriving DecidableEq

namespace AccessType

variable {α β : Type}

/-- The name under which an error message speaks of the type. -/
def name : AccessType α → String
  | .int => ValueType.int.name
  | .float => ValueType.float.name
  | .bool => ValueType.bool.name
  | .vector => ValueType.vector.name
  | .object type => type.name

/-- The kind of the stored values of the type. -/
def kind : AccessType α → Kind
  | .int => .int
  | .float => .float
  | .bool => .bool
  | .vector => .vector
  | .object _ => .object

/-- What carries a value of the type. -/
def carry : AccessType α → α → Payload
  | .int, number => .int number
  | .float, number => .float number
  | .bool, flag => .bool flag
  | .vector, point => .vector point
  | .object type, x => type.carry x

/-- The value of the type that a payload carries, if it is one. -/
def recognise : AccessType α → Payload → Option α
  | .int, .int number => some number
  | .float, .float number => some number
  | .bool, .bool flag => some flag
  | .vector, .vector point => some point
  | .object type, payload => type.recognise payload
  | _, _ => none

/-- Stores a value of the type by what carries it. -/
def store (id : ObjectId) (T : AccessType α) (x : α) : Value := .ofPayload id (T.carry x)

/-- A value of the type as it lies on a blackboard: of the kind that is its own, or the object
`id`. -/
def variant (id : ObjectId) : AccessType α → α → Value
  | .int, number => .int number
  | .float, number => .float number
  | .bool, flag => .bool flag
  | .vector, point => .vector point
  | .object type, x => .object id (type.carry x)

/-- Reads a stored value at the type, if what it carries has that type. -/
def read? (T : AccessType α) (v : Value) : Option α := T.recognise v.payload

/-- The writer of the type: one of four, or the one that takes any object. -/
def writer (id : ObjectId) : AccessType α → Blackboard → String → α → Blackboard
  | .int, b, key, number => b.setInt key number
  | .float, b, key, number => b.setFloat key number
  | .bool, b, key, flag => b.setBool key flag
  | .vector, b, key, point => b.setVector key point
  | .object type, b, key, x => b.set key (.object id (type.carry x))

/-- The reader of the type that takes a default, where there is one. -/
def reader? : AccessType α → Option (Blackboard → String → α → Except AccessError α)
  | .int => some Blackboard.getInt
  | .float => some Blackboard.getFloat
  | .bool => some Blackboard.getBool
  | .vector => some Blackboard.getVector
  | .object _ => none

/-- Whether two types are different: no payload carries a value of both. -/
def Differs (T : AccessType α) (U : AccessType β) : Prop := ∀ x y, T.carry x ≠ U.carry y

/-- Whether a stored value is a certain one of the type: as such it lies there, or it is an object
that carries it. -/
def Holds (T : AccessType α) (v : Value) (x : α) : Prop :=
  ∃ id, v = T.variant id x ∨ v = .object id (T.carry x)

/-- Texts as objects. -/
def text : AccessType String :=
  .object {
    name := ValueType.text.name
    carry := .text
    recognise := fun
      | .text content => some content
      | _ => none
    recognise_eq_some_iff := fun p x ↦ by cases p <;> simp [eq_comm]
    ofPayload_carry := fun _ _ ↦ rfl }

/-- Integers of 32 bits as objects. -/
def int32 : AccessType Int32 :=
  .object {
    name := ValueType.int32.name
    carry := .int32
    recognise := fun
      | .int32 number => some number
      | _ => none
    recognise_eq_some_iff := fun p x ↦ by cases p <;> simp [eq_comm]
    ofPayload_carry := fun _ _ ↦ rfl }

/-- The type that a request names. -/
def ofType : (type : ValueType) → AccessType type.Carrier
  | .int => .int
  | .float => .float
  | .bool => .bool
  | .vector => .vector
  | .text => .text
  | .int32 => .int32

private theorem carry_ofType (type : ValueType) (x : type.Carrier) :
    (ofType type).carry x = type.carry x := by
  cases type <;> rfl

private theorem recognise_ofType (type : ValueType) (p : Payload) :
    (ofType type).recognise p = p.read? type := by
  cases type <;> cases p <;> rfl

private theorem name_ofType (type : ValueType) : (ofType type).name = type.name := by
  cases type <;> rfl

/-- Telling a type by what carries its values and naming its kind of value give the same. -/
theorem store_eq_variant (id : ObjectId) (T : AccessType α) (x : α) :
    T.store id x = T.variant id x := by
  cases T with
  | object type => exact type.ofPayload_carry id x
  | _ => rfl

private theorem kind_variant (id : ObjectId) (T : AccessType α) (x : α) :
    (T.variant id x).kind = T.kind := by
  cases T <;> rfl

/-- A payload is recognised at a type just if it carries a value of it. -/
theorem recognise_eq_some_iff (T : AccessType α) (p : Payload) (x : α) :
    T.recognise p = some x ↔ T.carry x = p := by
  cases T with
  | object type => exact type.recognise_eq_some_iff p x
  | _ => cases p <;> simp [recognise, carry, eq_comm]

/-- A stored value has a type just if it lies there as a value of the type, or as an object that
carries one. -/
theorem read?_eq_some_iff (T : AccessType α) (v : Value) (x : α) :
    T.read? v = some x ↔ T.Holds v x := by
  rw [read?, recognise_eq_some_iff, eq_comm, Value.payload_eq_iff]
  exact exists_congr fun id ↦ by rw [← store_eq_variant, store]

private theorem read?_eq_none_iff (T : AccessType α) (v : Value) :
    T.read? v = none ↔ ∀ x, ¬ T.Holds v x := by
  rw [Option.eq_none_iff_forall_ne_some]
  exact forall_congr' fun x ↦ not_congr (T.read?_eq_some_iff v x)

/-- What is of one type is not of a different one. -/
theorem Differs.read?_eq_none {T : AccessType α} {U : AccessType β} (h : T.Differs U) {v : Value}
    {x : α} (hv : T.Holds v x) : U.read? v = none := by
  have hx := (T.recognise_eq_some_iff _ _).mp ((T.read?_eq_some_iff v x).mpr hv)
  rw [Option.eq_none_iff_forall_ne_some]
  intro y hy
  exact h x y (hx.trans ((U.recognise_eq_some_iff _ _).mp hy).symm)

end AccessType

/-! ### Reading and writing at a type -/

/-- The value without the identity of an object. -/
def Value.content : Value → Value
  | .object _ payload => .object ⟨0⟩ payload
  | v => v

/-- What a read failed on. -/
def AccessError.mismatch : AccessError → Mismatch
  | .typeMismatch key requested stored => ⟨key, requested.name, stored⟩

namespace Blackboard

/-- Whether two blackboards differ at most in the identities of objects in their local scopes. -/
structure SameContents (b b' : Blackboard) : Prop where
  id : b.id = b'.id
  enclosing : b.enclosing = b'.enclosing
  values : ∀ key, (b.localValue? key).map Value.content = (b'.localValue? key).map Value.content

variable {α : Type}

/-- Writes a value of a type into the local scope. -/
def writeAs (b : Blackboard) (id : ObjectId) (T : AccessType α) (key : String) (x : α) :
    Blackboard :=
  b.set key (T.store id x)

/-- The visible value of a key at a type; `none` when the key is not visible. -/
def readAs (b : Blackboard) (T : AccessType α) (key : String) : Except Mismatch (Option α) :=
  match b.value? key with
  | none => .ok none
  | some v =>
    match T.read? v with
    | some x => .ok (some x)
    | none => .error ⟨key, T.name, v.kind⟩

/-- A read at a type that a request can name. -/
theorem mapError_read (b : Blackboard) (type : ValueType) (key : String) :
    (b.read type key).mapError AccessError.mismatch = b.readAs (.ofType type) key := by
  unfold read readAs
  cases b.value? key with
  | none => rfl
  | some v =>
    simp only [AccessType.read?, AccessType.recognise_ofType, AccessType.name_ofType, Value.read?]
    cases v.payload.read? type <;> rfl

private theorem readAs_of_value? {b : Blackboard} {key : String} {v : Value}
    (h : b.value? key = some v) (T : AccessType α) :
    b.readAs T key = match T.read? v with
      | some x => .ok (some x)
      | none => .error ⟨key, T.name, v.kind⟩ := by
  simp only [readAs, h]

private theorem readAs_eq_ok_none_iff {b : Blackboard} {T : AccessType α} {key : String} :
    b.readAs T key = .ok none ↔ b.value? key = none := by
  cases h : b.value? key with
  | none => simp [readAs, h]
  | some v => cases hx : T.read? v <;> simp [readAs_of_value? h, hx]

private theorem readAs_eq_ok_some_iff {b : Blackboard} {T : AccessType α} {key : String} {x : α} :
    b.readAs T key = .ok (some x) ↔ ∃ v, b.value? key = some v ∧ T.read? v = some x := by
  cases h : b.value? key with
  | none => simp [readAs, h]
  | some v => cases hx : T.read? v <;> simp [readAs_of_value? h, hx]

private theorem readAs_eq_error_iff {b : Blackboard} {T : AccessType α} {key : String}
    {e : Mismatch} :
    b.readAs T key = .error e ↔
      ∃ v, b.value? key = some v ∧ T.read? v = none ∧ e = ⟨key, T.name, v.kind⟩ := by
  cases h : b.value? key with
  | none => simp [readAs, h]
  | some v => cases hx : T.read? v <;> simp [readAs_of_value? h, hx, eq_comm]

/-- A reader that takes a default reads at its type: it fails with the read, and gives the default
where the key is not visible. -/
theorem mapError_reader {T : AccessType α}
    {get : Blackboard → String → α → Except AccessError α} (hget : T.reader? = some get)
    (b : Blackboard) (key : String) (default : α) :
    (get b key default).mapError AccessError.mismatch =
      (b.readAs T key).map (·.getD default) := by
  have hread (type : ValueType) (default : type.Carrier) :
      (b.readD type key default).mapError AccessError.mismatch =
        (b.readAs (.ofType type) key).map (·.getD default) := by
    rw [← mapError_read, readD]
    cases b.read type key <;> rfl
  cases T with
  | int =>
    cases hget
    exact hread .int default
  | float =>
    cases hget
    exact hread .float default
  | bool =>
    cases hget
    exact hread .bool default
  | vector =>
    cases hget
    exact hread .vector default
  | object => cases hget

private theorem eq_ok_of_mapError {ε ε' : Type} {r : Except ε α} {x : α} (f : ε → ε')
    (h : r.mapError f = .ok x) : r = .ok x := by
  cases r with
  | ok y => exact congrArg Except.ok (Except.ok.inj h)
  | error e => cases h

/-- What is written is visible from every blackboard that sees through to it. -/
private theorem SeesThrough.value?_set {b d : Blackboard} {key : String} {v : Value}
    (h : d.SeesThrough (b.set key v) key) : d.value? key = some v := by
  rw [h.value?_eq, Blackboard.value?_set, if_pos rfl]

/-- Where a value of a type is visible, every read at the type finds it, whatever the default, and a
read at a different type fails and says what is there. -/
theorem reads_of_holds {d : Blackboard} {key : String} {v : Value} (h : d.value? key = some v)
    {T : AccessType α} {x : α} (hv : T.Holds v x) :
    d.readAs T key = .ok (some x) ∧
      (∀ get, T.reader? = some get → ∀ default, get d key default = .ok x) ∧
      ∀ {β : Type} (U : AccessType β), T.Differs U →
        d.readAs U key = .error ⟨key, U.name, v.kind⟩ := by
  have hread : d.readAs T key = .ok (some x) :=
    readAs_eq_ok_some_iff.mpr ⟨v, h, (T.read?_eq_some_iff v x).mpr hv⟩
  refine ⟨hread, fun get hget default ↦ ?_, fun U hU ↦ ?_⟩
  · refine eq_ok_of_mapError AccessError.mismatch ?_
    rw [mapError_reader hget d key default, hread]
    rfl
  · exact readAs_eq_error_iff.mpr ⟨v, h, hU.read?_eq_none hv, rfl⟩

/-- Writing another object in place of one changes nothing but the identity. -/
private theorem sameContents_set_variant (b : Blackboard) (id other : ObjectId) (T : AccessType α)
    (key : String) (x : α) :
    (b.set key (T.variant id x)).SameContents (b.set key (T.variant other x)) := by
  refine ⟨?_, ?_, fun k ↦ ?_⟩
  · rw [set, set, id_withEntries, id_withEntries]
  · rw [set, set, enclosing_withEntries, enclosing_withEntries]
  · rw [localValue?_set, localValue?_set]
    split
    · cases T <;> rfl
    · rfl

/-- The ways of writing a value of a type agree: at the type, through its writer, and as it lies on
a blackboard, where an object may have another identity. From every blackboard that sees through to
the write, a read at this type gives the value, whatever the default, and a read at a different type
fails and says what is there. The same holds of an object that carries the value, even if the value
is of a type that is otherwise kept inline; it counts as an object.

In general a read at a type gives nothing just if the key has no value in any scope; it gives a
value just if the nearest one is this value of the type, and it fails just if the nearest one is of
another type, whatever lies further out. A reader with a default fails just then. Requests read and
write at the types that they name. -/
theorem accesses_agree (b : Blackboard) (key : String) (T : AccessType α) (id : ObjectId) (x : α) :
    let b' := b.writeAs id T key x
    (b' = T.writer id b key x ∧ b' = b.set key (T.variant id x) ∧
      ∀ other, b'.SameContents (b.set key (T.variant other x))) ∧
    (∀ d : Blackboard, d.SeesThrough b' key →
      d.readAs T key = .ok (some x) ∧
      (∀ get, T.reader? = some get → ∀ default, get d key default = .ok x) ∧
      ∀ {β : Type} (U : AccessType β), T.Differs U →
        d.readAs U key = .error ⟨key, U.name, T.kind⟩) ∧
    (∀ d : Blackboard, d.SeesThrough (b.set key (.object id (T.carry x))) key →
      d.readAs T key = .ok (some x) ∧
      (∀ get, T.reader? = some get → ∀ default, get d key default = .ok x) ∧
      ∀ {β : Type} (U : AccessType β), T.Differs U →
        d.readAs U key = .error ⟨key, U.name, .object⟩) ∧
    (∀ {β : Type} (U : AccessType β) (d : Blackboard) (k : String),
      (d.readAs U k = .ok none ↔ d.Lacks k) ∧
      (∀ y, d.readAs U k = .ok (some y) ↔ ∃ v, d.Shows k v ∧ U.Holds v y) ∧
      (∀ e, d.readAs U k = .error e ↔
        ∃ v, d.Shows k v ∧ (∀ y, ¬ U.Holds v y) ∧ e = ⟨k, U.name, v.kind⟩) ∧
      ∀ get, U.reader? = some get → ∀ default,
        (get d k default).mapError AccessError.mismatch =
          (d.readAs U k).map (·.getD default)) ∧
    ∀ (type : ValueType) (d : Blackboard) (k : String),
      (d.read type k).mapError AccessError.mismatch = d.readAs (.ofType type) k ∧
      ∀ y, d.write id type k y = d.writeAs id (.ofType type) k y := by
  intro b'
  have hvariant : b' = b.set key (T.variant id x) := by
    rw [← T.store_eq_variant]
    rfl
  refine ⟨⟨?_, hvariant, fun other ↦ ?_⟩, fun d hd ↦ ?_, fun d hd ↦ ?_,
    fun {β} U d k ↦ ⟨?_, fun y ↦ ?_, fun e ↦ ?_, fun get hget default ↦
      mapError_reader hget d k default⟩, fun type d k ↦ ⟨mapError_read d type k, fun y ↦ ?_⟩⟩
  · rw [hvariant]
    cases T <;> rfl
  · rw [hvariant]
    exact sameContents_set_variant b id other T key x
  · rw [hvariant] at hd
    have hreads := reads_of_holds hd.value?_set (T := T) ⟨id, .inl rfl⟩
    rwa [T.kind_variant] at hreads
  · exact reads_of_holds hd.value?_set ⟨id, .inr rfl⟩
  · rw [readAs_eq_ok_none_iff, value?_eq_none_iff]
  · simp only [readAs_eq_ok_some_iff, value?_eq_some_iff, U.read?_eq_some_iff]
  · simp only [readAs_eq_error_iff, value?_eq_some_iff, U.read?_eq_none_iff]
  · rw [write, writeAs, AccessType.store, AccessType.carry_ofType, Value.store]

/-- A text hides an integer of the scope above from a scope below. A flag that an object carries is
read as a flag all the same, and is an object to a read at another type. -/
theorem accesses_agree_hidden :
    let outer := (Scope.empty ⟨0⟩).alone.writeAs ⟨0⟩ .int "name" 7
    let b := (under (.empty ⟨1⟩) outer).writeAs ⟨1⟩ .text "name" "tower"
    let d := under (.empty ⟨2⟩) b
    let boxed := d.set "alarm" (.object ⟨2⟩ (.bool true))
    outer.SeesThrough outer "name" ∧ outer.getInt "name" 0 = .ok 7 ∧
      d.SeesThrough b "name" ∧ AccessType.text.Differs .int ∧ AccessType.text.Differs .int32 ∧
      d.readAs .text "name" = .ok (some "tower") ∧
      d.readAs .int "name" = .error ⟨"name", "i64", .object⟩ ∧
      d.readAs .int32 "name" = .error ⟨"name", "i32", .object⟩ ∧
      boxed.SeesThrough boxed "alarm" ∧ AccessType.bool.Differs .int ∧
      boxed.getBool "alarm" false = .ok true ∧
      boxed.readAs .int "alarm" = .error ⟨"alarm", "i64", .object⟩ := by
  intro outer b d boxed
  have houter : outer.SeesThrough outer "name" := ⟨[], rfl, List.forall_mem_nil _⟩
  have hboxed : boxed.SeesThrough boxed "alarm" := ⟨[], rfl, List.forall_mem_nil _⟩
  have hd : d.SeesThrough b "name" :=
    ⟨[.empty ⟨2⟩], rfl, by simp [Scope.empty]⟩
  have hint : AccessType.text.Differs .int := fun _ _ h ↦ by cases h
  have hint32 : AccessType.text.Differs .int32 := fun _ _ h ↦ by cases h
  have hbool : AccessType.bool.Differs .int := fun _ _ h ↦ by cases h
  obtain ⟨-, hget, -⟩ := (accesses_agree _ "name" .int ⟨0⟩ 7).2.1 outer houter
  obtain ⟨htext, -, hothers⟩ := (accesses_agree _ "name" .text ⟨1⟩ "tower").2.1 d hd
  obtain ⟨-, hflag, hnoflag⟩ := (accesses_agree d "alarm" .bool ⟨2⟩ true).2.2.1 boxed hboxed
  exact ⟨houter, hget getInt rfl 0, hd, hint, hint32, htext, hothers .int hint,
    hothers .int32 hint32, hboxed, hbool, hflag getBool rfl false, hnoflag .int hbool⟩

end Blackboard

end BehaviorTree
