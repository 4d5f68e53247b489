import Libdap.Core.Outcome
import Libdap.Core.Int32
import Libdap.Dap2.RequestSize

/-! # The storage of a Vector

A Vector keeps its elements in one of three places: a block of bytes for the numeric types, a vector of strings,
and a vector of pointers to variables. Of each it is modelled how much there is of it, not what is in it.
-/

namespace Libdap.Dap2
open Core
set_option autoImplicit false

inductive ElementType
  | cardinal (type : Numeric)
  | str
  | url
  | array
  | struct
  | sequence
  | grid
  deriving DecidableEq, Repr

def ElementType.string : ElementType → Bool
  | str => true
  | url => true
  | _ => false

def ElementType.compound : ElementType → Bool
  | array => true
  | struct => true
  | sequence => true
  | grid => true
  | _ => false

structure Vector where
  /-- The type of the template, when there is one. -/
  var : Option ElementType
  length : Int
  readP : Bool
  /-- The number of bytes of `_buf`, when it is not null. -/
  buf : Option Nat
  /-- The size of `d_str`. -/
  str : Nat
  /-- The pointers of `_vec`, with the type of what they point to. -/
  vec : List (Option ElementType)
  /-- `_vec.capacity()` -/
  room : Nat
  capacity : Nat
  deriving DecidableEq, Repr

/-- What a `deserialize` finds: the number of elements, how many of them can be read, and the text of the `Error`
that ends the reading otherwise. -/
structure Incoming where
  num : Option Nat
  got : Nat
  msg : String
  deriving DecidableEq, Repr

namespace Vector

def new (var : Option ElementType) : Vector := ⟨var, -1, false, none, 0, [], 0, 0⟩

/-- `std::vector::resize` of the vector of pointers. -/
def resized (v : Vector) (n : Nat) : Vector :=
  { v with
    vec := v.vec.take n ++ List.replicate (n - v.vec.length) none
    room := if n ≤ v.room then v.room else max (2 * v.vec.length) n }

def deleteCardinalDataBuffer (v : Vector) : Vector := if v.buf.isSome then { v with buf := none, capacity := 0 } else v

def newBuffer (t : Numeric) (n : Nat) (v : Vector) : Vector :=
  { v.deleteCardinalDataBuffer with buf := some (uint32 (t.width * n)), capacity := n }

def createCardinalDataBufferForType (n : Nat) : Call Vector Unit := fun v =>
  match v.var with
  | none => .error (.InternalErr "create_cardinal_data_buffer_for_type: Logic error: _var is null!") v
  | some (.cardinal t) => .ok () (v.newBuffer t n)
  | some _ =>
    .error (.InternalErr ("create_cardinal_data_buffer_for_type: incorrectly used on Vector whose type was not a " ++
      "cardinal (simple data types).")) v

/-- `memcpy` into the block. -/
def toBuffer (start bytes : Nat) : Call Vector Unit := fun v =>
  match v.buf with
  | none => .error .outOfBounds v
  | some n => if start + bytes ≤ n then .ok () v else .error .outOfBounds v

def setLength (l : Int) : Call Vector Unit := fun v => .ok () { v with length := int32 l }

def setReadP (state : Bool) : Call Vector Unit := fun v => .ok () { v with readP := state }

def setCardinalValuesInternal (t : Numeric) (numElts : Int) : Call Vector Unit :=
  if numElts < 0 then
    throw (.InternalErr "Logic error: Vector::set_cardinal_values_internal() called with negative numElts!")
  else do
    setLength numElts
    createCardinalDataBufferForType (uint32 numElts)
    toBuffer 0 (numElts.toNat * t.width)
    setReadP true

/-- `set_value` for the numeric types; `val` says whether the pointer is not null. -/
def setValue (t : Numeric) (val : Bool) (sz : Int) : Call Vector Bool := fun v =>
  match v.var with
  | none => .error .undefined v
  | some e =>
    if e = .cardinal t ∧ val = true then
      (do
        setCardinalValuesInternal t sz
        pure true : Call Vector Bool) v
    else .ok false v

/-- `d_str.resize` with the number of strings as a `size_t`. -/
def resizeStr (n : Int) : Call Vector Unit := fun v =>
  if n < 0 then .error .lengthError v else .ok () { v with str := n.toNat, capacity := uint32 n }

def setValueStr (val : Bool) (sz : Int) : Call Vector Bool := fun v =>
  match v.var with
  | none => .error .undefined v
  | some e =>
    if e.string = true ∧ val = true then
      (do
        resizeStr sz
        setLength sz
        setReadP true
        pure true : Call Vector Bool) v
    else .ok false v

def vecResize (l : Int) : Call Vector Unit := fun v => .ok () { v.resized l.toNat with capacity := uint32 l }

/-- `_vec[i] = val` -/
def storeVec (i : Nat) (val : Option ElementType) : Call Vector Unit := fun v =>
  if i < v.vec.length then .ok () { v with vec := v.vec.set i val } else .error .outOfBounds v

def setVec (i : Nat) (val : Option ElementType) : Call Vector Unit := fun v =>
  if i ≥ uint32 v.length then .error (.InternalErr "Invalid data: index too large.") v
  else
    match val with
    | none => .error (.InternalErr "Invalid data: null pointer to BaseType object.") v
    | some e =>
      if v.var = none then .error .undefined v
      else if some e ≠ v.var then
        .error (.InternalErr "invalid data: type of incoming object does not match *this* vector type.") v
      else if i ≥ v.room then
        (do
          vecResize (int32 (i + 10))
          storeVec i val : Call Vector Unit) v
      else storeVec i val v

/-- A block for so many elements, if there is none. -/
def ensureBuffer (n : Nat) : Call Vector Unit := fun v =>
  if v.buf.isNone then createCardinalDataBufferForType n v else .ok () v

/-- What is read lies in what was given. -/
def within (needed given : Nat) : Call Vector Unit := fun v => if given < needed then .error .outOfBounds v else .ok
    () v

/-- `val2buf`, from a block of so many bytes or strings. -/
def val2buf (val : Option Nat) (reuse : Bool) : Call Vector Unit := fun v =>
  match val with
  | none => .error (.InternalErr "The incoming pointer does not contain any data.") v
  | some given =>
    match v.var with
    | none => .error .undefined v
    | some (.cardinal t) =>
      (do
        ensureBuffer (uint32 v.length)
        within (uint32 (v.length * t.width)) given
        toBuffer 0 (uint32 (v.length * t.width)) : Call Vector Unit) (if reuse then v else v.deleteCardinalDataBuffer)
    | some e =>
      if e.string = true then
        (do
          resizeStr v.length
          within v.length.toNat given : Call Vector Unit) v
      else .error (.InternalErr "Vector::val2buf: bad type") v

/-- The loop of `_duplicate` over the elements. -/
def duplicateVec : Nat → List (Option ElementType) → Except Fault (List (Option ElementType))
  | 0, _ => .ok []
  | _ + 1, [] => .error .outOfBounds
  | _ + 1, none :: _ => .error .undefined
  | n + 1, some e :: rest => (duplicateVec n rest).map fun copies => some e :: copies

def copyVec (rhs : Vector) : Call Vector Unit := fun v =>
  if rhs.vec.isEmpty then .ok () { v with vec := [] }
  else if v.length < 0 then .error .lengthError v
  else
    match duplicateVec v.length.toNat rhs.vec with
    | .error f => .error f (v.resized v.length.toNat)
    | .ok copies => .ok () { v.resized v.length.toNat with vec := copies }

def copyTemplate (rhs : Vector) : Call Vector Unit := fun v => .ok () { v with length := rhs.length, var := rhs.var }

def copyBuf (rhs : Vector) : Call Vector Unit := fun v =>
  if rhs.buf.isSome then val2buf rhs.buf false { v with str := rhs.str, buf := none }
  else .ok () { v with str := rhs.str, buf := none }

def copyCapacity (rhs : Vector) : Call Vector Unit := fun v => .ok () { v with capacity := rhs.capacity }

def duplicate (rhs : Vector) : Call Vector Unit := do
  copyTemplate rhs
  copyVec rhs
  copyBuf rhs
  copyCapacity rhs

/-- `operator=` with another object; a copy is made so from nothing. -/
def assign (rhs : Vector) : Call Vector Unit := do
  setReadP rhs.readP
  duplicate rhs

def clearLocalData : Call Vector Unit := fun v =>
  .ok () { v with buf := none, vec := [], str := 0, capacity := 0, readP := false }

def reserveValueCapacity (n : Nat) : Call Vector Unit := fun v =>
  match v.var with
  | none => .error (.InternalErr "reserve_value_capacity: Logic error: _var is null!") v
  | some (.cardinal _) => createCardinalDataBufferForType n v
  | some e => if e.string = true then .ok () { v with capacity := n } else .ok
    () { v with room := max v.room n, capacity := n }

/-- The test of the number of elements against the length, which it sets when there is none. -/
def checkLength (num : Nat) (msg : String) : Call Vector Unit := fun v =>
  let v := if v.length = -1 then { v with length := int32 num } else v
  if num ≠ uint32 v.length then .error (.InternalErr msg) v else .ok () v

/-- The loop over the elements of a compound type. -/
def deserializeVec (e : ElementType) (msg : String) : Nat → Nat → Nat → Call Vector Unit
  | _, 0, _ => pure ()
  | i, _ + 1, 0 => do
    storeVec i (some e)
    throw (.Error msg)
  | i, n + 1, got + 1 => do
    storeVec i (some e)
    deserializeVec e msg (i + 1) n got

/-- `get_vector`, or the loop over the strings. -/
def readElements (num : Nat) (um : Incoming) : Call Vector Unit :=
  if um.got < num then throw (.Error um.msg) else pure ()

def deserializeCardinal (num : Nat) (um : Incoming) : Call Vector Unit := do
  checkLength num "The server sent declarations and data with mismatched sizes."
  ensureBuffer num
  readElements num um

def deserializeStr (num : Nat) (um : Incoming) : Call Vector Unit := do
  checkLength num "The client sent declarations and data with mismatched sizes."
  resizeStr num
  readElements num um

def deserializeCompound (e : ElementType) (num : Nat) (um : Incoming) : Call Vector Unit := do
  checkLength num "The client sent declarations and data with mismatched sizes."
  vecResize (int32 num)
  deserializeVec e um.msg 0 num um.got

def deserialize (um : Incoming) (reuse : Bool) : Call Vector Unit := fun v =>
  match v.var with
  | none => .error .undefined v
  | some e =>
    let v := if e.compound || e.string || reuse then v else v.deleteCardinalDataBuffer
    match um.num with
    | none => .error (.Error um.msg) v
    | some num =>
      if e.compound then deserializeCompound e num um v
      else if e.string then deserializeStr num um v
      else deserializeCardinal num um v

/-- `memcpy` from the other Vector's block, of a number of bytes that is an `int` taken for a `size_t`. -/
def copyBuffer (src : Vector) (t : Numeric) (startElement : Nat) : Call Vector Unit := fun v =>
  if v.buf.isNone then
    .error (.InternalErr "set_value_slice_from_row_major_vector:Logic error: this->_buf was unexpectedly null!") v
  else
    match src.buf with
    | none =>
      .error (.InternalErr "set_value_slice_from_row_major_vector:Logic error: rowMajorData._buf was unexpectedly null!") v
    | some given =>
      if int32 (uint32 (src.length * t.width)) < 0 then .error .outOfBounds v
      else
        (do
          within (int32 (uint32 (src.length * t.width))).toNat given
          toBuffer (uint32 (startElement * t.width)) (int32 (uint32 (src.length * t.width))).toNat : Call Vector Unit) v

def copyStr (src : Vector) (startElement : Nat) : Call Vector Unit := fun v =>
  if src.length ≤ 0 then .ok () v
  else if src.str < src.length.toNat ∨ v.str < startElement + src.length.toNat then .error .outOfBounds v
  else .ok () v

def setValueSliceFromRowMajorVector (src : Vector) (startElement : Nat) : Call Vector Nat := fun v =>
  if src.var = none then .error .undefined v
  else if v.var ≠ src.var then
    .error (.InternalErr "set_value_slice_from_row_major_vector:Logic error: types do not match so cannot be copied!") v
  else if !src.readP then
    .error (.InternalErr ("set_value_slice_from_row_major_vector:Logic error: the Vector to copy data from has " ++
      "!read_p() and should have been read in!")) v
  else if src.length < 0 then
    .error (.InternalErr ("set_value_slice_from_row_major_vector:Logic error: the Vector to copy data from has " ++
      "length() < 0 and was probably not initialized!")) v
  else if src.capacity < uint32 src.length then
    .error (.InternalErr ("set_value_slice_from_row_major_vector:Logic error: the Vector to copy from has a data " ++
      "capacity less than its length, can't copy!")) v
  else if v.capacity < uint32 (startElement + src.length) then
    .error (.InternalErr ("set_value_slice_from_row_major_vector:Logic error: the capacity of this Vector cannot " ++
      "hold all the data in the from Vector!")) v
  else
    match v.var with
    | some (.cardinal t) =>
      (do
        copyBuffer src t startElement
        pure (uint32 src.length) : Call Vector Nat) v
    | some .str | some .url =>
      (do
        copyStr src startElement
        pure (uint32 src.length) : Call Vector Nat) v
    | _ =>
      .error (.InternalErr ("set_value_slice_from_row_major_vector:Unimplemented method for Vectors of type: " ++
        "dods_array_c, dods_structure_c, dods_sequence_c and dods_grid_c.")) v

@[simp] theorem deleteCardinalDataBuffer_var (v : Vector) : v.deleteCardinalDataBuffer.var = v.var := by
  rw [deleteCardinalDataBuffer]
  split <;> rfl

@[simp] theorem deleteCardinalDataBuffer_length (v : Vector) : v.deleteCardinalDataBuffer.length = v.length := by
  rw [deleteCardinalDataBuffer]
  split <;> rfl

@[simp] theorem deleteCardinalDataBuffer_buf (v : Vector) : v.deleteCardinalDataBuffer.buf = none := by
  rw [deleteCardinalDataBuffer]
  split
  · rfl
  · rename_i hNone
    simpa using hNone

@[simp] theorem newBuffer_var (t : Numeric) (n : Nat) (v : Vector) : (v.newBuffer t n).var = v.var :=
  deleteCardinalDataBuffer_var v

@[simp] theorem newBuffer_length (t : Numeric) (n : Nat) (v : Vector) : (v.newBuffer t n).length = v.length :=
  deleteCardinalDataBuffer_length v

@[simp] theorem newBuffer_vec (t : Numeric) (n : Nat) (v : Vector) : (v.newBuffer t n).vec = v.vec := by
  rw [newBuffer, deleteCardinalDataBuffer]
  split <;> rfl

@[simp] theorem newBuffer_room (t : Numeric) (n : Nat) (v : Vector) : (v.newBuffer t n).room = v.room := by
  rw [newBuffer, deleteCardinalDataBuffer]
  split <;> rfl

@[simp] theorem newBuffer_buf (t : Numeric) (n : Nat) (v : Vector) :
    (v.newBuffer t n).buf = some (uint32 (t.width * n)) := rfl

@[simp] theorem newBuffer_capacity (t : Numeric) (n : Nat) (v : Vector) : (v.newBuffer t n).capacity = n := rfl

theorem create_eq {t : Numeric} {v : Vector} (hVar : v.var = some (.cardinal t)) (n : Nat) :
    createCardinalDataBufferForType n v = .ok () (v.newBuffer t n) := by
  rw [createCardinalDataBufferForType, hVar]

theorem toBuffer_eq {v : Vector} {start bytes n : Nat} (hBuf : v.buf = some n) (hFits : start + bytes ≤ n) :
    toBuffer start bytes v = .ok () v := by
  simp only [toBuffer, hBuf, if_pos hFits]

end Vector

end Libdap.Dap2
