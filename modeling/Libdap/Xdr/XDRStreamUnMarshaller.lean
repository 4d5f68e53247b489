import Libdap.Core.Stream
import Libdap.Xdr.Array

/-! # XDRStreamUnMarshaller

The reader of DAP2 data. Bytes are read from the stream into a block of memory, for small items
the static block `d_buf`, and decoded there. A short read is not noticed here: the stream goes
into its fail state and the decoder works on what the block holds.
-/

namespace Libdap.Xdr
open Core
set_option autoImplicit false

namespace UnMarshaller

def XDR_DAP_BUFF_SIZE : Nat := 4096

end UnMarshaller

def DODS_MAX_ARRAY : Nat := 2147483647

structure XDRStreamUnMarshaller where
  dSource : Handle UnMarshaller.XDR_DAP_BUFF_SIZE
  dIn : IStream

namespace XDRStreamUnMarshaller

/-- The reader before a stream with these bytes. -/
def before (u : XDRStreamUnMarshaller) (bs : Bytes) : XDRStreamUnMarshaller :=
  { u with dIn := IStream.ofBytes bs }

/-- `d_in.read(d_buf + offset, len)`; the handle's position is not touched. -/
def fill (u : XDRStreamUnMarshaller) (offset : Nat) (len : Int) :
    Except Fault XDRStreamUnMarshaller :=
  match u.dSource.base.store offset (u.dIn.readInt len).1 with
  | none => .error .outOfBounds
  | some base => .ok ⟨{ u.dSource with base := base }, (u.dIn.readInt len).2⟩

def rewind (u : XDRStreamUnMarshaller) : XDRStreamUnMarshaller :=
  { u with dSource := { u.dSource with pos := 0 } }

/-- The last step of a `get`: a filter that refuses is an error. -/
def decoded {α : Type} (u : XDRStreamUnMarshaller) (msg : String)
    (result : Option (α × Handle UnMarshaller.XDR_DAP_BUFF_SIZE)) :
    Except Fault (α × XDRStreamUnMarshaller) :=
  match result with
  | none => .error (.Error msg)
  | some (val, x) => .ok (val, { u with dSource := x })

def getInt (u : XDRStreamUnMarshaller) : Except Fault (Int × XDRStreamUnMarshaller) := do
  let u ← u.rewind.fill 0 4
  let (val, u) ← u.decoded "Network I/O Error(1)." (xdrUIntGet u.dSource)
  .ok (int32 val, u)

/-- `get_opaque(char *val, unsigned int len)` into a caller's block. The filter's result is not
looked at, so a refusal leaves the block as it was. -/
def getOpaque {cap : Nat} (u : XDRStreamUnMarshaller) (val : Buffer cap) (len : Nat) :
    Except Fault (Buffer cap × XDRStreamUnMarshaller) := do
  let u := u.rewind
  -- Round len up to the next multiple of 4.
  let len := uint32 (len + len % 4)
  if (UnMarshaller.XDR_DAP_BUFF_SIZE : Int) < int32 len then
    .error (.Error "Network I/O Error. Length of opaque data larger than allowed")
  else
    let u ← u.fill 0 len
    match xdrOpaqueGet u.dSource len with
    | none => .ok (val, u)
    | some (bs, x) =>
      match val.store 0 bs with
      | none => .error .outOfBounds
      | some val => .ok (val, { u with dSource := x })

/-- A filter's result put into the caller's block, and its length. -/
def stored {cap : Nat} (u : XDRStreamUnMarshaller) (val : Buffer cap) (bs : Bytes) :
    Except Fault (Buffer cap × Nat × XDRStreamUnMarshaller) :=
  match val.store 0 bs with
  | none => .error .outOfBounds
  | some val => .ok (val, bs.length, u)

/-- `get_vector(char **val, unsigned int &num, Vector &)`, the version for bytes, with `val`
pointing to a block. -/
def getByteVector {cap : Nat} (u : XDRStreamUnMarshaller) (val : Buffer cap) :
    Except Fault (Buffer cap × Nat × XDRStreamUnMarshaller) := do
  let (i, u) ← u.getInt
  let i := int32 (i + i % 4)
  if (UnMarshaller.XDR_DAP_BUFF_SIZE : Int) < int32 (i + 4) then
    -- The data go to a block of their own, but the filter is run on `d_source`.
    let u := { u with dIn := (u.dIn.readInt i).2 }
    let (bs, u) ← u.decoded "Network I/O Error. Could not read byte array data."
      (xdrBytesGet u.dSource DODS_MAX_ARRAY)
    u.stored val bs
  else
    let u ← u.fill 4 i
    let (bs, u) ← u.decoded "Network I/O Error. Could not read byte array data."
      (xdrBytesGet u.rewind.dSource DODS_MAX_ARRAY)
    u.stored val bs

/-- The block that a long array is decoded from: the count from `d_buf` and the data after it. -/
def arrayBlock (u : XDRStreamUnMarshaller) (n : Nat) (data : Bytes) : Option (Buffer n) :=
  ((Buffer.zeros n).store 0 (u.dSource.base.bytes.take 4)).bind fun buf => buf.store 4 data

/-- `get_vector(char **val, unsigned int &num, int width, Type type)`, with `val` pointing to a
block. -/
def getVector {cap : Nat} (u : XDRStreamUnMarshaller) (host : ByteOrder) (val : Buffer cap)
    (width : Nat) (type : NumberType) : Except Fault (Buffer cap × Nat × XDRStreamUnMarshaller) := do
  let (i, u) ← u.getInt
  let width := width + width % 4
  let size := int32 (i * width)
  if (UnMarshaller.XDR_DAP_BUFF_SIZE : Int) < size then
    -- `vector<char> buf(size+4)`
    if int32 (size + 4) < 0 then .error .lengthError
    else
      match u.arrayBlock (size + 4).toNat (u.dIn.readInt size).1 with
      | none => .error .outOfBounds
      | some buf =>
        match ← xdrArrayGet (Handle.create buf) host val DODS_MAX_ARRAY width (xdrCoder type) with
        | none => .error (.Error "Network I/O Error. Could not read array data.")
        | some (num, val, _) => .ok (val, num, { u with dIn := (u.dIn.readInt size).2 })
  else
    let u ← u.fill 4 size
    match ← xdrArrayGet u.rewind.dSource host val DODS_MAX_ARRAY width (xdrCoder type) with
    | none => .error (.Error "Network I/O Error. Could not read array data.")
    | some (num, val, x) => .ok (val, num, { u with dSource := x })

@[simp] theorem before_dIn (u : XDRStreamUnMarshaller) (bs : Bytes) :
    (u.before bs).dIn = IStream.ofBytes bs := rfl

@[simp] theorem rewind_dIn (u : XDRStreamUnMarshaller) : u.rewind.dIn = u.dIn := rfl

@[simp] theorem rewind_pos (u : XDRStreamUnMarshaller) : u.rewind.dSource.pos = 0 := rfl

theorem decoded_ok {α : Type} {u v : XDRStreamUnMarshaller} {msg : String} {val : α}
    {result : Option (α × Handle UnMarshaller.XDR_DAP_BUFF_SIZE)}
    (h : u.decoded msg result = .ok (val, v)) :
    ∃ x, result = some (val, x) ∧ v = { u with dSource := x } := by
  cases result with
  | none => cases h
  | some p =>
    cases h
    exact ⟨p.2, rfl, rfl⟩

theorem stored_ok {cap num : Nat} {u v : XDRStreamUnMarshaller} {val block : Buffer cap} {bs : Bytes}
    (h : u.stored val bs = .ok (block, num, v)) : bs.length = num ∧ v = u := by
  rw [stored] at h
  split at h
  · cases h
  · cases h
    exact ⟨rfl, rfl⟩

theorem stored_whole {cap : Nat} (u : XDRStreamUnMarshaller) (val : Buffer cap) (bs : Bytes)
    (h : bs.length = cap) : ∃ block, u.stored val bs = .ok (block, cap, u) ∧ block.bytes = bs := by
  obtain ⟨block, hStore⟩ := val.store_some 0 bs (show 0 + bs.length ≤ cap by omega)
  refine ⟨block, ?_, Buffer.store_whole hStore h⟩
  rw [stored, hStore, h]

theorem fill_of_fits (u : XDRStreamUnMarshaller) (offset : Nat) (len : Int)
    (h : offset + (u.dIn.readInt len).1.length ≤ UnMarshaller.XDR_DAP_BUFF_SIZE) :
    ∃ v, u.fill offset len = .ok v ∧ v.dIn = (u.dIn.readInt len).2 ∧
      v.dSource.pos = u.dSource.pos ∧
      v.dSource.base.bytes.drop offset = (u.dIn.readInt len).1 ++
        u.dSource.base.bytes.drop (offset + (u.dIn.readInt len).1.length) ∧
      v.dSource.base.bytes.take offset = u.dSource.base.bytes.take offset := by
  obtain ⟨base, hStore⟩ := u.dSource.base.store_some _ _ h
  refine ⟨⟨{ u.dSource with base := base }, (u.dIn.readInt len).2⟩, ?_, rfl, rfl,
    Buffer.drop_store hStore, Buffer.take_store hStore (Nat.le_refl _)⟩
  rw [fill, hStore]

theorem fill_dIn {u v : XDRStreamUnMarshaller} {offset : Nat} {len : Int}
    (h : u.fill offset len = .ok v) :
    v.dIn = (u.dIn.readInt len).2 := by
  rw [fill] at h
  split at h
  · cases h
  · cases h
    rfl

/-- The count at the head of the stream is read into the first four bytes of `d_buf`. -/
theorem getInt_of_stream (u : XDRStreamUnMarshaller) {v : Nat} {rest : Bytes}
    (h : u.dIn = IStream.ofBytes (toBE 4 v ++ rest)) :
    ∃ w, u.getInt = .ok (int32 (v % 256 ^ 4 : Nat), w) ∧ w.dIn = IStream.ofBytes rest ∧
      w.dSource.pos = 4 ∧ w.dSource.base.bytes.take 4 = toBE 4 v := by
  have hRead : u.rewind.dIn.readInt 4 = (toBE 4 v, IStream.ofBytes rest) := by
    rw [rewind_dIn, h]
    exact IStream.read_append_of_length (length_toBE 4 v)
  obtain ⟨w, hFill, hIn, hPos, hDrop, _⟩ := u.rewind.fill_of_fits 0 4 (by
    rw [hRead, length_toBE]
    decide)
  rw [hRead] at hIn hDrop
  rw [List.drop_zero] at hDrop
  rw [rewind_pos] at hPos
  have hPending : w.dSource.pending = toBE 4 v ++
      u.rewind.dSource.base.bytes.drop (0 + (toBE 4 v).length) := by
    rw [Handle.pending, hPos, List.drop_zero, hDrop]
  obtain ⟨hGet, _⟩ := xdrUIntGet_of_pending (by omega) hPending
  refine ⟨{ w with dSource := { w.dSource with pos := w.dSource.pos + 4 } }, ?_, hIn, ?_, ?_⟩
  · rw [getInt, hFill]
    change (do
      let (val, u) ← w.decoded "Network I/O Error(1)." (xdrUIntGet w.dSource)
      Except.ok (int32 val, u)) = _
    rw [hGet]
    rfl
  · rw [hPos]
  · rw [hDrop, List.take_left' (length_toBE 4 v)]

theorem getInt_of_count {u : XDRStreamUnMarshaller} {n : Nat} {stream : Bytes} (hCount : n ≤ INT_MAX)
    (hIn : u.dIn = IStream.ofBytes (toBE 4 n ++ stream)) :
    ∃ w, u.getInt = .ok ((n : Int), w) ∧ w.dIn = IStream.ofBytes stream ∧
      w.dSource.pos = 4 ∧ w.dSource.base.bytes.take 4 = toBE 4 n := by
  simp only [INT_MAX] at hCount
  have hVal : int32 ((n % 256 ^ 4 : Nat) : Int) = n := by
    rw [Nat.mod_eq_of_lt (by omega), int32_of_bounds (by omega) (by simp only [INT_MAX]; omega)]
  rw [← hVal]
  exact u.getInt_of_stream hIn

theorem getInt_le_INT_MAX {u v : XDRStreamUnMarshaller} {i : Int} (h : u.getInt = .ok (i, v)) :
    i ≤ INT_MAX := by
  rw [getInt] at h
  obtain ⟨w, _, h⟩ := bind_eq_ok h
  obtain ⟨p, _, h⟩ := bind_eq_ok h
  injection h with h
  injection h with hVal _
  rw [← hVal]
  exact (int32_bounds p.1).2

/-- The data that follow the count are read to their place after it. -/
theorem fill_after_count (u : XDRStreamUnMarshaller) {n : Nat} {data rest : Bytes}
    (hIn : u.dIn = IStream.ofBytes (data ++ rest))
    (hHead : u.dSource.base.bytes.take 4 = toBE 4 n)
    (hFit : 4 + data.length ≤ UnMarshaller.XDR_DAP_BUFF_SIZE) :
    ∃ v tail, u.fill 4 data.length = .ok v ∧ v.dIn = IStream.ofBytes rest ∧
      v.rewind.dSource.pending = toBE 4 n ++ (data ++ tail) := by
  have hRead : u.dIn.readInt data.length = (data, IStream.ofBytes rest) := by
    rw [IStream.readInt_natCast, hIn, IStream.read_append]
  obtain ⟨v, hFill, hLast, _, hDrop, hTake⟩ := u.fill_of_fits 4 data.length (by rwa [hRead])
  rw [hRead] at hLast hDrop
  refine ⟨v, u.dSource.base.bytes.drop (4 + data.length), hFill, hLast, ?_⟩
  rw [Handle.pending, rewind_pos, List.drop_zero, ← hHead, ← hTake, ← hDrop]
  exact (List.take_append_drop 4 v.dSource.base.bytes).symm

end XDRStreamUnMarshaller

end Libdap.Xdr
