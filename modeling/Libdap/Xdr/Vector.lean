import Libdap.Xdr.XDRStreamMarshaller
import Libdap.Xdr.XDRStreamUnMarshaller

/-! # Vectors of cardinal types

`Vector::serialize` sends the elements of `_buf` and `Vector::deserialize` receives them. The
reader uses one variable for the step through memory and for the length in the stream, and tests
the length of the data alone against a static block that must also hold the count.
-/

namespace Libdap.Xdr
open Core
set_option autoImplicit false

inductive CardinalType
  | dodsByteC
  | number (t : NumberType)
  deriving DecidableEq, Repr

def CardinalType.width : CardinalType → Nat
  | dodsByteC => 1
  | number t => t.width

/-- A `Vector` whose elements are of a cardinal type; `buf` is `none` while no block is allocated. -/
structure Vector where
  type : CardinalType
  dLength : Int
  buf : Option Bytes

namespace Vector

/-- `serialize` once the data were read and the selection passed. -/
def serialize (v : Vector) (host : ByteOrder) (m : XDRStreamMarshaller) :
    Except Fault XDRStreamMarshaller :=
  match v.type, v.buf with
  | .dodsByteC, none => m.putByteVector (none : Option (Buffer 0)) v.dLength
  | .dodsByteC, some bs => m.putByteVector (some (Buffer.ofBytes bs)) v.dLength
  | .number t, none =>
    m.putVector host (none : Option (Buffer 0)) (uint32 v.dLength) t.width t
  | .number t, some bs =>
    m.putVector host (some (Buffer.ofBytes bs)) (uint32 v.dLength) t.width t

/-- `_buf` when the data arrive: the block that is there, or a new one for `d_length` elements. -/
def cardinalBuffer (v : Vector) : Bytes :=
  v.buf.getD (Buffer.zeros (uint32 (v.type.width * uint32 v.dLength))).bytes

/-- `deserialize` from the count on, when it is settled whether the old block is used. -/
def receive (v : Vector) (host : ByteOrder) (u : XDRStreamUnMarshaller) :
    Except Fault (Vector × XDRStreamUnMarshaller) := do
  let (i, u) ← u.getInt
  let num := uint32 i
  let v := if v.dLength = -1 then { v with dLength := int32 num } else v
  if num ≠ uint32 v.dLength then
    .error (.InternalErr "The server sent declarations and data with mismatched sizes.")
  else
    match v.type with
    | .dodsByteC => do
      let (val, _, u) ← u.getByteVector (Buffer.ofBytes v.cardinalBuffer)
      .ok ({ v with buf := some val.bytes }, u)
    | .number t => do
      let (val, _, u) ← u.getVector host (Buffer.ofBytes v.cardinalBuffer) t.width t
      .ok ({ v with buf := some val.bytes }, u)

def deserialize (v : Vector) (host : ByteOrder) (u : XDRStreamUnMarshaller) (reuse : Bool) :
    Except Fault (Vector × XDRStreamUnMarshaller) :=
  (if reuse then v else { v with buf := none }).receive host u

end Vector

/-- The reader's element length for a type; the steps through memory have this length too. -/
def NumberType.wire (t : NumberType) : Nat := t.width + t.width % 4

theorem NumberType.wire_eq (t : NumberType) : t.wire = (xdrCoder t).wire := by cases t <;> rfl

theorem NumberType.wire_bounds (t : NumberType) : 4 ≤ t.wire ∧ t.wire ≤ 8 := by cases t <;> decide

theorem NumberType.use_width (t : NumberType) : (if t.width < 4 then 4 else t.width) = t.wire := by
  cases t <;> rfl

theorem NumberType.wire_eq_width (t : NumberType) (h : 4 ≤ t.width) : t.wire = t.width := by
  cases t <;> first | rfl | exact absurd h (by decide)

theorem NumberType.width_eq_two (t : NumberType) (h : t.width < 4) : t.width = 2 ∧ t.wire = 4 := by
  cases t <;> first | exact ⟨rfl, rfl⟩ | exact absurd h (by decide)

namespace XDRStreamMarshaller

theorem vec_buf_size (t : NumberType) (num : Nat) :
    (num : Int) * ((if t.width < 4 then 4 else t.width : Nat) : Int) + 4 =
      ((num * t.wire + 4 : Nat) : Int) := by
  rw [t.use_width]
  omega

/-- How `put_vector` ends, once the length of its block is known. -/
theorem putVector_of_filter (m : XDRStreamMarshaller) (host : ByteOrder) (t : NumberType)
    {cap num size : Nat} (val : Buffer cap)
    (hSize : int32 (uint32 ((num * t.wire + 4 : Nat) : Int)) = size) :
    ∃ x, (∀ y, xdrArrayPut (Handle.create (Buffer.zeros size)) host val num size t.width
          (xdrCoder t) = .ok (some y) → y.pos ≠ 0 →
        m.putVector host (some val) num t.width t = .ok ⟨x, m.dOut ++ toBE 4 num ++ y.written⟩) ∧
      (xdrArrayPut (Handle.create (Buffer.zeros size)) host val num size t.width (xdrCoder t) =
          .ok none → ∃ f, m.putVector host (some val) num t.width t = .error f) := by
  obtain ⟨x, hInt⟩ := m.putInt_ok num
  have hCount : toBE 4 (uint32 (num : Int)) = toBE 4 num := by
    rw [uint32_natCast]
    exact toBE_mod 4 num
  rw [hCount] at hInt
  refine ⟨x, fun y hPut hPos => ?_, fun hPut => ?_⟩
  · rw [putVector, hInt, ok_bind]
    dsimp only
    rw [vec_buf_size, hSize, if_neg (by omega), Int.toNat_natCast, encode_of_some _ _ hPut hPos]
    rfl
  · rw [putVector, hInt, ok_bind]
    dsimp only
    rw [vec_buf_size, hSize, if_neg (by omega), Int.toNat_natCast, encode_of_none _ _ hPut]
    exact ⟨_, rfl⟩

theorem putVector_ok (m : XDRStreamMarshaller) (host : ByteOrder) (t : NumberType) {cap num : Nat}
    (val : Buffer cap) (hCap : num * t.width ≤ cap) (hSize : num * t.wire + 4 ≤ INT_MAX) :
    ∃ x, m.putVector host (some val) num t.width t = .ok ⟨x, m.dOut ++ toBE 4 num ++
      (toBE 4 num ++ (xdrCoder t).elementsForm host num val.bytes)⟩ := by
  simp only [INT_MAX] at hSize
  have hNum : num * 4 ≤ num * t.wire := Nat.mul_le_mul_left num t.wire_bounds.1
  have hWord : num ≤ UINT_MAX / t.width := by
    rw [Nat.le_div_iff_mul_le (by cases t <;> decide)]
    have hWidth : num * t.width ≤ num * t.wire := Nat.mul_le_mul_left num (Nat.le_add_right _ _)
    rw [UINT_MAX]
    omega
  have hFits : int32 (uint32 ((num * t.wire + 4 : Nat) : Int)) = (num * t.wire + 4 : Nat) := by
    rw [uint32_of_bounds (by omega) (by omega),
      int32_of_bounds (by omega) (by simp only [INT_MAX]; omega)]
  obtain ⟨x, hPut, _⟩ := m.putVector_of_filter host t val hFits
  obtain ⟨y, hArray, hEnd, hWritten⟩ := xdrArrayPut_of_fits
    (Handle.create (Buffer.zeros (num * t.wire + 4))) host val num (num * t.wire + 4) (xdrCoder t)
    (by omega) (by rwa [xdrCoder_width]) (by rwa [xdrCoder_width])
    (by rw [← t.wire_eq]; change 0 + 4 + _ ≤ _; omega)
  rw [xdrCoder_width] at hArray
  refine ⟨x, ?_⟩
  rw [hPut y hArray (by rw [hEnd]; omega), hWritten]
  rfl

/-- Where the block's length does not fit an `int`, there is no block that could hold the elements. -/
theorem putVector_too_long (m : XDRStreamMarshaller) (host : ByteOrder) (t : NumberType)
    {cap num : Nat} (val : Buffer cap) (hCap : num * t.width ≤ cap)
    (hSize : INT_MAX < num * t.wire + 4) :
    ∃ f, m.putVector host (some val) num t.width t = .error f := by
  by_cases hNeg : int32 (uint32 ((num * t.wire + 4 : Nat) : Int)) < 0
  · obtain ⟨x, hInt⟩ := m.putInt_ok num
    refine ⟨.lengthError, ?_⟩
    rw [putVector, hInt, ok_bind]
    dsimp only
    rw [vec_buf_size, if_pos hNeg]
  · obtain ⟨size, hEq⟩ := Int.eq_ofNat_of_zero_le (Int.not_lt.mp hNeg)
    have hShort : size < num * t.wire + 4 := by
      have hBounds := (int32_bounds (uint32 ((num * t.wire + 4 : Nat) : Int))).2
      omega
    obtain ⟨_, _, hPut⟩ := m.putVector_of_filter host t val hEq
    refine hPut ?_
    have hNone := xdrArrayPut_eq_none (Handle.create (Buffer.zeros size)) host val num size
      (xdrCoder t) (Nat.zero_le _) (by rwa [xdrCoder_width])
      (by rw [← t.wire_eq]; change size < 0 + 4 + _; omega)
    rwa [xdrCoder_width] at hNone

end XDRStreamMarshaller

end Libdap.Xdr
