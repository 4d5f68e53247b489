import Libdap.Xdr.XDRStreamMarshaller
import Libdap.Xdr.XDRStreamUnMarshaller

/-! # Byte vectors

The element count is sent twice, by `put_vector` itself and as the count of the XDR bytes. The
reader takes the second one to work out how much to read, rounding it as `get_opaque` does, and
for long vectors runs the filter on a handle that never saw the data.
-/

namespace Libdap.Xdr
open Core
set_option autoImplicit false

/-- The client's `get_int` and `get_vector` on what `put_vector` sent: the count and the bytes are
back, and the stream is at the first byte of what follows. -/
def ByteVectorReadsBack (m : XDRStreamMarshaller) (u : XDRStreamUnMarshaller) (val : Bytes)
    (block : Buffer val.length) (rest : Bytes) : Prop :=
  ∃ m' out block' u₁ u₂, m.putByteVector (some (Buffer.ofBytes val)) val.length = .ok m' ∧
    m'.dOut = m.dOut ++ out ∧
    (u.before (out ++ rest)).getInt =
      .ok ((val.length : Int), u₁) ∧
    u₁.getByteVector block = .ok (block', val.length, u₂) ∧ block'.bytes = val ∧
    u₂.dIn = IStream.ofBytes rest

/-- Counted bytes never exceed the block they were decoded from. -/
theorem xdrBytesGet_length {n maxsize : Nat} {x y : Handle n} {bs : Bytes}
    (h : xdrBytesGet x maxsize = some (bs, y)) : bs = [] ∨ x.pos + 4 + bs.length ≤ n := by
  obtain ⟨⟨cnt, x₁⟩, hCount, hRest⟩ := Option.bind_eq_some_iff.mp h
  obtain ⟨⟨got, x₂⟩, hGet, hCnt⟩ := Option.map_eq_some_iff.mp hCount
  have hFit : x.pos + 4 ≤ n := by
    by_contra hShort
    rw [Handle.getbytes_eq_none (by omega)] at hGet
    cases hGet
  rw [Handle.getbytes_of_le x hFit] at hGet
  cases hGet
  cases hCnt
  dsimp only at hRest
  split at hRest
  · cases hRest
  split at hRest
  · cases hRest
    exact .inl rfl
  · rename_i hNonzero
    have hLength := length_of_xdrOpaqueGet hRest
    right
    by_contra hLong
    rw [xdrOpaqueGet_eq_none hNonzero (show n < x.pos + 4 + _ by omega)] at hRest
    cases hRest

namespace XDRStreamUnMarshaller

/-- The amount of data that `get_vector` reads after the count `n`. -/
def roundedCount (n : Nat) : Nat := n + n % 4

/-- Bytes that were decoded from the static block are no more than it had after the count. -/
theorem decoded_bytes_ok {u v : XDRStreamUnMarshaller} {msg : String} {maxsize pos : Nat} {bs : Bytes}
    {x : Handle UnMarshaller.XDR_DAP_BUFF_SIZE} (hPos : x.pos = pos)
    (hRoom : pos + 4 ≤ UnMarshaller.XDR_DAP_BUFF_SIZE)
    (h : u.decoded msg (xdrBytesGet x maxsize) = .ok (bs, v)) :
    pos + 4 + bs.length ≤ UnMarshaller.XDR_DAP_BUFF_SIZE ∧ v.dIn = u.dIn := by
  obtain ⟨y, hBytes, rfl⟩ := decoded_ok h
  refine ⟨?_, rfl⟩
  rcases xdrBytesGet_length hBytes with rfl | hLength
  · exact hRoom
  · rwa [hPos] at hLength

theorem int32_roundedCount {n : Nat} (h : n ≤ UnMarshaller.XDR_DAP_BUFF_SIZE) :
    int32 ((n : Int) + n % 4) = roundedCount n := by
  simp only [UnMarshaller.XDR_DAP_BUFF_SIZE] at h
  rw [int32_of_bounds (by omega) (by simp only [INT_MAX]; omega), roundedCount]
  omega

/-- The test for the large path, on a count that the static block could hold. -/
theorem large_iff {n : Nat} (h : n ≤ UnMarshaller.XDR_DAP_BUFF_SIZE) :
    (UnMarshaller.XDR_DAP_BUFF_SIZE : Int) < int32 ((roundedCount n : Nat) + 4) ↔
      UnMarshaller.XDR_DAP_BUFF_SIZE < roundedCount n + 4 := by
  simp only [UnMarshaller.XDR_DAP_BUFF_SIZE, roundedCount] at h ⊢
  rw [int32_of_bounds (by omega) (by simp only [INT_MAX]; omega)]
  omega

/-- What a returning `get_vector` did, once the count is known to fit an `int`. -/
theorem getByteVector_ok {cap num n : Nat} {u v : XDRStreamUnMarshaller} {val block : Buffer cap}
    {stream : Bytes} (hIn : u.dIn = IStream.ofBytes (toBE 4 n ++ stream)) (hCount : n ≤ INT_MAX)
    (h : u.getByteVector val = .ok (block, num, v)) :
    num + 4 ≤ UnMarshaller.XDR_DAP_BUFF_SIZE ∧
      (num = n → v.dIn = ((IStream.ofBytes stream).read (roundedCount n)).2) := by
  obtain ⟨w, hInt, hIn', hPos, _⟩ := getInt_of_count hCount hIn
  rw [getByteVector, hInt, ok_bind] at h
  generalize DODS_MAX_ARRAY = maxsize at h
  dsimp only at h
  split at h
  · -- The filter was run on `d_source`, whose first four bytes were already consumed.
    rename_i hLarge
    obtain ⟨⟨bs, w'⟩, hDecoded, h⟩ := bind_eq_ok h
    dsimp only at h
    obtain ⟨rfl, rfl⟩ := stored_ok h
    obtain ⟨hRoom, _⟩ := decoded_bytes_ok hPos (by decide) hDecoded
    refine ⟨by omega, fun hLength => ?_⟩
    rw [int32_roundedCount (by omega), large_iff (by omega)] at hLarge
    simp only [UnMarshaller.XDR_DAP_BUFF_SIZE, roundedCount] at hRoom hLarge
    omega
  · obtain ⟨w₁, hFill, h⟩ := bind_eq_ok h
    obtain ⟨⟨bs, w'⟩, hDecoded, h⟩ := bind_eq_ok h
    dsimp only at h
    obtain ⟨rfl, rfl⟩ := stored_ok h
    obtain ⟨hRoom, hLast⟩ := decoded_bytes_ok (rewind_pos w₁) (by decide) hDecoded
    refine ⟨by omega, fun hLength => ?_⟩
    rw [int32_roundedCount (by omega)] at hFill
    rw [hLast, fill_dIn hFill, IStream.readInt_natCast, hIn']

/-- Up to the size of the static block, and for a count that rounding brings to the padded length,
the vector is read back. -/
theorem getByteVector_of_even (u : XDRStreamUnMarshaller) {bs rest : Bytes}
    (block : Buffer bs.length) (hEven : bs.length % 2 = 0)
    (hFit : bs.length + 4 ≤ UnMarshaller.XDR_DAP_BUFF_SIZE)
    (hIn : u.dIn = IStream.ofBytes (toBE 4 bs.length ++ (opaqueForm bs ++ rest))) :
    ∃ block' v, u.getByteVector block = .ok (block', bs.length, v) ∧ block'.bytes = bs ∧
      v.dIn = IStream.ofBytes rest := by
  have hSize : UnMarshaller.XDR_DAP_BUFF_SIZE = 4096 := rfl
  have hMax : bs.length ≤ DODS_MAX_ARRAY := by
    rw [DODS_MAX_ARRAY]
    omega
  obtain ⟨w, hInt, hIn', hPos, hHead⟩ := getInt_of_count (by rw [INT_MAX]; omega) hIn
  have hForm : roundedCount bs.length = (opaqueForm bs).length := by
    rw [length_opaqueForm, roundedCount]
    simp only [padding]
    omega
  have hRoom : 4 + (opaqueForm bs).length ≤ UnMarshaller.XDR_DAP_BUFF_SIZE := by
    rw [← hForm, roundedCount]
    omega
  obtain ⟨v, tail, hFill, hLast, hBlock⟩ := w.fill_after_count hIn' hHead hRoom
  rw [getByteVector, hInt, ok_bind]
  generalize DODS_MAX_ARRAY = maxsize at hMax ⊢
  obtain ⟨x, hBytes, _⟩ := xdrBytesGet_of_pending (Nat.zero_le _) hMax (by omega) hBlock
  obtain ⟨block', hStored, hBytes'⟩ := { v with dSource := x }.stored_whole block bs rfl
  refine ⟨block', { v with dSource := x }, ?_, hBytes', hLast⟩
  dsimp only
  rw [int32_roundedCount (by omega), if_neg (by rw [large_iff (by omega)]; omega), hForm, hFill,
    ok_bind, hBytes, decoded, ok_bind]
  exact hStored

/-- The count that stands before the counted bytes. -/
theorem getInt_of_vector (u : XDRStreamUnMarshaller) {val : Bytes} (rest : Bytes)
    (h : val.length ≤ INT_MAX) :
    ∃ w, (u.before (toBE 4 val.length ++ (toBE 4 val.length ++ opaqueForm val) ++ rest)).getInt =
        .ok ((val.length : Int), w) ∧
      w.dIn = IStream.ofBytes (toBE 4 val.length ++ (opaqueForm val ++ rest)) := by
  obtain ⟨w, hInt, hIn, _⟩ := getInt_of_count
    (u := u.before (toBE 4 val.length ++ (toBE 4 val.length ++ opaqueForm val) ++ rest)) h
    (congrArg IStream.ofBytes (List.append_assoc _ _ _))
  exact ⟨w, hInt, by rw [hIn, List.append_assoc]⟩

end XDRStreamUnMarshaller

theorem byteVectorReadsBack_iff (m : XDRStreamMarshaller) (u : XDRStreamUnMarshaller) (val : Bytes)
    (block : Buffer val.length) (rest : Bytes) :
    ByteVectorReadsBack m u val block rest ↔
      val.length % 2 = 0 ∧ val.length + 4 ≤ UnMarshaller.XDR_DAP_BUFF_SIZE := by
  constructor
  · rintro ⟨m', out, block', u₁, u₂, hPut, hOut, hInt, hGet, _, hLast⟩
    have hMax : (val.length : Int) ≤ INT_MAX := XDRStreamUnMarshaller.getInt_le_INT_MAX hInt
    obtain ⟨x, hPut'⟩ := m.putByteVector_ok hMax
    rw [hPut'] at hPut
    cases hPut
    rw [List.append_assoc] at hOut
    have hOut := List.append_cancel_left hOut
    subst hOut
    obtain ⟨w, hInt', hIn⟩ := u.getInt_of_vector rest hMax
    rw [hInt'] at hInt
    cases hInt
    obtain ⟨hFit, hPosition⟩ := XDRStreamUnMarshaller.getByteVector_ok hIn hMax hGet
    refine ⟨?_, hFit⟩
    have hPosition := hPosition rfl
    rw [hLast] at hPosition
    have hForm := length_opaqueForm val
    by_cases hRoom : XDRStreamUnMarshaller.roundedCount val.length ≤ (opaqueForm val ++ rest).length
    · rw [IStream.read_of_le hRoom] at hPosition
      have hLength := congrArg (fun s => s.rest.length) hPosition
      simp only [IStream.ofBytes, List.length_drop, List.length_append] at hLength hRoom
      simp only [XDRStreamUnMarshaller.roundedCount, padding] at hLength hForm hRoom
      omega
    · rw [IStream.read_of_lt (Nat.lt_of_not_le hRoom)] at hPosition
      cases hPosition
  · rintro ⟨hEven, hFit⟩
    have hSize : UnMarshaller.XDR_DAP_BUFF_SIZE = 4096 := rfl
    have hMax : (val.length : Int) ≤ INT_MAX := by
      rw [INT_MAX]
      omega
    obtain ⟨x, hPut⟩ := m.putByteVector_ok hMax
    obtain ⟨w, hInt, hIn⟩ := u.getInt_of_vector rest hMax
    obtain ⟨block', v, hGet, hBytes, hLast⟩ := w.getByteVector_of_even block hEven hFit hIn
    exact ⟨_, _, block', w, v, hPut, List.append_assoc _ _ _, hInt, hGet, hBytes, hLast⟩

/-- Byte vectors are read back, by the two calls of `Vector::deserialize`, exactly when their
length is even and leaves room for the count in the reader's static block. -/
theorem byte_vector_read_back (m : XDRStreamMarshaller) (u : XDRStreamUnMarshaller) (rest : Bytes)
    (val : Bytes) (block : Buffer val.length) :
    ByteVectorReadsBack m u val block rest ↔
      val.length % 2 = 0 ∧ val.length + 4 ≤ UnMarshaller.XDR_DAP_BUFF_SIZE :=
  byteVectorReadsBack_iff m u val block rest

/-- A vector of one byte is not read back. -/
theorem byte_vector_of_one_not_read_back :
    ¬ ByteVectorReadsBack (XDRStreamMarshaller.create (Buffer.zeros _))
      ⟨Handle.create (Buffer.zeros _), IStream.ofBytes []⟩ [7] (Buffer.zeros 1) [] := by
  rw [byteVectorReadsBack_iff]
  rintro ⟨hEven, _⟩
  cases hEven

end Libdap.Xdr
