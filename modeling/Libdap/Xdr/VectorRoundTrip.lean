import Libdap.Xdr.Vector

/-! # Reading back a vector of numbers -/

namespace Libdap.Xdr
open Core
set_option autoImplicit false

namespace XDRStreamUnMarshaller

theorem arrayBlock_of_head (u : XDRStreamUnMarshaller) {n num : Nat} (data : Bytes)
    (hHead : u.dSource.base.bytes.take 4 = toBE 4 num) (hn : n = data.length + 4) :
    ∃ buf, u.arrayBlock n data = some buf ∧ buf.bytes = toBE 4 num ++ data := by
  obtain ⟨b, hFirst⟩ := (Buffer.zeros n).store_some 0 (toBE 4 num)
    (by rw [length_toBE]; omega)
  obtain ⟨c, hSecond⟩ := b.store_some 4 data (by omega)
  refine ⟨c, ?_, ?_⟩
  · rw [arrayBlock, hHead, hFirst]
    exact hSecond
  · have hTake := Buffer.take_store_all hFirst
    rw [length_toBE, List.take_zero, List.nil_append, Nat.zero_add] at hTake
    have hAll := Buffer.take_store_all hSecond
    rwa [hTake, List.take_of_length_le (by rw [c.size_eq]; omega)] at hAll

/-- `get_vector` decodes the count and the data from a block, the static one or one of its own. -/
theorem getVector_of_stream {cap num : Nat} (u : XDRStreamUnMarshaller) (host : ByteOrder)
    (t : NumberType) (val : Buffer cap) {data rest : Bytes} (hData : data.length = num * t.wire)
    (hSize : num * t.wire + 4 ≤ INT_MAX) (hEdge : num * t.wire ≠ UnMarshaller.XDR_DAP_BUFF_SIZE)
    (hIn : u.dIn = IStream.ofBytes (toBE 4 num ++ (data ++ rest))) :
    ∃ (n : Nat) (x : Handle n) (tail : Bytes), x.pos = 0 ∧
      x.pending = toBE 4 num ++ (data ++ tail) ∧
      (∀ num' val' y, xdrArrayGet x host val DODS_MAX_ARRAY t.wire (xdrCoder t) =
          .ok (some (num', val', y)) →
        ∃ v, u.getVector host val t.width t = .ok (val', num', v) ∧ v.dIn = IStream.ofBytes rest) ∧
      ∀ f, xdrArrayGet x host val DODS_MAX_ARRAY t.wire (xdrCoder t) = .error f →
        u.getVector host val t.width t = .error f := by
  have hBuff : UnMarshaller.XDR_DAP_BUFF_SIZE = 4096 := rfl
  simp only [INT_MAX] at hSize
  have hNum : num * 4 ≤ num * t.wire := Nat.mul_le_mul_left num t.wire_bounds.1
  obtain ⟨w, hInt, hIn', _, hHead⟩ := getInt_of_count (by rw [INT_MAX]; omega) hIn
  have hLen : int32 ((num : Int) * ((t.width + t.width % 4 : Nat) : Int)) = data.length := by
    change int32 ((num : Int) * (t.wire : Int)) = _
    rw [hData, ← Int.natCast_mul, int32_of_bounds (by omega) (by rw [INT_MAX]; omega)]
  have hRead : w.dIn.readInt data.length = (data, IStream.ofBytes rest) := by
    rw [IStream.readInt_natCast, hIn', IStream.read_append]
  by_cases hLarge : UnMarshaller.XDR_DAP_BUFF_SIZE < data.length
  · obtain ⟨buf, hBlock, hBytes⟩ := w.arrayBlock_of_head data hHead
      (show ((data.length : Int) + 4).toNat = data.length + 4 by omega)
    have hRoom : ¬ int32 ((data.length : Int) + 4) < 0 := by
      rw [int32_of_bounds (by omega) (by rw [INT_MAX]; omega)]
      omega
    refine ⟨_, Handle.create buf, [], rfl, by rw [List.append_nil]; exact hBytes, ?_, ?_⟩
    · intro num' val' y hArray
      refine ⟨{ w with dIn := IStream.ofBytes rest }, ?_, rfl⟩
      rw [NumberType.wire] at hArray
      rw [getVector, hInt, ok_bind]
      generalize DODS_MAX_ARRAY = maxsize at hArray ⊢
      dsimp only
      rw [hLen, if_pos (by omega), if_neg hRoom, hRead]
      dsimp only
      rw [hBlock]
      dsimp only
      rw [hArray]
      rfl
    · intro f hArray
      rw [NumberType.wire] at hArray
      rw [getVector, hInt, ok_bind]
      generalize DODS_MAX_ARRAY = maxsize at hArray ⊢
      dsimp only
      rw [hLen, if_pos (by omega), if_neg hRoom, hRead]
      dsimp only
      rw [hBlock]
      dsimp only
      rw [hArray, error_bind]
  · have hFit : 4 + data.length ≤ UnMarshaller.XDR_DAP_BUFF_SIZE := by
      have hUnits : data.length % 4 = 0 := by
        rw [hData, NumberType.wire]
        cases t <;> simp only [NumberType.width] <;> omega
      omega
    obtain ⟨v, tail, hFill, hLast, hBlock⟩ := w.fill_after_count hIn' hHead hFit
    refine ⟨_, v.rewind.dSource, tail, rfl, hBlock, ?_, ?_⟩
    · intro num' val' y hArray
      refine ⟨{ v with dSource := y }, ?_, hLast⟩
      rw [NumberType.wire] at hArray
      rw [getVector, hInt, ok_bind]
      generalize DODS_MAX_ARRAY = maxsize at hArray ⊢
      dsimp only
      rw [hLen, if_neg (by omega), hFill, ok_bind, hArray]
      rfl
    · intro f hArray
      rw [NumberType.wire] at hArray
      rw [getVector, hInt, ok_bind]
      generalize DODS_MAX_ARRAY = maxsize at hArray ⊢
      dsimp only
      rw [hLen, if_neg (by omega), hFill, ok_bind, hArray, error_bind]

/-- Data of exactly the static block's length pass the test, and overrun the block. -/
theorem getVector_of_edge {cap num : Nat} (u : XDRStreamUnMarshaller) (host : ByteOrder)
    (t : NumberType) (val : Buffer cap) {data rest : Bytes} (hData : data.length = num * t.wire)
    (hEdge : num * t.wire = UnMarshaller.XDR_DAP_BUFF_SIZE)
    (hIn : u.dIn = IStream.ofBytes (toBE 4 num ++ (data ++ rest))) :
    u.getVector host val t.width t = .error .outOfBounds := by
  have hBuff : UnMarshaller.XDR_DAP_BUFF_SIZE = 4096 := rfl
  have hNum : num * 4 ≤ num * t.wire := Nat.mul_le_mul_left num t.wire_bounds.1
  obtain ⟨w, hInt, hIn', _, _⟩ := getInt_of_count (by rw [INT_MAX]; omega) hIn
  have hLen : int32 ((num : Int) * ((t.width + t.width % 4 : Nat) : Int)) = data.length := by
    change int32 ((num : Int) * (t.wire : Int)) = _
    rw [hData, ← Int.natCast_mul, int32_of_bounds (by omega) (by rw [INT_MAX]; omega)]
  rw [getVector, hInt, ok_bind]
  generalize DODS_MAX_ARRAY = maxsize
  dsimp only
  rw [hLen, if_neg (by omega), fill, IStream.readInt_natCast, hIn', IStream.read_append,
    Buffer.store_eq_none (by dsimp only; omega), error_bind]

theorem array_bounds {t : NumberType} {num : Nat} (hSize : num * t.wire + 4 ≤ INT_MAX) :
    num ≤ DODS_MAX_ARRAY ∧ num ≤ UINT_MAX / t.wire ∧ num < 256 ^ 4 := by
  simp only [INT_MAX] at hSize
  have hNum : num * 4 ≤ num * t.wire := Nat.mul_le_mul_left num t.wire_bounds.1
  refine ⟨?_, ?_, by omega⟩
  · rw [DODS_MAX_ARRAY]
    omega
  · rw [Nat.le_div_iff_mul_le (by have := t.wire_bounds; omega), UINT_MAX]
    omega

theorem getVector_ok {cap num : Nat} (u : XDRStreamUnMarshaller) (host : ByteOrder)
    (t : NumberType) (val : Buffer cap) {src rest : Bytes} (hCap : cap = num * t.width)
    (hSrc : src.length = num * t.width) (hStep : 4 ≤ t.width ∨ num ≤ 1)
    (hSize : num * t.wire + 4 ≤ INT_MAX) (hEdge : num * t.wire ≠ UnMarshaller.XDR_DAP_BUFF_SIZE)
    (hIn : u.dIn = IStream.ofBytes
      (toBE 4 num ++ ((xdrCoder t).elementsForm host num src ++ rest))) :
    ∃ val' v, u.getVector host val t.width t = .ok (val', num, v) ∧ val'.bytes = src ∧
      v.dIn = IStream.ofBytes rest := by
  have hForm := (xdrCoder t).length_elementsForm host num src
  rw [← t.wire_eq] at hForm
  obtain ⟨n, x, tail, hPos, hPending, hOk, _⟩ :=
    u.getVector_of_stream host t val hForm hSize hEdge hIn
  obtain ⟨hMax, hWord, hCount⟩ := array_bounds hSize
  have hElsize : t.wire = (xdrCoder t).width ∨ num ≤ 1 := by
    rw [xdrCoder_width]
    exact hStep.imp_left t.wire_eq_width
  obtain ⟨y, val', hArray, hBytes⟩ := xdrArrayGet_of_pending host val (xdrCoder t)
    (xdrCoder_width_le_wire t) (by omega) hMax hWord hCount hElsize (by rwa [xdrCoder_width])
    (by rwa [xdrCoder_width]) hPending
  obtain ⟨v, hGet, hLast⟩ := hOk num val' y hArray
  exact ⟨val', v, hGet, hBytes, hLast⟩

/-- Two or more 16 bit elements are stored four bytes apart, and so past the end of the block. -/
theorem getVector_outOfBounds {cap num : Nat} (u : XDRStreamUnMarshaller) (host : ByteOrder)
    (t : NumberType) (val : Buffer cap) {data rest : Bytes} (hCap : cap = num * t.width)
    (hData : data.length = num * t.wire) (hNarrow : t.width < 4) (hMany : 2 ≤ num)
    (hSize : num * t.wire + 4 ≤ INT_MAX) (hEdge : num * t.wire ≠ UnMarshaller.XDR_DAP_BUFF_SIZE)
    (hIn : u.dIn = IStream.ofBytes (toBE 4 num ++ (data ++ rest))) :
    u.getVector host val t.width t = .error .outOfBounds := by
  obtain ⟨n, x, tail, hPos, hPending, _, hError⟩ :=
    u.getVector_of_stream host t val hData hSize hEdge hIn
  obtain ⟨hMax, hWord, hCount⟩ := array_bounds hSize
  obtain ⟨hWidth, hWire⟩ := t.width_eq_two hNarrow
  refine hError _ (xdrArrayGet_outOfBounds host val (xdrCoder t) (by omega) hMax hWord hCount
    (by omega) hPending ?_ ?_)
  · rw [← t.wire_eq, List.length_append]
    omega
  · rw [xdrCoder_width, hCap, hWidth, hWire]
    omega

end XDRStreamUnMarshaller

/-- A vector of `n` numbers sent and received by a vector declared with that length, with or
without a block of its own. -/
def VectorReadsBack (host : ByteOrder) (m : XDRStreamMarshaller) (u : XDRStreamUnMarshaller)
    (t : NumberType) (n : Nat) (val : Buffer (n * t.width)) (block : Option (Buffer (n * t.width)))
    (reuse : Bool) (rest : Bytes) : Prop :=
  ∃ m' out v u', (⟨.number t, n, some val.bytes⟩ : Vector).serialize host m = .ok m' ∧
    m'.dOut = m.dOut ++ out ∧
    (⟨.number t, n, block.map Buffer.bytes⟩ : Vector).deserialize host (u.before (out ++ rest)) reuse =
      .ok (v, u') ∧ v.buf = some val.bytes ∧ u'.dIn = IStream.ofBytes rest

namespace Vector

/-- The receiving vector has room for exactly the declared elements, whether its block is old or
new. -/
theorem exists_receiver {t : NumberType} {n : Nat} (host : ByteOrder) (reuse : Bool)
    (block : Option (Buffer (n * t.width))) (hWord : n * t.width < 4294967296) :
    ∃ r : Vector, (∀ u, (⟨.number t, n, block.map Buffer.bytes⟩ : Vector).deserialize host u reuse =
        r.receive host u) ∧ r.type = .number t ∧ r.dLength = n ∧
      r.cardinalBuffer.length = n * t.width := by
  have hNew : uint32 ((t.width : Int) * (uint32 (n : Int) : Int)) = n * t.width := by
    have hCount : n * 2 ≤ n * t.width := Nat.mul_le_mul_left n (by cases t <;> decide)
    rw [uint32_natCast n, Nat.mod_eq_of_lt (by omega), ← Int.natCast_mul, uint32_natCast,
      Nat.mul_comm, Nat.mod_eq_of_lt hWord]
  have hZeros : (⟨.number t, n, none⟩ : Vector).cardinalBuffer.length = n * t.width := by
    rw [cardinalBuffer, Option.getD_none, (Buffer.zeros _).size_eq]
    exact hNew
  cases reuse with
  | false => exact ⟨⟨.number t, n, none⟩, fun _ => rfl, rfl, rfl, hZeros⟩
  | true =>
    cases block with
    | none => exact ⟨⟨.number t, n, none⟩, fun _ => rfl, rfl, rfl, hZeros⟩
    | some b => exact ⟨⟨.number t, n, some b.bytes⟩, fun _ => rfl, rfl, rfl, b.size_eq⟩

/-- Once the two lengths agree, the vector is refilled by `get_vector`. -/
theorem receive_of_stream {n : Nat} (v : Vector) (t : NumberType) (host : ByteOrder)
    (u : XDRStreamUnMarshaller) {stream : Bytes} (hType : v.type = .number t) (hDecl : v.dLength = n)
    (hCount : n ≤ INT_MAX) (hIn : u.dIn = IStream.ofBytes (toBE 4 n ++ stream)) :
    ∃ w : XDRStreamUnMarshaller, w.dIn = IStream.ofBytes stream ∧
      (∀ val num u', w.getVector host (Buffer.ofBytes v.cardinalBuffer) t.width t =
          .ok (val, num, u') → v.receive host u = .ok ({ v with buf := some val.bytes }, u')) ∧
      ∀ f, w.getVector host (Buffer.ofBytes v.cardinalBuffer) t.width t = .error f →
        v.receive host u = .error f := by
  obtain ⟨w, hInt, hIn', _, _⟩ := XDRStreamUnMarshaller.getInt_of_count hCount hIn
  obtain ⟨type, dLength, buf⟩ := v
  dsimp only at hType hDecl
  subst hType hDecl
  have hSet : ¬ (n : Int) = -1 := by omega
  refine ⟨w, hIn', fun val num u' hGet => ?_, fun f hGet => ?_⟩
  · rw [receive, hInt, ok_bind]
    dsimp only
    rw [if_neg hSet, if_neg (fun h => h rfl)]
    dsimp only
    rw [hGet]
    rfl
  · rw [receive, hInt, ok_bind]
    dsimp only
    rw [if_neg hSet, if_neg (fun h => h rfl)]
    dsimp only
    rw [hGet]
    rfl

end Vector

theorem vectorReadsBack_iff (host : ByteOrder) (m : XDRStreamMarshaller) (u : XDRStreamUnMarshaller)
    (t : NumberType) {n : Nat} (hCount : n ≤ INT_MAX) (val : Buffer (n * t.width))
    (block : Option (Buffer (n * t.width))) (reuse : Bool) (rest : Bytes) :
    VectorReadsBack host m u t n val block reuse rest ↔
      (4 ≤ t.width ∨ n ≤ 1) ∧ n * t.wire ≠ UnMarshaller.XDR_DAP_BUFF_SIZE ∧
        n * t.wire + 4 ≤ INT_MAX := by
  have hSerialize : (⟨.number t, n, some val.bytes⟩ : Vector).serialize host m =
      m.putVector host (some (Buffer.ofBytes val.bytes)) n t.width t := by
    simp only [INT_MAX] at hCount
    have hNum : uint32 (n : Int) = n := by
      rw [uint32_natCast]
      omega
    rw [Vector.serialize]
    dsimp only
    rw [hNum]
  have hVal : n * t.width ≤ val.bytes.length := Nat.le_of_eq val.size_eq.symm
  have hWidth : n * t.width ≤ n * t.wire := Nat.mul_le_mul_left n (Nat.le_add_right _ _)
  rw [VectorReadsBack, hSerialize]
  by_cases hSize : (n : Int) * t.wire + 4 ≤ INT_MAX
  · obtain ⟨x, hPut⟩ := m.putVector_ok host t (Buffer.ofBytes val.bytes) hVal hSize
    obtain ⟨r, hReceive, hType, hDecl, hCap⟩ := Vector.exists_receiver host reuse block
      (show n * t.width < 4294967296 by simp only [INT_MAX] at hSize; omega)
    have hForm := (xdrCoder t).length_elementsForm host n val.bytes
    rw [← t.wire_eq] at hForm
    -- `receive` reads the first count, and `get_vector` finds the second one.
    obtain ⟨w, hIn, hOk, hError⟩ := Vector.receive_of_stream r t host
      (u.before (toBE 4 n ++ (toBE 4 n ++ (xdrCoder t).elementsForm host n val.bytes) ++ rest))
      hType hDecl hCount (congrArg IStream.ofBytes (List.append_assoc _ _ _))
    rw [List.append_assoc] at hIn
    constructor
    · rintro ⟨m', out, v, u', hPut', hOut, hGet, _, _⟩
      rw [hPut] at hPut'
      cases hPut'
      rw [List.append_assoc] at hOut
      have hOut := List.append_cancel_left hOut
      subst hOut
      have hNoFault : ∀ f, w.getVector host (Buffer.ofBytes r.cardinalBuffer) t.width t ≠ .error f := by
        intro f hFault
        have hFailed := hError f hFault
        rw [← hReceive] at hFailed
        have hAbsurd := hFailed.symm.trans hGet
        cases hAbsurd
      have hEdge : n * t.wire ≠ UnMarshaller.XDR_DAP_BUFF_SIZE := fun hEdge =>
        hNoFault _ (w.getVector_of_edge host t _ hForm hEdge hIn)
      refine ⟨?_, hEdge, hSize⟩
      by_contra hNarrow
      exact hNoFault _ (w.getVector_outOfBounds host t _ hCap hForm (by omega) (by omega) hSize
        hEdge hIn)
    · rintro ⟨hStep, hEdge, _⟩
      obtain ⟨val', v, hGet, hBytes, hLast⟩ := w.getVector_ok host t (Buffer.ofBytes r.cardinalBuffer)
        hCap val.size_eq hStep hSize hEdge hIn
      refine ⟨_, _, { r with buf := some val'.bytes }, v, hPut, List.append_assoc _ _ _, ?_,
        congrArg some hBytes, hLast⟩
      rw [hReceive]
      exact hOk _ _ _ hGet
  · obtain ⟨f, hError⟩ := m.putVector_too_long host t (Buffer.ofBytes val.bytes) hVal
      (by omega)
    rw [hError]
    constructor
    · rintro ⟨_, _, _, _, hPut, _⟩
      cases hPut
    · rintro ⟨_, _, hFits⟩
      exact absurd hFits hSize

/-- A vector of numbers is read back exactly when its elements are not 16 bits wide or it has at
most one, its data do not fill the reader's static block to the byte, and the writer can count the
bytes in an `int`. -/
theorem vector_read_back (host : ByteOrder) (m : XDRStreamMarshaller) (u : XDRStreamUnMarshaller)
    (t : NumberType) (n : Nat) (hCount : n ≤ INT_MAX) (val : Buffer (n * t.width))
    (block : Option (Buffer (n * t.width))) (reuse : Bool) (rest : Bytes) :
    VectorReadsBack host m u t n val block reuse rest ↔
      (4 ≤ t.width ∨ n ≤ 1) ∧ n * t.wire ≠ UnMarshaller.XDR_DAP_BUFF_SIZE ∧
        n * t.wire + 4 ≤ INT_MAX :=
  vectorReadsBack_iff host m u t hCount val block reuse rest

/-- One 32 bit integer. -/
theorem vector_of_one_read_back :
    VectorReadsBack .little (XDRStreamMarshaller.create (Buffer.zeros _))
      ⟨Handle.create (Buffer.zeros _), IStream.ofBytes []⟩ .dodsInt32C 1
      ⟨[1, 2, 3, 4], rfl⟩ none true [] :=
  (vector_read_back .little _ _ .dodsInt32C 1 (by decide) ⟨[1, 2, 3, 4], rfl⟩ none true []).mpr
    ⟨.inl (by decide), by decide, by decide⟩

/-- Two 16 bit integers are not read back. -/
theorem int16_vector_not_read_back :
    ¬ VectorReadsBack .little (XDRStreamMarshaller.create (Buffer.zeros _))
      ⟨Handle.create (Buffer.zeros _), IStream.ofBytes []⟩ .dodsInt16C 2
      ⟨[1, 0, 2, 0], rfl⟩ none true [] := by
  rw [vectorReadsBack_iff _ _ _ _ (by decide)]
  rintro ⟨hStep, _, _⟩
  rcases hStep with hWide | hFew
  · exact absurd hWide (by decide)
  · exact absurd hFew (by decide)

end Libdap.Xdr
