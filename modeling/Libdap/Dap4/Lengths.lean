import Libdap.Dap4.LengthPrefix

/-! # Strings, opaque data and vectors of varying length -/

namespace Libdap.Dap4
open Core Put DAP4StreamMarshaller DAP4StreamUnMarshaller
set_option autoImplicit false

theorem int64_natCast {n : Nat} (h : n < 2 ^ 63) : int64 n = n := by
  simp only [int64]
  omega

theorem read_append (u : DAP4StreamUnMarshaller) {n : Int} (bs rest : Bytes)
    (h : n = (bs.length : Nat)) : (u.before (bs ++ rest)).read n = .ok (bs, u.before rest) := by
  subst h
  rw [DAP4StreamUnMarshaller.read, before, if_neg (by rw [List.length_append]; omega), Int.toNat_natCast]
  dsimp only
  rw [List.take_left' rfl, List.drop_left' rfl]
  rfl

theorem length_read {u u' : DAP4StreamUnMarshaller} {n : Int} {bs : Bytes}
    (h : u.read n = .ok (bs, u')) : (bs.length : Int) = n := by
  rw [DAP4StreamUnMarshaller.read] at h
  split at h
  · cases h
  · rename_i hFit
    cases h
    rw [List.length_take]
    omega

theorem sends_strForm {host : Host} (val : Bytes) :
    Sends host (putStr val) (prefixForm (UInt64.ofNat val.length) ++ val) ∨
      2 ^ 63 ≤ val.length ∧ Fails host (putStr val) := by
  rcases counted_cases val.length (@Sends.write host val) with hSends | ⟨hLarge, hFails⟩
  · exact .inl (Sends.checked val hSends)
  · exact .inr ⟨hLarge, hFails.checked val⟩

theorem getStr_iff (u : DAP4StreamUnMarshaller) (val rest : Bytes) :
    (u.before (prefixForm (UInt64.ofNat val.length) ++ val ++ rest)).getStr = .ok (val, u.before rest) ↔
      val.length < 2 ^ 31 := by
  rw [List.append_assoc]
  constructor
  · intro h
    rw [getStr] at h
    obtain ⟨⟨len, u₁⟩, hCount, h⟩ := bind_eq_ok h
    dsimp only at h
    split at h
    · cases h
    · exact count_of_int64 _ _ _ hCount (length_read h).symm
  · intro h
    rw [getStr, get_count u _ h, ok_bind]
    dsimp only
    rw [int64_natCast (by omega), if_neg (by omega), read_append u val rest rfl]

theorem getOpaque_iff (u : DAP4StreamUnMarshaller) (val rest : Bytes) :
    (u.before (prefixForm (UInt64.ofNat val.length) ++ val ++ rest)).getOpaque val.length =
        .ok (val, u.before rest) ↔ val.length < 2 ^ 31 := by
  rw [List.append_assoc]
  constructor
  · intro h
    rw [getOpaque] at h
    obtain ⟨⟨len, u₁⟩, hCount, h⟩ := bind_eq_ok h
    dsimp only at h
    split at h
    · cases h
    · rename_i hSame
      exact count_of_int64 _ _ _ hCount (not_not.mp hSame).symm
  · intro h
    rw [getOpaque, get_count u _ h, ok_bind]
    dsimp only
    rw [int64_natCast (by omega), if_neg (fun hNe => hNe rfl), read_append u val rest rfl]

theorem lt_of_getNewOpaque {u u' : DAP4StreamUnMarshaller} {val : Bytes}
    (h : u.getNewOpaque = .ok (val, u')) : val.length < 2 ^ 32 := by
  rw [getNewOpaque] at h
  obtain ⟨⟨len, u₁⟩, _, h⟩ := bind_eq_ok h
  have hLength := length_read h
  rw [uint32_natCast] at hLength
  omega

theorem getNewOpaque_iff (u : DAP4StreamUnMarshaller) (val rest : Bytes) :
    (u.before (prefixForm (UInt64.ofNat val.length) ++ val ++ rest)).getNewOpaque =
        .ok (val, u.before rest) ↔ val.length < 2 ^ 32 := by
  rw [List.append_assoc]
  constructor
  · exact lt_of_getNewOpaque
  · intro h
    obtain ⟨r, hCount, hLow⟩ := get_low_count u (val ++ rest) h
    rw [getNewOpaque, hCount, ok_bind]
    dsimp only
    rw [hLow, read_append u val rest rfl]

theorem width_cases (type : ScalarType) :
    type.width = 1 ∨ type.width = 2 ∨ type.width = 4 ∨ type.width = 8 := by
  cases type <;> decide

theorem length_flatMap_swap (order : ByteOrder) (w n : Nat) (bs : Bytes) :
    ((chunks w n bs).flatMap (swapObject order w)).length = n * w := by
  induction n generalizing bs with
  | zero => rw [chunks, List.flatMap_nil, List.length_nil, Nat.zero_mul]
  | succ n ih =>
    rw [chunks, List.flatMap_cons, List.length_append, ih, swapObject, ByteOrder.length_store,
      Nat.succ_mul, Nat.add_comm]

theorem length_mTwidleVectorElements {u : DAP4StreamUnMarshaller} {vals out : Bytes} {num w : Nat}
    (h : u.mTwidleVectorElements vals num w = .ok out) : out.length = vals.length := by
  rw [mTwidleVectorElements] at h
  split at h
  · split at h
    · cases h
    · cases h
      rw [List.length_append, length_flatMap_swap, List.length_drop]
      omega
  · cases h

/-- A block that is filled by the read has the length that was read. -/
theorem length_getElements {u u' : DAP4StreamUnMarshaller} {out : Bytes} {size : Int} {num w : Nat}
    (h : u.getElements [] size num w = .ok (out, u')) : (out.length : Int) = size := by
  rw [getElements] at h
  obtain ⟨⟨bs, u₁⟩, hRead, h⟩ := bind_eq_ok h
  dsimp only at h
  rw [List.drop_nil, List.append_nil] at h
  split at h
  · obtain ⟨vals, hSwap, h⟩ := bind_eq_ok h
    cases h
    rw [length_mTwidleVectorElements hSwap]
    exact length_read hRead
  · cases h
    exact length_read hRead

theorem getElements_of_memory (u : DAP4StreamUnMarshaller) {a : ByteOrder} {w : Nat}
    (vals : List (BitVec (8 * w))) (val rest : Bytes) {size : Int}
    (hTold : u.dTwiddleBytes = (u.order != a)) (hWidth : u.order ≠ a → w = 2 ∨ w = 4 ∨ w = 8)
    (hVal : val.length ≤ vals.length * w) (hSize : size = (vals.length * w : Nat)) :
    (u.before (memory a w vals ++ rest)).getElements val size vals.length w =
      .ok (memory u.order w vals, u.before rest) := by
  have hLength := length_memory a w vals
  rw [getElements, read_append u (memory a w vals) rest (by rw [hSize, hLength]), ok_bind]
  dsimp only
  rw [List.drop_eq_nil_of_le (by omega), List.append_nil]
  by_cases hSame : u.order = a
  · subst hSame
    rw [if_neg (by rw [before, hTold]; simp)]
  · rw [if_pos (by rw [before, hTold]; simpa using hSame), mTwidleVectorElements,
      if_pos (hWidth hSame), if_neg (by omega), ok_bind, List.drop_eq_nil_of_le (by omega),
      List.append_nil]
    exact congrArg (fun out => Except.ok (out, u.before rest)) (swap_memory (Ne.symm hSame) w vals)

/-- Elements of one byte are no words that could be swapped. -/
theorem getElements_of_bytes {u u' : DAP4StreamUnMarshaller} {val out : Bytes} {size : Int}
    {num w : Nat} (hByte : w = 1) (h : u.getElements val size num w = .ok (out, u')) :
    u.dTwiddleBytes = false := by
  subst hByte
  rw [getElements] at h
  obtain ⟨⟨bs, u₁⟩, hRead, h⟩ := bind_eq_ok h
  have hFlag : u₁.dTwiddleBytes = u.dTwiddleBytes := by
    rw [DAP4StreamUnMarshaller.read] at hRead
    split at hRead
    · cases hRead
    · cases hRead
      rfl
  dsimp only at h
  split at h
  · cases h
  · rename_i hOff
    rw [← hFlag]
    exact Bool.eq_false_of_not_eq_true hOff

theorem fits_of_getVaryingVector {u u' : DAP4StreamUnMarshaller} {a : ByteOrder} {type : ScalarType}
    {vals : List (BitVec (8 * type.width))} (hTold : u.dTwiddleBytes = (u.order != a))
    (h : u.getVaryingVector type = .ok (memory u.order type.width vals, vals.length, u')) :
    vals.length * type.width < 2 ^ 31 ∧ (u.order ≠ a → type.width ≠ 1) := by
  rw [getVaryingVector] at h
  obtain ⟨⟨len, u₁⟩, hCount, h⟩ := bind_eq_ok h
  dsimp only at h
  split at h
  · cases h
  · obtain ⟨⟨val, u₂⟩, hElements, h⟩ := bind_eq_ok h
    injection h with h
    simp only [Prod.mk.injEq] at h
    obtain ⟨rfl, hNum, _⟩ := h
    have hLength := length_getElements hElements
    rw [length_memory] at hLength
    have hInt := int32_bounds (uint32 ((uint32 (len : Int) : Int) * (type.width : Int)))
    refine ⟨by simp only [INT_MAX] at hInt; omega, fun hOrder hByte => ?_⟩
    have hFlag := getElements_of_bytes hByte hElements
    obtain ⟨⟨r, left⟩, _, hEq⟩ := bind_eq_ok hCount
    cases hEq
    change u.dTwiddleBytes = false at hFlag
    rw [hTold] at hFlag
    exact hOrder (by simpa using hFlag)

theorem getVaryingVector_iff (u : DAP4StreamUnMarshaller) {a : ByteOrder} (type : ScalarType)
    (vals : List (BitVec (8 * type.width))) (rest : Bytes) (hTold : u.dTwiddleBytes = (u.order != a)) :
    (u.before (prefixForm (UInt64.ofNat vals.length) ++
        (memory a type.width vals).take (uint32 (vals.length * type.width)) ++ rest)).getVaryingVector
          type = .ok (memory u.order type.width vals, vals.length, u.before rest) ↔
      vals.length * type.width < 2 ^ 31 ∧ (u.order ≠ a → type.width ≠ 1) := by
  constructor
  · exact fits_of_getVaryingVector hTold
  · rw [List.append_assoc]
    rintro ⟨hSize, hWidth⟩
    have hCases := width_cases type
    have hNum : vals.length * 1 ≤ vals.length * type.width := Nat.mul_le_mul_left _ (by omega)
    have hWord : uint32 ((vals.length : Int) * (type.width : Int)) = vals.length * type.width := by
      rw [← Int.natCast_mul, uint32_natCast]
      omega
    have hCount : uint32 (vals.length : Int) = vals.length := by
      rw [uint32_natCast]
      omega
    rw [hWord, List.take_of_length_le (by rw [length_memory]), getVaryingVector,
      get_count u _ (by omega), ok_bind]
    dsimp only
    rw [hCount, hWord, int32_of_bounds (by omega) (by rw [INT_MAX]; omega), if_neg (by omega),
      getElements_of_memory u vals [] rest hTold (fun hOrder => by
        have := hWidth hOrder
        omega) (Nat.zero_le _) rfl, ok_bind]

/-! What the reader delivers, on a host of either byte order that was told the stream's. -/

def PrefixReadsBack (m : DAP4StreamMarshaller) (order : ByteOrder) (value : UInt64) (rest : Bytes) :
    Prop :=
  Delivered (putLengthPrefix value) m rest fun stream =>
    (DAP4StreamUnMarshaller.create order m.host.order stream).getLengthPrefix =
      .ok (value.toNat, DAP4StreamUnMarshaller.create order m.host.order rest)

def StrReadsBack (m : DAP4StreamMarshaller) (order : ByteOrder) (val rest : Bytes) : Prop :=
  Delivered (putStr val) m rest fun stream =>
    (DAP4StreamUnMarshaller.create order m.host.order stream).getStr =
      .ok (val, DAP4StreamUnMarshaller.create order m.host.order rest)

def OpaqueReadsBack (m : DAP4StreamMarshaller) (order : ByteOrder) (val rest : Bytes) : Prop :=
  Delivered (putOpaque val) m rest fun stream =>
    (DAP4StreamUnMarshaller.create order m.host.order stream).getOpaque val.length =
      .ok (val, DAP4StreamUnMarshaller.create order m.host.order rest)

def VaryingByteVectorReadsBack (m : DAP4StreamMarshaller) (order : ByteOrder) (val rest : Bytes) :
    Prop :=
  Delivered (putVaryingByteVector val) m rest fun stream =>
    (DAP4StreamUnMarshaller.create order m.host.order stream).getVaryingByteVector =
      .ok (val, DAP4StreamUnMarshaller.create order m.host.order rest)

def VaryingVectorReadsBack (m : DAP4StreamMarshaller) (order : ByteOrder) (type : ScalarType)
    (vals : List (BitVec (8 * type.width))) (rest : Bytes) : Prop :=
  Delivered (putVaryingVector (memory m.host.order type.width vals) vals.length type) m rest
    fun stream => (DAP4StreamUnMarshaller.create order m.host.order stream).getVaryingVector type =
      .ok (memory order type.width vals, vals.length,
        DAP4StreamUnMarshaller.create order m.host.order rest)

theorem sends_varyingForm {host : Host} (val : Bytes) (num : Nat) (type : ScalarType) :
    Sends host (putVaryingVector val num type)
        (prefixForm (UInt64.ofNat num) ++ val.take (uint32 (num * type.width))) ∨
      2 ^ 63 ≤ num ∧ Fails host (putVaryingVector val num type) :=
  counted_cases num (sends_putVector host val num type)

theorem started_ready (out : Bytes) : (started plainHost out true).Ready :=
  ⟨fun _ _ => rfl, rfl, rfl, rfl⟩

section

variable {m : DAP4StreamMarshaller} (hReady : m.Ready) (order : ByteOrder) (rest : Bytes)

include hReady

theorem prefixReadsBack_iff (value : UInt64) :
    PrefixReadsBack m order value rest ↔ value.toNat < 2 ^ 31 := by
  have hUnbounded := getLengthPrefix_of_le (create order m.host.order []) (create order m.host.order rest)
    value rest
  have hBounded := getLengthPrefix_of_lt (create order m.host.order []) value rest
  by_cases hFit : value.toNat < 2 ^ 63
  · rw [PrefixReadsBack, (sends_putLengthPrefix m.host hFit).delivered_iff hReady]
    constructor
    · intro hGet
      by_contra hLarge
      exact hUnbounded (by omega) hGet
    · exact hBounded
  · have hPast := putLengthPrefix_past_target (Nat.le_of_not_lt hFit) m hReady.writing
    constructor
    · intro hDelivered
      exact absurd hDelivered (not_delivered hPast rest _)
    · intro hSmall
      omega

theorem prefix_in_target_iff (value : UInt64) :
    (putLengthPrefix value m).2 ≠ some .outOfBounds ↔ value.toNat < 2 ^ 63 := by
  constructor
  · intro hInside
    by_contra hLarge
    apply hInside
    rw [putLengthPrefix_past_target (Nat.le_of_not_lt hLarge) m hReady.writing]
  · intro hFit
    obtain ⟨m', hPut, _⟩ := sends_putLengthPrefix m.host hFit m hReady rfl
    rw [hPut]
    exact nofun

theorem strReadsBack_iff (val : Bytes) : StrReadsBack m order val rest ↔ val.length < 2 ^ 31 :=
  counted_delivered_iff hReady (sends_strForm val) (fun h => by omega)
    (getStr_iff (create order m.host.order []) val rest)

theorem opaqueReadsBack_iff (val : Bytes) : OpaqueReadsBack m order val rest ↔ val.length < 2 ^ 31 :=
  counted_delivered_iff hReady (sends_strForm val) (fun h => by omega)
    (getOpaque_iff (create order m.host.order []) val rest)

theorem varyingByteVectorReadsBack_iff (val : Bytes) :
    VaryingByteVectorReadsBack m order val rest ↔ val.length < 2 ^ 32 :=
  counted_delivered_iff hReady (sends_strForm val) (fun h => by omega)
    (getNewOpaque_iff (create order m.host.order []) val rest)

theorem varyingVectorReadsBack_iff (type : ScalarType) (vals : List (BitVec (8 * type.width))) :
    VaryingVectorReadsBack m order type vals rest ↔
      vals.length * type.width < 2 ^ 31 ∧ (order ≠ m.host.order → type.width ≠ 1) := by
  refine counted_delivered_iff hReady (sends_varyingForm _ vals.length type) ?_
    (getVaryingVector_iff (create order m.host.order []) type vals rest rfl)
  rintro ⟨hSize, _⟩
  have hCases := width_cases type
  have hNum : vals.length * 1 ≤ vals.length * type.width := Nat.mul_le_mul_left _ (by omega)
  omega

end

/-- A length prefix is read back below `2 ^ 31`, and written inside its target below `2 ^ 63`. So
strings and opaque data are inverse below `2 ^ 31` bytes, byte vectors of varying length for all
lengths of 32 bits, and other vectors of varying length while an `int` can count their bytes and
there are no single bytes to be swapped. -/
theorem lengths_read_back (m : DAP4StreamMarshaller) (hReady : m.Ready) (order : ByteOrder)
    (rest : Bytes) :
    (∀ value, PrefixReadsBack m order value rest ↔ value.toNat < 2 ^ 31) ∧
    (∀ value, (putLengthPrefix value m).2 ≠ some .outOfBounds ↔ value.toNat < 2 ^ 63) ∧
    (∀ val, StrReadsBack m order val rest ↔ val.length < 2 ^ 31) ∧
    (∀ val, OpaqueReadsBack m order val rest ↔ val.length < 2 ^ 31) ∧
    (∀ val, VaryingByteVectorReadsBack m order val rest ↔ val.length < 2 ^ 32) ∧
    ∀ type vals, VaryingVectorReadsBack m order type vals rest ↔
      vals.length * type.width < 2 ^ 31 ∧ (order ≠ m.host.order → type.width ≠ 1) := by
  refine ⟨?_, ?_, ?_, ?_, ?_, ?_⟩
  · exact prefixReadsBack_iff hReady order rest
  · exact prefix_in_target_iff hReady
  · exact strReadsBack_iff hReady order rest
  · exact opaqueReadsBack_iff hReady order rest
  · exact varyingByteVectorReadsBack_iff hReady order rest
  · exact varyingVectorReadsBack_iff hReady order rest

theorem prefix_of_300_read_back : PrefixReadsBack (started plainHost [] true) .little 300 [] :=
  ((lengths_read_back _ (started_ready []) .little []).1 300).mpr (by decide)

/-- The prefix of `2 ^ 31` is read as another length, and the one of `2 ^ 63` overruns its target. -/
theorem large_prefix_not_read_back :
    ¬ PrefixReadsBack (started plainHost [] true) .little 2147483648 [] ∧
      (putLengthPrefix 9223372036854775808 (started plainHost [] true)).2 = some .outOfBounds := by
  constructor
  · rw [prefixReadsBack_iff (started_ready [])]
    exact Nat.lt_irrefl _
  · rw [putLengthPrefix_past_target (Nat.le_refl _) _ rfl]

end Libdap.Dap4
