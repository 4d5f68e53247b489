import Libdap.Dap4.DAP4StreamUnMarshaller

/-! # Reading back a length prefix

The reader shifts each group as an `int`: the first four groups are always right, the fifth as far
as bit 30, and there is no sixth.
-/

namespace Libdap.Dap4
open Core Put DAP4StreamMarshaller DAP4StreamUnMarshaller
set_option autoImplicit false

/-- The bytes of a length prefix. -/
def prefixForm (value : UInt64) : Bytes := groups (varintSize value.toNat - 1) value.toNat

theorem last_group (n : Nat) :
    (UInt8.ofNat (n % 128) &&& 0x7F).toNat = n % 128 ∧ UInt8.ofNat (n % 128) &&& 0x80 = 0 := by
  have hByte : ∀ b : Fin 128, (UInt8.ofNat b.val &&& 0x7F).toNat = b.val ∧
      UInt8.ofNat b.val &&& 0x80 = 0 := by decide
  exact hByte ⟨n % 128, Nat.mod_lt _ (by decide)⟩

theorem continued_group (n : Nat) :
    (UInt8.ofNat (n % 128 + 128) &&& 0x7F).toNat = n % 128 ∧
      UInt8.ofNat (n % 128 + 128) &&& 0x80 ≠ 0 := by
  have hByte : ∀ b : Fin 128, (UInt8.ofNat (b.val + 128) &&& 0x7F).toNat = b.val ∧
      UInt8.ofNat (b.val + 128) &&& 0x80 ≠ 0 := by decide
  exact hByte ⟨n % 128, Nat.mod_lt _ (by decide)⟩

theorem uint64_of_lt {n : Nat} (h : n < 2 ^ 64) : uint64 n = n := by
  simp only [uint64]
  omega

theorem shiftLeft_of_lt {a k : Nat} (hk : k < 32) (h : (a * 2 ^ k : Nat) ≤ INT_MAX) :
    shiftLeft a k = .ok ((a * 2 ^ k : Nat) : Int) := by
  rw [shiftLeft, if_neg (by omega), int32_of_bounds (by omega) h]

/-- The loop over a group that is followed by another one. -/
theorem prefixLoop_step {k n c r : Nat} {rest : Bytes} (hc : c ≤ 3) :
    prefixLoop (groups (k + 1) n ++ rest) c r =
      prefixLoop (groups k (n / 128) ++ rest) (c + 1) ((r + n % 128 * 128 ^ c) % 2 ^ 64) := by
  obtain ⟨hGroup, hMore⟩ := continued_group n
  have hPow : (2 : Nat) ^ (7 * c) = 128 ^ c := pow_mul 2 7 c
  have hSmall : 128 ^ c ≤ 128 ^ 3 := Nat.pow_le_pow_right (by decide) hc
  have hShift : n % 128 * 128 ^ c ≤ 127 * 128 ^ 3 :=
    Nat.mul_le_mul (by omega) hSmall
  rw [groups, List.cons_append, prefixLoop, hGroup,
    shiftLeft_of_lt (by omega) (by rw [hPow, INT_MAX]; omega), ok_bind, hPow,
    uint64_of_lt (by omega), if_neg hMore]

/-- Four groups at most are taken in exactly. -/
theorem prefixLoop_skip (j k n : Nat) (rest : Bytes) (hj : j ≤ 4) :
    prefixLoop (groups (j + k) n ++ rest) 0 0 =
      prefixLoop (groups k (n / 128 ^ j) ++ rest) j (n % 128 ^ j) := by
  induction j generalizing k with
  | zero => rw [Nat.zero_add, pow_zero, Nat.div_one, Nat.mod_one]
  | succ j ih =>
    have hSplit : n % 128 ^ (j + 1) = n % 128 ^ j + n / 128 ^ j % 128 * 128 ^ j := by
      rw [pow_succ, Nat.mod_mul, Nat.mul_comm (128 ^ j) (n / 128 ^ j % 128)]
    have hSmall : n % 128 ^ (j + 1) < 2 ^ 64 := by
      have hLt : n % 128 ^ (j + 1) < 128 ^ (j + 1) := Nat.mod_lt _ (by positivity)
      have hPow : 128 ^ (j + 1) ≤ 128 ^ 4 := Nat.pow_le_pow_right (by decide) hj
      omega
    rw [show j + 1 + k = j + (k + 1) by omega, ih (k + 1) (by omega), prefixLoop_step (by omega),
      ← hSplit, Nat.mod_eq_of_lt hSmall, Nat.div_div_eq_div_mul, pow_succ]

/-- Five groups at most: the last one goes through an `int`. -/
theorem prefixLoop_groups {k n : Nat} (rest : Bytes) (hk : k ≤ 4) (hn : n < 128 ^ (k + 1)) :
    prefixLoop (groups k n ++ rest) 0 0 =
      .ok ((n % 128 ^ k + uint64 (int32 ((n / 128 ^ k * 128 ^ k : Nat) : Int))) % 2 ^ 64, rest) := by
  obtain ⟨hGroup, hEnd⟩ := last_group (n / 128 ^ k)
  have hTop : n / 128 ^ k < 128 := by
    rw [Nat.div_lt_iff_lt_mul (by positivity), Nat.mul_comm, ← pow_succ]
    exact hn
  have hPow : (2 : Nat) ^ (7 * k) = 128 ^ k := pow_mul 2 7 k
  have hSkip := prefixLoop_skip k 0 n rest hk
  rw [Nat.add_zero] at hSkip
  rw [hSkip, groups, List.cons_append, List.nil_append, prefixLoop, hGroup,
    shiftLeft, if_neg (by omega), ok_bind, hPow, if_pos hEnd, Nat.mod_eq_of_lt hTop]

/-- The sixth group is shifted by more than an `int` allows. -/
theorem prefixLoop_six (k n : Nat) (rest : Bytes) :
    prefixLoop (groups (k + 5) n ++ rest) 0 0 = .error .undefined := by
  have hUndefined : ∀ k n r, prefixLoop (groups k n ++ rest) 5 r = .error .undefined := by
    intro k n r
    cases k <;> rfl
  obtain ⟨_, hMore⟩ := continued_group (n / 128 ^ 4)
  rw [show k + 5 = 4 + (k + 1) by omega, prefixLoop_skip 4 (k + 1) n rest (Nat.le_refl 4), groups,
    List.cons_append, prefixLoop, shiftLeft, if_neg (by decide), ok_bind, if_neg hMore, hUndefined]

theorem getLengthPrefix_of_lt (u : DAP4StreamUnMarshaller) (value : UInt64) (rest : Bytes)
    (h : value.toNat < 2 ^ 31) :
    (u.before (prefixForm value ++ rest)).getLengthPrefix = .ok (value.toNat, u.before rest) := by
  obtain ⟨k, hSize, _, hHigh, hLow⟩ := varintSize_spec value.toNat value.toNat_lt
  have hk : k ≤ 4 := by
    by_contra hLarge
    have hLow := hLow (by omega)
    have hPow : 128 ^ 5 ≤ 128 ^ k := Nat.pow_le_pow_right (by decide) (by omega)
    omega
  have hGroups := prefixLoop_groups rest hk hHigh
  have hInt : value.toNat / 128 ^ k * 128 ^ k ≤ value.toNat := Nat.div_mul_le_self _ _
  have hWhole : value.toNat % 128 ^ k + value.toNat / 128 ^ k * 128 ^ k = value.toNat := by
    rw [Nat.mul_comm]
    exact Nat.mod_add_div _ _
  rw [int32_of_bounds (by omega) (by rw [INT_MAX]; omega), uint64_of_lt (by omega), hWhole,
    Nat.mod_eq_of_lt (by omega)] at hGroups
  rw [getLengthPrefix, before, prefixForm, hSize, Nat.add_sub_cancel]
  dsimp only
  rw [hGroups, ok_bind]
  rfl

/-- From bit 31 on, a prefix is not read as the value that was sent. -/
theorem getLengthPrefix_of_le (u u' : DAP4StreamUnMarshaller) (value : UInt64) (rest : Bytes)
    (h : 2 ^ 31 ≤ value.toNat) :
    (u.before (prefixForm value ++ rest)).getLengthPrefix ≠ .ok (value.toNat, u') := by
  obtain ⟨k, hSize, _, hHigh, _⟩ := varintSize_spec value.toNat value.toNat_lt
  rw [getLengthPrefix, before, prefixForm, hSize, Nat.add_sub_cancel]
  dsimp only
  by_cases hk : k ≤ 4
  · rw [prefixLoop_groups rest hk hHigh, ok_bind]
    intro hEq
    injection hEq with hEq
    injection hEq with hEq _
    have hFour : k = 4 := by
      by_contra hLess
      have hPow : 128 ^ (k + 1) ≤ 128 ^ 4 := Nat.pow_le_pow_right (by decide) (by omega)
      omega
    subst hFour
    simp only [uint64, int32] at hEq
    omega
  · rw [show k = (k - 5) + 5 by omega, prefixLoop_six]
    intro hEq
    cases hEq

theorem prefixLoop_lt {bs rest : Bytes} {c r n : Nat} (h : prefixLoop bs c r = .ok (n, rest)) :
    n < 2 ^ 64 := by
  induction bs generalizing c r with
  | nil => cases h
  | cons b bs ih =>
    rw [prefixLoop] at h
    obtain ⟨v, _, h⟩ := bind_eq_ok h
    dsimp only at h
    split at h
    · injection h with h
      injection h with h _
      rw [← h]
      exact Nat.mod_lt _ (by positivity)
    · exact ih h

/-- A count that is read as it was sent. -/
theorem get_count (u : DAP4StreamUnMarshaller) {n : Nat} (rest : Bytes) (h : n < 2 ^ 31) :
    (u.before (prefixForm (UInt64.ofNat n) ++ rest)).getLengthPrefix = .ok (n, u.before rest) := by
  have hValue : (UInt64.ofNat n).toNat = n := by
    rw [UInt64.toNat_ofNat', Nat.mod_eq_of_lt (by omega)]
  have hGet := getLengthPrefix_of_lt u (UInt64.ofNat n) rest (by rwa [hValue])
  rwa [hValue] at hGet

theorem getLengthPrefix_lt {u u' : DAP4StreamUnMarshaller} {n : Nat}
    (h : u.getLengthPrefix = .ok (n, u')) : n < 2 ^ 64 := by
  obtain ⟨⟨r, left⟩, hLoop, hEq⟩ := bind_eq_ok h
  cases hEq
  exact prefixLoop_lt hLoop

theorem count_of_get (u u' : DAP4StreamUnMarshaller) {n : Nat} (rest : Bytes)
    (h : (u.before (prefixForm (UInt64.ofNat n) ++ rest)).getLengthPrefix = .ok (n, u')) :
    n < 2 ^ 31 := by
  have hWord := getLengthPrefix_lt h
  have hValue : (UInt64.ofNat n).toNat = n := by
    rw [UInt64.toNat_ofNat', Nat.mod_eq_of_lt hWord]
  by_contra hLarge
  refine getLengthPrefix_of_le u u' (UInt64.ofNat n) rest (by omega) ?_
  rwa [hValue]

theorem count_of_int64 (u u' : DAP4StreamUnMarshaller) {n len : Nat} (rest : Bytes)
    (h : (u.before (prefixForm (UInt64.ofNat n) ++ rest)).getLengthPrefix = .ok (len, u'))
    (hLen : int64 len = n) : n < 2 ^ 31 := by
  have hWord := getLengthPrefix_lt h
  have hSame : len = n := by
    simp only [int64] at hLen
    omega
  rw [hSame] at h
  exact count_of_get u u' rest h

/-- The low 32 bits of a count of 32 bits are right. -/
theorem get_low_count (u : DAP4StreamUnMarshaller) {n : Nat} (rest : Bytes) (h : n < 2 ^ 32) :
    ∃ r, (u.before (prefixForm (UInt64.ofNat n) ++ rest)).getLengthPrefix = .ok (r, u.before rest) ∧
      uint32 r = n := by
  have hValue : (UInt64.ofNat n).toNat = n := by
    rw [UInt64.toNat_ofNat', Nat.mod_eq_of_lt (by omega)]
  by_cases hLow : n < 2 ^ 31
  · refine ⟨n, get_count u rest hLow, ?_⟩
    rw [uint32_natCast]
    omega
  obtain ⟨k, hSize, _, hHigh, hNeed⟩ := varintSize_spec n (by omega)
  have hFour : k = 4 := by
    have hLess : ¬ k ≤ 3 := by
      intro hLess
      have hPow : 128 ^ (k + 1) ≤ 128 ^ 4 := Nat.pow_le_pow_right (by decide) (by omega)
      omega
    have hMore : ¬ 5 ≤ k := by
      intro hMore
      have hPow : 128 ^ 5 ≤ 128 ^ k := Nat.pow_le_pow_right (by decide) hMore
      have hNeed := hNeed (by omega)
      omega
    omega
  subst hFour
  refine ⟨(n % 128 ^ 4 + uint64 (int32 ((n / 128 ^ 4 * 128 ^ 4 : Nat) : Int))) % 2 ^ 64, ?_, ?_⟩
  · rw [getLengthPrefix, before, prefixForm, hValue, hSize, Nat.add_sub_cancel]
    dsimp only
    rw [prefixLoop_groups rest (Nat.le_refl 4) hHigh, ok_bind]
    rfl
  · rw [uint32_natCast]
    simp only [uint64, int32]
    omega

namespace Put

/-- A call that throws. -/
def Fails (host : Host) (p : Put) : Prop :=
  ∀ m : DAP4StreamMarshaller, m.Ready → m.host = host → ∃ m' f, p m = (m', some f)

theorem Fails.andThen {host : Host} {p q : Put} (h : Fails host p) : Fails host (Put.andThen p q) := by
  intro m hReady hHost
  obtain ⟨m', f, hPut⟩ := h m hReady hHost
  exact ⟨m', f, by rw [Put.andThen, hPut]⟩

theorem Fails.checked {host : Host} {p : Put} (data : Bytes) (h : Fails host p) :
    Fails host (Put.andThen (checksumUpdate data) (Put.ifWriting p)) := by
  intro m hReady hHost
  obtain ⟨m₁, hFirst, _, hReady₁, hHost₁⟩ := Sends.checksum data m hReady hHost
  obtain ⟨m', f, hPut⟩ := h m₁ hReady₁ hHost₁
  refine ⟨m', f, ?_⟩
  rw [Put.andThen, hFirst]
  dsimp only
  rw [Put.ifWriting, if_pos hReady₁.writing, hPut]

theorem sends_putLengthPrefix (host : Host) {value : UInt64} (h : value.toNat < 2 ^ 63) :
    Sends host (putLengthPrefix value) (prefixForm value) := by
  obtain ⟨k, hSize, hk, _, hLow⟩ := varintSize_spec value.toNat value.toNat_lt
  have hFit : k + 1 ≤ 8 + 1 := by
    by_contra hLong
    have hLow := hLow (by omega)
    rw [show k = 9 by omega] at hLow
    omega
  obtain ⟨t, hWrite, hBytes⟩ :=
    WriteVarint64ToArrayInline_of_le value (Buffer.zeros (8 + 1)) hSize hk hFit
  rw [putLengthPrefix, hWrite, prefixForm, hSize, Nat.add_sub_cancel, ← hBytes]
  exact Sends.ifWriting (Sends.write _)

/-- The tenth byte of a prefix has no place in the target. -/
theorem putLengthPrefix_past_target {value : UInt64} (h : 2 ^ 63 ≤ value.toNat)
    (m : DAP4StreamMarshaller) (hWriting : m.dWriteData = true) :
    putLengthPrefix value m = (m, some .outOfBounds) := by
  obtain ⟨k, hSize, hk, hHigh, _⟩ := varintSize_spec value.toNat value.toNat_lt
  have hTen : k = 9 := by
    by_contra hLess
    have hPow : 128 ^ (k + 1) ≤ 128 ^ 9 := Nat.pow_le_pow_right (by decide) (by omega)
    omega
  rw [putLengthPrefix, WriteVarint64ToArrayInline_eq_none value _ (by omega), ifWriting,
    if_pos hWriting]
  rfl

/-- A count and data: either all of it is sent, or the count is beyond all lengths. -/
theorem counted_cases {host : Host} {q : Put} {bs : Bytes} (n : Nat) (hq : Sends host q bs) :
    Sends host (Put.andThen (putLengthPrefix (UInt64.ofNat n)) q) (prefixForm (UInt64.ofNat n) ++ bs) ∨
      2 ^ 63 ≤ n ∧ Fails host (Put.andThen (putLengthPrefix (UInt64.ofNat n)) q) := by
  by_cases h : (UInt64.ofNat n).toNat < 2 ^ 63
  · exact .inl ((sends_putLengthPrefix host h).andThen hq)
  · refine .inr ⟨?_, Fails.andThen fun m hReady _ =>
      ⟨m, _, putLengthPrefix_past_target (Nat.le_of_not_lt h) m hReady.writing⟩⟩
    have hMod := Nat.mod_le n (2 ^ 64)
    rw [UInt64.toNat_ofNat'] at h
    omega

/-- Where only counts below `2 ^ 63` are read back, it is enough to look at what is sent. -/
theorem counted_delivered_iff {p : Put} {m : DAP4StreamMarshaller} {bs rest : Bytes} {n : Nat}
    {view : Bytes → Prop} {P : Prop} (hReady : m.Ready)
    (hCases : Sends m.host p bs ∨ 2 ^ 63 ≤ n ∧ Fails m.host p) (hBound : P → n < 2 ^ 63)
    (hView : view (bs ++ rest) ↔ P) : Delivered p m rest view ↔ P := by
  rcases hCases with hSends | ⟨hLarge, hFails⟩
  · rw [hSends.delivered_iff hReady, hView]
  · obtain ⟨m', f, hPut⟩ := hFails m hReady rfl
    constructor
    · intro hDelivered
      exact absurd hDelivered (not_delivered hPut rest view)
    · intro hP
      have hBound := hBound hP
      omega

end Put

end Libdap.Dap4
