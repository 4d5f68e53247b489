import Libdap.Core.Bytes

/-! # Length prefixes

A length is sent as groups of seven bits, the low group first, with the high bit set in every byte
but the last. The encoder works on three overlapping parts of the value and finds the number of
groups by a fixed search; `groups` is what it computes.
-/

namespace Libdap.Dap4
open Core
set_option autoImplicit false

/-- `k + 1` groups of a number. -/
def groups : Nat → Nat → Bytes
  | 0, n => [UInt8.ofNat (n % 128)]
  | k + 1, n => UInt8.ofNat (n % 128 + 128) :: groups k (n / 128)

def part0 (value : Nat) : Nat := value % 2 ^ 32

def part1 (value : Nat) : Nat := (value >>> 28) % 2 ^ 32

def part2 (value : Nat) : Nat := (value >>> 56) % 2 ^ 32

/-- The hard coded binary search for the number of bytes. -/
def varintSize (value : Nat) : Nat :=
  if part2 value = 0 then
    if part1 value = 0 then
      if part0 value < 1 <<< 14 then
        if part0 value < 1 <<< 7 then 1 else 2
      else
        if part0 value < 1 <<< 21 then 3 else 4
    else
      if part1 value < 1 <<< 14 then
        if part1 value < 1 <<< 7 then 5 else 6
      else
        if part1 value < 1 <<< 21 then 7 else 8
  else
    if part2 value < 1 <<< 7 then 9 else 10

def flagged (part : Nat) : UInt8 := UInt8.ofNat (part ||| 0x80)

/-- The bytes that the labels `size1` to `size10` store, in the order of their places. -/
def labels (value : Nat) : Bytes :=
  [flagged (part0 value), flagged (part0 value >>> 7), flagged (part0 value >>> 14),
    flagged (part0 value >>> 21), flagged (part1 value), flagged (part1 value >>> 7),
    flagged (part1 value >>> 14), flagged (part1 value >>> 21), flagged (part2 value),
    flagged (part2 value >>> 7)]

/-- The stores from label `size` down to `size1`, and then `target[size-1] &= 0x7F`. -/
def WriteVarint64ToArrayInline {n : Nat} (value : UInt64) (target : Buffer n) :
    Option (Buffer n × Nat) := do
  let size := varintSize value.toNat
  let target ← target.store 0 ((labels value.toNat).take size)
  let last ← target.load (size - 1) 1
  let target ← target.store (size - 1) (last.map (· &&& 0x7F))
  some (target, size)

@[simp] theorem length_groups (k n : Nat) : (groups k n).length = k + 1 := by
  induction k generalizing n with
  | zero => rfl
  | succ k ih => rw [groups, List.length_cons, ih]

set_option maxRecDepth 20000 in
theorem flagged_eq (part : Nat) : flagged part = UInt8.ofNat (part % 128 + 128) := by
  have hByte : ∀ b : Fin 256, b.val ||| 128 = b.val % 128 + 128 := by decide
  have hOr := hByte ⟨part % 256, Nat.mod_lt _ (by decide)⟩
  have hMod : (part ||| 128) % 2 ^ 8 = part % 2 ^ 8 ||| 128 % 2 ^ 8 := Nat.or_mod_two_pow
  change (part ||| 128) % 256 = part % 256 ||| 128 at hMod
  dsimp only at hOr
  apply UInt8.toNat_inj.mp
  rw [flagged, UInt8.toNat_ofNat', UInt8.toNat_ofNat']
  omega

theorem unflagged (part : Nat) : UInt8.ofNat (part % 128 + 128) &&& 0x7F = UInt8.ofNat (part % 128) := by
  have hByte : ∀ b : Fin 128, UInt8.ofNat (b.val + 128) &&& 0x7F = UInt8.ofNat b.val := by
    decide
  exact hByte ⟨part % 128, Nat.mod_lt _ (by decide)⟩

/-- Each label stores the group that belongs in its place. -/
theorem labels_eq (value : Nat) (h : value < 2 ^ 64) : labels value = (List.range 10).map fun i =>
    UInt8.ofNat (value / 128 ^ i % 128 + 128) := by
  have hFlag : ∀ part i, part % 128 = value / 128 ^ i % 128 →
      flagged part = UInt8.ofNat (value / 128 ^ i % 128 + 128) := by
    intro part i hPart
    rw [flagged_eq, hPart]
  have h0 := hFlag (part0 value) 0 (by simp only [part0]; omega)
  have h1 := hFlag (part0 value >>> 7) 1 (by simp only [part0, Nat.shiftRight_eq_div_pow]; omega)
  have h2 := hFlag (part0 value >>> 14) 2 (by simp only [part0, Nat.shiftRight_eq_div_pow]; omega)
  have h3 := hFlag (part0 value >>> 21) 3 (by simp only [part0, Nat.shiftRight_eq_div_pow]; omega)
  have h4 := hFlag (part1 value) 4 (by simp only [part1, Nat.shiftRight_eq_div_pow]; omega)
  have h5 := hFlag (part1 value >>> 7) 5 (by simp only [part1, Nat.shiftRight_eq_div_pow]; omega)
  have h6 := hFlag (part1 value >>> 14) 6 (by simp only [part1, Nat.shiftRight_eq_div_pow]; omega)
  have h7 := hFlag (part1 value >>> 21) 7 (by simp only [part1, Nat.shiftRight_eq_div_pow]; omega)
  have h8 := hFlag (part2 value) 8 (by simp only [part2, Nat.shiftRight_eq_div_pow]; omega)
  have h9 := hFlag (part2 value >>> 7) 9 (by simp only [part2, Nat.shiftRight_eq_div_pow]; omega)
  rw [labels, h0, h1, h2, h3, h4, h5, h6, h7, h8, h9]
  rfl

theorem groups_eq (k n : Nat) : groups k n =
    ((List.range k).map fun i => UInt8.ofNat (n / 128 ^ i % 128 + 128)) ++
      [UInt8.ofNat (n / 128 ^ k % 128)] := by
  induction k generalizing n with
  | zero => rw [groups, List.range_zero, List.map_nil, List.nil_append, pow_zero, Nat.div_one]
  | succ k ih =>
    rw [groups, ih, List.range_succ_eq_map, List.map_cons, List.map_map, pow_zero, Nat.div_one,
      List.cons_append]
    simp only [Nat.div_div_eq_div_mul, Function.comp_def, pow_succ']

/-- The search finds the number of groups that the value needs. -/
theorem varintSize_spec (value : Nat) (h : value < 2 ^ 64) :
    ∃ k, varintSize value = k + 1 ∧ k ≤ 9 ∧ value < 128 ^ (k + 1) ∧ (k ≠ 0 → 128 ^ k ≤ value) := by
  have h0 : part0 value = value % 4294967296 := rfl
  have h1 : part1 value = value / 268435456 % 4294967296 := by
    norm_num only [part1, Nat.shiftRight_eq_div_pow]
  have h2 : part2 value = value / 72057594037927936 := by
    rw [part2, Nat.shiftRight_eq_div_pow]
    omega
  have h14 : 1 <<< 14 = 16384 := rfl
  have h7 : 1 <<< 7 = 128 := rfl
  have h21 : 1 <<< 21 = 2097152 := rfl
  rw [varintSize, h0, h1, h2, h14, h7, h21]
  by_cases hTop : value / 72057594037927936 = 0
  · rw [if_pos hTop]
    by_cases hMiddle : value / 268435456 % 4294967296 = 0
    · rw [if_pos hMiddle]
      split <;> split
      · exact ⟨0, rfl, by omega, by omega, by omega⟩
      · exact ⟨1, rfl, by omega, by omega, by omega⟩
      · exact ⟨2, rfl, by omega, by omega, by omega⟩
      · exact ⟨3, rfl, by omega, by omega, by omega⟩
    · rw [if_neg hMiddle]
      split <;> split
      · exact ⟨4, rfl, by omega, by omega, by omega⟩
      · exact ⟨5, rfl, by omega, by omega, by omega⟩
      · exact ⟨6, rfl, by omega, by omega, by omega⟩
      · exact ⟨7, rfl, by omega, by omega, by omega⟩
  · rw [if_neg hTop]
    split
    · exact ⟨8, rfl, by omega, by omega, by omega⟩
    · exact ⟨9, rfl, by omega, by omega, by omega⟩

theorem length_labels (value : Nat) : (labels value).length = 10 := rfl

/-- In a target that is long enough, the encoder leaves the groups of the value. -/
theorem WriteVarint64ToArrayInline_of_le {n : Nat} (value : UInt64) (target : Buffer n) {k : Nat}
    (hSize : varintSize value.toNat = k + 1) (hk : k ≤ 9) (hFit : k + 1 ≤ n) :
    ∃ t, WriteVarint64ToArrayInline value target = some (t, k + 1) ∧
      t.bytes.take (k + 1) = groups k value.toNat := by
  have hValue : value.toNat < 2 ^ 64 := value.toNat_lt
  have hLabels : ((labels value.toNat).take (k + 1)).length = k + 1 := by
    rw [List.length_take, length_labels]
    omega
  obtain ⟨t, hStore⟩ := target.store_some 0 ((labels value.toNat).take (k + 1))
    (by rw [hLabels]; omega)
  have hTake := Buffer.take_store_all hStore
  rw [hLabels, Nat.zero_add, List.take_zero, List.nil_append, labels_eq _ hValue, ← List.map_take,
    List.take_range, Nat.min_eq_left (by omega), List.range_succ, List.map_append, List.map_cons,
    List.map_nil] at hTake
  have hPrefix : ((List.range k).map fun i =>
      UInt8.ofNat (value.toNat / 128 ^ i % 128 + 128)).length = k := by
    rw [List.length_map, List.length_range]
  have hLast : t.load k 1 = some [UInt8.ofNat (value.toNat / 128 ^ k % 128 + 128)] := by
    have hDrop := congrArg (List.drop k) hTake
    rw [List.drop_take, List.drop_left' hPrefix, Nat.add_sub_cancel_left] at hDrop
    rw [Buffer.load_bytes hFit, hDrop]
  obtain ⟨t', hMask⟩ := t.store_some k [UInt8.ofNat (value.toNat / 128 ^ k % 128)] hFit
  refine ⟨t', ?_, ?_⟩
  · rw [WriteVarint64ToArrayInline, hSize, hStore]
    change (t.load k 1).bind (fun last => (t.store k (last.map (· &&& 0x7F))).bind
      fun t => some (t, k + 1)) = _
    rw [hLast, Option.bind_some, List.map_cons, List.map_nil, unflagged, hMask, Option.bind_some]
  · have hAll := Buffer.take_store_all hMask
    rw [List.length_singleton] at hAll
    have hKept := congrArg (List.take k) hTake
    rw [List.take_take, Nat.min_eq_left (Nat.le_succ k), List.take_left' hPrefix] at hKept
    rw [hAll, hKept, groups_eq]

theorem WriteVarint64ToArrayInline_eq_none {n : Nat} (value : UInt64) (target : Buffer n)
    (h : n < varintSize value.toNat) : WriteVarint64ToArrayInline value target = none := by
  obtain ⟨k, hSize, hk, _⟩ := varintSize_spec value.toNat value.toNat_lt
  have hLabels : ((labels value.toNat).take (varintSize value.toNat)).length = varintSize value.toNat := by
    rw [List.length_take, length_labels]
    omega
  rw [WriteVarint64ToArrayInline, Buffer.store_eq_none (by rw [hLabels]; omega)]
  rfl

end Libdap.Dap4
