import Mathlib.Data.Nat.Basic
import Mathlib.Data.Nat.Bitwise
import Mathlib.Tactic.Ring

/-! # Byte strings of fixed width

Naturals as `w` bytes in either byte order, and the byte swap that turns one order into the
other. Bits above `8 * w` are dropped by the encoders, as a store to a `w` byte object does.
-/

namespace Libdap.Core
set_option autoImplicit false

abbrev Bytes := List UInt8

def toLE : Nat → Nat → Bytes
  | 0, _ => []
  | w + 1, n => UInt8.ofNat (n % 256) :: toLE w (n / 256)

def ofLE : Bytes → Nat
  | [] => 0
  | b :: bs => b.toNat + 256 * ofLE bs

attribute [local grind =] toLE ofLE

def toBE (w n : Nat) : Bytes := (toLE w n).reverse

def ofBE (bs : Bytes) : Nat := ofLE bs.reverse

/-- The value read back when `w` bytes stored in one byte order are loaded in the other. -/
def bswap (w n : Nat) : Nat := ofLE (toBE w n)

@[simp] theorem length_toLE (w n : Nat) : (toLE w n).length = w := by
  induction w generalizing n with
  | zero => rfl
  | succ w ih => simp only [toLE, List.length_cons, ih]

@[simp] theorem length_toBE (w n : Nat) : (toBE w n).length = w := by
  simp only [toBE, List.length_reverse, length_toLE]

@[simp] theorem ofLE_toLE (w n : Nat) : ofLE (toLE w n) = n % 256 ^ w := by
  induction w generalizing n with
  | zero => simp only [toLE, ofLE, pow_zero, Nat.mod_one]
  | succ w ih =>
    have hByte : (UInt8.ofNat (n % 256)).toNat = n % 256 := by
      rw [UInt8.toNat_ofNat']
      exact Nat.mod_eq_of_lt (Nat.mod_lt n (by decide))
    rw [toLE, ofLE, ih, hByte, pow_succ', Nat.mod_mul]

@[simp] theorem toLE_ofLE (bs : Bytes) : toLE bs.length (ofLE bs) = bs := by
  induction bs with
  | nil => rfl
  | cons b bs ih =>
    have hByte : b.toNat < 256 := b.toNat_lt
    rw [List.length_cons, toLE, ofLE, Nat.add_mul_mod_self_left, Nat.mod_eq_of_lt hByte,
      UInt8.ofNat_toNat, Nat.add_mul_div_left _ _ (by decide), Nat.div_eq_of_lt hByte,
      Nat.zero_add, ih]

theorem ofLE_lt (bs : Bytes) : ofLE bs < 256 ^ bs.length := by
  induction bs with
  | nil => simp only [ofLE, List.length_nil, pow_zero, Nat.zero_lt_one]
  | cons b bs ih =>
    have hByte : b.toNat < 256 := b.toNat_lt
    rw [ofLE, List.length_cons, pow_succ]
    omega

theorem ofLE_append (xs ys : Bytes) : ofLE (xs ++ ys) = ofLE xs + 256 ^ xs.length * ofLE ys := by
  induction xs with
  | nil => simp only [List.nil_append, ofLE, List.length_nil, pow_zero, one_mul, zero_add]
  | cons x xs ih =>
    rw [List.cons_append, ofLE, ih, ofLE, List.length_cons, pow_succ]
    ring

@[simp] theorem ofBE_toBE (w n : Nat) : ofBE (toBE w n) = n % 256 ^ w := by
  rw [ofBE, toBE, List.reverse_reverse, ofLE_toLE]

theorem ofBE_lt (bs : Bytes) : ofBE bs < 256 ^ bs.length := by
  have h := ofLE_lt bs.reverse
  rwa [List.length_reverse] at h

theorem toLE_mod (w n : Nat) : toLE w (n % 256 ^ w) = toLE w n := by
  rw [← ofLE_toLE w n]
  calc
    toLE w (ofLE (toLE w n)) = toLE (toLE w n).length (ofLE (toLE w n)) := by rw [length_toLE]
    _ = toLE w n := toLE_ofLE _

theorem toBE_mod (w n : Nat) : toBE w (n % 256 ^ w) = toBE w n := by
  rw [toBE, toBE, toLE_mod]

@[simp] theorem toLE_bswap (w n : Nat) : toLE w (bswap w n) = toBE w n := by
  have h := toLE_ofLE (toBE w n)
  rwa [length_toBE] at h

@[simp] theorem toBE_bswap (w n : Nat) : toBE w (bswap w n) = toLE w n := by
  rw [toBE, toLE_bswap, toBE, List.reverse_reverse]

theorem bswap_lt (w n : Nat) : bswap w n < 256 ^ w := by
  have h := ofLE_lt (toBE w n)
  rwa [length_toBE] at h

/-- The order in which a host keeps the bytes of an object. -/
inductive ByteOrder
  | big
  | little
  deriving DecidableEq, Repr

def ByteOrder.store : ByteOrder → Nat → Nat → Bytes
  | .big => toBE
  | .little => toLE

def ByteOrder.load : ByteOrder → Bytes → Nat
  | .big => ofBE
  | .little => ofLE

@[simp] theorem ByteOrder.length_store (o : ByteOrder) (w n : Nat) : (o.store w n).length = w := by
  cases o <;> simp only [ByteOrder.store, length_toBE, length_toLE]

@[simp] theorem ByteOrder.load_store (o : ByteOrder) (w n : Nat) :
    o.load (o.store w n) = n % 256 ^ w := by
  cases o <;> simp only [ByteOrder.store, ByteOrder.load, ofBE_toBE, ofLE_toLE]

theorem ByteOrder.store_load (o : ByteOrder) (bs : Bytes) : o.store bs.length (o.load bs) = bs := by
  cases o with
  | little => exact toLE_ofLE bs
  | big =>
    have h := toLE_ofLE bs.reverse
    rw [List.length_reverse] at h
    rw [ByteOrder.store, ByteOrder.load, toBE, ofBE, h, List.reverse_reverse]

theorem ByteOrder.load_lt (o : ByteOrder) (bs : Bytes) : o.load bs < 256 ^ bs.length := by
  cases o with
  | big => exact ofBE_lt bs
  | little => exact ofLE_lt bs

theorem bswap_bswap (w n : Nat) : bswap w (bswap w n) = n % 256 ^ w := by
  rw [bswap, toBE_bswap, ofLE_toLE]

end Libdap.Core

/-! ## Numbers cut out of a string of bits

The bits of a byte string are those of its bytes in turn, each byte from its low bit up. A number of up to 16 bits at
any place is found in the three bytes from that place on.
-/

namespace Libdap.Core
set_option autoImplicit false

def bitAt (bs : Bytes) (i : Nat) : Bool := (bs[i / 8]?.getD 0).toNat.testBit (i % 8)

/-- The `n` bits from `pos` on, as a number with the first of them lowest. -/
def codeAt (bs : Bytes) (pos n : Nat) : Nat := Nat.ofBits fun k : Fin n => bitAt bs (pos + k)

/-- Three bytes of memory as one number. -/
def tripleAt (mem : Nat → UInt8) (p : Nat) : Nat :=
  (mem p).toNat ||| (mem (p + 1)).toNat <<< 8 ||| (mem (p + 2)).toNat <<< 16

variable {bs : Bytes} {mem : Nat → UInt8} {p pos n i : Nat}

theorem codeAt_lt : codeAt bs pos n < 2 ^ n := Nat.ofBits_lt_two_pow _

theorem byte_testBit_high (b : UInt8) (h : 8 ≤ i) : b.toNat.testBit i = false := by
  apply Nat.testBit_lt_two_pow
  exact b.toNat_lt.trans_le (Nat.pow_le_pow_right (by omega) h)

theorem tripleAt_testBit (h : i < 24) : (tripleAt mem p).testBit i = (mem (p + i / 8)).toNat.testBit (i % 8) := by
  simp only [tripleAt, Nat.testBit_or, Nat.testBit_shiftLeft]
  rcases (by omega : i < 8 ∨ (8 ≤ i ∧ i < 16) ∨ 16 ≤ i) with hLow | ⟨hLow, hHigh⟩ | hLow
  · simp [Nat.div_eq_of_lt hLow, Nat.mod_eq_of_lt hLow, Nat.not_le.mpr hLow, show ¬ 16 ≤ i by omega]
  · rw [byte_testBit_high _ hLow, show i / 8 = 1 by omega, show i % 8 = i - 8 by omega]
    simp [hLow, show ¬ 16 ≤ i by omega]
  · rw [byte_testBit_high _ (by omega : 8 ≤ i), byte_testBit_high _ (by omega : 8 ≤ i - 8), show i / 8 = 2 by omega,
      show i % 8 = i - 16 by omega]
    simp [hLow]

/-- The number is found in memory that holds the bytes with its bits. -/
theorem tripleAt_eq_codeAt {o : Nat} (hn : n ≤ 16)
    (hMem : ∀ k, 8 * (pos / 8 + k) < pos + n → bs[o + (pos / 8 + k)]? = some (mem (pos / 8 + k))) :
    (tripleAt mem (pos / 8) >>> (pos % 8)) &&& (2 ^ n - 1) = codeAt bs (8 * o + pos) n := by
  apply Nat.eq_of_testBit_eq
  intro i
  rw [Nat.testBit_and, Nat.testBit_two_pow_sub_one, Nat.testBit_shiftRight]
  by_cases hi : i < n
  · have hPlace : (8 * o + pos + i) / 8 = o + (pos / 8 + (pos % 8 + i) / 8) := by omega
    have hBit : (8 * o + pos + i) % 8 = (pos % 8 + i) % 8 := by omega
    rw [tripleAt_testBit (by omega), codeAt, Nat.testBit_ofBits_lt _ _ hi, bitAt, hPlace, hBit, hMem _ (by omega)]
    simp [hi]
  · rw [codeAt, Nat.testBit_ofBits_ge _ _ (by omega)]
    simp [hi]

end Libdap.Core

/-! ## Memory of a fixed size

A block of memory together with its size. Loads and stores name an offset and are refused when
they would touch a byte outside the block, so a successful access is an access in bounds.
-/

namespace Libdap.Core
set_option autoImplicit false

structure Buffer (n : Nat) where
  bytes : Bytes
  size_eq : bytes.length = n

namespace Buffer

theorem ext_bytes {n : Nat} {a b : Buffer n} (h : a.bytes = b.bytes) : a = b := by
  cases a
  cases b
  cases h
  rfl

def load {n : Nat} (b : Buffer n) (offset len : Nat) : Option Bytes :=
  if offset + len ≤ n then some ((b.bytes.drop offset).take len) else none

def store {n : Nat} (b : Buffer n) (offset : Nat) (bs : Bytes) : Option (Buffer n) :=
  if h : offset + bs.length ≤ n then
    some ⟨b.bytes.take offset ++ bs ++ b.bytes.drop (offset + bs.length), by
      have hSize := b.size_eq
      simp only [List.length_append, List.length_take, List.length_drop]
      omega⟩
  else none

/-- A block of `n` zero bytes, as `vector<char>(n)` makes. -/
def zeros (n : Nat) : Buffer n := ⟨List.replicate n 0, List.length_replicate⟩

def ofBytes (bs : Bytes) : Buffer bs.length := ⟨bs, rfl⟩

theorem store_eq_none {n : Nat} {b : Buffer n} {offset : Nat} {bs : Bytes}
    (h : n < offset + bs.length) : b.store offset bs = none := dif_neg (by omega)

theorem store_isSome_iff {n : Nat} {b : Buffer n} {offset : Nat} {bs : Bytes} :
    (b.store offset bs).isSome ↔ offset + bs.length ≤ n := by
  unfold store
  split <;> simp_all

theorem store_bytes {n : Nat} {b c : Buffer n} {offset : Nat} {bs : Bytes}
    (h : b.store offset bs = some c) :
    offset + bs.length ≤ n ∧
      c.bytes = b.bytes.take offset ++ bs ++ b.bytes.drop (offset + bs.length) := by
  unfold store at h
  split at h
  · rename_i hFit
    cases h
    exact ⟨hFit, rfl⟩
  · cases h

theorem load_bytes {n : Nat} {b : Buffer n} {offset len : Nat} (h : offset + len ≤ n) :
    b.load offset len = some ((b.bytes.drop offset).take len) := if_pos h

theorem load_eq_none {n : Nat} {b : Buffer n} {offset len : Nat} (h : n < offset + len) :
    b.load offset len = none := if_neg (by omega)

theorem load_ofBytes (bs : Bytes) : (ofBytes bs).load 0 bs.length = some bs := by
  rw [load_bytes (Nat.le_of_eq (Nat.zero_add _)), List.drop_zero]
  exact congrArg some (List.take_length)

theorem store_some {n : Nat} (b : Buffer n) (offset : Nat) (bs : Bytes)
    (h : offset + bs.length ≤ n) : ∃ c, b.store offset bs = some c := by
  rw [store, dif_pos h]
  exact ⟨_, rfl⟩

/-- A stored string is found again at its offset. -/
theorem drop_store {n : Nat} {b c : Buffer n} {offset : Nat} {bs : Bytes}
    (h : b.store offset bs = some c) :
    c.bytes.drop offset = bs ++ b.bytes.drop (offset + bs.length) := by
  obtain ⟨hFit, hBytes⟩ := store_bytes h
  have hTake : (b.bytes.take offset).length = offset := by
    rw [List.length_take, b.size_eq]
    omega
  rw [hBytes, List.append_assoc, List.drop_append_of_le_length (by omega),
    List.drop_eq_nil_of_le (by omega), List.nil_append]

/-- What lies below the offset of a store is kept. -/
theorem take_store {n : Nat} {b c : Buffer n} {offset k : Nat} {bs : Bytes}
    (h : b.store offset bs = some c) (hk : k ≤ offset) : c.bytes.take k = b.bytes.take k := by
  obtain ⟨hFit, hBytes⟩ := store_bytes h
  have hTake : (b.bytes.take offset).length = offset := by
    rw [List.length_take, b.size_eq]
    omega
  rw [hBytes, List.append_assoc, List.take_append_of_le_length (by omega), List.take_take,
    Nat.min_eq_left hk]

theorem take_store_all {n : Nat} {b c : Buffer n} {offset : Nat} {bs : Bytes}
    (h : b.store offset bs = some c) :
    c.bytes.take (offset + bs.length) = b.bytes.take offset ++ bs := by
  obtain ⟨hFit, hBytes⟩ := store_bytes h
  have hLength : (b.bytes.take offset ++ bs).length = offset + bs.length := by
    rw [List.length_append, List.length_take, b.size_eq]
    omega
  rw [hBytes, ← hLength, List.take_left']
  rfl

theorem store_whole {n : Nat} {b c : Buffer n} {bs : Bytes} (h : b.store 0 bs = some c)
    (hLength : bs.length = n) : c.bytes = bs := by
  have hAll := take_store_all h
  rwa [Nat.zero_add, List.take_zero, List.nil_append, hLength,
    List.take_of_length_le (Nat.le_of_eq c.size_eq)] at hAll

end Buffer

end Libdap.Core
