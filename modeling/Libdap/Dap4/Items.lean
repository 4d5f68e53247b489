import Libdap.Dap4.Lengths

/-! # Sequences of values and vectors

A client reads the items it expects, in the order in which they were written. What it has then is
the same values, which for a vector means the same elements in its own memory.
-/

namespace Libdap.Dap4
open Core Put DAP4StreamMarshaller DAP4StreamUnMarshaller
set_option autoImplicit false

def putScalar : (type : ScalarType) → BitVec (8 * type.width) → Put
  | .byte, v => putByte v
  | .int8, v => putInt8 v
  | .int16, v => putInt16 v
  | .int32, v => putInt32 v
  | .int64, v => putInt64 v
  | .float32, v => putFloat32 v
  | .float64, v => putFloat64 v
  | .uint16, v => putUint16 v
  | .uint32, v => putUint32 v
  | .uint64, v => putUint64 v

def getScalar (u : DAP4StreamUnMarshaller) :
    (type : ScalarType) → Except Fault (BitVec (8 * type.width) × DAP4StreamUnMarshaller)
  | .byte => u.getByte
  | .int8 => u.getInt8
  | .int16 => u.getInt16
  | .int32 => u.getInt32
  | .int64 => u.getInt64
  | .float32 => u.getFloat32
  | .float64 => u.getFloat64
  | .uint16 => u.getUint16
  | .uint32 => u.getUint32
  | .uint64 => u.getUint64

inductive Item
  | scalar (type : ScalarType) (v : BitVec (8 * type.width))
  | byteVector (val : Bytes)
  | vector (type : ScalarType) (vals : List (BitVec (8 * type.width)))
  | varyingByteVector (val : Bytes)
  | varyingVector (type : ScalarType) (vals : List (BitVec (8 * type.width)))

/-- What a client has after reading an item: a value, or a number of elements in a block. -/
inductive Received
  | scalar (type : ScalarType) (v : BitVec (8 * type.width))
  | block (num : Nat) (val : Bytes)

namespace Item

def put : Item → Put
  | scalar type v => putScalar type v
  | byteVector val => putByteVector val
  | vector type vals => fun m =>
    putVector (memory m.host.order type.width vals) vals.length type m
  | varyingByteVector val => putVaryingByteVector val
  | varyingVector type vals => fun m =>
    putVaryingVector (memory m.host.order type.width vals) vals.length type m

/-- Read an item of this kind and, where that is known in advance, of this length. The block for a
vector of fixed length has the right size and held `fill` before. -/
def get (fill : UInt8) (u : DAP4StreamUnMarshaller) :
    Item → Except Fault (Received × DAP4StreamUnMarshaller)
  | scalar type _ => do
    let (v, u) ← getScalar u type
    .ok (.scalar type v, u)
  | byteVector val => do
    let (bs, u) ← u.getByteVector val.length
    .ok (.block val.length bs, u)
  | vector type vals => do
    let (bs, u) ← u.getVector (List.replicate (vals.length * type.width) fill) vals.length type
    .ok (.block vals.length bs, u)
  | varyingByteVector _ => do
    let (bs, u) ← u.getVaryingByteVector
    .ok (.block bs.length bs, u)
  | varyingVector type _ => do
    let (bs, num, u) ← u.getVaryingVector type
    .ok (.block num bs, u)

/-- The item in the memory of a host. -/
def inMemory (order : ByteOrder) : Item → Received
  | scalar type v => .scalar type v
  | byteVector val => .block val.length val
  | vector type vals => .block vals.length (memory order type.width vals)
  | varyingByteVector val => .block val.length val
  | varyingVector type vals => .block vals.length (memory order type.width vals)

/-- The item as it is sent by a host. -/
def form (order : ByteOrder) : Item → Bytes
  | scalar type v => order.store type.width v.toNat
  | byteVector val => val
  | vector type vals => (memory order type.width vals).take (uint32 (vals.length * type.width))
  | varyingByteVector val => prefixForm (UInt64.ofNat val.length) ++ val
  | varyingVector type vals => prefixForm (UInt64.ofNat vals.length) ++
      (memory order type.width vals).take (uint32 (vals.length * type.width))

/-- The items that survive, where `swapped` says that the hosts differ in byte order. -/
def Kept (swapped : Prop) : Item → Prop
  | scalar type v => swapped → type = .float64 → v.toNat = 0
  | byteVector _ => True
  | vector type vals => vals.length * type.width < 2 ^ 32 ∧ (swapped → type.width ≠ 1)
  | varyingByteVector val => val.length < 2 ^ 32
  | varyingVector type vals => vals.length * type.width < 2 ^ 31 ∧ (swapped → type.width ≠ 1)

end Item

theorem sends_putScalar (host : Host) (type : ScalarType) (v : BitVec (8 * type.width)) :
    Sends host (putScalar type v) (host.order.store type.width v.toNat) := by
  cases type with
  | float32 => exact sends_putReal host 4 _ v
  | float64 => exact sends_putReal host 8 _ v
  | byte => exact sends_putInteger host 1 v
  | int8 => exact sends_putInteger host 1 v
  | int16 => exact sends_putInteger host 2 v
  | int32 => exact sends_putInteger host 4 v
  | int64 => exact sends_putInteger host 8 v
  | uint16 => exact sends_putInteger host 2 v
  | uint32 => exact sends_putInteger host 4 v
  | uint64 => exact sends_putInteger host 8 v

theorem load_store_opposite {a b : ByteOrder} (h : a ≠ b) (w n : Nat) :
    b.load (a.store w n) = bswap w n := by
  cases a <;> cases b
  · exact absurd rfl h
  · rfl
  · rfl
  · exact absurd rfl h

theorem ofNat_toNat_of_width {w : Nat} (v : BitVec (8 * w)) :
    BitVec.ofNat (8 * w) (v.toNat % 256 ^ w) = v := by
  have hWidth : 2 ^ (8 * w) = 256 ^ w := pow_mul 2 8 w
  apply BitVec.eq_of_toNat_eq
  rw [BitVec.toNat_ofNat, hWidth, Nat.mod_mod, ← hWidth, Nat.mod_eq_of_lt v.isLt]

theorem getInteger_of_store (u : DAP4StreamUnMarshaller) {a : ByteOrder} {w : Nat}
    (v : BitVec (8 * w)) (rest : Bytes) (hTold : u.dTwiddleBytes = (u.order != a)) :
    (u.before (a.store w v.toNat ++ rest)).getInteger w = .ok (v, u.before rest) := by
  rw [getInteger, read_append u _ rest (by rw [ByteOrder.length_store]), ok_bind]
  dsimp only
  change Except.ok (BitVec.ofNat (8 * w) (if u.dTwiddleBytes then
    bswap w (u.order.load (a.store w v.toNat)) else u.order.load (a.store w v.toNat)), u.before rest) = _
  by_cases hSame : u.order = a
  · rw [if_neg (by rw [hTold, hSame]; simp), hSame, ByteOrder.load_store, ofNat_toNat_of_width]
  · rw [if_pos (by rw [hTold]; simpa using hSame), load_store_opposite (Ne.symm hSame), bswap_bswap,
      ofNat_toNat_of_width]

theorem getByte_of_store (u : DAP4StreamUnMarshaller) {a : ByteOrder} (v : BitVec 8) (rest : Bytes) :
    (u.before (a.store 1 v.toNat ++ rest)).getByte = .ok (v, u.before rest) := by
  have hLoad : u.order.load (a.store 1 v.toNat) = v.toNat % 256 ^ 1 := by
    cases u.order <;> cases a <;> rw [← ByteOrder.load_store .little 1 v.toNat] <;> rfl
  rw [getByte, read_append u _ rest (by rw [ByteOrder.length_store]; rfl), ok_bind]
  dsimp only
  change Except.ok (BitVec.ofNat (8 * 1) (u.order.load (a.store 1 v.toNat)), u.before rest) = _
  rw [hLoad, ofNat_toNat_of_width (w := 1) v]

/-- Four of the eight swapped bytes are left, swapped back. -/
theorem bswap_half (n : Nat) : bswap 4 (bswap 8 n % 2 ^ 32) = n / 2 ^ 32 % 256 ^ 4 := by
  have hSplit : toLE 8 n = toLE 4 n ++ toLE 4 (n / 2 ^ 32) := by
    simp only [toLE, Nat.div_div_eq_div_mul, List.cons_append, List.nil_append]
    norm_num only
  have hHalf : bswap 8 n % 2 ^ 32 = bswap 4 (n / 2 ^ 32) := by
    rw [bswap, toBE, hSplit, List.reverse_append, ofLE_append, List.length_reverse, length_toLE]
    have hLow := bswap_lt 4 (n / 2 ^ 32)
    rw [bswap, toBE] at hLow ⊢
    omega
  rw [hHalf, bswap_bswap]

theorem half_eq_self {v : BitVec 64} : BitVec.ofNat 64 (v.toNat / 2 ^ 32) = v ↔ v.toNat = 0 := by
  have hLt := v.isLt
  constructor
  · intro hEq
    have hNat := congrArg BitVec.toNat hEq
    rw [BitVec.toNat_ofNat] at hNat
    omega
  · intro hZero
    apply BitVec.eq_of_toNat_eq
    rw [BitVec.toNat_ofNat]
    omega

theorem getFloat64_of_store (u : DAP4StreamUnMarshaller) {a : ByteOrder} (v : BitVec 64)
    (rest : Bytes) (hTold : u.dTwiddleBytes = (u.order != a)) :
    ∃ v', (u.before (a.store 8 v.toNat ++ rest)).getFloat64 = .ok (v', u.before rest) ∧
      (v' = v ↔ (u.order ≠ a → v.toNat = 0)) := by
  have hGet : (u.before (a.store 8 v.toNat ++ rest)).getFloat64 = .ok (BitVec.ofNat 64
      (if u.dTwiddleBytes then bswap 4 (u.order.load (a.store 8 v.toNat) % 2 ^ 32)
        else u.order.load (a.store 8 v.toNat)), u.before rest) := by
    rw [getFloat64, read_append u _ rest (by rw [ByteOrder.length_store]; rfl), ok_bind]
    rfl
  by_cases hSame : u.order = a
  · rw [if_neg (by rw [hTold, hSame]; simp), hSame, ByteOrder.load_store] at hGet
    exact ⟨_, hGet, fun _ hOrder => absurd hSame hOrder, fun _ => ofNat_toNat_of_width (w := 8) v⟩
  · have hBound : v.toNat / 2 ^ 32 < 256 ^ 4 := by
      have hLt := v.isLt
      omega
    rw [if_pos (by rw [hTold]; simpa using hSame), load_store_opposite (Ne.symm hSame), bswap_half,
      Nat.mod_eq_of_lt hBound] at hGet
    exact ⟨_, hGet, fun hEq _ => half_eq_self.mp hEq, fun hZero => half_eq_self.mpr (hZero hSame)⟩

/-- A single value is read back unless it is a `Float64` that is to be swapped. -/
theorem getScalar_of_store (u : DAP4StreamUnMarshaller) {a : ByteOrder} (type : ScalarType)
    (v : BitVec (8 * type.width)) (rest : Bytes) (hTold : u.dTwiddleBytes = (u.order != a)) :
    ∃ v', getScalar (u.before (a.store type.width v.toNat ++ rest)) type = .ok (v', u.before rest) ∧
      (v' = v ↔ (Item.scalar type v).Kept (u.order ≠ a)) := by
  have hPlain : type ≠ .float64 → (v = v ↔ (Item.scalar type v).Kept (u.order ≠ a)) := by
    intro hType
    exact ⟨fun _ _ hReal => absurd hReal hType, fun _ => rfl⟩
  cases type with
  | float64 =>
    obtain ⟨v', hGet, hIff⟩ := getFloat64_of_store u v rest hTold
    exact ⟨v', hGet, hIff.trans ⟨fun hZero hOrder _ => hZero hOrder, fun hKept hOrder => hKept hOrder rfl⟩⟩
  | byte => exact ⟨v, getByte_of_store u v rest, hPlain (by decide)⟩
  | int8 => exact ⟨v, getByte_of_store u v rest, hPlain (by decide)⟩
  | int16 => exact ⟨v, getInteger_of_store u (w := 2) v rest hTold, hPlain (by decide)⟩
  | int32 => exact ⟨v, getInteger_of_store u (w := 4) v rest hTold, hPlain (by decide)⟩
  | int64 => exact ⟨v, getInteger_of_store u (w := 8) v rest hTold, hPlain (by decide)⟩
  | float32 => exact ⟨v, getInteger_of_store u (w := 4) v rest hTold, hPlain (by decide)⟩
  | uint16 => exact ⟨v, getInteger_of_store u (w := 2) v rest hTold, hPlain (by decide)⟩
  | uint32 => exact ⟨v, getInteger_of_store u (w := 4) v rest hTold, hPlain (by decide)⟩
  | uint64 => exact ⟨v, getInteger_of_store u (w := 8) v rest hTold, hPlain (by decide)⟩

end Libdap.Dap4
