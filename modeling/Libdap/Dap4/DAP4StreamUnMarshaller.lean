import Libdap.Dap4.DAP4StreamMarshaller

/-! # DAP4StreamUnMarshaller

The reader of DAP4 data, on a host whose reals are IEEE 754. The stream was told to throw, so a
read that cannot deliver all its bytes ends the call. The reader swaps the bytes of each number
when the byte orders of the stream and of the host differ.
-/

namespace Libdap.Dap4
open Core
set_option autoImplicit false

structure DAP4StreamUnMarshaller where
  order : ByteOrder
  dIn : Bytes
  dTwiddleBytes : Bool

/-- The shift of an `int`: there is no result for a shift by the width of the type. -/
def shiftLeft (a k : Nat) : Except Fault Int :=
  if 32 ≤ k then .error .undefined else .ok (int32 ((a * 2 ^ k : Nat) : Int))

def uint64 (n : Int) : Nat := (n % 2 ^ 64).toNat

def int64 (n : Int) : Int := (n + 2 ^ 63) % 2 ^ 64 - 2 ^ 63

namespace DAP4StreamUnMarshaller

def create (order stream : ByteOrder) (dIn : Bytes) : DAP4StreamUnMarshaller :=
  ⟨order, dIn, order != stream⟩

/-- The reader before a stream with these bytes. -/
def before (u : DAP4StreamUnMarshaller) (bs : Bytes) : DAP4StreamUnMarshaller := { u with dIn := bs }

def read (u : DAP4StreamUnMarshaller) (n : Int) : Except Fault (Bytes × DAP4StreamUnMarshaller) :=
  if n < 0 ∨ (u.dIn.length : Int) < n then .error .iosFailure
  else .ok (u.dIn.take n.toNat, { u with dIn := u.dIn.drop n.toNat })

/-- The body shared by the functions for single values. -/
def getInteger (u : DAP4StreamUnMarshaller) (w : Nat) :
    Except Fault (BitVec (8 * w) × DAP4StreamUnMarshaller) := do
  let (bs, u) ← u.read w
  let val := u.order.load bs
  .ok (BitVec.ofNat _ (if u.dTwiddleBytes then bswap w val else val), u)

def getByte (u : DAP4StreamUnMarshaller) : Except Fault (BitVec 8 × DAP4StreamUnMarshaller) := do
  let (bs, u) ← u.read 1
  .ok (BitVec.ofNat _ (u.order.load bs), u)

def getInt8 (u : DAP4StreamUnMarshaller) : Except Fault (BitVec 8 × DAP4StreamUnMarshaller) := do
  let (bs, u) ← u.read 1
  .ok (BitVec.ofNat _ (u.order.load bs), u)

def getInt16 (u : DAP4StreamUnMarshaller) : Except Fault (BitVec 16 × DAP4StreamUnMarshaller) :=
  u.getInteger 2

def getInt32 (u : DAP4StreamUnMarshaller) : Except Fault (BitVec 32 × DAP4StreamUnMarshaller) :=
  u.getInteger 4

def getInt64 (u : DAP4StreamUnMarshaller) : Except Fault (BitVec 64 × DAP4StreamUnMarshaller) :=
  u.getInteger 8

def getFloat32 (u : DAP4StreamUnMarshaller) : Except Fault (BitVec 32 × DAP4StreamUnMarshaller) :=
  u.getInteger 4

/-- The 64 bits are swapped by `bswap_32`, which takes and returns 32. -/
def getFloat64 (u : DAP4StreamUnMarshaller) : Except Fault (BitVec 64 × DAP4StreamUnMarshaller) := do
  let (bs, u) ← u.read 8
  let val := u.order.load bs
  .ok (BitVec.ofNat _ (if u.dTwiddleBytes then bswap 4 (val % 2 ^ 32) else val), u)

def getUint16 (u : DAP4StreamUnMarshaller) : Except Fault (BitVec 16 × DAP4StreamUnMarshaller) :=
  u.getInteger 2

def getUint32 (u : DAP4StreamUnMarshaller) : Except Fault (BitVec 32 × DAP4StreamUnMarshaller) :=
  u.getInteger 4

def getUint64 (u : DAP4StreamUnMarshaller) : Except Fault (BitVec 64 × DAP4StreamUnMarshaller) :=
  u.getInteger 8

/-- The loop of `get_length_prefix`, on what is left of the stream. -/
def prefixLoop : Bytes → Nat → Nat → Except Fault (Nat × Bytes)
  | [], _, _ => .error .iosFailure
  | b :: rest, count, result => do
    let v ← shiftLeft (b &&& 0x7F).toNat (7 * count)
    let result := (result + uint64 v) % 2 ^ 64
    if b &&& 0x80 = 0 then .ok (result, rest) else prefixLoop rest (count + 1) result

def getLengthPrefix (u : DAP4StreamUnMarshaller) : Except Fault (Nat × DAP4StreamUnMarshaller) := do
  let (result, rest) ← prefixLoop u.dIn 0 0
  .ok (result, { u with dIn := rest })

def getStr (u : DAP4StreamUnMarshaller) : Except Fault (Bytes × DAP4StreamUnMarshaller) := do
  let (len, u) ← u.getLengthPrefix
  let len := int64 len
  -- `vector<char> raw(len+1)`
  if len + 1 < 0 then .error .lengthError
  else u.read len

def getUrl (u : DAP4StreamUnMarshaller) : Except Fault (Bytes × DAP4StreamUnMarshaller) := u.getStr

/-- `get_opaque(char *val, unsigned int len)` -/
def getOpaque (u : DAP4StreamUnMarshaller) (len : Nat) :
    Except Fault (Bytes × DAP4StreamUnMarshaller) := do
  let (rlen, u) ← u.getLengthPrefix
  let rlen := int64 rlen
  if (len : Int) ≠ rlen then
    .error (.Error ("Expected opaque data of " ++ toString len ++ " bytes, but got " ++
      toString rlen ++ " instead."))
  else u.read len

/-- `get_opaque(char **val, unsigned int &len)`, where `len` is the length of the result. -/
def getNewOpaque (u : DAP4StreamUnMarshaller) : Except Fault (Bytes × DAP4StreamUnMarshaller) := do
  let (len, u) ← u.getLengthPrefix
  u.read (uint32 len)

/-- `get_vector(char *val, unsigned int num)` -/
def getByteVector (u : DAP4StreamUnMarshaller) (num : Nat) :
    Except Fault (Bytes × DAP4StreamUnMarshaller) := u.read num

def mTwidleVectorElements (u : DAP4StreamUnMarshaller) (vals : Bytes) (num width : Nat) :
    Except Fault Bytes :=
  if width = 2 ∨ width = 4 ∨ width = 8 then
    if vals.length < num * width then .error .outOfBounds
    else .ok ((chunks width num vals).flatMap (swapObject u.order width) ++ vals.drop (num * width))
  else .error (.InternalErr "Unrecognized word size.")

/-- What both `get_vector` and `get_varying_vector` do with a block of memory: `size` bytes are read
to its front, and its elements are swapped if need be. -/
def getElements (u : DAP4StreamUnMarshaller) (val : Bytes) (size : Int) (num width : Nat) :
    Except Fault (Bytes × DAP4StreamUnMarshaller) := do
  let (bs, u) ← u.read size
  let val := bs ++ val.drop bs.length
  if u.dTwiddleBytes then do
    let val ← u.mTwidleVectorElements val num width
    .ok (val, u)
  else .ok (val, u)

/-- `get_vector(char *val, unsigned int num, int width, Type type)` -/
def getVector (u : DAP4StreamUnMarshaller) (val : Bytes) (num : Nat) (type : ScalarType) :
    Except Fault (Bytes × DAP4StreamUnMarshaller) :=
  if val.length < uint32 (num * type.width) then .error .outOfBounds
  else u.getElements val (uint32 (num * type.width)) num type.width

/-- `get_varying_vector(char **val, unsigned int &num)` -/
def getVaryingByteVector (u : DAP4StreamUnMarshaller) :
    Except Fault (Bytes × DAP4StreamUnMarshaller) := u.getNewOpaque

/-- `get_varying_vector(char **val, unsigned int &num, int width, Type type)` -/
def getVaryingVector (u : DAP4StreamUnMarshaller) (type : ScalarType) :
    Except Fault (Bytes × Nat × DAP4StreamUnMarshaller) := do
  let (len, u) ← u.getLengthPrefix
  let num := uint32 len
  let size := int32 (uint32 (num * type.width))
  -- `new char[size]`
  if size < 0 then .error .lengthError
  else do
    let (val, u) ← u.getElements [] size num type.width
    .ok (val, num, u)

end DAP4StreamUnMarshaller

end Libdap.Dap4

/-! ## What a writer sends and what a reader has in memory

A writer that is ready sends a known string for each call. Values are compared in the reader's
memory, where they stand in the reader's byte order.
-/

namespace Libdap.Dap4
open Core Put DAP4StreamMarshaller
set_option autoImplicit false

/-- A writer of data on an IEEE 754 host with a checksum under way. -/
structure DAP4StreamMarshaller.Ready (m : DAP4StreamMarshaller) : Prop where
  digests : ∀ fed data, m.host.EVP_DigestUpdate fed data = true
  iec559 : m.host.isIec559 = true
  valid : m.dChecksumCtxValid = true
  writing : m.dWriteData = true

/-- A call that sends these bytes. -/
def Put.Sends (host : Host) (p : Put) (bs : Bytes) : Prop :=
  ∀ m : DAP4StreamMarshaller, m.Ready → m.host = host →
    ∃ m', p m = (m', none) ∧ m'.dOut = m.dOut ++ bs ∧ m'.Ready ∧ m'.host = host

/-- A call that returned, and a reader's view of what it sent and of what follows. -/
def Put.Delivered (p : Put) (m : DAP4StreamMarshaller) (rest : Bytes) (view : Bytes → Prop) : Prop :=
  ∃ m' out, p m = (m', none) ∧ m'.dOut = m.dOut ++ out ∧ view (out ++ rest)

namespace Put

theorem Sends.delivered_iff {p : Put} {m : DAP4StreamMarshaller} {bs : Bytes} (h : Sends m.host p bs)
    (hReady : m.Ready) (rest : Bytes) (view : Bytes → Prop) :
    Delivered p m rest view ↔ view (bs ++ rest) := by
  obtain ⟨m', hPut, hOut, _, _⟩ := h m hReady rfl
  constructor
  · rintro ⟨m'', out, hPut', hOut', hView⟩
    rw [hPut] at hPut'
    cases hPut'
    rw [hOut] at hOut'
    rwa [List.append_cancel_left hOut']
  · intro hView
    exact ⟨m', bs, hPut, hOut, hView⟩

theorem not_delivered {p : Put} {m m' : DAP4StreamMarshaller} {f : Fault} (h : p m = (m', some f))
    (rest : Bytes) (view : Bytes → Prop) : ¬ Delivered p m rest view := by
  rintro ⟨m'', out, hPut, _⟩
  rw [h] at hPut
  cases hPut

theorem Sends.write {host : Host} (bs : Bytes) : Sends host (Put.write bs) bs :=
  fun _ hReady hHost => ⟨_, rfl, rfl, ⟨hReady.digests, hReady.iec559, hReady.valid, hReady.writing⟩, hHost⟩

theorem Sends.checksum {host : Host} (data : Bytes) : Sends host (checksumUpdate data) [] := by
  intro m hReady hHost
  refine ⟨{ m with digest := m.digest ++ data }, ?_, (List.append_nil _).symm,
    ⟨hReady.digests, hReady.iec559, hReady.valid, hReady.writing⟩, hHost⟩
  rw [checksumUpdate, if_pos hReady.valid, if_pos (hReady.digests _ _)]

theorem Sends.andThen {host : Host} {p q : Put} {a b : Bytes} (hp : Sends host p a)
    (hq : Sends host q b) : Sends host (Put.andThen p q) (a ++ b) := by
  intro m hReady hHost
  obtain ⟨m₁, hFirst, hOut, hReady₁, hHost₁⟩ := hp m hReady hHost
  obtain ⟨m₂, hSecond, hOut₂, hReady₂, hHost₂⟩ := hq m₁ hReady₁ hHost₁
  refine ⟨m₂, ?_, by rw [hOut₂, hOut, List.append_assoc], hReady₂, hHost₂⟩
  rw [Put.andThen, hFirst]
  exact hSecond

theorem Sends.ifWriting {host : Host} {p : Put} {bs : Bytes} (h : Sends host p bs) :
    Sends host (Put.ifWriting p) bs := by
  intro m hReady hHost
  rw [Put.ifWriting, if_pos hReady.writing]
  exact h m hReady hHost

/-- Data that are first given to the digest. -/
theorem Sends.checked {host : Host} {p : Put} {bs : Bytes} (data : Bytes) (h : Sends host p bs) :
    Sends host (Put.andThen (checksumUpdate data) (Put.ifWriting p)) bs :=
  (Sends.checksum data).andThen h.ifWriting

theorem sends_putInteger (host : Host) (w : Nat) (val : BitVec (8 * w)) :
    Sends host (putInteger w val) (host.order.store w val.toNat) := by
  intro m hReady hHost
  subst hHost
  exact Sends.checked _ (Sends.write _) m hReady rfl

theorem sends_putReal (host : Host) (w : Nat) (msg : String) (val : BitVec (8 * w)) :
    Sends host (putReal w msg val) (host.order.store w val.toNat) := by
  intro m hReady hHost
  subst hHost
  rw [putReal, if_pos hReady.iec559]
  exact Sends.checked _ (Sends.write _) m hReady rfl

theorem sends_putVector (host : Host) (val : Bytes) (num : Nat) (type : ScalarType) :
    Sends host (putVector val num type) (val.take (uint32 (num * type.width))) := by
  intro m hReady hHost
  subst hHost
  rw [putVector, if_neg (fun h => h.2 hReady.iec559)]
  exact Sends.checked _ (Sends.write _) m hReady rfl

end Put

theorem swapObject_eq_reverse (order : ByteOrder) {w : Nat} {bs : Bytes} (h : bs.length = w) :
    swapObject order w bs = bs.reverse := by
  subst h
  cases order with
  | little =>
    rw [swapObject, ByteOrder.store, ByteOrder.load, toLE_bswap, toBE, toLE_ofLE]
  | big =>
    have hReverse := toLE_ofLE bs.reverse
    rw [List.length_reverse] at hReverse
    rw [swapObject, ByteOrder.store, ByteOrder.load, toBE_bswap, ofBE, hReverse]

/-- The elements of a vector in memory. -/
def memory (order : ByteOrder) (w : Nat) (vals : List (BitVec (8 * w))) : Bytes :=
  vals.flatMap fun v => order.store w v.toNat

theorem length_memory (order : ByteOrder) (w : Nat) (vals : List (BitVec (8 * w))) :
    (memory order w vals).length = vals.length * w := by
  induction vals with
  | nil => rw [memory, List.flatMap_nil, List.length_nil, List.length_nil, Nat.zero_mul]
  | cons v vals ih =>
    have hLength := order.length_store w v.toNat
    rw [memory] at ih
    rw [memory, List.flatMap_cons, List.length_append, hLength, ih, List.length_cons]
    ring

theorem chunks_memory (order : ByteOrder) (w : Nat) (vals : List (BitVec (8 * w))) :
    chunks w vals.length (memory order w vals) = vals.map fun v => order.store w v.toNat := by
  induction vals with
  | nil => rfl
  | cons v vals ih =>
    have hLength := order.length_store w v.toNat
    rw [memory, List.flatMap_cons, List.length_cons, chunks, List.take_left' hLength,
      List.drop_left' hLength, List.map_cons]
    exact congrArg _ ih

/-- The byte order that is not this one. -/
theorem store_reverse {a b : ByteOrder} (h : a ≠ b) (w n : Nat) :
    (a.store w n).reverse = b.store w n := by
  cases a <;> cases b
  · exact absurd rfl h
  · exact List.reverse_reverse _
  · rfl
  · exact absurd rfl h

theorem swap_memory {a b : ByteOrder} (h : a ≠ b) (w : Nat) (vals : List (BitVec (8 * w))) :
    (chunks w vals.length (memory a w vals)).flatMap (swapObject b w) = memory b w vals := by
  have hSwap : ∀ v : BitVec (8 * w), swapObject b w (a.store w v.toNat) = b.store w v.toNat := by
    intro v
    rw [swapObject_eq_reverse b (a.length_store w v.toNat), store_reverse h]
  rw [chunks_memory, memory, List.flatMap_map]
  simp only [hSwap]

end Libdap.Dap4
