import Libdap.Core.Fault
import Libdap.Core.Int32
import Libdap.Dap4.Varint

/-! # DAP4StreamMarshaller

The writer of DAP4 data. Every `put` first gives the value's bytes in memory to the digest and
then, if data are to be written at all, sends them as they are. A `put` that throws leaves behind
what it did up to that point, so a call has a state as its result in either case.
-/

namespace Libdap.Dap4
open Core
set_option autoImplicit false

/-- The host and the libraries that the writer uses: the digest, and the encoder of reals for a host
whose own form of them is not IEEE 754. -/
structure Host where
  order : ByteOrder
  isIec559 : Bool
  EVP_DigestInit_ex : Bool
  EVP_DigestUpdate : Bytes → Bytes → Bool
  xdrReal : Bytes → Option Bytes

structure DAP4StreamMarshaller where
  host : Host
  dOut : Bytes
  dWriteData : Bool
  dChecksumCtxValid : Bool
  /-- What was given to the digest since it was reset. -/
  digest : Bytes

/-- A call on the writer: the state it leaves, and what it threw. -/
abbrev Put := DAP4StreamMarshaller → DAP4StreamMarshaller × Option Fault

namespace Put

def done : Put := fun m => (m, none)

def throw (f : Fault) : Put := fun m => (m, some f)

def andThen (p q : Put) : Put := fun m =>
  match p m with
  | (m, none) => q m
  | (m, some f) => (m, some f)

/-- `if (d_write_data) { … }` -/
def ifWriting (p : Put) : Put := fun m => if m.dWriteData then p m else done m

/-- `d_out.write(…)` -/
def write (bs : Bytes) : Put := fun m => ({ m with dOut := m.dOut ++ bs }, none)

end Put

/-- The number types of DAP4, in the words of the functions for single values. -/
inductive ScalarType
  | byte
  | int8
  | int16
  | int32
  | int64
  | float32
  | float64
  | uint16
  | uint32
  | uint64
  deriving DecidableEq, Repr

def ScalarType.width : ScalarType → Nat
  | byte => 1
  | int8 => 1
  | int16 => 2
  | int32 => 4
  | int64 => 8
  | float32 => 4
  | float64 => 8
  | uint16 => 2
  | uint32 => 4
  | uint64 => 8

def ScalarType.isReal : ScalarType → Bool
  | float32 => true
  | float64 => true
  | _ => false

/-- `n` pieces of `w` bytes each. -/
def chunks (w : Nat) : Nat → Bytes → List Bytes
  | 0, _ => []
  | n + 1, bs => bs.take w :: chunks w n (bs.drop w)

/-- `*i = bswap(*i)` on the `w` bytes of an object. -/
def swapObject (host : ByteOrder) (w : Nat) (bs : Bytes) : Bytes :=
  host.store w (bswap w (host.load bs))

namespace DAP4StreamMarshaller
open Put

def create (host : Host) (out : Bytes) (write_data : Bool) : DAP4StreamMarshaller :=
  ⟨host, out, write_data, false, []⟩

def resetChecksum : Put := fun m =>
  if m.host.EVP_DigestInit_ex then ({ m with dChecksumCtxValid := true, digest := [] }, none)
  else throw (.Error "Failed to initialize checksum object.") m

def checksumUpdate (data : Bytes) : Put := fun m =>
  if m.dChecksumCtxValid then
    if m.host.EVP_DigestUpdate m.digest data then ({ m with digest := m.digest ++ data }, none)
    else throw (.Error "Error computing the checksum (checksum update).")
      { m with dChecksumCtxValid := false }
  else throw (.InternalErr "Invalid checksum context (checksum update).") m

/-- The body shared by the functions for integers. -/
def putInteger (w : Nat) (val : BitVec (8 * w)) : Put := fun m =>
  andThen (checksumUpdate (m.host.order.store w val.toNat))
    (ifWriting (write (m.host.order.store w val.toNat))) m

def putByte (val : BitVec 8) : Put := putInteger 1 val

def putInt8 (val : BitVec 8) : Put := putInteger 1 val

def putInt16 (val : BitVec 16) : Put := putInteger 2 val

def putInt32 (val : BitVec 32) : Put := putInteger 4 val

def putInt64 (val : BitVec 64) : Put := putInteger 8 val

def putUint16 (val : BitVec 16) : Put := putInteger 2 val

def putUint32 (val : BitVec 32) : Put := putInteger 4 val

def putUint64 (val : BitVec 64) : Put := putInteger 8 val

/-- The branch for reals that are not IEEE 754. On a little-endian host the swap is applied to the
pointer `d_ieee754_buf` and not to what it points to. -/
def putXdrReal (w : Nat) (msg : String) (bs : Bytes) : Put := fun m =>
  match m.host.xdrReal bs with
  | none => throw (.InternalErr msg) m
  | some out =>
    if out.length = w then
      match m.host.order with
      | .little => throw .outOfBounds m
      | .big => write out m
    else throw (.InternalErr msg) m

/-- The body shared by `put_float32` and `put_float64`. -/
def putReal (w : Nat) (msg : String) (val : BitVec (8 * w)) : Put := fun m =>
  andThen (checksumUpdate (m.host.order.store w val.toNat))
    (ifWriting
      (if m.host.isIec559 then write (m.host.order.store w val.toNat)
      else putXdrReal w msg (m.host.order.store w val.toNat))) m

def putFloat32 (val : BitVec 32) : Put := putReal 4 "Error serializing a Float32 variable" val

def putFloat64 (val : BitVec 64) : Put := putReal 8 "Error serializing a Float64 variable" val

/-- The target is a vector of `sizeof(dods_uint64) + 1` bytes. -/
def putLengthPrefix (val : UInt64) : Put :=
  ifWriting
    (match WriteVarint64ToArrayInline val (Buffer.zeros (8 + 1)) with
    | none => throw .outOfBounds
    | some (target, size) => write (target.bytes.take size))

def putStr (val : Bytes) : Put :=
  andThen (checksumUpdate val)
    (ifWriting (andThen (putLengthPrefix (UInt64.ofNat val.length)) (write val)))

def putUrl (val : Bytes) : Put := putStr val

def putOpaque (val : Bytes) : Put :=
  andThen (checksumUpdate val)
    (ifWriting (andThen (putLengthPrefix (UInt64.ofNat val.length)) (write val)))

def putInt (_ : BitVec 32) : Put :=
  throw (.InternalErr "Not Implemented; use put_length_prefix.")

/-- The two versions of `put_vector` that take a `Vector` are for DAP2. -/
def putDap2Vector : Put := throw (.InternalErr "Not Implemented; use put_length_prefix.")

/-- `put_vector(char *val, unsigned int num)` -/
def putByteVector (val : Bytes) : Put := andThen (checksumUpdate val) (write val)

/-- `put_varying_vector(char *val, unsigned int num)` -/
def putVaryingByteVector (val : Bytes) : Put := putOpaque val

/-- `xdr_array` of reals, with the count before them, has to fill a block for the reals alone. -/
def mSerializeReals (val : Bytes) (num w : Nat) : Put := fun m =>
  let size := uint32 (num * w)
  match (chunks w num val).mapM m.host.xdrReal with
  | none => throw (.InternalErr "Error serializing a Float64 array") m
  | some reals =>
    let buf := toBE 4 num ++ reals.flatten
    if buf.length = size then
      match m.host.order with
      | .big => write buf m
      | .little =>
        write ((chunks w num buf).flatMap (swapObject .little w) ++ buf.drop (num * w)) m
    else throw (.InternalErr "Error serializing a Float64 array") m

/-- `put_vector(char *val, unsigned int num, int width, Type type)`, with `val` the elements in
memory. The lengths are computed as `unsigned int`. -/
def putVector (val : Bytes) (num : Nat) (type : ScalarType) : Put := fun m =>
  andThen (checksumUpdate (val.take (uint32 (num * type.width))))
    (ifWriting
      (if type.isReal ∧ ¬ m.host.isIec559 then mSerializeReals val num type.width
      else write (val.take (uint32 (num * type.width))))) m

/-- `put_varying_vector(char *val, unsigned int num, int width, Type type)` -/
def putVaryingVector (val : Bytes) (num : Nat) (type : ScalarType) : Put :=
  andThen (putLengthPrefix (UInt64.ofNat num)) (putVector val num type)

/-- A writer whose checksum was just reset. -/
def started (host : Host) (out : Bytes) (write_data : Bool) : DAP4StreamMarshaller :=
  (resetChecksum (create host out write_data)).1

end DAP4StreamMarshaller

/-- A little-endian IEEE 754 host with a digest that takes all data. -/
def plainHost : Host := ⟨.little, true, true, fun _ _ => true, fun _ => none⟩

end Libdap.Dap4
