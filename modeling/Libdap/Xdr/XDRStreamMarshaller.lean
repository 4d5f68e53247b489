import Libdap.Xdr.Array

/-! # XDRStreamMarshaller

The writer of DAP2 data. Every `put` encodes into a block of memory and copies what was
encoded to the output stream; small items share one static block.
-/

namespace Libdap.Xdr
open Core
set_option autoImplicit false

namespace Marshaller

def XDR_DAP_BUFF_SIZE : Nat := 256

end Marshaller

structure XDRStreamMarshaller where
  dSink : Handle Marshaller.XDR_DAP_BUFF_SIZE
  dOut : Bytes

namespace XDRStreamMarshaller

def create (d_buf : Buffer Marshaller.XDR_DAP_BUFF_SIZE) : XDRStreamMarshaller :=
  ⟨Handle.create d_buf, []⟩

/-- The steps shared by all the `put` functions: rewind the handle, run the filter, and see how
much it produced. A filter may meet a fault of its own; the three texts are those of the errors
after each step. -/
def encode {n : Nat} (x : Handle n) (filter : Handle n → Except Fault (Option (Handle n)))
    (setposMsg filterMsg getposMsg : String) : Except Fault (Handle n) :=
  match x.setpos 0 with
  | none => .error (.Error setposMsg)
  | some x =>
    match filter x with
    | .error f => .error f
    | .ok none => .error (.Error filterMsg)
    | .ok (some x) => if x.pos = 0 then .error (.Error getposMsg) else .ok x

def putInt (m : XDRStreamMarshaller) (val : Int) : Except Fault XDRStreamMarshaller := do
  let x ← encode m.dSink (fun x => .ok (xdrUIntPut x (uint32 val)))
    "Network I/O Error. Could not send int data - unable to set stream position.\nThis may be due to a bug in DODS, on the server or a\nproblem with the network connection."
    "Network I/O Error(1). Could not send int data.\nThis may be due to a bug in libdap or a\nproblem with the network connection."
    "Network I/O Error. Could not send int data - unable to get stream position.\nThis may be due to a bug in DODS, on the server or a\nproblem with the network connection."
  .ok ⟨x, m.dOut ++ x.written⟩

def putOpaque (m : XDRStreamMarshaller) (val : Bytes) : Except Fault XDRStreamMarshaller :=
  if Marshaller.XDR_DAP_BUFF_SIZE < val.length then
    .error (.Error "Network I/O Error. Could not send opaque data - length of opaque data larger than allowed")
  else do
    let x ← encode m.dSink (fun x => .ok (xdrOpaquePut x val))
      "Network I/O Error. Could not send opaque data - unable to set stream position.\nThis may be due to a bug in DODS, on the server or a\nproblem with the network connection."
      "Network I/O Error. Could not send opaque data.\nThis may be due to a bug in libdap, on the server or a\nproblem with the network connection."
      "Network I/O Error. Could not send opaque data - unable to get stream position.\nThis may be due to a bug in DODS, on the server or a\nproblem with the network connection."
    .ok ⟨x, m.dOut ++ x.written⟩

/-- `put_vector(char *val, int num, Vector &)`, the version for bytes: the element count, and
then the counted bytes from a block of `num + add_to` bytes. -/
def putByteVector {cap : Nat} (m : XDRStreamMarshaller) (val : Option (Buffer cap)) (num : Int) :
    Except Fault XDRStreamMarshaller :=
  match val with
  | none =>
    .error (.InternalErr "Could not send byte vector data. Buffer pointer is not set.")
  | some val => do
    let m ← m.putInt num
    let size := uint32 (num + 8)
    let x ← encode (Handle.create (Buffer.zeros size))
      (fun x => xdrBytesPutFrom x val (uint32 num) size)
      "Network I/O Error. Could not send byte vector data - unable to set stream position.\nThis may be due to a bug in DODS, on the server or a\nproblem with the network connection."
      "Network I/O Error(2). Could not send byte vector data.\nThis may be due to a bug in libdap or a\nproblem with the network connection."
      "Network I/O Error. Could not send byte vector data - unable to get stream position.\nThis may be due to a bug in DODS, on the server or a\nproblem with the network connection."
    .ok { m with dOut := m.dOut ++ x.written }

/-- `put_vector(char *val, unsigned int num, int width, Type type)`, with `val` pointing to a block
of memory. -/
def putVector {cap : Nat} (m : XDRStreamMarshaller) (host : ByteOrder) (val : Option (Buffer cap))
    (num width : Nat) (type : NumberType) : Except Fault XDRStreamMarshaller :=
  match val with
  | none => .error (.InternalErr "Buffer pointer is not set.")
  | some val => do
    let m ← m.putInt num
    let use_width := if width < 4 then 4 else width
    let size := int32 (uint32 (num * use_width + 4))
    -- `vector<char> vec_buf(size)`
    if size < 0 then .error .lengthError
    else
      let x ← encode (Handle.create (Buffer.zeros size.toNat))
        (fun x => xdrArrayPut x host val num size.toNat width (xdrCoder type))
        "Network I/O Error. Could not send vector data - unable to set stream position.\nThis may be due to a bug in DODS, on the server or a\nproblem with the network connection."
        "Network I/O Error(2). Could not send vector data.\nThis may be due to a bug in libdap or a\nproblem with the network connection."
        "Network I/O Error. Could not send vector data - unable to get stream position.\nThis may be due to a bug in DODS, on the server or a\nproblem with the network connection."
      .ok { m with dOut := m.dOut ++ x.written }

theorem setpos_zero {n : Nat} (x : Handle n) : x.setpos 0 = some { x with pos := 0 } :=
  if_pos (Nat.zero_le n)

theorem written_zero {n : Nat} (x : Handle n) : ({ x with pos := 0 } : Handle n).written = [] := rfl

theorem encode_of_some {n : Nat} (x : Handle n) {y : Handle n}
    (filter : Handle n → Except Fault (Option (Handle n))) (h : filter { x with pos := 0 } = .ok (some y))
    (hPos : y.pos ≠ 0) (a b c : String) :
    encode x filter a b c = .ok y := by
  rw [encode, setpos_zero]
  dsimp only
  rw [h]
  exact if_neg hPos

/-- A filter that puts nothing ends in the last of the three errors. -/
theorem encode_of_pos_zero {n : Nat} (x : Handle n) {y : Handle n}
    (filter : Handle n → Except Fault (Option (Handle n))) (h : filter { x with pos := 0 } = .ok (some y))
    (hPos : y.pos = 0) (a b c : String) :
    encode x filter a b c = .error (.Error c) := by
  rw [encode, setpos_zero]
  dsimp only
  rw [h]
  exact if_pos hPos

theorem encode_of_none {n : Nat} (x : Handle n) (filter : Handle n → Except Fault (Option (Handle n)))
    (h : filter { x with pos := 0 } = .ok none) (a b c : String) :
    encode x filter a b c = .error (.Error b) := by
  rw [encode, setpos_zero]
  dsimp only
  rw [h]

theorem putInt_ok (m : XDRStreamMarshaller) (val : Int) :
    ∃ x, m.putInt val = .ok ⟨x, m.dOut ++ toBE 4 (uint32 val)⟩ := by
  obtain ⟨y, hPut, hPos, hWritten⟩ :=
    xdrUIntPut_of_fits { m.dSink with pos := 0 } (uint32 val) (Nat.le_of_ble_eq_true rfl)
  refine ⟨y, ?_⟩
  rw [putInt, encode_of_some _ _ (congrArg Except.ok hPut) (by rw [hPos]; exact Nat.succ_ne_zero 3)]
  rw [written_zero, List.nil_append] at hWritten
  rw [← hWritten]
  rfl

theorem putOpaque_ok (m : XDRStreamMarshaller) {val : Bytes} (hPos : val.length ≠ 0)
    (hMax : val.length ≤ Marshaller.XDR_DAP_BUFF_SIZE) :
    ∃ x, m.putOpaque val = .ok ⟨x, m.dOut ++ opaqueForm val⟩ := by
  have hFit : (opaqueForm val).length ≤ Marshaller.XDR_DAP_BUFF_SIZE := by
    rw [length_opaqueForm]
    simp only [padding, Marshaller.XDR_DAP_BUFF_SIZE] at hMax ⊢
    omega
  obtain ⟨y, hPut, hEnd, hWritten⟩ :=
    xdrOpaquePut_of_fits { m.dSink with pos := 0 } val (by
      change 0 + (opaqueForm val).length ≤ _
      omega)
  have hForm := length_opaqueForm val
  refine ⟨y, ?_⟩
  rw [putOpaque, if_neg (by omega), encode_of_some _ _ (congrArg Except.ok hPut) (by rw [hEnd]; dsimp only; omega)]
  rw [written_zero, List.nil_append] at hWritten
  rw [← hWritten]
  rfl

/-- Data of length zero is not sent: the filter succeeds, but nothing was encoded. -/
theorem putOpaque_nil (m : XDRStreamMarshaller) : ∃ msg, m.putOpaque [] = .error (.Error msg) := by
  have hPut : xdrOpaquePut ({ m.dSink with pos := 0 } : Handle _) [] =
      some { m.dSink with pos := 0 } := rfl
  rw [putOpaque, if_neg (by decide), encode_of_pos_zero m.dSink (fun x => .ok (xdrOpaquePut x []))
    (congrArg Except.ok hPut) rfl]
  exact ⟨_, rfl⟩

theorem putOpaque_too_long (m : XDRStreamMarshaller) {val : Bytes}
    (h : Marshaller.XDR_DAP_BUFF_SIZE < val.length) : ∃ msg, m.putOpaque val = .error (.Error msg) :=
  ⟨_, if_pos h⟩

theorem putByteVector_ok (m : XDRStreamMarshaller) {val : Bytes} (h : val.length ≤ INT_MAX) :
    ∃ x, m.putByteVector (some (Buffer.ofBytes val)) val.length =
      .ok ⟨x, m.dOut ++ toBE 4 val.length ++ (toBE 4 val.length ++ opaqueForm val)⟩ := by
  simp only [INT_MAX] at h
  obtain ⟨x, hInt⟩ := m.putInt_ok val.length
  have hSize : uint32 ((val.length : Int) + 8) = val.length + 8 := by
    have h := uint32_of_bounds (n := (val.length : Int) + 8) (by omega) (by omega)
    omega
  have hCount : uint32 (val.length : Int) = val.length := by
    rw [uint32_natCast]
    omega
  obtain ⟨y, hPut, hEnd, hWritten⟩ :=
    xdrBytesPut_of_fits (Handle.create (Buffer.zeros (val.length + 8))) val
      (Nat.le_add_right val.length 8) (by
        rw [length_opaqueForm]
        have := padding_lt val.length
        change 0 + 4 + (val.length + padding val.length) ≤ val.length + 8
        omega)
  refine ⟨x, ?_⟩
  rw [putByteVector, hInt, hSize, hCount]
  have hFrom : xdrBytesPutFrom (Handle.create (Buffer.zeros (val.length + 8))) (Buffer.ofBytes val)
      val.length (val.length + 8) = .ok (some y) := by
    rw [xdrBytesPutFrom, if_neg (by omega), Buffer.load_ofBytes]
    exact congrArg Except.ok hPut
  rw [ok_bind]
  dsimp only
  rw [encode_of_some _ _ hFrom (by rw [hEnd]; omega), ok_bind, hWritten]
  rfl

end XDRStreamMarshaller

end Libdap.Xdr
