import Libdap.Xdr.XDRStreamMarshaller
import Libdap.Xdr.XDRStreamUnMarshaller

/-! # Opaque data and the markers of a Sequence

The reader rounds the length it was given before it decodes, so it takes the rounded number of
bytes from the stream and stores the rounded number in the caller's block. Rounding by
`len += len & 3` is the rounding of XDR only for even lengths.
-/

namespace Libdap.Xdr
open Core
set_option autoImplicit false

def endOfSequence : UInt8 := 0xA5

def startOfInstance : UInt8 := 0x5A

def writeEndOfSequence (m : XDRStreamMarshaller) : Except Fault XDRStreamMarshaller :=
  m.putOpaque [endOfSequence]

def writeStartOfInstance (m : XDRStreamMarshaller) : Except Fault XDRStreamMarshaller :=
  m.putOpaque [startOfInstance]

/-- `read_marker`, with the one byte object that receives the marker. -/
def readMarker (u : XDRStreamUnMarshaller) (marker : Buffer 1) :
    Except Fault (Buffer 1 × XDRStreamUnMarshaller) := u.getOpaque marker 1

/-- The data `val` are sent, and received in a block of their length: every byte is back and the
stream is at the first byte of what follows. -/
def OpaqueReadsBack (m : XDRStreamMarshaller) (u : XDRStreamUnMarshaller) (val : Bytes)
    (block : Buffer val.length) (rest : Bytes) : Prop :=
  ∃ m' out block' u', m.putOpaque val = .ok m' ∧ m'.dOut = m.dOut ++ out ∧
    (u.before (out ++ rest)).getOpaque block
      val.length = .ok (block', u') ∧ block'.bytes = val ∧ u'.dIn = IStream.ofBytes rest

theorem rounded_len {len : Nat} (h : len ≤ 256) :
    uint32 ((len : Int) + len % 4) = len + len % 4 := by
  have h := uint32_of_bounds (n := (len : Int) + len % 4) (by omega) (by omega)
  omega

theorem rounded_len_allowed {len : Nat} (h : len ≤ 256) :
    ¬(UnMarshaller.XDR_DAP_BUFF_SIZE : Int) < int32 ((len + len % 4 : Nat) : Int) := by
  rw [int32_of_bounds (by omega) (by simp only [INT_MAX]; omega)]
  simp only [UnMarshaller.XDR_DAP_BUFF_SIZE]
  omega

namespace XDRStreamUnMarshaller

/-- For lengths the writer accepts, the reader decodes the rounded length from the static block. -/
theorem getOpaque_eq {cap : Nat} (u : XDRStreamUnMarshaller) (val : Buffer cap) {len : Nat}
    (hLen : len ≤ 256) :
    ∃ v bs x, u.rewind.fill 0 (len + len % 4 : Nat) = .ok v ∧
      v.dIn = (u.dIn.read (len + len % 4)).2 ∧ bs.length = len + len % 4 ∧
      (∀ xs ys, (u.dIn.read (len + len % 4)).1 = xs ++ ys → xs.length = len + len % 4 → bs = xs) ∧
      (val.store 0 bs = none → u.getOpaque val len = .error .outOfBounds) ∧
      ∀ block, val.store 0 bs = some block →
        u.getOpaque val len = .ok (block, { v with dSource := x }) := by
  have hGot : (u.dIn.read (len + len % 4)).1.length ≤ len + len % 4 := by
    simp only [IStream.read]
    split
    · exact Nat.zero_le _
    · split
      · simp only [List.length_take]
        omega
      · dsimp only
        omega
  obtain ⟨v, hFill, hIn, hPos, hDrop, _⟩ :=
    u.rewind.fill_of_fits 0 (len + len % 4 : Nat) (by
      rw [IStream.readInt_natCast, rewind_dIn]
      simp only [UnMarshaller.XDR_DAP_BUFF_SIZE]
      omega)
  rw [IStream.readInt_natCast, rewind_dIn] at hIn hDrop
  rw [List.drop_zero] at hDrop
  rw [rewind_pos] at hPos
  have hSize := v.dSource.base.size_eq
  simp only [UnMarshaller.XDR_DAP_BUFF_SIZE] at hSize
  have hTake : (v.dSource.base.bytes.take (len + len % 4)).length = len + len % 4 := by
    rw [List.length_take, hSize]
    omega
  have hPending : v.dSource.pending = v.dSource.base.bytes.take (len + len % 4) ++
      v.dSource.base.bytes.drop (len + len % 4) := by
    rw [Handle.pending, hPos, List.drop_zero, List.take_append_drop]
  obtain ⟨x, hGet, _, _⟩ := xdrOpaqueGet_of_pending (by omega) hPending (by
    rw [hTake, List.length_drop, hSize]
    have hPad := padding_lt (len + len % 4)
    omega)
  rw [hTake] at hGet
  refine ⟨v, _, x, hFill, hIn, hTake, ?_, ?_, ?_⟩
  · intro xs ys hRead hXs
    rw [hDrop, hRead, List.append_assoc, ← hXs, List.take_left' rfl]
  · intro hStore
    rw [getOpaque, rounded_len hLen, if_neg (rounded_len_allowed hLen), hFill, ok_bind, hGet]
    dsimp only
    rw [hStore]
  · intro block hStore
    rw [getOpaque, rounded_len hLen, if_neg (rounded_len_allowed hLen), hFill, ok_bind, hGet]
    dsimp only
    rw [hStore]

theorem getOpaque_of_whole (u : XDRStreamUnMarshaller) {bs rest : Bytes} (block : Buffer bs.length)
    (hLen : bs.length ≤ 256) (hWhole : bs.length % 4 = 0) (h : u.dIn = IStream.ofBytes (bs ++ rest)) :
    ∃ block' u', u.getOpaque block bs.length = .ok (block', u') ∧ block'.bytes = bs ∧
      u'.dIn = IStream.ofBytes rest := by
  obtain ⟨v, got, x, _, hIn, hLength, hGot, _, hGet⟩ := u.getOpaque_eq block hLen
  rw [hWhole, Nat.add_zero, h, IStream.read_append] at hIn hGot
  have hGot : got = bs := hGot bs [] (List.append_nil bs).symm rfl
  subst hGot
  obtain ⟨block', hStore⟩ := block.store_some 0 got (show 0 + got.length ≤ got.length by omega)
  exact ⟨block', { v with dSource := x }, hGet block' hStore, Buffer.store_whole hStore rfl, hIn⟩

/-- A length that rounding changes makes the reader store past the end of the caller's block. -/
theorem getOpaque_of_partial (u : XDRStreamUnMarshaller) {len : Nat} (block : Buffer len)
    (hLen : len ≤ 256) (hPart : len % 4 ≠ 0) : u.getOpaque block len = .error .outOfBounds := by
  obtain ⟨_, got, _, _, _, hLength, _, hGet, _⟩ := u.getOpaque_eq block hLen
  exact hGet (Buffer.store_eq_none (show len < 0 + got.length by omega))

end XDRStreamUnMarshaller

/-- A length that is sent, and that rounding leaves alone. -/
def OpaqueAligned (val : Bytes) : Prop :=
  0 < val.length ∧ val.length ≤ Marshaller.XDR_DAP_BUFF_SIZE ∧ val.length % 4 = 0

theorem opaqueForm_of_whole {val : Bytes} (h : val.length % 4 = 0) : opaqueForm val = val := by
  rw [opaqueForm, padding, h]
  exact List.append_nil val

theorem opaqueReadsBack_iff (m : XDRStreamMarshaller) (u : XDRStreamUnMarshaller) (val : Bytes)
    (block : Buffer val.length) (rest : Bytes) :
    OpaqueReadsBack m u val block rest ↔ OpaqueAligned val := by
  constructor
  · rintro ⟨m', out, block', u', hPut, hOut, hGet, _, _⟩
    have hPos : 0 < val.length := by
      by_contra hZero
      obtain ⟨msg, hError⟩ := m.putOpaque_nil
      rw [List.eq_nil_of_length_eq_zero (by omega : val.length = 0), hError] at hPut
      cases hPut
    have hMax : val.length ≤ Marshaller.XDR_DAP_BUFF_SIZE := by
      by_contra hLong
      obtain ⟨msg, hError⟩ := m.putOpaque_too_long (Nat.lt_of_not_le hLong)
      rw [hError] at hPut
      cases hPut
    refine ⟨hPos, hMax, ?_⟩
    by_contra hPart
    rw [XDRStreamUnMarshaller.getOpaque_of_partial _ block hMax hPart] at hGet
    cases hGet
  · rintro ⟨hPos, hMax, hWhole⟩
    obtain ⟨x, hPut⟩ := m.putOpaque_ok (by omega) hMax
    rw [opaqueForm_of_whole hWhole] at hPut
    obtain ⟨block', u', hGet, hBytes, hIn⟩ :=
      XDRStreamUnMarshaller.getOpaque_of_whole
        (u.before (val ++ rest)) block hMax hWhole rfl
    exact ⟨_, val, block', u', hPut, rfl, hGet, hBytes, hIn⟩

end Libdap.Xdr
