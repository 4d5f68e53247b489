import Libdap.Xdr.Codec

/-! # Arrays of numbers

`xdr_array` walks the caller's memory in steps of `elsize` and applies the filter of one element
at each step. The filter knows how many bytes it loads or stores there; the step is the caller's.
A step outside the memory is the fault `out_of_bounds`, and `none` is the `FALSE` of the filter.
-/

namespace Libdap.Xdr
open Core
set_option autoImplicit false

/-- The filter of a number: its bytes in memory and in the stream. A narrow signed number is
sign extended. -/
structure Filter where
  width : Nat
  wire : Nat
  signed : Bool

namespace Filter

def extend (f : Filter) (v : Nat) : Nat :=
  if f.signed ∧ 256 ^ f.width ≤ 2 * v then v + (256 ^ f.wire - 256 ^ f.width) else v

def encode (f : Filter) (host : ByteOrder) (bs : Bytes) : Bytes :=
  toBE f.wire (f.extend (host.load bs))

def decode (f : Filter) (host : ByteOrder) (bs : Bytes) : Bytes := host.store f.width (ofBE bs)

@[simp] theorem length_encode (f : Filter) (host : ByteOrder) (bs : Bytes) :
    (f.encode host bs).length = f.wire := length_toBE _ _

@[simp] theorem length_decode (f : Filter) (host : ByteOrder) (bs : Bytes) :
    (f.decode host bs).length = f.width := host.length_store _ _

theorem extend_mod (f : Filter) (hWire : f.width ≤ f.wire) (v : Nat) :
    f.extend v % 256 ^ f.wire % 256 ^ f.width = v % 256 ^ f.width := by
  have hDvd : 256 ^ f.width ∣ 256 ^ f.wire := Nat.pow_dvd_pow 256 hWire
  rw [Nat.mod_mod_of_dvd _ hDvd, extend]
  split
  · obtain ⟨c, hc⟩ := Nat.dvd_sub hDvd (Nat.dvd_refl (256 ^ f.width))
    rw [hc, Nat.add_mul_mod_self_left]
  · rfl

theorem decode_encode (f : Filter) (hWire : f.width ≤ f.wire) (host : ByteOrder) {bs : Bytes}
    (h : bs.length = f.width) : f.decode host (f.encode host bs) = bs := by
  have hStore := host.store_load bs
  rw [h] at hStore
  have hBound := host.load_lt bs
  rw [h] at hBound
  have hMod : host.store f.width (ofBE (f.encode host bs)) =
      host.store f.width (ofBE (f.encode host bs) % 256 ^ f.width) := by
    cases host with
    | big => exact (toBE_mod _ _).symm
    | little => exact (toLE_mod _ _).symm
  rw [decode, hMod, encode, ofBE_toBE, f.extend_mod hWire, Nat.mod_eq_of_lt hBound, hStore]

/-- The stream form of `k` elements that lie next to each other in memory. -/
def elementsForm (f : Filter) (host : ByteOrder) : Nat → Bytes → Bytes
  | 0, _ => []
  | k + 1, mem => f.encode host (mem.take f.width) ++ f.elementsForm host k (mem.drop f.width)

theorem length_elementsForm (f : Filter) (host : ByteOrder) (k : Nat) (mem : Bytes) :
    (f.elementsForm host k mem).length = k * f.wire := by
  induction k generalizing mem with
  | zero => simp only [elementsForm, List.length_nil, Nat.zero_mul]
  | succ k ih =>
    rw [elementsForm, List.length_append, length_encode, ih, Nat.succ_mul, Nat.add_comm]

/-- The loop of `xdr_array` when encoding, with `target` an offset. -/
def putElements {n cap : Nat} (f : Filter) (host : ByteOrder) (mem : Buffer cap) (elsize : Nat) :
    Nat → Nat → Handle n → Except Fault (Option (Handle n))
  | 0, _, x => .ok (some x)
  | k + 1, target, x =>
    match mem.load target f.width with
    | none => .error .outOfBounds
    | some bs =>
      match x.putbytes (f.encode host bs) with
      | none => .ok none
      | some x => f.putElements host mem elsize k (target + elsize) x

/-- The loop of `xdr_array` when decoding. -/
def getElements {n cap : Nat} (f : Filter) (host : ByteOrder) (elsize : Nat) :
    Nat → Nat → Handle n → Buffer cap → Except Fault (Option (Buffer cap × Handle n))
  | 0, _, x, mem => .ok (some (mem, x))
  | k + 1, target, x, mem =>
    match x.getbytes f.wire with
    | none => .ok none
    | some (bs, x) =>
      match mem.store target (f.decode host bs) with
      | none => .error .outOfBounds
      | some mem => f.getElements host elsize k (target + elsize) x mem

theorem putElements_of_fits {n cap : Nat} (f : Filter) (host : ByteOrder) (mem : Buffer cap)
    (k target : Nat) (x : Handle n) (hMem : target + k * f.width ≤ cap)
    (h : x.pos + k * f.wire ≤ n) :
    ∃ y, f.putElements host mem f.width k target x = .ok (some y) ∧ y.pos = x.pos + k * f.wire ∧
      y.written = x.written ++ f.elementsForm host k (mem.bytes.drop target) := by
  induction k generalizing target x with
  | zero => exact ⟨x, rfl, by rw [Nat.zero_mul, Nat.add_zero], (List.append_nil _).symm⟩
  | succ k ih =>
    rw [Nat.succ_mul] at hMem h
    obtain ⟨y, hPut, hPos, hWritten⟩ := x.putbytes_of_fits
      (f.encode host ((mem.bytes.drop target).take f.width)) (by rw [length_encode]; omega)
    rw [length_encode] at hPos
    obtain ⟨z, hRest, hPos', hWritten'⟩ := ih (target + f.width) y (by omega) (by omega)
    refine ⟨z, ?_, by rw [hPos', hPos, Nat.succ_mul]; omega, ?_⟩
    · rw [putElements, Buffer.load_bytes (by omega)]
      dsimp only
      rw [hPut]
      exact hRest
    · rw [hWritten', hWritten, elementsForm, List.drop_drop, List.append_assoc]

/-- Encoding more than the block holds is refused, as long as the memory is there to be read. -/
theorem putElements_eq_none {n cap : Nat} (f : Filter) (host : ByteOrder) (mem : Buffer cap)
    (k target : Nat) (x : Handle n) (hPos : x.pos ≤ n) (hMem : target + k * f.width ≤ cap)
    (h : n < x.pos + k * f.wire) :
    f.putElements host mem f.width k target x = .ok none := by
  induction k generalizing target x with
  | zero => omega
  | succ k ih =>
    rw [Nat.succ_mul] at hMem h
    rw [putElements, Buffer.load_bytes (by omega)]
    dsimp only
    by_cases hFit : x.pos + f.wire ≤ n
    · obtain ⟨y, hPut, hPos', _⟩ := x.putbytes_of_fits
        (f.encode host ((mem.bytes.drop target).take f.width)) (by rwa [length_encode])
      rw [length_encode] at hPos'
      rw [hPut]
      exact ih (target + f.width) y (by omega) (by omega) (by omega)
    · rw [Handle.putbytes_eq_none (by rw [length_encode]; omega)]

/-- Elements are decoded into places that do not overlap with the bytes before them. -/
theorem getElements_of_pending {n : Nat} (f : Filter) (hWire : f.width ≤ f.wire) (host : ByteOrder)
    (k target : Nat) (x : Handle n) {cap : Nat} (mem : Buffer cap) (src : Bytes) {rest : Bytes}
    (hPos : x.pos ≤ n) (hSrc : src.length = k * f.width) (hMem : target + k * f.width ≤ cap)
    (h : x.pending = f.elementsForm host k src ++ rest) :
    ∃ y mem', f.getElements host f.width k target x mem = .ok (some (mem', y)) ∧
      mem'.bytes.take (target + k * f.width) = mem.bytes.take target ++ src := by
  induction k generalizing target x mem src with
  | zero =>
    rw [Nat.zero_mul] at hSrc ⊢
    refine ⟨x, mem, rfl, ?_⟩
    rw [List.eq_nil_of_length_eq_zero hSrc, List.append_nil, Nat.add_zero]
  | succ k ih =>
    rw [Nat.succ_mul] at hSrc hMem ⊢
    rw [elementsForm, List.append_assoc] at h
    obtain ⟨hGet, hRest⟩ := Handle.getbytes_of_pending hPos h
    have hLength := x.length_pending
    rw [h, List.length_append] at hLength
    rw [length_encode] at hGet hRest hLength
    have hHead : (src.take f.width).length = f.width := by
      rw [List.length_take]
      omega
    have hDecode := f.decode_encode hWire host hHead
    obtain ⟨mem₁, hStore⟩ := mem.store_some target (src.take f.width) (by omega)
    have hTake := Buffer.take_store_all hStore
    rw [hHead] at hTake
    obtain ⟨y, mem', hLoop, hBytes⟩ := ih (target + f.width) { x with pos := x.pos + f.wire } mem₁
      (src.drop f.width) (by dsimp only; omega) (by rw [List.length_drop]; omega) (by omega) hRest
    refine ⟨y, mem', ?_, ?_⟩
    · rw [getElements, hGet]
      dsimp only
      rw [hDecode, hStore]
      exact hLoop
    · rw [hTake, List.append_assoc, List.take_append_drop] at hBytes
      rw [← hBytes]
      congr 1
      omega

/-- A step that carries an element past the end of the memory is met, whatever the stream holds. -/
theorem getElements_outOfBounds {n cap : Nat} (f : Filter) (host : ByteOrder) (elsize k target : Nat)
    (x : Handle n) (mem : Buffer cap) (hStream : x.pos + (k + 1) * f.wire ≤ n)
    (h : cap < target + k * elsize + f.width) :
    f.getElements host elsize (k + 1) target x mem = .error .outOfBounds := by
  induction k generalizing target x mem with
  | zero =>
    rw [getElements, Handle.getbytes_of_le x (by omega)]
    dsimp only
    rw [Buffer.store_eq_none (by rw [length_decode]; omega)]
  | succ k ih =>
    rw [Nat.succ_mul (k + 1)] at hStream
    rw [Nat.succ_mul] at h
    rw [getElements, Handle.getbytes_of_le x (by omega)]
    dsimp only
    by_cases hFit : target + f.width ≤ cap
    · obtain ⟨mem₁, hStore⟩ := mem.store_some target
        (f.decode host (x.pending.take f.wire)) (by rwa [length_decode])
      rw [hStore]
      exact ih (target + elsize) { x with pos := x.pos + f.wire } mem₁ (by dsimp only; omega) (by omega)
    · rw [Buffer.store_eq_none (by rw [length_decode]; omega)]

end Filter

/-- The cardinal types but Byte, whose arrays are sent as counted bytes. -/
inductive NumberType
  | dodsInt16C
  | dodsUint16C
  | dodsInt32C
  | dodsUint32C
  | dodsFloat32C
  | dodsFloat64C
  deriving DecidableEq, Repr

/-- `BaseType::width()` of an element. -/
def NumberType.width : NumberType → Nat
  | dodsInt16C => 2
  | dodsUint16C => 2
  | dodsInt32C => 4
  | dodsUint32C => 4
  | dodsFloat32C => 4
  | dodsFloat64C => 8

def xdrCoder : NumberType → Filter
  | .dodsInt16C => ⟨2, 4, true⟩
  | .dodsUint16C => ⟨2, 4, false⟩
  | .dodsInt32C => ⟨4, 4, true⟩
  | .dodsUint32C => ⟨4, 4, false⟩
  | .dodsFloat32C => ⟨4, 4, false⟩
  | .dodsFloat64C => ⟨8, 8, false⟩

@[simp] theorem xdrCoder_width (t : NumberType) : (xdrCoder t).width = t.width := by cases t <;> rfl

theorem xdrCoder_wire (t : NumberType) : (xdrCoder t).wire = max 4 t.width := by cases t <;> rfl

theorem xdrCoder_width_le_wire (t : NumberType) : (xdrCoder t).width ≤ (xdrCoder t).wire := by
  cases t <;> decide

def xdrArrayPut {n cap : Nat} (x : Handle n) (host : ByteOrder) (mem : Buffer cap)
    (num maxsize elsize : Nat) (f : Filter) : Except Fault (Option (Handle n)) :=
  match xdrUIntPut x num with
  | none => .ok none
  | some x =>
    if maxsize < num ∨ UINT_MAX / elsize < num then .ok none
    else f.putElements host mem elsize num 0 x

/-- `xdr_array` when decoding, into memory that is there; the count comes first in the result. -/
def xdrArrayGet {n cap : Nat} (x : Handle n) (host : ByteOrder) (mem : Buffer cap)
    (maxsize elsize : Nat) (f : Filter) : Except Fault (Option (Nat × Buffer cap × Handle n)) :=
  match xdrUIntGet x with
  | none => .ok none
  | some (c, x) =>
    if maxsize < c ∨ UINT_MAX / elsize < c then .ok none
    else (f.getElements host elsize c 0 x mem).map (Option.map fun p => (c, p))

theorem xdrArrayPut_of_fits {n cap : Nat} (x : Handle n) (host : ByteOrder) (mem : Buffer cap)
    (num maxsize : Nat) (f : Filter) (hMax : num ≤ maxsize) (hWord : num ≤ UINT_MAX / f.width)
    (hMem : num * f.width ≤ cap) (h : x.pos + 4 + num * f.wire ≤ n) :
    ∃ y, xdrArrayPut x host mem num maxsize f.width f = .ok (some y) ∧
      y.pos = x.pos + 4 + num * f.wire ∧
      y.written = x.written ++ toBE 4 num ++ f.elementsForm host num mem.bytes := by
  obtain ⟨y, hCount, hPos, hWritten⟩ := xdrUIntPut_of_fits x num (by omega)
  obtain ⟨z, hLoop, hPos', hWritten'⟩ :=
    f.putElements_of_fits host mem num 0 y (by omega) (by omega)
  refine ⟨z, ?_, by rw [hPos', hPos], by rw [hWritten', hWritten, List.drop_zero]⟩
  rw [xdrArrayPut, hCount]
  dsimp only
  rw [if_neg (by omega), hLoop]

theorem xdrArrayPut_eq_none {n cap : Nat} (x : Handle n) (host : ByteOrder) (mem : Buffer cap)
    (num maxsize : Nat) (f : Filter) (hPos : x.pos ≤ n) (hMem : num * f.width ≤ cap)
    (h : n < x.pos + 4 + num * f.wire) :
    xdrArrayPut x host mem num maxsize f.width f = .ok none := by
  rw [xdrArrayPut]
  by_cases hCount : x.pos + 4 ≤ n
  · obtain ⟨y, hPut, hPos', _⟩ := xdrUIntPut_of_fits x num hCount
    rw [hPut]
    dsimp only
    split
    · rfl
    · exact f.putElements_eq_none host mem num 0 y (by omega) (by omega) (by omega)
  · rw [xdrUIntPut, Handle.putbytes_eq_none (by rw [length_toBE]; omega)]

/-- What the decoder does once the count is read. -/
theorem xdrArrayGet_of_count {n cap num maxsize elsize : Nat} {x : Handle n} (host : ByteOrder)
    (mem : Buffer cap) (f : Filter) {rest : Bytes} (hPos : x.pos ≤ n) (hMax : num ≤ maxsize)
    (hWord : num ≤ UINT_MAX / elsize) (hCount : num < 256 ^ 4)
    (h : x.pending = toBE 4 num ++ rest) :
    xdrArrayGet x host mem maxsize elsize f =
        (f.getElements host elsize num 0 { x with pos := x.pos + 4 } mem).map
          (Option.map fun p => (num, p)) ∧
      ({ x with pos := x.pos + 4 } : Handle n).pending = rest := by
  obtain ⟨hGet, hRest⟩ := xdrUIntGet_of_pending hPos h
  rw [Nat.mod_eq_of_lt hCount] at hGet
  refine ⟨?_, hRest⟩
  rw [xdrArrayGet, hGet]
  dsimp only
  rw [if_neg (by omega)]

theorem getElements_elsize {n cap : Nat} (f : Filter) (host : ByteOrder) {elsize k : Nat}
    (h : elsize = f.width ∨ k ≤ 1) (x : Handle n) (mem : Buffer cap) :
    f.getElements host elsize k 0 x mem = f.getElements host f.width k 0 x mem := by
  rcases h with rfl | h
  · rfl
  · rcases Nat.le_one_iff_eq_zero_or_eq_one.mp h with rfl | rfl <;> rfl

theorem xdrArrayGet_of_pending {n cap num maxsize elsize : Nat} {x : Handle n} (host : ByteOrder)
    (mem : Buffer cap) (f : Filter) (hWire : f.width ≤ f.wire) {src rest : Bytes} (hPos : x.pos ≤ n)
    (hMax : num ≤ maxsize) (hWord : num ≤ UINT_MAX / elsize) (hCount : num < 256 ^ 4)
    (hStep : elsize = f.width ∨ num ≤ 1) (hSrc : src.length = num * f.width)
    (hCap : cap = num * f.width) (h : x.pending = toBE 4 num ++ (f.elementsForm host num src ++ rest)) :
    ∃ y mem', xdrArrayGet x host mem maxsize elsize f = .ok (some (num, mem', y)) ∧
      mem'.bytes = src := by
  have hLength := x.length_pending
  rw [h, List.length_append, length_toBE] at hLength
  obtain ⟨hGet, hRest⟩ := xdrArrayGet_of_count host mem f hPos hMax hWord hCount h
  have hFit : x.pos + 4 ≤ n := by omega
  obtain ⟨y, mem', hLoop, hBytes⟩ :=
    f.getElements_of_pending hWire host num 0 { x with pos := x.pos + 4 } mem src hFit hSrc (by omega) hRest
  refine ⟨y, mem', ?_, ?_⟩
  · rw [hGet, getElements_elsize f host hStep, hLoop]
    rfl
  · rwa [Nat.zero_add, ← hCap, List.take_of_length_le (Nat.le_of_eq mem'.size_eq), List.take_zero,
      List.nil_append] at hBytes

theorem xdrArrayGet_outOfBounds {n cap num maxsize elsize : Nat} {x : Handle n} (host : ByteOrder)
    (mem : Buffer cap) (f : Filter) {rest : Bytes} (hPos : x.pos ≤ n) (hMax : num ≤ maxsize)
    (hWord : num ≤ UINT_MAX / elsize) (hCount : num < 256 ^ 4) (hSome : num ≠ 0)
    (h : x.pending = toBE 4 num ++ rest) (hStream : num * f.wire ≤ rest.length)
    (hPast : cap < (num - 1) * elsize + f.width) :
    xdrArrayGet x host mem maxsize elsize f = .error .outOfBounds := by
  obtain ⟨k, rfl⟩ : ∃ k, num = k + 1 := ⟨num - 1, by omega⟩
  rw [Nat.add_sub_cancel] at hPast
  have hLength := x.length_pending
  rw [h, List.length_append, length_toBE] at hLength
  obtain ⟨hGet, _⟩ := xdrArrayGet_of_count host mem f hPos hMax hWord hCount h
  rw [hGet, f.getElements_outOfBounds host elsize k 0 { x with pos := x.pos + 4 } mem
    (by dsimp only; omega) (by omega)]
  rfl

end Libdap.Xdr
