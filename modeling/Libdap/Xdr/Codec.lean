import Libdap.Core.Bytes
import Libdap.Core.Fault
import Libdap.Core.Int32

/-! # The XDR library over memory

The filters of RFC 4506 on a handle made by `xdrmem_create`: four byte units in big-endian
order, opaque data padded with zero bytes to a whole unit, counted bytes and counted arrays.
`none` is the `FALSE` of a filter. An array filter also walks the caller's memory, where an
access outside the block is reported as such.
-/

namespace Libdap.Xdr
open Core
set_option autoImplicit false

structure Handle (n : Nat) where
  base : Buffer n
  pos : Nat

namespace Handle

def create {n : Nat} (base : Buffer n) : Handle n := ⟨base, 0⟩

def setpos {n : Nat} (x : Handle n) (pos : Nat) : Option (Handle n) :=
  if pos ≤ n then some { x with pos := pos } else none

def putbytes {n : Nat} (x : Handle n) (bs : Bytes) : Option (Handle n) :=
  (x.base.store x.pos bs).map fun base => ⟨base, x.pos + bs.length⟩

def getbytes {n : Nat} (x : Handle n) (len : Nat) : Option (Bytes × Handle n) :=
  (x.base.load x.pos len).map fun bs => (bs, { x with pos := x.pos + len })

/-- What an encoder has put so far. -/
def written {n : Nat} (x : Handle n) : Bytes := x.base.bytes.take x.pos

/-- What a decoder has still before it. -/
def pending {n : Nat} (x : Handle n) : Bytes := x.base.bytes.drop x.pos

theorem putbytes_eq_none {n : Nat} {x : Handle n} {bs : Bytes} (h : n < x.pos + bs.length) :
    x.putbytes bs = none := by
  rw [putbytes, Buffer.store_eq_none h]
  rfl

theorem putbytes_of_fits {n : Nat} (x : Handle n) (bs : Bytes) (h : x.pos + bs.length ≤ n) :
    ∃ y, x.putbytes bs = some y ∧ y.pos = x.pos + bs.length ∧ y.written = x.written ++ bs := by
  obtain ⟨base, hStore⟩ := x.base.store_some _ _ h
  refine ⟨⟨base, x.pos + bs.length⟩, ?_, rfl, Buffer.take_store_all hStore⟩
  rw [putbytes, hStore]
  rfl

theorem length_pending {n : Nat} (x : Handle n) : x.pending.length = n - x.pos := by
  rw [pending, List.length_drop, x.base.size_eq]

theorem getbytes_eq_none {n : Nat} {x : Handle n} {len : Nat} (h : n < x.pos + len) :
    x.getbytes len = none := by
  rw [getbytes, Buffer.load_eq_none h]
  rfl

theorem getbytes_of_le {n : Nat} (x : Handle n) {len : Nat} (h : x.pos + len ≤ n) :
    x.getbytes len = some (x.pending.take len, { x with pos := x.pos + len }) := by
  rw [getbytes, Buffer.load_bytes h]
  rfl

theorem pending_advance {n : Nat} (x : Handle n) (len : Nat) :
    ({ x with pos := x.pos + len } : Handle n).pending = x.pending.drop len := by
  rw [pending, pending, List.drop_drop]

theorem getbytes_of_pending {n : Nat} {x : Handle n} {bs rest : Bytes} (hPos : x.pos ≤ n)
    (h : x.pending = bs ++ rest) :
    x.getbytes bs.length = some (bs, { x with pos := x.pos + bs.length }) ∧
      ({ x with pos := x.pos + bs.length } : Handle n).pending = rest := by
  have hLength := x.length_pending
  rw [h, List.length_append] at hLength
  constructor
  · rw [getbytes_of_le x (by omega), h, List.take_left']
    rfl
  · rw [pending_advance, h, List.drop_left']
    rfl

end Handle

/-- The bytes that bring `cnt` up to a whole number of XDR units. -/
def padding (cnt : Nat) : Nat := (4 - cnt % 4) % 4

theorem padding_lt (cnt : Nat) : padding cnt < 4 := Nat.mod_lt _ (by decide)

def xdrUIntPut {n : Nat} (x : Handle n) (v : Nat) : Option (Handle n) := x.putbytes (toBE 4 v)

def xdrUIntGet {n : Nat} (x : Handle n) : Option (Nat × Handle n) :=
  (x.getbytes 4).map fun p => (ofBE p.1, p.2)

def xdrOpaquePut {n : Nat} (x : Handle n) (bs : Bytes) : Option (Handle n) :=
  if bs.length = 0 then some x
  else do
    let x ← x.putbytes bs
    if padding bs.length = 0 then some x else x.putbytes (List.replicate (padding bs.length) 0)

def xdrOpaqueGet {n : Nat} (x : Handle n) (cnt : Nat) : Option (Bytes × Handle n) :=
  if cnt = 0 then some ([], x)
  else do
    let (bs, x) ← x.getbytes cnt
    if padding cnt = 0 then some (bs, x)
    else do
      let (_, x) ← x.getbytes (padding cnt)
      some (bs, x)

def xdrBytesPut {n : Nat} (x : Handle n) (bs : Bytes) (maxsize : Nat) : Option (Handle n) := do
  let x ← xdrUIntPut x bs.length
  if maxsize < bs.length then none else xdrOpaquePut x bs

/-- `xdr_bytes` when encoding, from memory; too large a count is refused before the memory is read. -/
def xdrBytesPutFrom {n cap : Nat} (x : Handle n) (mem : Buffer cap) (num maxsize : Nat) :
    Except Fault (Option (Handle n)) :=
  if maxsize < num then .ok none
  else
    match mem.load 0 num with
    | none => .error .outOfBounds
    | some bs => .ok (xdrBytesPut x bs maxsize)

def xdrBytesGet {n : Nat} (x : Handle n) (maxsize : Nat) : Option (Bytes × Handle n) := do
  let (cnt, x) ← xdrUIntGet x
  if maxsize < cnt then none
  else if cnt = 0 then some ([], x)
  else xdrOpaqueGet x cnt

/-- The opaque encoding of a string, without its count. -/
def opaqueForm (bs : Bytes) : Bytes := bs ++ List.replicate (padding bs.length) 0

theorem length_opaqueForm (bs : Bytes) : (opaqueForm bs).length = bs.length + padding bs.length := by
  rw [opaqueForm, List.length_append, List.length_replicate]

theorem xdrUIntPut_of_fits {n : Nat} (x : Handle n) (v : Nat) (h : x.pos + 4 ≤ n) :
    ∃ y, xdrUIntPut x v = some y ∧ y.pos = x.pos + 4 ∧ y.written = x.written ++ toBE 4 v := by
  obtain ⟨y, hPut, hPos, hWritten⟩ := x.putbytes_of_fits (toBE 4 v) (by rwa [length_toBE])
  rw [length_toBE] at hPos
  exact ⟨y, hPut, hPos, hWritten⟩

theorem xdrOpaquePut_of_fits {n : Nat} (x : Handle n) (bs : Bytes)
    (h : x.pos + (opaqueForm bs).length ≤ n) :
    ∃ y, xdrOpaquePut x bs = some y ∧ y.pos = x.pos + (opaqueForm bs).length ∧
      y.written = x.written ++ opaqueForm bs := by
  rw [length_opaqueForm] at h
  unfold xdrOpaquePut
  by_cases hZero : bs.length = 0
  · have hNil : bs = [] := List.eq_nil_of_length_eq_zero hZero
    subst hNil
    exact ⟨x, rfl, rfl, (List.append_nil _).symm⟩
  rw [if_neg hZero]
  obtain ⟨y, hPut, hPos, hWritten⟩ := x.putbytes_of_fits bs (by omega)
  rw [hPut]
  by_cases hPad : padding bs.length = 0
  · refine ⟨y, by simp [hPad], ?_, ?_⟩
    · rw [hPos, length_opaqueForm, hPad, Nat.add_zero]
    · rw [hWritten, opaqueForm, hPad, List.replicate_zero, List.append_nil]
  · obtain ⟨z, hPut', hPos', hWritten'⟩ :=
      y.putbytes_of_fits (List.replicate (padding bs.length) 0) (by
        rw [hPos, List.length_replicate]
        omega)
    refine ⟨z, by simpa [hPad] using hPut', ?_, ?_⟩
    · rw [hPos', hPos, List.length_replicate, length_opaqueForm, Nat.add_assoc]
    · rw [hWritten', hWritten, opaqueForm, List.append_assoc]

theorem xdrBytesPut_of_fits {n : Nat} (x : Handle n) (bs : Bytes) {maxsize : Nat}
    (hMax : bs.length ≤ maxsize) (h : x.pos + 4 + (opaqueForm bs).length ≤ n) :
    ∃ y, xdrBytesPut x bs maxsize = some y ∧ y.pos = x.pos + 4 + (opaqueForm bs).length ∧
      y.written = x.written ++ toBE 4 bs.length ++ opaqueForm bs := by
  obtain ⟨y, hCount, hPos, hWritten⟩ := xdrUIntPut_of_fits x bs.length (by omega)
  obtain ⟨z, hPut, hPos', hWritten'⟩ := xdrOpaquePut_of_fits y bs (by omega)
  refine ⟨z, ?_, by rw [hPos', hPos], by rw [hWritten', hWritten]⟩
  rw [xdrBytesPut, hCount]
  change (if maxsize < bs.length then none else xdrOpaquePut y bs) = some z
  rw [if_neg (by omega), hPut]

theorem xdrUIntGet_of_pending {n : Nat} {x : Handle n} {v : Nat} {rest : Bytes}
    (hPos : x.pos ≤ n) (h : x.pending = toBE 4 v ++ rest) :
    xdrUIntGet x = some (v % 256 ^ 4, { x with pos := x.pos + 4 }) ∧
      ({ x with pos := x.pos + 4 } : Handle n).pending = rest := by
  have hGet := Handle.getbytes_of_pending hPos h
  rw [length_toBE] at hGet
  refine ⟨?_, hGet.2⟩
  rw [xdrUIntGet, hGet.1, Option.map_some, ofBE_toBE]

/-- An opaque field is decoded from its bytes; the padding is skipped, whatever it holds. -/
theorem xdrOpaqueGet_of_pending {n : Nat} {x : Handle n} {bs rest : Bytes} (hPos : x.pos ≤ n)
    (h : x.pending = bs ++ rest) (hPad : padding bs.length ≤ rest.length) :
    ∃ y, xdrOpaqueGet x bs.length = some (bs, y) ∧ y.base = x.base ∧
      y.pos = x.pos + bs.length + padding bs.length := by
  unfold xdrOpaqueGet
  by_cases hZero : bs.length = 0
  · have hNil : bs = [] := List.eq_nil_of_length_eq_zero hZero
    subst hNil
    exact ⟨x, rfl, rfl, rfl⟩
  obtain ⟨hGet, hRest⟩ := Handle.getbytes_of_pending hPos h
  have hLength := x.length_pending
  rw [h, List.length_append] at hLength
  rw [if_neg hZero, hGet]
  by_cases hWhole : padding bs.length = 0
  · exact ⟨{ x with pos := x.pos + bs.length }, by simp [hWhole], rfl, by rw [hWhole, Nat.add_zero]⟩
  · refine ⟨{ x with pos := x.pos + bs.length + padding bs.length }, ?_, rfl, rfl⟩
    have hSkip := Handle.getbytes_of_le { x with pos := x.pos + bs.length } (show
      x.pos + bs.length + padding bs.length ≤ n by omega)
    simp [hWhole, hSkip]

/-- Counted bytes are decoded from their encoding. -/
theorem xdrBytesGet_of_pending {n maxsize : Nat} {x : Handle n} {bs rest : Bytes}
    (hPos : x.pos ≤ n) (hMax : bs.length ≤ maxsize) (hWord : bs.length < 256 ^ 4)
    (h : x.pending = toBE 4 bs.length ++ (opaqueForm bs ++ rest)) :
    ∃ y, xdrBytesGet x maxsize = some (bs, y) ∧ y.base = x.base := by
  obtain ⟨hCount, hPending⟩ := xdrUIntGet_of_pending hPos h
  rw [Nat.mod_eq_of_lt hWord] at hCount
  have hLength := x.length_pending
  rw [h, List.length_append, length_toBE] at hLength
  rw [opaqueForm, List.append_assoc] at hPending
  rw [xdrBytesGet, hCount]
  change ∃ y, (if maxsize < bs.length then none
    else if bs.length = 0 then some ([], { x with pos := x.pos + 4 })
    else xdrOpaqueGet { x with pos := x.pos + 4 } bs.length) = some (bs, y) ∧ y.base = x.base
  rw [if_neg (by omega)]
  by_cases hZero : bs.length = 0
  · refine ⟨{ x with pos := x.pos + 4 }, ?_, rfl⟩
    rw [if_pos hZero, List.eq_nil_of_length_eq_zero hZero]
  rw [if_neg hZero]
  have hFit : x.pos + 4 ≤ n := by omega
  obtain ⟨y, hGet, hBase, _⟩ := xdrOpaqueGet_of_pending hFit hPending (by
    rw [List.length_append, List.length_replicate]
    exact Nat.le_add_right _ _)
  exact ⟨y, hGet, hBase⟩

theorem xdrOpaqueGet_eq_none {n : Nat} {x : Handle n} {cnt : Nat} (hCnt : cnt ≠ 0)
    (h : n < x.pos + cnt) : xdrOpaqueGet x cnt = none := by
  rw [xdrOpaqueGet, if_neg hCnt, Handle.getbytes_eq_none h]
  rfl

theorem length_of_xdrOpaqueGet {n : Nat} {x y : Handle n} {cnt : Nat} {bs : Bytes}
    (h : xdrOpaqueGet x cnt = some (bs, y)) : bs.length = cnt := by
  unfold xdrOpaqueGet at h
  split at h
  · rename_i hZero
    cases h
    exact hZero.symm
  · obtain ⟨⟨got, x'⟩, hGet, hRest⟩ := Option.bind_eq_some_iff.mp h
    have hLength : got.length = cnt := by
      by_cases hFit : x.pos + cnt ≤ n
      · rw [Handle.getbytes_of_le x hFit] at hGet
        cases hGet
        rw [List.length_take, Handle.length_pending]
        omega
      · rw [Handle.getbytes_eq_none (by omega)] at hGet
        cases hGet
    dsimp only at hRest
    split at hRest
    · cases hRest
      exact hLength
    · obtain ⟨_, _, hResult⟩ := Option.bind_eq_some_iff.mp hRest
      cases hResult
      exact hLength

end Libdap.Xdr
