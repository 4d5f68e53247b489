import Libdap.Core.Fault
import Libdap.Core.Int32
import Libdap.Ppt.Chunk

/-! # Messages between client and server

A message is sent as an extension chunk, if it has extensions, a data chunk, if it has data, and the
last chunk. The receiver's buffer is one byte larger than what it asks the socket for, and it is
written one byte further.
-/

namespace Libdap.Ppt
open Core Constraint
set_option autoImplicit false

inductive PptFault
  | BESInternalError (msg : Bytes)
  /-- A store outside the receive buffer, or a buffer that cannot be had. -/
  | undefined
  deriving DecidableEq, Repr

def besInternalError (msg : String) : PptFault := .BESInternalError (ofText msg.toList)

def semicolon : UInt8 := 59

def equals : UInt8 := 61

/-! ## Extensions -/

/-- `m[k] = v` -/
def assignPair (k v : Bytes) : List (Bytes × Bytes) → List (Bytes × Bytes)
  | [] => [(k, v)]
  | (k', v') :: m =>
    if k < k' then (k, v) :: (k', v') :: m
    else if k' < k then (k', v') :: assignPair k v m
    else (k', v) :: m

theorem mem_assignPair {k v : Bytes} {m : List (Bytes × Bytes)} {p : Bytes × Bytes}
    (h : p ∈ assignPair k v m) : p.1 = k ∨ ∃ q ∈ m, p.1 = q.1 := by
  induction m with
  | nil =>
    rw [List.mem_singleton.mp h]
    exact Or.inl rfl
  | cons q m ih =>
    obtain ⟨k', v'⟩ := q
    rw [assignPair] at h
    split at h
    · rcases List.mem_cons.mp h with rfl | hOld
      · exact Or.inl rfl
      · exact Or.inr ⟨p, hOld, rfl⟩
    · split at h
      · rcases List.mem_cons.mp h with rfl | hOld
        · exact Or.inr ⟨(k', v'), List.mem_cons_self, rfl⟩
        · rcases ih hOld with hKey | ⟨q, hq, hEq⟩
          · exact Or.inl hKey
          · exact Or.inr ⟨q, List.mem_cons_of_mem _ hq, hEq⟩
      · rcases List.mem_cons.mp h with rfl | hOld
        · exact Or.inr ⟨(k', v'), List.mem_cons_self, rfl⟩
        · exact Or.inr ⟨p, List.mem_cons_of_mem _ hOld, rfl⟩

theorem assignPair_sorted {k v : Bytes} {m : List (Bytes × Bytes)} (h : m.Pairwise fun p q => p.1 < q.1) :
    (assignPair k v m).Pairwise fun p q => p.1 < q.1 := by
  induction m with
  | nil => exact List.pairwise_singleton _ _
  | cons q m ih =>
    obtain ⟨k', v'⟩ := q
    obtain ⟨hFirst, hRest⟩ := List.pairwise_cons.mp h
    rw [assignPair]
    split
    · rename_i hLess
      refine List.pairwise_cons.mpr ⟨?_, h⟩
      intro p hp
      rcases List.mem_cons.mp hp with rfl | hp
      · exact hLess
      · exact List.lt_trans hLess (hFirst p hp)
    · split
      · rename_i hMore
        refine List.pairwise_cons.mpr ⟨?_, ih hRest⟩
        intro p hp
        rcases mem_assignPair hp with hKey | ⟨q, hq, hEq⟩
        · exact hKey ▸ hMore
        · exact hEq ▸ hFirst q hq
      · exact List.pairwise_cons.mpr ⟨hFirst, hRest⟩

/-- `map <string, string>`, in the order of its keys. -/
structure Extensions where
  pairs : List (Bytes × Bytes)
  sorted : pairs.Pairwise fun p q => p.1 < q.1

def Extensions.empty : Extensions := ⟨[], List.Pairwise.nil⟩

def Extensions.assign (e : Extensions) (k v : Bytes) : Extensions :=
  ⟨assignPair k v e.pairs, assignPair_sorted e.sorted⟩

def pairText (p : Bytes × Bytes) : Bytes :=
  p.1 ++ ((if p.2.isEmpty then [] else equals :: p.2) ++ [semicolon])

def Extensions.text (e : Extensions) : Bytes := e.pairs.flatMap pairText

/-! ## Sending -/

/-- `PPTConnection::sendExtensions` -/
def sendExtensions (extensions : Extensions) : Bytes :=
  if extensions.pairs.isEmpty then []
  else chunkHeader .extension extensions.text.length ++ extensions.text

def sendChunk (buffer : Bytes) (extensions : Extensions) : Bytes :=
  sendExtensions extensions ++ (chunkHeader .data buffer.length ++ buffer)

/-- `PPTConnection::send` of a message: the bytes that it puts on the socket. -/
def send (buffer : Bytes) (extensions : Extensions) : Bytes :=
  if buffer.isEmpty then sendChunk [] extensions
  else sendChunk buffer extensions ++ sendChunk [] .empty

/-! ## Receiving -/

/-- `string::find` of a character -/
def findByte (c : UInt8) : Bytes → Option Nat
  | [] => none
  | b :: bs => if b = c then some 0 else (findByte c bs).map (· + 1)

/-- `PPTConnection::read_extensions` from an index on. -/
def readExtensions : Nat → Bytes → Extensions → Except PptFault Extensions
  | 0, _, e => .ok e
  | fuel + 1, text, e =>
    match findByte semicolon text with
    | none => .error (.BESInternalError (ofText "malformed extensions ".toList ++ text ++
      ofText ", missing semicolon".toList))
    | some semi =>
      let eq := (findByte equals text).getD text.length
      if eq > semi then
        if (text.drop (semi + 1)).isEmpty then .ok (e.assign (text.take semi) [])
        else readExtensions fuel (text.drop (semi + 1)) (e.assign (text.take semi) [])
      else if eq + 1 = semi then
        .error (.BESInternalError (ofText "malformed extensions ".toList ++ text ++
          ofText ", missing value after =".toList))
      else if (text.drop (semi + 1)).isEmpty then
        .ok (e.assign (text.take eq) ((text.drop (eq + 1)).take (semi - eq - 1)))
      else
        readExtensions fuel (text.drop (semi + 1)) (e.assign (text.take eq) ((text.drop (eq + 1)).take (semi - eq - 1)))

structure PPTConnection where
  /-- `_inBuff_len`, once there is a buffer. -/
  inBuffLen : Option Nat
  recvBufferSize : Nat
  sock : Feed

def socketFailure : PptFault := besInternalError "Socket::receive: socket failure, reading on stream socket"

/-- The length of the receive buffer, which is made at the first call. -/
def bufferLength (c : PPTConnection) : Except PptFault Nat :=
  match c.inBuffLen with
  | some n => .ok n
  | none => if (c.recvBufferSize : Int) + 2 > INT_MAX then .error .undefined else .ok (c.recvBufferSize + 1)

/-- `PPTConnection::readChunkHeader` of eight bytes and the null behind them. -/
def readChunkHeader (inBuffLen : Nat) (sock : Feed) : Except PptFault (Bytes × Feed) :=
  if inBuffLen + 1 ≤ 8 then .error .undefined
  else if (sock.readUpTo 8 8 8).1.length < 8 then .error socketFailure
  else .ok (sock.readUpTo 8 8 8)

/-- `PPTConnection::receive` of `len` bytes, as many at a time as the buffer has. -/
def receiveBytes (inBuffLen : Nat) (len : Int) (sock : Feed) : Except PptFault (Bytes × Feed) :=
  if len ≤ 0 then .error socketFailure
  else if (sock.readUpTo inBuffLen len.toNat len.toNat).1.length < len.toNat then .error socketFailure
  else .ok (sock.readUpTo inBuffLen len.toNat len.toNat)

def typeError (c : UInt8) : PptFault :=
  .BESInternalError (ofText "type of data is ".toList ++ [c] ++
    ofText ", should be x for extensions or d for data".toList)

/-- `PPTConnection::receive`: whether it was the last chunk, the extensions and what the stream has. -/
def receive (c : PPTConnection) (extensions : Extensions) (strm : Bytes) :
    Except PptFault (Bool × Extensions × Bytes × PPTConnection) := do
  let inBuffLen ← bufferLength c
  let (header, sock) ← readChunkHeader inBuffLen c.sock
  if header[7]? = some (UInt8.ofNat 'x'.toNat) then
    let (xstr, sock) ← receiveBytes inBuffLen (int32 (inlen header)) sock
    let extensions ← readExtensions (xstr.length + 1) xstr extensions
    .ok (false, extensions, strm, { c with inBuffLen := some inBuffLen, sock := sock })
  else if header[7]? = some (UInt8.ofNat 'd'.toNat) then
    if inlen header = 0 then .ok (true, extensions, strm, { c with inBuffLen := some inBuffLen, sock := sock })
    else do
      let (data, sock) ← receiveBytes inBuffLen (int32 (inlen header)) sock
      .ok (false, extensions, strm ++ data, { c with inBuffLen := some inBuffLen, sock := sock })
  else .error (typeError (header[7]?.getD 0))

/-- `while (!done) done = c->receive (extensions, &ss)` -/
def receiveLoop : Nat → PPTConnection → Extensions → Bytes → Except PptFault (Extensions × Bytes × PPTConnection)
  | 0, _, _, _ => .error .undefined
  | fuel + 1, c, extensions, strm =>
    match receive c extensions strm with
    | .error f => .error f
    | .ok (done, extensions, strm, c) =>
      if done then .ok (extensions, strm, c) else receiveLoop fuel c extensions strm

/-- A message with a map and a stream of its own. Each call takes a header at least. -/
def receiveMessage (c : PPTConnection) : Except PptFault (Extensions × Bytes × PPTConnection) :=
  receiveLoop (c.sock.rest.length + 1) c .empty []

def receiveMessages : Nat → PPTConnection → Except PptFault (List (Bytes × Extensions) × PPTConnection)
  | 0, c => .ok ([], c)
  | n + 1, c => do
    let (extensions, data, c) ← receiveMessage c
    let (more, c) ← receiveMessages n c
    .ok ((data, extensions) :: more, c)

end Libdap.Ppt
