import Libdap.Ppt.MessageRoundTrip

/-! # Chunk by chunk

What `PPTConnection::receive` takes off the socket before it looks at what a chunk says.
-/

namespace Libdap.Ppt
open Core Constraint
set_option autoImplicit false

/-- The chunk that a call of `receive` reads. -/
def receiveChunk (c : PPTConnection) : Except PptFault (ChunkType × Bytes × PPTConnection) := do
  let inBuffLen ← bufferLength c
  let (header, sock) ← readChunkHeader inBuffLen c.sock
  if header[7]? = some (UInt8.ofNat 'x'.toNat) then
    let (xstr, sock) ← receiveBytes inBuffLen (int32 (inlen header)) sock
    .ok (.extension, xstr, { c with inBuffLen := some inBuffLen, sock := sock })
  else if header[7]? = some (UInt8.ofNat 'd'.toNat) then
    if inlen header = 0 then .ok (.data, [], { c with inBuffLen := some inBuffLen, sock := sock })
    else do
      let (data, sock) ← receiveBytes inBuffLen (int32 (inlen header)) sock
      .ok (.data, data, { c with inBuffLen := some inBuffLen, sock := sock })
  else .error (typeError (header[7]?.getD 0))

/-- What a call makes of it. -/
def takeChunk (extensions : Extensions) (strm : Bytes) :
    ChunkType × Bytes × PPTConnection → Except PptFault (Bool × Extensions × Bytes × PPTConnection)
  | (.extension, xstr, c) => (readExtensions (xstr.length + 1) xstr extensions).map fun e => (false, e, strm, c)
  | (.data, data, c) => .ok (data.isEmpty, extensions, strm ++ data, c)

theorem receiveBytes_some {n : Nat} {len : Int} {sock sock' : Feed} {body : Bytes}
    (h : receiveBytes n len sock = .ok (body, sock')) : body ≠ [] := by
  rw [receiveBytes] at h
  split at h
  · cases h
  · split at h
    · cases h
    · rename_i hPositive hEnough
      have hBody : (sock.readUpTo n len.toNat len.toNat).1 = body := congrArg Prod.fst (Except.ok.inj h)
      rw [hBody] at hEnough
      apply List.ne_nil_of_length_pos
      omega

theorem receive_eq (c : PPTConnection) (extensions : Extensions) (strm : Bytes) :
    receive c extensions strm = receiveChunk c >>= takeChunk extensions strm := by
  rw [receive, receiveChunk]
  cases bufferLength c with
  | error f => rfl
  | ok n =>
    cases hHeader : readChunkHeader n c.sock with
    | error f =>
      simp only [ok_bind, hHeader]
      rfl
    | ok r =>
      obtain ⟨header, sock⟩ := r
      simp only [ok_bind, hHeader]
      split
      · cases receiveBytes n (int32 (inlen header)) sock with
        | error f => rfl
        | ok r =>
          simp only [ok_bind, takeChunk]
          cases readExtensions (r.1.length + 1) r.1 extensions with
          | error f => rfl
          | ok e => rfl
      · split
        · split
          · simp only [ok_bind, takeChunk, List.isEmpty_nil, List.append_nil]
          · cases hBytes : receiveBytes n (int32 (inlen header)) sock with
            | error f => rfl
            | ok r =>
              have hSome : r.1.isEmpty = false := by simpa using receiveBytes_some hBytes
              simp only [ok_bind, takeChunk, hSome]
        · rfl

/-- Chunks until the stream has ended. -/
def receiveChunks : Nat → PPTConnection → Except PptFault (List (ChunkType × Bytes))
  | 0, _ => .error .undefined
  | fuel + 1, c =>
    if c.sock.rest.isEmpty then .ok []
    else do
      let (type, body, c) ← receiveChunk c
      let more ← receiveChunks fuel c
      .ok ((type, body) :: more)

/-- A chunk that can be read: an extension chunk has something in it. -/
structure Readable (k : ChunkType × Bytes) : Prop where
  size : k.2.length ≤ MAX_SIZE
  some : k.1 = .extension → k.2 ≠ []

theorem receiveChunk_chunk {c : PPTConnection} (h : c.Ready) {k : ChunkType × Bytes} (hk : Readable k) {more : Bytes}
    (hRest : c.sock.rest = chunk k.1 k.2 ++ more) : ∃ c', receiveChunk c = .ok (k.1, k.2, c') ∧ Left c more c' := by
  have hRoom := h.header
  obtain ⟨type, body⟩ := k
  have hSize : body.length ≤ MAX_SIZE := hk.size
  rw [chunk, List.append_assoc] at hRest
  obtain ⟨sock, hHeader, hBody⟩ := readChunkHeader_chunk (n := c.recvBufferSize + 1) (by omega) hSize hRest
  cases type with
  | extension =>
    obtain ⟨sock', hBytes, hMore⟩ :=
      receiveBytes_enough (n := c.recvBufferSize + 1) (Nat.succ_ne_zero _) (hk.some rfl) hBody
    refine ⟨_, ?_, h.next hMore⟩
    rw [receiveChunk, bufferLength_ready h]
    simp only [ok_bind, hHeader, chunkHeader_type .extension hSize, inlen_header .extension hSize, int32_size hSize,
      hBytes]
    rfl
  | data =>
    have hLetter : ¬ UInt8.ofNat ChunkType.data.letter.toNat = UInt8.ofNat 'x'.toNat := by decide
    cases body with
    | nil =>
      refine ⟨_, ?_, h.next hBody⟩
      rw [receiveChunk, bufferLength_ready h]
      simp only [ok_bind, hHeader, chunkHeader_type .data hSize, inlen_header .data hSize, Option.some.injEq,
        if_neg hLetter]
      rfl
    | cons b bs =>
      obtain ⟨sock', hBytes, hMore⟩ :=
        receiveBytes_enough (n := c.recvBufferSize + 1) (Nat.succ_ne_zero _) (List.cons_ne_nil b bs) hBody
      have hSome : ¬ (b :: bs).length = 0 := Nat.succ_ne_zero _
      refine ⟨_, ?_, h.next hMore⟩
      rw [receiveChunk, bufferLength_ready h]
      simp only [ok_bind, hHeader, chunkHeader_type .data hSize, inlen_header .data hSize, int32_size hSize, hBytes,
        Option.some.injEq, if_neg hLetter, if_neg hSome]
      rfl

/-- The chunks that a text was made of are read from it, however it arrives. -/
theorem receiveChunks_chunks {ks : List (ChunkType × Bytes)} (hks : ∀ k ∈ ks, Readable k) {c : PPTConnection}
    (h : c.Ready) (hRest : c.sock.rest = ks.flatMap fun k => chunk k.1 k.2) {fuel : Nat} (hFuel : ks.length < fuel) :
    receiveChunks fuel c = .ok ks := by
  induction ks generalizing c fuel with
  | nil =>
    obtain ⟨fuel, rfl⟩ := Nat.exists_eq_add_one.mpr hFuel
    rw [List.flatMap_nil] at hRest
    rw [receiveChunks, if_pos (by rw [hRest]; rfl)]
  | cons k ks ih =>
    obtain ⟨fuel, rfl⟩ := Nat.exists_eq_add_one.mpr (Nat.zero_lt_of_lt hFuel)
    rw [List.forall_mem_cons] at hks
    rw [List.flatMap_cons] at hRest
    have hNe : c.sock.rest.isEmpty = false := by
      have hLength := chunk_length k.1 hks.1.size
      rw [List.isEmpty_eq_false_iff, hRest]
      apply List.ne_nil_of_length_pos
      rw [List.length_append]
      omega
    obtain ⟨c', hChunk, hLeft⟩ := receiveChunk_chunk h hks.1 hRest
    have hMore := ih hks.2 hLeft.2.1 hLeft.2.2 (Nat.lt_of_succ_lt_succ hFuel)
    rw [receiveChunks, hNe, if_neg Bool.false_ne_true, hChunk, ok_bind]
    simp only [hMore, ok_bind]

end Libdap.Ppt
