import Libdap.Ppt.Chunk
import Libdap.Ppt.MessageRoundTrip
import Libdap.Ppt.PPTStreamBuf

/-! # Responses written and read -/

namespace Libdap.Ppt
open Core Constraint ChunkedInputStream
set_option autoImplicit false

/-- Between two chunks. -/
structure Idle (s : ChunkedInputStream) (rest : Bytes) : Prop where
  isOpen : s.isClosed = false
  atEnd : s.availableInChunk ≤ 0
  rest : s.is.rest = rest

/-- At the body of a chunk, with room for it. -/
structure AtBody (s : ChunkedInputStream) (type : ChunkType) (size : Nat) (rest : Bytes) : Prop where
  isOpen : s.isClosed = false
  dataSize : s.currentChunkDataSize = size
  position : s.chunkReadPosition = 0
  type : s.currentChunkType = UInt8.ofNat type.letter.toNat
  room : size ≤ s.chunkBufferLength
  rest : s.is.rest = rest

theorem readFully_enough {is : Feed} {body more : Bytes} (hNe : body ≠ []) (hRest : is.rest = body ++ more) :
    ∃ is', readFully is body.length = (some body, is') ∧ is'.rest = more := by
  have hPositive := List.length_pos_iff.mpr hNe
  have hEnough : body.length ≤ is.rest.length := by
    rw [hRest, List.length_append]
    omega
  obtain ⟨hTake, hDrop⟩ := Feed.readUpTo_enough (Nat.pos_iff_ne_zero.mp hPositive) (Nat.le_refl body.length) hEnough
  rw [hRest, List.take_left] at hTake
  rw [hRest, List.drop_left] at hDrop
  have hSome : ¬ (body.length ≠ 0 ∧ body.isEmpty = true) := fun h => hNe (List.isEmpty_iff.mp h.2)
  refine ⟨(is.readUpTo body.length body.length body.length).2, ?_, hDrop⟩
  rw [readFully, hTake, if_neg hSome]

theorem readFully_header {is : Feed} {type : ChunkType} {size : Nat} {more : Bytes} (hSize : size ≤ MAX_SIZE)
    (hRest : is.rest = chunkHeader type size ++ more) :
    ∃ is', readFully is 8 = (some (chunkHeader type size), is') ∧ is'.rest = more := by
  have hLength := chunkHeader_length type hSize
  have hNe : chunkHeader type size ≠ [] := by
    apply List.ne_nil_of_length_pos
    rw [hLength]
    decide
  have hRead := readFully_enough hNe hRest
  rwa [hLength] at hRead

/-- The header of a chunk with a body. -/
theorem header_read {s : ChunkedInputStream} {type : ChunkType} {size : Nat} {more : Bytes}
    (h : Idle s (chunkHeader type size ++ more)) (hPositive : 0 < size) (hSize : size ≤ MaxBufferSize) :
    ∃ s', (∀ fuel d, readLoop (fuel + 1) s d = readLoop fuel s' d) ∧ AtBody s' type size more := by
  have hMax : size ≤ MAX_SIZE := hSize.trans (by decide)
  obtain ⟨is, hBytes, hRest⟩ := readFully_header hMax h.rest
  have hDigits : (chunkHeader type size ++ s.currentChunkHeader.drop (chunkHeader type size).length).take 7 =
      (chunkHeader type size).take 7 := by
    rw [List.take_append_of_le_length]
    rw [chunkHeader_length type hMax]
    decide
  have hLetter : (chunkHeader type size ++ s.currentChunkHeader.drop (chunkHeader type size).length)[7]? =
      some (UInt8.ofNat type.letter.toNat) := by
    rw [List.getElem?_append_left (by rw [chunkHeader_length type hMax]; decide), chunkHeader_type type hMax]
  have hData : getDataSize (chunkHeader type size ++ s.currentChunkHeader.drop (chunkHeader type size).length) =
      .ok (some size) := by
    rw [getDataSize, hDigits, integerValueOf16_header type hMax]
    exact congrArg Except.ok (if_neg (by omega))
  have hHeader : s.readChunkHeader = .ok (some size, { s with
      is := is
      currentChunkHeader := chunkHeader type size ++ s.currentChunkHeader.drop (chunkHeader type size).length
      currentChunkDataSize := size
      currentChunkType := UInt8.ofNat type.letter.toNat
      chunkReadPosition := 0 }) := by
    rw [ChunkedInputStream.readChunkHeader, h.isOpen, hBytes]
    simp only [Bool.false_eq_true, if_false, hData, hLetter, Option.getD_some]
  have hNotLast : ¬ (size : Int) = 0 := by omega
  refine ⟨{ s with
      is := is
      currentChunkHeader := chunkHeader type size ++ s.currentChunkHeader.drop (chunkHeader type size).length
      currentChunkDataSize := size
      currentChunkType := UInt8.ofNat type.letter.toNat
      chunkReadPosition := 0
      chunkBufferLength := max s.chunkBufferLength size }, ?_,
    ⟨h.isOpen, rfl, rfl, rfl, Nat.le_max_right _ _, hRest⟩⟩
  intro fuel d
  rw [readLoop, h.isOpen, if_neg Bool.false_ne_true, if_pos h.atEnd, hHeader]
  simp only [Option.isNone_some, Bool.false_or, isLastChunk, hNotLast, decide_false, Bool.false_and, Bool.false_eq_true,
    if_false, makeRoom]
  rcases Nat.lt_or_ge s.chunkBufferLength size with hLess | hMore
  · rw [if_pos (by omega), if_neg (by omega), Nat.max_eq_right hLess.le]
    simp only [h.isOpen, Int.toNat_natCast]
  · rw [if_neg (by omega), Nat.max_eq_left hMore]
    simp only [h.isOpen]

/-- The last chunk. -/
theorem last_read {s : ChunkedInputStream} {more : Bytes} (h : Idle s (chunkHeader .data 0 ++ more)) (fuel : Nat)
    (d : Delivered) : ∃ s', readLoop (fuel + 1) s d = .ok (d, s') ∧ Idle s' more := by
  have hZero : 0 ≤ MAX_SIZE := Nat.zero_le _
  obtain ⟨is, hBytes, hRest⟩ := readFully_header hZero h.rest
  have hDigits : (chunkHeader .data 0 ++ s.currentChunkHeader.drop (chunkHeader .data 0).length).take 7 =
      (chunkHeader .data 0).take 7 := by
    rw [List.take_append_of_le_length]
    rw [chunkHeader_length .data hZero]
    decide
  have hData : getDataSize (chunkHeader .data 0 ++ s.currentChunkHeader.drop (chunkHeader .data 0).length) =
      .ok none := by
    rw [getDataSize, hDigits, integerValueOf16_header .data hZero]
    rfl
  have hHeader : s.readChunkHeader = .ok (none, { s with
      is := is
      currentChunkHeader := chunkHeader .data 0 ++ s.currentChunkHeader.drop (chunkHeader .data 0).length }) := by
    rw [ChunkedInputStream.readChunkHeader, h.isOpen, hBytes]
    simp only [Bool.false_eq_true, if_false, hData]
  rw [readLoop, h.isOpen, if_neg Bool.false_ne_true, if_pos h.atEnd, hHeader]
  exact ⟨_, rfl, ⟨h.isOpen, h.atEnd, hRest⟩⟩

theorem atBody_available {s : ChunkedInputStream} {type : ChunkType} {size : Nat} {rest : Bytes}
    (h : AtBody s type size rest) : s.availableInChunk = size := by
  rw [availableInChunk, h.dataSize, h.position, Int.sub_zero]

theorem data_read {s : ChunkedInputStream} {body more : Bytes} (h : Idle s (chunk .data body ++ more)) (hNe : body ≠ [])
    (hSize : body.length ≤ MaxBufferSize) :
    ∃ s', (∀ fuel d, readLoop (fuel + 2) s d = readLoop fuel s' (d.write body)) ∧ Idle s' more := by
  rw [chunk, List.append_assoc] at h
  obtain ⟨s₁, hHeader, hBody⟩ := header_read h (List.length_pos_iff.mpr hNe) hSize
  have hAvailable := atBody_available hBody
  have hPositive := List.length_pos_iff.mpr hNe
  obtain ⟨is, hBytes, hRest⟩ := readFully_enough hNe hBody.rest
  have hType : s₁.currentChunkType = DATA := hBody.type
  have hRoom := hBody.room
  have hRead : ∀ d, readBody s₁ d =
      .ok (d.write body, { s₁ with is := is, chunkReadPosition := s₁.chunkReadPosition + body.length }) := by
    intro d
    rw [readBody, hAvailable, if_neg (by omega), Int.toNat_natCast, hBytes]
    simp only [hType, if_true]
  refine ⟨{ s₁ with is := is, chunkReadPosition := s₁.chunkReadPosition + body.length }, ?_, ⟨hBody.isOpen, ?_, hRest⟩⟩
  · intro fuel d
    rw [hHeader, readLoop, hBody.isOpen, if_neg Bool.false_ne_true, hAvailable, if_neg (by omega), hRead]
    simp only [hBody.isOpen]
  · simp only [availableInChunk, hBody.dataSize, hBody.position]
    omega

/-- An extension that says that there was an error. -/
theorem extension_read {s : ChunkedInputStream} {text more : Bytes} (h : Idle s (chunk .extension text ++ more))
    (hNe : text ≠ []) (hSize : text.length ≤ MaxBufferSize)
    (hError : ∀ s, processExtensionContent s text = .ok (true, s)) :
    ∃ s', (∀ fuel d, readLoop (fuel + 2) s d = readLoop fuel s' { d with isError := true }) ∧ Idle s' more := by
  rw [chunk, List.append_assoc] at h
  obtain ⟨s₁, hHeader, hBody⟩ := header_read h (List.length_pos_iff.mpr hNe) hSize
  have hAvailable := atBody_available hBody
  have hPositive := List.length_pos_iff.mpr hNe
  obtain ⟨is, hBytes, hRest⟩ := readFully_enough hNe hBody.rest
  have hType : s₁.currentChunkType = EXTENSION := hBody.type
  have hNotData : ¬ EXTENSION = DATA := by decide
  have hRoom := hBody.room
  have hRead : ∀ d : Delivered, readBody s₁ d = .ok ({ d with isError := true },
      { s₁ with is := is, chunkReadPosition := s₁.chunkReadPosition + text.length }) := by
    intro d
    rw [readBody, hAvailable, if_neg (by omega), Int.toNat_natCast, hBytes]
    simp only [hType, if_true, if_neg hNotData, hError, Bool.true_or]
  refine ⟨{ s₁ with is := is, chunkReadPosition := s₁.chunkReadPosition + text.length }, ?_, ⟨hBody.isOpen, ?_, hRest⟩⟩
  · intro fuel d
    rw [hHeader, readLoop, hBody.isOpen, if_neg Bool.false_ne_true, hAvailable, if_neg (by omega), hRead]
    simp only [hBody.isOpen]
  · simp only [availableInChunk, hBody.dataSize, hBody.position]
    omega

/-! ## Responses -/

theorem Delivered.write_nil (d : Delivered) : d.write [] = d := by
  rw [Delivered.write, List.append_nil, List.append_nil]
  split <;> rfl

theorem Delivered.write_write (d : Delivered) (a b : Bytes) : (d.write a).write b = d.write (a ++ b) := by
  obtain ⟨dStream, errStream, isError⟩ := d
  cases isError <;> simp [Delivered.write]

theorem bodies_read {bodies : List Bytes} (hBodies : Bodies MaxBufferSize bodies) {s : ChunkedInputStream}
    {more : Bytes}
    (h : Idle s (bodies.flatMap (chunk .data) ++ more)) :
    ∃ s', (∀ fuel d, readLoop (fuel + 2 * bodies.length) s d = readLoop fuel s' (d.write bodies.flatten)) ∧
      Idle s' more := by
  induction bodies generalizing s with
  | nil =>
    refine ⟨s, ?_, h⟩
    intro fuel d
    rw [List.flatten_nil, Delivered.write_nil]
    rfl
  | cons body bodies ih =>
    rw [Bodies, List.forall_mem_cons] at hBodies
    rw [List.flatMap_cons, List.append_assoc] at h
    obtain ⟨s₁, hFirst, hIdle⟩ := data_read h hBodies.1.1 hBodies.1.2
    obtain ⟨s₂, hRest, hEnd⟩ := ih hBodies.2 hIdle
    refine ⟨s₂, ?_, hEnd⟩
    intro fuel d
    rw [List.flatten_cons, ← Delivered.write_write, ← hRest, ← hFirst]
    rfl

/-- So many turns of the loop, at most one for each byte, deliver the data. -/
theorem InChunks.read {bufsize : Nat} (hSize : bufsize ≤ MaxBufferSize) {data wire : Bytes}
    (hWire : InChunks bufsize data wire) {s : ChunkedInputStream} {more : Bytes} (h : Idle s (wire ++ more)) :
    ∃ n s', n ≤ wire.length ∧ (∀ fuel d, readLoop (fuel + n) s d = readLoop fuel s' (d.write data)) ∧ Idle s' more := by
  obtain ⟨bodies, rfl, rfl, hBodies⟩ := hWire
  have hFit : Bodies MaxBufferSize bodies := by
    intro body hBody
    have hOne : 1 ≤ MaxBufferSize := by decide
    exact ⟨(hBodies body hBody).1, (hBodies body hBody).2.trans (Nat.max_le.mpr ⟨hOne, hSize⟩)⟩
  have hShort : 2 * bodies.length ≤ (bodies.flatMap (chunk .data)).length := by
    clear h hBodies
    induction bodies with
    | nil => exact Nat.le_refl 0
    | cons body bodies ih =>
      rw [Bodies, List.forall_mem_cons] at hFit
      have hMax : body.length ≤ MAX_SIZE := hFit.1.2.trans (by decide)
      have hRest := ih hFit.2
      rw [List.flatMap_cons, List.length_append, chunk_length .data hMax, List.length_cons]
      omega
  obtain ⟨s', hRead, hIdle⟩ := bodies_read hFit h
  exact ⟨2 * bodies.length, s', hShort, hRead, hIdle⟩

theorem statusError_text (fatal : Bool) :
    sendExtensions (statusError fatal) = chunk .extension (statusError fatal).text ∧
      (statusError fatal).text ≠ [] ∧ (statusError fatal).text.length ≤ MaxBufferSize := by
  cases fatal <;> decide

theorem statusError_read (fatal : Bool) (s : ChunkedInputStream) :
    processExtensionContent s (statusError fatal).text = .ok (true, s) := by
  cases fatal
  · have hText : splitSemicolon (toText (statusError false).text) = ["status=error".toList] := by decide
    rw [processExtensionContent, hText]
    rfl
  · have hText : splitSemicolon (toText (statusError true).text) = ["exit=true".toList, "status=error".toList] := by
      decide
    rw [processExtensionContent, hText]
    rfl

/-- What the front end is to get of a response. -/
def Response.expected (r : Response) : Bool × Bytes × Bytes :=
  (r.error.isNone, putBytes r.outputs, (r.error.map fun e => putBytes e.outputs).getD [])

theorem response_read {bufsize : Nat} (hSize : bufsize ≤ MaxBufferSize) (r : Response) (out : Bytes) :
    ∃ wire, execute bufsize out r = out ++ wire ∧ ∀ s more, Idle s (wire ++ more) →
      ∃ s', readChunkedMessage s = .ok (r.expected.1, r.expected.2.1, r.expected.2.2, s') ∧ Idle s' more := by
  obtain ⟨outputs, error⟩ := r
  cases error with
  | none =>
    obtain ⟨wire, hOut, hWire⟩ := execute_normal bufsize out outputs
    refine ⟨_, hOut, ?_⟩
    intro s more h
    rw [List.append_assoc] at h
    obtain ⟨n, s₁, hCount, hData, hIdle⟩ := hWire.read hSize h
    obtain ⟨fuel, hFuel⟩ : ∃ fuel, s.is.rest.length + 2 = (fuel + 1) + n := by
      refine ⟨s.is.rest.length + 1 - n, ?_⟩
      rw [h.rest, List.length_append]
      omega
    obtain ⟨s₂, hLast, hEnd⟩ := last_read hIdle fuel (Delivered.none.write (putBytes outputs))
    refine ⟨s₂, ?_, hEnd⟩
    rw [readChunkedMessage, hFuel, hData, hLast]
    rfl
  | some e =>
    obtain ⟨wire, wire', hOut, hWire, hWire'⟩ := execute_error bufsize out outputs e
    obtain ⟨hExtension, hSome, hShort⟩ := statusError_text e.fatal
    rw [hExtension] at hOut
    refine ⟨_, hOut, ?_⟩
    intro s more h
    simp only [List.append_assoc] at h
    obtain ⟨n, s₁, hCount, hData, hIdle⟩ := hWire.read hSize h
    obtain ⟨s₂, hError, hIdle'⟩ := extension_read hIdle hSome hShort (statusError_read e.fatal)
    obtain ⟨n', s₃, hCount', hData', hIdle''⟩ := hWire'.read hSize hIdle'
    obtain ⟨fuel, hFuel⟩ : ∃ fuel, s.is.rest.length + 2 = (((fuel + 1) + n') + 2) + n := by
      have hLast := chunkHeader_length .data (Nat.zero_le MAX_SIZE)
      refine ⟨s.is.rest.length - n - n' - 1, ?_⟩
      rw [h.rest, List.length_append, List.length_append, List.length_append, List.length_append, hLast]
      omega
    obtain ⟨s₄, hLast, hEnd⟩ := last_read hIdle'' fuel
      ({ Delivered.none.write (putBytes outputs) with isError := true }.write (putBytes e.outputs))
    refine ⟨s₄, ?_, hEnd⟩
    rw [readChunkedMessage, hFuel, hData, hError, hData', hLast]
    rfl

theorem session_read (rs : List (Nat × Response)) (hSize : ∀ r ∈ rs, r.1 ≤ MaxBufferSize) (out : Bytes) :
    ∃ wire, executeAll out rs = out ++ wire ∧ ∀ s more, Idle s (wire ++ more) →
      ∃ s', readMessages rs.length s = .ok (rs.map fun r => r.2.expected, s') ∧ Idle s' more := by
  induction rs generalizing out with
  | nil => exact ⟨[], (List.append_nil out).symm, fun s more h => ⟨s, rfl, h⟩⟩
  | cons r rs ih =>
    rw [List.forall_mem_cons] at hSize
    obtain ⟨wire, hFirst, hRead⟩ := response_read hSize.1 r.2 out
    obtain ⟨wire', hRest, hReadRest⟩ := ih hSize.2 (out ++ wire)
    refine ⟨wire ++ wire', ?_, ?_⟩
    · rw [← List.append_assoc, ← hRest, ← hFirst]
      rfl
    · intro s more h
      rw [List.append_assoc] at h
      obtain ⟨s₁, hMessage, hIdle⟩ := hRead s _ h
      obtain ⟨s₂, hMessages, hEnd⟩ := hReadRest s₁ more hIdle
      refine ⟨s₂, ?_, hEnd⟩
      rw [List.length_cons, readMessages, hMessage, ok_bind]
      simp only [hMessages, ok_bind, List.map_cons]

/-- Call by call, the front end gets what each response put before and after its error, and the stream is
then at the next one. -/
theorem responses_read {rs : List (Nat × Response)} (hSize : ∀ r ∈ rs, r.1 ≤ MaxBufferSize) (arrivals : Nat → Nat)
    (more : Bytes) :
    ∃ s', readMessages rs.length (.new ⟨executeAll [] rs ++ more, arrivals⟩) =
        .ok (rs.map fun r => r.2.expected, s') ∧ s'.is.rest = more := by
  obtain ⟨wire, hOut, hRead⟩ := session_read rs hSize []
  rw [List.nil_append] at hOut
  have hIdle : Idle (.new ⟨executeAll [] rs ++ more, arrivals⟩) (wire ++ more) :=
    ⟨rfl, Int.le_refl 0, by rw [hOut]; rfl⟩
  obtain ⟨s', hMessages, hEnd⟩ := hRead (.new ⟨executeAll [] rs ++ more, arrivals⟩) more hIdle
  exact ⟨s', hMessages, hEnd.rest⟩

def session : List (Nat × Response) :=
  [(2, ⟨[.put 1, .put 2, .put 3], some ⟨true, [.put 4, .flush, .put 255]⟩⟩), (0, ⟨[.put 5], none⟩)]

theorem session_delivered :
    ∃ s', readMessages session.length (.new ⟨executeAll [] session ++ [], fun _ => 0⟩) =
      .ok ([(false, [1, 2, 3], [4, 255]), (true, [5], [])], s') ∧ s'.is.rest = [] := by
  have hSize : ∀ r ∈ session, r.1 ≤ MaxBufferSize := by decide
  exact responses_read hSize (fun _ => 0) []

end Libdap.Ppt
