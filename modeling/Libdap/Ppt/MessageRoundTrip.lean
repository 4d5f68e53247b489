import Libdap.Ppt.PPTConnection

/-! # Messages sent and received -/

namespace Libdap.Ppt
open Core Constraint
set_option autoImplicit false

/-! ## Extensions read from their text -/

theorem findByte_append {c : UInt8} {w : Bytes} (rest : Bytes) (h : c ∉ w) :
    findByte c (w ++ rest) = (findByte c rest).map (· + w.length) := by
  induction w with
  | nil => simp
  | cons b w ih =>
    rw [List.mem_cons, not_or] at h
    rw [List.cons_append, findByte, if_neg (Ne.symm h.1), ih h.2, Option.map_map, List.length_cons]
    rfl

theorem findByte_here {c : UInt8} {w : Bytes} (rest : Bytes) (h : c ∉ w) :
    findByte c (w ++ c :: rest) = some w.length := by
  rw [findByte_append _ h, findByte, if_pos rfl, Option.map_some, Nat.zero_add]

theorem assignPair_last {k v : Bytes} {m : List (Bytes × Bytes)} (h : ∀ p ∈ m, p.1 < k) :
    assignPair k v m = m ++ [(k, v)] := by
  induction m with
  | nil => rfl
  | cons p m ih =>
    obtain ⟨k', v'⟩ := p
    rw [List.forall_mem_cons] at h
    rw [assignPair, if_neg (List.lt_asymm h.1), if_pos h.1, ih h.2, List.cons_append]

/-- A name that is not empty and has no `=` and no `;`, and a value without `;`. -/
structure PlainPair (p : Bytes × Bytes) : Prop where
  name : p.1 ≠ []
  noEquals : equals ∉ p.1
  noSemicolon : semicolon ∉ p.1
  value : semicolon ∉ p.2

/-- One pair is read off the front of the text. -/
theorem readExtensions_pair {p : Bytes × Bytes} (h : PlainPair p) (fuel : Nat) (rest : Bytes) (e : Extensions) :
    readExtensions (fuel + 1) (pairText p ++ rest) e =
      if rest.isEmpty then .ok (e.assign p.1 p.2) else readExtensions fuel rest (e.assign p.1 p.2) := by
  obtain ⟨name, value⟩ := p
  have hNoEquals : equals ∉ name := h.noEquals
  have hNoSemicolon : semicolon ∉ name := h.noSemicolon
  cases hValue : value with
  | nil =>
    have hText : pairText (name, []) ++ rest = name ++ semicolon :: rest := by simp [pairText]
    have hSemi := findByte_here rest hNoSemicolon
    have hAfter : (name ++ semicolon :: rest).drop (name.length + 1) = rest := by
      rw [← List.drop_drop, List.drop_left, List.drop_succ_cons, List.drop_zero]
    have hEq : (findByte equals (name ++ semicolon :: rest)).getD (name ++ semicolon :: rest).length > name.length := by
      rw [findByte_append _ hNoEquals, findByte, if_neg (by decide)]
      cases findByte equals rest with
      | none => simp
      | some i =>
        simp only [Option.map_some, Option.getD_some]
        omega
    rw [hText, readExtensions, hSemi]
    simp only [hEq, if_true, hAfter, List.take_left]
  | cons b bs =>
    have hNone : semicolon ∉ name ++ equals :: (b :: bs) := by
      rw [List.mem_append, List.mem_cons, ← hValue]
      rintro (hMem | hMem | hMem)
      · exact hNoSemicolon hMem
      · exact absurd hMem (by decide)
      · exact h.value hMem
    have hText : pairText (name, b :: bs) ++ rest = (name ++ equals :: (b :: bs)) ++ semicolon :: rest := by
      simp [pairText]
    have hSemi := findByte_here rest hNone
    have hEq := findByte_here ((b :: bs) ++ semicolon :: rest) hNoEquals
    have hSame : (name ++ equals :: (b :: bs)) ++ semicolon :: rest = name ++
        equals :: ((b :: bs) ++ semicolon :: rest) := by
      simp
    have hLength : (name ++ equals :: (b :: bs)).length = name.length + (bs.length + 2) := by simp
    have hAfter : ((name ++ equals :: (b :: bs)) ++ semicolon :: rest).drop (name.length + (bs.length + 2) + 1) =
        rest := by
      rw [← hLength, ← List.drop_drop, List.drop_left, List.drop_succ_cons, List.drop_zero]
    have hTail : (name ++ equals :: ((b :: bs) ++ semicolon :: rest)).drop (name.length + 1) =
        (b :: bs) ++ semicolon :: rest := by
      rw [← List.drop_drop, List.drop_left, List.drop_succ_cons, List.drop_zero]
    have hTake : ((b :: bs) ++ semicolon :: rest).take (name.length + (bs.length + 2) - name.length - 1) = b :: bs := by
      have hCount : name.length + (bs.length + 2) - name.length - 1 = (b :: bs).length := by
        rw [List.length_cons]
        omega
      rw [hCount, List.take_left]
    rw [hText, readExtensions, hSemi, hLength]
    simp only [hAfter]
    rw [hSame, hEq, Option.getD_some]
    rw [if_neg (by omega), if_neg (by omega), List.take_left, hTail, hTake]

/-- The pairs of a map, read one after another, are the map. -/
theorem readExtensions_pairs {ps : List (Bytes × Bytes)} (hPlain : ∀ p ∈ ps, PlainPair p) (hNe : ps ≠ [])
    {fuel : Nat} (hFuel : ps.length ≤ fuel) (e : Extensions)
    (hSorted : (e.pairs ++ ps).Pairwise fun p q => p.1 < q.1) :
    ∃ e', readExtensions fuel (ps.flatMap pairText) e = .ok e' ∧ e'.pairs = e.pairs ++ ps := by
  induction ps generalizing fuel e with
  | nil => exact absurd rfl hNe
  | cons p ps ih =>
    obtain ⟨fuel, rfl⟩ := Nat.exists_eq_add_one.mpr (Nat.lt_of_lt_of_le (Nat.zero_lt_succ _) hFuel)
    rw [List.forall_mem_cons] at hPlain
    obtain ⟨-, -, hBetween⟩ := List.pairwise_append.mp hSorted
    have hAssign : (e.assign p.1 p.2).pairs = e.pairs ++ [p] :=
      assignPair_last fun q hq => hBetween q hq p List.mem_cons_self
    rw [List.flatMap_cons, readExtensions_pair hPlain.1]
    cases ps with
    | nil => exact ⟨_, rfl, hAssign⟩
    | cons q qs =>
      have hMore : ((q :: qs).flatMap pairText).isEmpty = false := by
        have hSome : q.1 ≠ [] := (hPlain.2 q List.mem_cons_self).name
        cases hName : q.1 with
        | nil => exact absurd hName hSome
        | cons b bs => simp [pairText, hName]
      have hSortedNext : ((e.assign p.1 p.2).pairs ++ q :: qs).Pairwise fun p q => p.1 < q.1 := by
        rw [hAssign, List.append_assoc]
        exact hSorted
      rw [hMore]
      obtain ⟨e', hRead, hPairs⟩ := ih hPlain.2 (List.cons_ne_nil q qs) (Nat.le_of_succ_le_succ hFuel) _ hSortedNext
      refine ⟨e', hRead, ?_⟩
      rw [hPairs, hAssign, List.append_assoc]
      rfl

theorem pairText_length (p : Bytes × Bytes) : 1 ≤ (pairText p).length := by
  rw [pairText, List.length_append, List.length_append, List.length_singleton]
  omega

theorem length_le_text (ps : List (Bytes × Bytes)) : ps.length ≤ (ps.flatMap pairText).length := by
  induction ps with
  | nil => exact Nat.le_refl 0
  | cons p ps ih =>
    have hFirst := pairText_length p
    rw [List.flatMap_cons, List.length_append, List.length_cons]
    omega

theorem Extensions.ext {e e' : Extensions} (h : e.pairs = e'.pairs) : e = e' := by
  cases e
  cases e'
  cases h
  rfl

theorem readExtensions_text {e : Extensions} (hPlain : ∀ p ∈ e.pairs, PlainPair p) (hNe : e.pairs ≠ []) :
    readExtensions (e.text.length + 1) e.text .empty = .ok e := by
  obtain ⟨e', hRead, hPairs⟩ := readExtensions_pairs hPlain hNe
    (Nat.le_succ_of_le (length_le_text e.pairs)) .empty e.sorted
  obtain rfl : e' = e := Extensions.ext hPairs
  exact hRead

/-! ## Chunks received -/

/-- The receive buffer is as long as the socket's receive buffer, which holds a header. -/
structure PPTConnection.Ready (c : PPTConnection) : Prop where
  header : 7 ≤ c.recvBufferSize
  fits : (c.recvBufferSize : Int) + 2 ≤ INT_MAX
  buffer : c.inBuffLen = none ∨ c.inBuffLen = some (c.recvBufferSize + 1)

theorem bufferLength_ready {c : PPTConnection} (h : c.Ready) : bufferLength c = .ok (c.recvBufferSize + 1) := by
  rw [bufferLength]
  rcases h.buffer with hBuffer | hBuffer
  · rw [hBuffer]
    exact if_neg (Int.not_lt.mpr h.fits)
  · rw [hBuffer]

theorem readChunkHeader_chunk {n : Nat} (hRoom : 8 ≤ n) {sock : Feed} {type : ChunkType} {size : Nat} {more : Bytes}
    (hSize : size ≤ MAX_SIZE) (hRest : sock.rest = chunkHeader type size ++ more) :
    ∃ sock', readChunkHeader n sock = .ok (chunkHeader type size, sock') ∧ sock'.rest = more := by
  have hLength := chunkHeader_length type hSize
  have hEnough : 8 ≤ sock.rest.length := by
    rw [hRest, List.length_append, hLength]
    omega
  obtain ⟨hTake, hDrop⟩ := Feed.readUpTo_enough (Nat.succ_ne_zero 7) (Nat.le_refl 8) hEnough
  rw [hRest, ← hLength, List.take_left, hLength] at hTake
  rw [hRest, ← hLength, List.drop_left, hLength] at hDrop
  refine ⟨(sock.readUpTo 8 8 8).2, ?_, hDrop⟩
  rw [readChunkHeader, if_neg (by omega), if_neg (by rw [hTake, hLength]; decide)]
  exact congrArg Except.ok (Prod.ext hTake rfl)

theorem receiveBytes_enough {n : Nat} (hRoom : n ≠ 0) {sock : Feed} {body more : Bytes} (hNe : body ≠ [])
    (hRest : sock.rest = body ++ more) :
    ∃ sock', receiveBytes n body.length sock = .ok (body, sock') ∧ sock'.rest = more := by
  have hPositive := List.length_pos_iff.mpr hNe
  have hEnough : body.length ≤ sock.rest.length := by
    rw [hRest, List.length_append]
    omega
  obtain ⟨hTake, hDrop⟩ := Feed.readUpTo_enough hRoom (Nat.le_refl body.length) hEnough
  rw [hRest, List.take_left] at hTake
  rw [hRest, List.drop_left] at hDrop
  refine ⟨(sock.readUpTo n body.length body.length).2, ?_, hDrop⟩
  rw [receiveBytes, if_neg (by omega), Int.toNat_natCast, if_neg (by rw [hTake]; exact Nat.lt_irrefl _)]
  exact congrArg Except.ok (Prod.ext hTake rfl)

theorem int32_size {n : Nat} (h : n ≤ MAX_SIZE) : int32 n = n := by
  rw [MAX_SIZE] at h
  rw [int32]
  omega

/-- What is left to receive, on a connection that goes on being ready. -/
def Left (c : PPTConnection) (more : Bytes) (c' : PPTConnection) : Prop :=
  c'.recvBufferSize = c.recvBufferSize ∧ c'.Ready ∧ c'.sock.rest = more

theorem PPTConnection.Ready.next {c : PPTConnection} (h : c.Ready) {sock : Feed} {more : Bytes}
    (hRest : sock.rest = more) :
    Left c more { c with inBuffLen := some (c.recvBufferSize + 1), sock := sock } :=
  ⟨rfl, ⟨h.header, h.fits, Or.inr rfl⟩, hRest⟩

theorem receive_last {c : PPTConnection} (h : c.Ready) (extensions : Extensions) (strm : Bytes) {more : Bytes}
    (hRest : c.sock.rest = chunkHeader .data 0 ++ more) :
    ∃ c', receive c extensions strm = .ok (true, extensions, strm, c') ∧ Left c more c' := by
  have hRoom := h.header
  obtain ⟨sock, hHeader, hMore⟩ := readChunkHeader_chunk (n := c.recvBufferSize + 1) (by omega) (Nat.zero_le _) hRest
  refine ⟨_, ?_, h.next hMore⟩
  rw [receive, bufferLength_ready h]
  simp only [ok_bind, hHeader, chunkHeader_type .data (Nat.zero_le MAX_SIZE), inlen_header .data (Nat.zero_le MAX_SIZE)]
  rfl

theorem receive_data {c : PPTConnection} (h : c.Ready) (extensions : Extensions) (strm : Bytes) {body more : Bytes}
    (hNe : body ≠ []) (hSize : body.length ≤ MAX_SIZE) (hRest : c.sock.rest = chunk .data body ++ more) :
    ∃ c', receive c extensions strm = .ok (false, extensions, strm ++ body, c') ∧ Left c more c' := by
  have hRoom := h.header
  rw [chunk, List.append_assoc] at hRest
  obtain ⟨sock, hHeader, hBody⟩ := readChunkHeader_chunk (n := c.recvBufferSize + 1) (by omega) hSize hRest
  obtain ⟨sock', hBytes, hMore⟩ := receiveBytes_enough (n := c.recvBufferSize + 1) (Nat.succ_ne_zero _) hNe hBody
  have hSome : ¬ body.length = 0 := fun hZero => hNe (List.length_eq_zero_iff.mp hZero)
  have hLetter : ¬ UInt8.ofNat ChunkType.data.letter.toNat = UInt8.ofNat 'x'.toNat := by decide
  refine ⟨_, ?_, h.next hMore⟩
  rw [receive, bufferLength_ready h]
  simp only [ok_bind, hHeader, chunkHeader_type .data hSize, inlen_header .data hSize, int32_size hSize, hBytes,
    Option.some.injEq, if_neg hLetter, if_neg hSome]
  rfl

theorem receive_extensions {c : PPTConnection} (h : c.Ready) {extensions : Extensions} (strm : Bytes) {more : Bytes}
    (hPlain : ∀ p ∈ extensions.pairs, PlainPair p) (hNe : extensions.pairs ≠ [])
    (hSize : extensions.text.length ≤ MAX_SIZE) (hRest : c.sock.rest = chunk .extension extensions.text ++ more) :
    ∃ c', receive c .empty strm = .ok (false, extensions, strm, c') ∧ Left c more c' := by
  have hRoom := h.header
  have hText : extensions.text ≠ [] := by
    have hLength := length_le_text extensions.pairs
    have hPositive := List.length_pos_iff.mpr hNe
    apply List.ne_nil_of_length_pos
    rw [Extensions.text]
    omega
  rw [chunk, List.append_assoc] at hRest
  obtain ⟨sock, hHeader, hBody⟩ := readChunkHeader_chunk (n := c.recvBufferSize + 1) (by omega) hSize hRest
  obtain ⟨sock', hBytes, hMore⟩ := receiveBytes_enough (n := c.recvBufferSize + 1) (Nat.succ_ne_zero _) hText hBody
  refine ⟨_, ?_, h.next hMore⟩
  rw [receive, bufferLength_ready h]
  simp only [ok_bind, hHeader, chunkHeader_type .extension hSize, inlen_header .extension hSize, int32_size hSize,
    hBytes,
    readExtensions_text hPlain hNe]
  rfl

/-! ## Messages -/

structure Message where
  buffer : Bytes
  extensions : Extensions

def Message.sent (m : Message) : Bytes := send m.buffer m.extensions

/-- The length of the data has seven hexadecimal digits at most. -/
structure Message.WellFormed (m : Message) : Prop where
  data : m.buffer.length ≤ MAX_SIZE
  pairs : ∀ p ∈ m.extensions.pairs, PlainPair p

/-- So has the length of the extensions' text. -/
def Message.Fits (m : Message) : Prop := m.extensions.text.length ≤ MAX_SIZE

theorem Left.trans {c c' c'' : PPTConnection} {more more' : Bytes} (h : Left c more c') (h' : Left c' more' c'') :
    Left c more' c'' :=
  ⟨h'.1.trans h.1, h'.2⟩

theorem receiveLoop_last {c : PPTConnection} (h : c.Ready) (extensions : Extensions) (strm : Bytes) {more : Bytes}
    {fuel : Nat} (hFuel : 1 ≤ fuel) (hRest : c.sock.rest = chunkHeader .data 0 ++ more) :
    ∃ c', receiveLoop fuel c extensions strm = .ok (extensions, strm, c') ∧ Left c more c' := by
  obtain ⟨fuel, rfl⟩ := Nat.exists_eq_add_one.mpr hFuel
  obtain ⟨c', hReceive, hLeft⟩ := receive_last h extensions strm hRest
  refine ⟨c', ?_, hLeft⟩
  rw [receiveLoop, hReceive]
  rfl

theorem receiveLoop_data {c : PPTConnection} (h : c.Ready) (extensions : Extensions) {buffer more : Bytes}
    (hSize : buffer.length ≤ MAX_SIZE) {fuel : Nat} (hFuel : 2 ≤ fuel)
    (hRest : c.sock.rest = (if buffer.isEmpty then chunkHeader .data 0 else chunk .data buffer ++
      chunkHeader .data 0) ++ more) :
    ∃ c', receiveLoop fuel c extensions [] = .ok (extensions, buffer, c') ∧ Left c more c' := by
  cases buffer with
  | nil => exact receiveLoop_last h extensions [] (by omega) hRest
  | cons b bs =>
    obtain ⟨fuel, rfl⟩ := Nat.exists_eq_add_one.mpr (Nat.zero_lt_of_lt hFuel)
    rw [if_neg (by simp), List.append_assoc] at hRest
    obtain ⟨c₁, hReceive, hLeft⟩ := receive_data h extensions [] (List.cons_ne_nil b bs) hSize hRest
    obtain ⟨c₂, hLoop, hLast⟩ := receiveLoop_last hLeft.2.1 extensions (b :: bs)
        (Nat.le_of_succ_le_succ hFuel) hLeft.2.2
    refine ⟨c₂, ?_, hLeft.trans hLast⟩
    rw [receiveLoop, hReceive]
    exact hLoop

/-- A message's bytes: what its extensions, its data and its end are sent as. -/
theorem sent_eq (m : Message) :
    m.sent = (if m.extensions.pairs.isEmpty then [] else chunk .extension m.extensions.text) ++
      (if m.buffer.isEmpty then chunkHeader .data 0 else chunk .data m.buffer ++ chunkHeader .data 0) := by
  rw [Message.sent, send]
  split
  · rw [sendChunk, List.append_nil]
    rfl
  · rw [sendChunk, sendChunk, List.append_assoc, List.append_nil]
    rfl

theorem receiveMessage_sent {m : Message} (h : m.WellFormed) (hFits : m.Fits) {c : PPTConnection} (hReady : c.Ready)
    {more : Bytes} (hRest : c.sock.rest = m.sent ++ more) :
    ∃ c', receiveMessage c = .ok (m.extensions, m.buffer, c') ∧ Left c more c' := by
  have hFuel : 3 ≤ c.sock.rest.length + 1 := by
    have hLast := chunkHeader_length .data (Nat.zero_le MAX_SIZE)
    have hData : 8 ≤ (if m.buffer.isEmpty then chunkHeader .data 0 else chunk .data m.buffer ++
        chunkHeader .data 0).length := by
      split
      · exact hLast.ge
      · rw [List.length_append]
        omega
    rw [hRest, sent_eq, List.length_append, List.length_append]
    omega
  rw [sent_eq, List.append_assoc] at hRest
  rw [receiveMessage]
  cases hPairs : m.extensions.pairs with
  | nil =>
    have hEmpty : m.extensions = .empty := Extensions.ext hPairs
    rw [hPairs] at hRest
    rw [hEmpty]
    exact receiveLoop_data hReady .empty h.data (by omega) hRest
  | cons p ps =>
    obtain ⟨fuel, hFuelEq⟩ := Nat.exists_eq_add_one.mpr (Nat.zero_lt_of_lt hFuel)
    rw [if_neg (by simp [hPairs])] at hRest
    obtain ⟨c₁, hReceive, hLeft⟩ := receive_extensions hReady [] h.pairs (by simp [hPairs]) hFits hRest
    have hLess : 2 ≤ fuel := by omega
    obtain ⟨c₂, hLoop, hData⟩ := receiveLoop_data hLeft.2.1 m.extensions h.data hLess hLeft.2.2
    refine ⟨c₂, ?_, hLeft.trans hData⟩
    rw [hFuelEq, receiveLoop, hReceive]
    exact hLoop

/-- Message by message, the receiver gets what was sent, and each message ends where its bytes end. -/
theorem messages_received {ms : List Message} (h : ∀ m ∈ ms, m.WellFormed ∧ m.Fits) {c : PPTConnection}
    (hReady : c.Ready) {more : Bytes} (hRest : c.sock.rest = ms.flatMap Message.sent ++ more) :
    ∃ c', receiveMessages ms.length c = .ok (ms.map fun m => (m.buffer, m.extensions), c') ∧ c'.sock.rest = more := by
  induction ms generalizing c with
  | nil => exact ⟨c, rfl, hRest⟩
  | cons m ms ih =>
    rw [List.forall_mem_cons] at h
    rw [List.flatMap_cons, List.append_assoc] at hRest
    obtain ⟨c₁, hFirst, hLeft⟩ := receiveMessage_sent h.1.1 h.1.2 hReady hRest
    obtain ⟨c₂, hMore, hEnd⟩ := ih h.2 hLeft.2.1 hLeft.2.2
    refine ⟨c₂, ?_, hEnd⟩
    rw [List.length_cons, receiveMessages, hFirst, ok_bind]
    simp only [hMore, ok_bind, List.map_cons]

def onePair (value : Bytes) : Extensions := ⟨[([97], value)], List.pairwise_singleton _ _⟩

def twoMessages : List Message := [⟨[1, 2], onePair [98]⟩, ⟨[], .empty⟩]

/-- The messages arrive byte by byte. -/
def byteByByte (ms : List Message) : PPTConnection := ⟨none, 7, ⟨ms.flatMap Message.sent, fun _ => 0⟩⟩

theorem byteByByte_ready (ms : List Message) : (byteByByte ms).Ready := by
  have hRoom : ((7 : Nat) : Int) + 2 ≤ INT_MAX := by decide
  exact ⟨Nat.le_refl 7, hRoom, Or.inl rfl⟩

theorem twoMessages_plain : ∀ m ∈ twoMessages, m.WellFormed ∧ m.Fits := by
  have hFirst : (Message.mk [1, 2] (onePair [98])).WellFormed := by
    refine ⟨by decide, ?_⟩
    intro p hp
    rw [List.mem_singleton.mp hp]
    exact ⟨by decide, by decide, by decide, by decide⟩
  rw [twoMessages, List.forall_mem_cons, List.forall_mem_singleton]
  refine ⟨⟨hFirst, ?_⟩, ⟨Nat.zero_le _, ?_⟩, Nat.zero_le _⟩
  · rw [Message.Fits]
    decide
  · rintro p ⟨⟩

theorem twoMessages_received :
    ∃ c', receiveMessages twoMessages.length (byteByByte twoMessages) =
      .ok ([([1, 2], onePair [98]), ([], .empty)], c') ∧ c'.sock.rest = [] :=
  messages_received twoMessages_plain (byteByByte_ready twoMessages) (List.append_nil _).symm

theorem onePair_length {value : Bytes} (h : value ≠ []) : (onePair value).text.length = value.length + 3 := by
  have hSome : value.isEmpty = false := by simpa using h
  simp [onePair, Extensions.text, pairText, hSome]

theorem onePair_sent {value : Bytes} (h : value.length = 268435453) :
    ∃ tail, (Message.mk [] (onePair value)).sent = ofText "10000000".toList ++ tail := by
  have hNe : value ≠ [] := by
    rintro rfl
    cases h
  have hHex : hex7 268435456 = "10000000".toList := by decide
  rw [sent_eq, if_neg (by simp [onePair]), chunk, onePair_length hNe, h, chunkHeader_eq, hHex, List.append_assoc,
    List.append_assoc]
  exact ⟨_, rfl⟩

/-- With eight digits the last one is taken for the type. -/
theorem receive_eight_digits {c : PPTConnection} (h : c.Ready) {tail : Bytes}
    (hRest : c.sock.rest = ofText "10000000".toList ++ tail) (extensions : Extensions) (strm : Bytes) :
    receive c extensions strm = .error (typeError 48) := by
  have hRoom := h.header
  have hLength : (ofText "10000000".toList).length = 8 := by decide
  have hEnough : 8 ≤ c.sock.rest.length := by
    rw [hRest, List.length_append, hLength]
    omega
  obtain ⟨hTake, -⟩ := Feed.readUpTo_enough (Nat.succ_ne_zero 7) (Nat.le_refl 8) hEnough
  rw [hRest, List.take_append_of_le_length hLength.ge, List.take_of_length_le hLength.le] at hTake
  have hHeader : readChunkHeader (c.recvBufferSize + 1) c.sock =
      .ok (ofText "10000000".toList, (c.sock.readUpTo 8 8 8).2) := by
    rw [readChunkHeader, if_neg (by omega), if_neg (by rw [hTake, hLength]; decide)]
    exact congrArg Except.ok (Prod.ext hTake rfl)
  rw [receive, bufferLength_ready h]
  simp only [ok_bind, hHeader]
  rfl

/-- The length of the extensions' text takes eight digits. -/
theorem long_extension_refused :
    ¬ ∀ (ms : List Message) (c : PPTConnection), (∀ m ∈ ms, m.WellFormed) → c.Ready →
      c.sock.rest = ms.flatMap Message.sent →
        ∃ c', receiveMessages ms.length c = .ok (ms.map fun m => (m.buffer, m.extensions), c') ∧ c'.sock.rest = [] := by
  intro h
  obtain ⟨value, hLength, hValue⟩ : ∃ value : Bytes, value.length = 268435453 ∧ semicolon ∉ value :=
    ⟨List.replicate 268435453 98, List.length_replicate, fun hMem => absurd (List.eq_of_mem_replicate hMem) (by decide)⟩
  obtain ⟨tail, hSent⟩ := onePair_sent hLength
  have hWell : ∀ m ∈ [Message.mk [] (onePair value)], m.WellFormed := by
    intro m hm
    rw [List.mem_singleton.mp hm]
    refine ⟨Nat.zero_le _, ?_⟩
    intro p hp
    rw [List.mem_singleton.mp hp]
    have hName : equals ∉ [97] ∧ semicolon ∉ [97] := by decide
    exact ⟨List.cons_ne_nil _ _, hName.1, hName.2, hValue⟩
  have hReady : PPTConnection.Ready ⟨some 8, 7, ⟨ofText "10000000".toList ++ tail, fun _ => 0⟩⟩ := by
    have hRoom : ((7 : Nat) : Int) + 2 ≤ INT_MAX := by decide
    exact ⟨Nat.le_refl 7, hRoom, Or.inr rfl⟩
  have hRest : [Message.mk [] (onePair value)].flatMap Message.sent = ofText "10000000".toList ++ tail := by
    rw [List.flatMap_singleton, hSent]
  obtain ⟨c', hRun, -⟩ := h [Message.mk [] (onePair value)] _ hWell hReady hRest.symm
  rw [List.length_singleton, receiveMessages, receiveMessage, receiveLoop, receive_eight_digits hReady rfl] at hRun
  cases hRun

end Libdap.Ppt
