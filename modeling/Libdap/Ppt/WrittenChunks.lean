import Libdap.Ppt.ChunkedOutputStream

/-! # What is written is in the chunks

The chunks on the underlying stream and the bytes in the cache are what was written, as long as the type
is not changed over bytes that are still in the cache.
-/

namespace Libdap.Ppt
open Core Constraint
set_option autoImplicit false

/-- With these chunks and what the cache still has, `history` was written. -/
structure Written (n : Nat) (s : ChunkedOutputStream) (history : List ChunkEvent) (chunks : List (ChunkType × Bytes)) :
    Prop where
  wire : s.rawOS = chunks.flatMap fun k => chunk k.1 k.2
  readable : ∀ k ∈ chunks, Readable k
  events : chunks.flatMap chunkEvents ++ s.cache.map (.byte s.currentChunkType) = history
  size : s.cacheLength = n
  room : s.cache.length < n
  limit : n ≤ MAX_SIZE

/-- The cache and some more bytes as a chunk. -/
def ChunkedOutputStream.pushed (s : ChunkedOutputStream) (bytes : Bytes) : ChunkedOutputStream :=
  { s with rawOS := s.rawOS ++ chunk s.currentChunkType (s.cache ++ bytes), cache := [] }

namespace Written

variable {n : Nat} {s : ChunkedOutputStream} {history : List ChunkEvent} {chunks : List (ChunkType × Bytes)}

theorem pushed (h : Written n s history chunks) {bytes : Bytes} (hSome : s.cache ++ bytes ≠ [])
    (hSize : (s.cache ++ bytes).length ≤ MAX_SIZE) :
    Written n (s.pushed bytes) (history ++ bytes.map (.byte s.currentChunkType))
      (chunks ++ [(s.currentChunkType, s.cache ++ bytes)]) := by
  refine ⟨?_, ?_, ?_, h.size, Nat.zero_lt_of_lt h.room, h.limit⟩
  · rw [ChunkedOutputStream.pushed, h.wire, List.flatMap_append, List.flatMap_singleton]
  · intro k hk
    rcases List.mem_append.mp hk with hOld | hNew
    · exact h.readable k hOld
    · rw [List.mem_singleton.mp hNew]
      exact ⟨hSize, fun _ => hSome⟩
  · have hEvents : chunkEvents (s.currentChunkType, s.cache ++ bytes) = (s.cache ++ bytes).map
        (.byte s.currentChunkType) :=
      if_neg (by simpa using hSome)
    rw [List.flatMap_append, List.flatMap_singleton, hEvents, ← h.events, List.map_append]
    simp [ChunkedOutputStream.pushed]

theorem cached (h : Written n s history chunks) {bytes : Bytes} (hRoom : (s.cache ++ bytes).length < n) :
    Written n { s with cache := s.cache ++ bytes } (history ++ bytes.map (.byte s.currentChunkType)) chunks := by
  refine ⟨h.wire, h.readable, ?_, h.size, hRoom, h.limit⟩
  rw [← h.events, List.map_append, List.append_assoc]

theorem closed (h : Written n s history chunks) (hEmpty : s.cache = []) :
    Written n { s with rawOS := s.rawOS ++ chunk .data [] } (history ++ [.empty .data]) (chunks ++ [(.data, [])]) := by
  refine ⟨?_, ?_, ?_, h.size, h.room, h.limit⟩
  · rw [h.wire, List.flatMap_append, List.flatMap_singleton]
  · intro k hk
    rcases List.mem_append.mp hk with hOld | hNew
    · exact h.readable k hOld
    · rw [List.mem_singleton.mp hNew]
      exact ⟨Nat.zero_le _, nofun⟩
  · rw [← h.events, hEmpty, List.flatMap_append]
    simp [chunkEvents]

end Written

/-! ## What the calls do -/

namespace ChunkedOutputStream

variable {s : ChunkedOutputStream}

theorem get_bind {α : Type} (f : ChunkedOutputStream → StreamCall α) : (get >>= f) s = f s s :=
  bind_of_ok rfl

theorem ensureOpen_open (h : s.isOpen = true) : ensureOpen s = .ok () s := by
  rw [ensureOpen, ChunkedOutputStream.get_bind, h]
  rfl

theorem ensureOpen_bind_closed {α : Type} (h : s.isOpen = false) (f : Unit → StreamCall α) :
    (ensureOpen >>= f) s = .error (.IOException closedMsg) s := by
  apply bind_of_error
  rw [ensureOpen, ChunkedOutputStream.get_bind, h]
  rfl

theorem writeChunkHeader_small {k : Nat} (h : k ≤ MAX_SIZE) (type : ChunkType) :
    writeChunkHeader k type s = .ok () { s with rawOS := s.rawOS ++ chunkHeader type k } := by
  have hMask : ((k : Int) % 268435456).toNat = k := by
    rw [MAX_SIZE] at h
    omega
  rw [writeChunkHeader, if_neg (by omega), hMask]
  rfl

theorem slice_inside {b : Bytes} {i k : Nat} (h : i + k ≤ b.length) :
    slice b i k = some ((b.drop i).take k) := by
  rw [slice, if_pos (by omega), Int.toNat_natCast, Int.toNat_natCast]

theorem flushCache_empty (hOpen : s.isOpen = true) (h : s.cache = []) : flushCache s = .ok () s := by
  rw [flushCache, bind_of_ok (ensureOpen_open hOpen), ChunkedOutputStream.get_bind, h]
  rfl

theorem flushCache_some (hOpen : s.isOpen = true) (hSome : s.cache ≠ []) (hSize : s.cache.length ≤ MAX_SIZE) :
    flushCache s = .ok () (s.pushed []) := by
  have hPositive := List.length_pos_iff.mpr hSome
  rw [flushCache, bind_of_ok (ensureOpen_open hOpen), ChunkedOutputStream.get_bind, if_pos hPositive,
    bind_of_ok (writeChunkHeader_small hSize _)]
  simp only [pushed, chunk, List.append_nil, ← List.append_assoc]
  rfl

theorem flushCacheWithAppend_small {b : Bytes} {i k : Nat} (hOpen : s.isOpen = true) (hInside : i + k ≤ b.length)
    (hSize : s.cache.length + k ≤ MAX_SIZE) (depth : Nat) :
    flushCacheWithAppend (depth + 1) b i k s = .ok () (s.pushed ((b.drop i).take k)) := by
  have hSum : int32 ((s.cache.length : Int) + (k : Int)) = ((s.cache.length + k : Nat) : Int) := by
    rw [int32_of_bounds (by omega)]
    · rw [Nat.cast_add]
    · rw [MAX_SIZE] at hSize
      rw [INT_MAX]
      omega
  have hLength : s.cache.length + k = (s.cache ++ (b.drop i).take k).length := by
    rw [List.length_append, List.length_take, List.length_drop]
    omega
  have hSmall : ¬ ((s.cache.length + k : Nat) : Int) > (MAX_SIZE : Int) := by omega
  rw [flushCacheWithAppend, bind_of_ok (ensureOpen_open hOpen), ChunkedOutputStream.get_bind]
  simp only [hSum]
  rw [if_neg hSmall, bind_of_ok (writeChunkHeader_small hSize _)]
  simp only [writeSlice, slice_inside hInside, pushed, chunk, ← hLength, ← List.append_assoc]
  rfl

theorem take_part {b : Bytes} {i k m : Nat} (h : k ≤ m) :
    (b.drop i).take k ++ (b.drop (i + k)).take (m - k) = (b.drop i).take m := by
  have hSum : m = k + (m - k) := by omega
  conv => rhs; rw [hSum, List.take_add, List.drop_drop]

/-- The loop writes out what is left of the array, `len` bytes of it with the cache. -/
theorem pushOut_written {b : Bytes} (hArray : (b.length : Int) ≤ INT_MAX) (depth : Nat) {n : Nat} {fuel m i len : Nat}
    {history : List ChunkEvent} {chunks : List (ChunkType × Bytes)} (h : Written n s history chunks)
    (hOpen : s.isOpen = true) (hInside : i + m ≤ b.length) (hLen : len ≤ m) (hSome : m ≠ 0 → len ≠ 0)
    (hFit : s.cache.length + len ≤ MAX_SIZE) (hFuel : m < fuel) :
    ∃ s' chunks', pushOut (flushCacheWithAppend (depth + 1) b) fuel m i len s = .ok () s' ∧
      Written n s' (history ++ ((b.drop i).take m).map (.byte s.currentChunkType)) chunks' := by
  induction fuel generalizing s m i len history chunks with
  | zero => cases hFuel
  | succ fuel ih =>
    cases m with
    | zero =>
      obtain rfl := Nat.le_zero.mp hLen
      refine ⟨s, chunks, rfl, ?_⟩
      rw [List.take_zero, List.map_nil, List.append_nil]
      exact h
    | succ m =>
      have hPositive : len ≠ 0 := hSome (Nat.succ_ne_zero m)
      have hPart : ((b.drop i).take len).length = len := by
        rw [List.length_take, List.length_drop]
        omega
      have hInside' : i + len + (m + 1 - len) ≤ b.length := by omega
      have hInsideFirst : i + len ≤ b.length := by omega
      have hFuel' : m + 1 - len < fuel := by omega
      have hNext : int32 (((m + 1 : Nat) : Int) - (len : Int)) = ((m + 1 - len : Nat) : Int) := by
        rw [int32_of_bounds] <;> omega
      have hOff : int32 ((i : Int) + (len : Int)) = ((i + len : Nat) : Int) := by
        rw [int32_of_bounds] <;> omega
      have hCount : (if ((m + 1 - len : Nat) : Int) > (MAX_SIZE : Int) then (MAX_SIZE : Int)
          else ((m + 1 - len : Nat) : Int)) =
          ((min (m + 1 - len) MAX_SIZE : Nat) : Int) := by
        split <;> omega
      have hPushed : Written n (s.pushed ((b.drop i).take len))
          (history ++ ((b.drop i).take len).map (.byte s.currentChunkType))
          (chunks ++ [(s.currentChunkType, s.cache ++ (b.drop i).take len)]) := by
        apply h.pushed
        · apply List.ne_nil_of_length_pos
          rw [List.length_append, hPart]
          omega
        · rw [List.length_append, hPart]
          exact hFit
      have hMax : 0 < MAX_SIZE := by decide
      have hSome' : m + 1 - len ≠ 0 → min (m + 1 - len) MAX_SIZE ≠ 0 := by
        intro hMore
        exact (Nat.lt_min.mpr ⟨Nat.pos_of_ne_zero hMore, hMax⟩).ne'
      have hFit' : (s.pushed ((b.drop i).take len)).cache.length + min (m + 1 - len) MAX_SIZE ≤ MAX_SIZE := by
        rw [pushed, List.length_nil, Nat.zero_add]
        exact Nat.min_le_right _ _
      obtain ⟨s', chunks', hRun, hWritten⟩ :=
        ih hPushed hOpen hInside' (Nat.min_le_left _ MAX_SIZE) hSome' hFit' hFuel'
      refine ⟨s', chunks', ?_, ?_⟩
      · rw [pushOut, if_pos (Int.natCast_pos.mpr (Nat.pos_of_ne_zero hPositive)),
          bind_of_ok (flushCacheWithAppend_small hOpen hInsideFirst hFit depth)]
        simp only [hNext, hOff, hCount]
        exact hRun
      · rw [List.append_assoc, pushed, ← List.map_append, take_part hLen] at hWritten
        exact hWritten

theorem flushCacheWithAppend_written {b : Bytes} (hArray : (b.length : Int) ≤ INT_MAX) {n i k : Nat}
    {history : List ChunkEvent} {chunks : List (ChunkType × Bytes)} (h : Written n s history chunks)
    (hOpen : s.isOpen = true) (hInside : i + k ≤ b.length) (hFull : n ≤ s.cache.length + k)
    (hSum : ((s.cache.length + k : Nat) : Int) ≤ INT_MAX) :
    ∃ s' chunks', flushCacheWithAppend 2 b i k s = .ok () s' ∧
      Written n s' (history ++ ((b.drop i).take k).map (.byte s.currentChunkType)) chunks' := by
  have hRoom := h.room
  by_cases hSize : s.cache.length + k ≤ MAX_SIZE
  · refine ⟨_, _, flushCacheWithAppend_small hOpen hInside hSize 1, h.pushed ?_ ?_⟩
    · apply List.ne_nil_of_length_pos
      rw [List.length_append, List.length_take, List.length_drop]
      omega
    · rw [List.length_append, List.length_take, List.length_drop]
      omega
  · have hLimit := h.limit
    have hSame : int32 ((s.cache.length : Int) + (k : Int)) = ((s.cache.length + k : Nat) : Int) := by
      rw [int32_of_bounds] <;> omega
    have hFirst : int32 ((MAX_SIZE : Int) - (s.cache.length : Int)) = ((MAX_SIZE - s.cache.length : Nat) : Int) := by
      have hMax : (MAX_SIZE : Int) ≤ INT_MAX := by decide
      rw [int32_of_bounds] <;> omega
    have hLess : MAX_SIZE - s.cache.length ≤ k := by omega
    have hSome : k ≠ 0 → MAX_SIZE - s.cache.length ≠ 0 := by omega
    have hFit : s.cache.length + (MAX_SIZE - s.cache.length) ≤ MAX_SIZE := by omega
    obtain ⟨s', chunks', hRun, hWritten⟩ := pushOut_written hArray 0 h hOpen hInside hLess hSome hFit
        (Nat.lt_succ_self k)
    refine ⟨s', chunks', ?_, hWritten⟩
    rw [flushCacheWithAppend, bind_of_ok (ensureOpen_open hOpen), ChunkedOutputStream.get_bind]
    simp only [hSame, hFirst, Int.toNat_natCast]
    rw [if_pos (by omega)]
    exact hRun

end ChunkedOutputStream

/-! ## Every sequence of calls -/

/-- The type is not changed while bytes are in the cache. With the cache, a part of an array is as long as an
`int` can say, and what is no part of it is refused before anything goes out. -/
def StreamOp.Allowed (s : ChunkedOutputStream) : StreamOp → Prop
  | .writeArray b off len =>
    if 0 ≤ off ∧ 0 ≤ len ∧ off + len ≤ b.bytes.length then s.cache.length + len ≤ INT_MAX
    else int32 (off + len) > b.bytes.length ∨ int32 (s.cache.length + len) < s.cacheLength
  | .setChunkType type =>
    s.cache = [] ∨ type = s.currentChunkType.letter.toNat ∨
      (type ≠ ChunkType.data.letter.toNat ∧ type ≠ ChunkType.extension.letter.toNat)
  | _ => True

instance (s : ChunkedOutputStream) : (o : StreamOp) → Decidable (o.Allowed s)
  | .writeArray b off len =>
    inferInstanceAs (Decidable (if 0 ≤ off ∧ 0 ≤ len ∧ off + len ≤ b.bytes.length then s.cache.length + len ≤ INT_MAX
      else int32 (off + len) > b.bytes.length ∨ int32 (s.cache.length + len) < s.cacheLength))
  | .setChunkType type =>
    inferInstanceAs (Decidable (s.cache = [] ∨ type = s.currentChunkType.letter.toNat ∨
      (type ≠ ChunkType.data.letter.toNat ∧ type ≠ ChunkType.extension.letter.toNat)))
  | .write _ => isTrue trivial
  | .flushCache => isTrue trivial
  | .finish => isTrue trivial
  | .close => isTrue trivial

def AllAllowed : ChunkedOutputStream → List StreamOp → Prop
  | _, [] => True
  | s, o :: os => o.Allowed s ∧ match o.call s with
    | .ok _ s' => AllAllowed s' os
    | .error _ s' => AllAllowed s' os

/-- A call that returns adds what it means, and one that throws adds nothing. -/
def Adds (n : Nat) (history event : List ChunkEvent) : EStateM.Result WriteFault ChunkedOutputStream Unit → Prop
  | .ok _ s' => ∃ chunks, Written n s' (history ++ event) chunks
  | .error _ s' => ∃ chunks, Written n s' history chunks

namespace Written

open ChunkedOutputStream

variable {n : Nat} {s : ChunkedOutputStream} {history : List ChunkEvent} {chunks : List (ChunkType × Bytes)}

theorem unchanged (h : Written n s history chunks) (hClosed : s.isOpen = false) (f : Unit → StreamCall Unit)
    (event : List ChunkEvent) : Adds n history event ((ensureOpen >>= f) s) := by
  rw [ensureOpen_bind_closed hClosed]
  exact ⟨chunks, h⟩

theorem flushed (h : Written n s history chunks) (hOpen : s.isOpen = true) :
    ∃ s' chunks', flushCache s = .ok () s' ∧ Written n s' history chunks' ∧ s'.cache = [] ∧ s'.isOpen = true := by
  by_cases hEmpty : s.cache = []
  · exact ⟨s, chunks, flushCache_empty hOpen hEmpty, h, hEmpty, hOpen⟩
  · have hSize : s.cache.length ≤ MAX_SIZE := h.room.le.trans h.limit
    have hSome : s.cache ++ [] ≠ [] := by rwa [List.append_nil]
    have hPushed := h.pushed hSome (by rwa [List.append_nil])
    rw [List.map_nil, List.append_nil] at hPushed
    exact ⟨_, _, flushCache_some hOpen hEmpty hSize, hPushed, rfl, hOpen⟩

theorem finished (h : Written n s history chunks) (hOpen : s.isOpen = true) :
    ∃ s' chunks', finish s = .ok () s' ∧ Written n s' (history ++ [.empty .data]) chunks' := by
  obtain ⟨s', chunks', hFlush, hWritten, hEmpty, -⟩ := h.flushed hOpen
  have hClosing : ofText "0000000d".toList = chunk .data [] := by decide
  refine ⟨_, _, ?_, hWritten.closed hEmpty⟩
  rw [finish, bind_of_ok (ensureOpen_open hOpen), bind_of_ok hFlush, writeClosingChunkHeader, hClosing]
  rfl

theorem write (h : Written n s history chunks) (b : Int) :
    Adds n history ((StreamOp.write b).written s.currentChunkType) (ChunkedOutputStream.write b s) := by
  cases hOpen : s.isOpen with
  | false => exact h.unchanged hOpen _ _
  | true =>
    have hRoom := h.room
    have hSize := h.size
    rw [ChunkedOutputStream.write, bind_of_ok (ensureOpen_open hOpen), ChunkedOutputStream.get_bind, if_neg (by omega)]
    have hSet : ∀ (s' : ChunkedOutputStream) (f : Unit → StreamCall Unit), (set s' >>= f) s = f () s' :=
      fun _ _ => bind_of_ok rfl
    rw [hSet, ChunkedOutputStream.get_bind]
    have hLength : (s.cache ++ [UInt8.ofNat (b % 256).toNat]).length = s.cache.length + 1 := List.length_append
    split
    · have hSome : s.cache ++ [UInt8.ofNat (b % 256).toNat] ≠ [] := by simp
      have hLimit : (s.cache ++ [UInt8.ofNat (b % 256).toNat]).length ≤ MAX_SIZE := by
        rw [hLength]
        exact Nat.le_trans hRoom h.limit
      have hPushed := h.pushed hSome hLimit
      rw [flushCache_some (s := { s with cache := s.cache ++ [UInt8.ofNat (b % 256).toNat] }) hOpen hSome hLimit]
      simp only [ChunkedOutputStream.pushed, List.append_nil]
      exact ⟨_, hPushed⟩
    · rename_i hLess
      refine ⟨chunks, h.cached ?_⟩
      rw [hLength]
      simp only [hLength] at hLess
      omega

theorem writeArray (h : Written n s history chunks) {b : JavaArray} {off len : Int}
    (hAllowed : (StreamOp.writeArray b off len).Allowed s) :
    Adds n history ((StreamOp.writeArray b off len).written s.currentChunkType)
      (ChunkedOutputStream.writeArray b.bytes off len s) := by
  cases hOpen : s.isOpen with
  | false => exact h.unchanged hOpen _ _
  | true =>
    rw [ChunkedOutputStream.writeArray, bind_of_ok (ensureOpen_open hOpen)]
    rw [StreamOp.Allowed] at hAllowed
    split at hAllowed
    · rename_i hPartOf
      obtain ⟨hOff, hLen, hInside⟩ := hPartOf
      obtain ⟨i, rfl⟩ := Int.eq_ofNat_of_zero_le hOff
      obtain ⟨k, rfl⟩ := Int.eq_ofNat_of_zero_le hLen
      have hArray := b.length_le
      have hRoom := h.room
      have hSize := h.size
      have hBounds : int32 ((i : Int) + (k : Int)) = ((i + k : Nat) : Int) := by
        rw [int32_of_bounds] <;> omega
      have hSame : int32 ((s.cache.length : Int) + (k : Int)) = ((s.cache.length + k : Nat) : Int) := by
        rw [int32_of_bounds] <;> omega
      have hPart : ((b.bytes.drop i).take k).length = k := by
        rw [List.length_take, List.length_drop]
        omega
      rw [hBounds, if_neg (by omega), ChunkedOutputStream.get_bind, hSame, StreamOp.written, Int.toNat_natCast,
        Int.toNat_natCast]
      split
      · rename_i hFits
        have hCached : (s.cache ++ (b.bytes.drop i).take k).length < n := by
          rw [List.length_append, hPart]
          omega
        rw [arraycopy, ChunkedOutputStream.get_bind, slice_inside (by omega)]
        simp only
        rw [if_neg (by rw [hPart]; omega)]
        exact ⟨chunks, h.cached hCached⟩
      · obtain ⟨s', chunks', hRun, hWritten⟩ :=
          flushCacheWithAppend_written hArray h hOpen (i := i) (k := k) (by omega) (by omega) (by omega)
        rw [hRun]
        exact ⟨chunks', hWritten⟩
    · rename_i hNoPart
      split
      · exact ⟨chunks, h⟩
      · rename_i hPassed
        rcases hAllowed with hRefused | hFits
        · exact absurd hRefused hPassed
        · rw [ChunkedOutputStream.get_bind, if_pos hFits, arraycopy, ChunkedOutputStream.get_bind, slice,
            if_neg hNoPart]
          exact ⟨chunks, h⟩

theorem setChunkType (h : Written n s history chunks) {type : Int} (hAllowed : (StreamOp.setChunkType type).Allowed s) :
    Adds n history [] (ChunkedOutputStream.setChunkType type s) := by
  rw [ChunkedOutputStream.setChunkType]
  have hSet : ∀ t : ChunkType, s.cache = [] ∨ t = s.currentChunkType →
      Adds n history [] ((modify fun s => { s with currentChunkType := t } : StreamCall Unit) s) := by
    intro t ht
    refine ⟨chunks, h.wire, h.readable, ?_, h.size, h.room, h.limit⟩
    rw [List.append_nil, ← h.events]
    rcases ht with hEmpty | rfl
    · simp [hEmpty]
    · rfl
  split
  · rename_i hData
    apply hSet
    rcases hAllowed with hEmpty | hSame | ⟨hNot, -⟩
    · exact Or.inl hEmpty
    · refine Or.inr ?_
      cases hType : s.currentChunkType with
      | data => rfl
      | extension =>
        rw [hType, hData] at hSame
        exact absurd hSame (by decide)
    · exact absurd hData hNot
  · split
    · rename_i hExtension
      apply hSet
      rcases hAllowed with hEmpty | hSame | ⟨-, hNot⟩
      · exact Or.inl hEmpty
      · refine Or.inr ?_
        cases hType : s.currentChunkType with
        | extension => rfl
        | data =>
          rw [hType, hExtension] at hSame
          exact absurd hSame (by decide)
      · exact absurd hExtension hNot
    · exact ⟨chunks, h⟩

/-- What one call does. -/
theorem call (h : Written n s history chunks) {o : StreamOp} (hAllowed : o.Allowed s) :
    Adds n history (o.written s.currentChunkType) (o.call s) := by
  cases o with
  | write b => exact h.write b
  | writeArray b off len => exact h.writeArray hAllowed
  | setChunkType type => exact h.setChunkType hAllowed
  | flushCache =>
    cases hOpen : s.isOpen with
    | false => exact h.unchanged hOpen _ _
    | true =>
      obtain ⟨s', chunks', hFlush, hWritten, -⟩ := h.flushed hOpen
      rw [StreamOp.call, hFlush, StreamOp.written]
      exact ⟨chunks', (List.append_nil history).symm ▸ hWritten⟩
  | finish =>
    cases hOpen : s.isOpen with
    | false => exact h.unchanged hOpen _ _
    | true =>
      obtain ⟨s', chunks', hFinish, hWritten⟩ := h.finished hOpen
      rw [StreamOp.call, hFinish]
      exact ⟨chunks', hWritten⟩
  | close =>
    cases hOpen : s.isOpen with
    | false =>
      have hFinish : finish s = .error (.IOException closedMsg) s := ensureOpen_bind_closed hOpen _
      rw [StreamOp.call, ChunkedOutputStream.close, bind_of_error hFinish]
      exact ⟨chunks, h⟩
    | true =>
      obtain ⟨s', chunks', hFinish, hWritten⟩ := h.finished hOpen
      rw [StreamOp.call, ChunkedOutputStream.close, bind_of_ok hFinish]
      exact ⟨chunks', hWritten.wire, hWritten.readable, hWritten.events, hWritten.size, hWritten.room, hWritten.limit⟩

theorem runCalls (h : Written n s history chunks) {os : List StreamOp} (hAllowed : AllAllowed s os) :
    ∃ chunks', Written n (runCalls s os).1 (history ++ (runCalls s os).2) chunks' := by
  induction os generalizing s history chunks with
  | nil =>
    rw [Ppt.runCalls, List.append_nil]
    exact ⟨chunks, h⟩
  | cons o os ih =>
    obtain ⟨hFirst, hRest⟩ := hAllowed
    have hAdds := h.call hFirst
    rw [Ppt.runCalls]
    cases hCall : o.call s with
    | ok u s' =>
      rw [hCall] at hAdds hRest
      obtain ⟨chunks', hWritten⟩ := hAdds
      simp only [← List.append_assoc]
      exact ih hWritten hRest
    | error f s' =>
      rw [hCall] at hAdds hRest
      obtain ⟨chunks', hWritten⟩ := hAdds
      exact ih hWritten hRest

end Written

theorem new_written {n : Nat} (hSize : 1 ≤ n) {s : ChunkedOutputStream} (hNew : ChunkedOutputStream.new n = .ok s) :
    Written n s [] [] := by
  rw [ChunkedOutputStream.new] at hNew
  split at hNew
  · cases hNew
  · rename_i hLimit
    cases hNew
    exact ⟨rfl, nofun, rfl, rfl, hSize, Nat.le_of_not_gt hLimit⟩

/-- Each chunk has a header at least. -/
theorem chunks_length (ks : List (ChunkType × Bytes)) (hks : ∀ k ∈ ks, Readable k) :
    ks.length ≤ (ks.flatMap fun k => chunk k.1 k.2).length := by
  induction ks with
  | nil => exact Nat.le_refl 0
  | cons k ks ih =>
    rw [List.forall_mem_cons] at hks
    have hLength := chunk_length k.1 hks.1.size
    have hRest := ih hks.2
    rw [List.flatMap_cons, List.length_append, List.length_cons]
    omega

/-- After calls that are all allowed, the receiver's chunks and the cache are what was written, and the cache
has room. -/
theorem written_read {n : Nat} (hSize : 1 ≤ n) {s : ChunkedOutputStream} (hNew : ChunkedOutputStream.new n = .ok s)
    {os : List StreamOp} (hAllowed : AllAllowed s os) {c : PPTConnection} (hReady : c.Ready)
    (hRest : c.sock.rest = (runCalls s os).1.rawOS) :
    ∃ chunks, receiveChunks (c.sock.rest.length + 1) c = .ok chunks ∧
      chunks.flatMap chunkEvents ++ (runCalls s os).1.cache.map (.byte (runCalls s os).1.currentChunkType) =
        (runCalls s os).2 ∧
      (runCalls s os).1.cache.length < n := by
  obtain ⟨chunks, hWritten⟩ := (new_written hSize hNew).runCalls hAllowed
  have hWire := hRest.trans hWritten.wire
  refine ⟨chunks, receiveChunks_chunks hWritten.readable hReady hWire ?_, hWritten.events, hWritten.room⟩
  rw [hWire]
  exact Nat.lt_succ_of_le (chunks_length chunks hWritten.readable)

def someArray : JavaArray := ⟨[1, 2, 3], by decide⟩

def someCalls : List StreamOp :=
  [.write 7, .writeArray someArray 1 2, .finish, .setChunkType 120, .writeArray someArray 0 1, .flushCache, .close]

def someWire : Bytes :=
  chunk .data [7, 2, 3] ++ chunk .data [] ++ chunk .extension [1] ++ chunk .data []

theorem someCalls_read :
    ∃ chunks, receiveChunks (someWire.length + 1) ⟨none, 7, ⟨someWire, fun _ => 0⟩⟩ = .ok chunks ∧
      chunks.flatMap chunkEvents ++ [] =
        [.byte .data 7, .byte .data 2, .byte .data 3, .empty .data, .byte .extension 1, .empty .data] ∧
      0 < 3 := by
  have hNew : ChunkedOutputStream.new 3 = .ok ⟨[], [], 3, .data, true⟩ := by decide
  have hAllowed : AllAllowed ⟨[], [], 3, .data, true⟩ someCalls := by
    refine ⟨trivial, ?_, trivial, Or.inl rfl, ?_, trivial, trivial, trivial⟩ <;> decide
  have hReady : PPTConnection.Ready ⟨none, 7, ⟨someWire, fun _ => 0⟩⟩ := by
    have hRoom : ((7 : Nat) : Int) + 2 ≤ INT_MAX := by decide
    exact ⟨Nat.le_refl 7, hRoom, Or.inl rfl⟩
  exact written_read (by decide) hNew hAllowed hReady rfl

/-- A byte of data, and the type changed before it has gone out. -/
def lateType : List StreamOp := [.write 65, .setChunkType 120, .finish]

theorem lateType_misread :
    ¬ ∀ (n : Nat) (s : ChunkedOutputStream) (os : List StreamOp) (c : PPTConnection), 1 ≤ n →
      ChunkedOutputStream.new n = .ok s → c.Ready → c.sock.rest = (runCalls s os).1.rawOS →
        ∃ chunks, receiveChunks (c.sock.rest.length + 1) c = .ok chunks ∧
          chunks.flatMap chunkEvents ++ (runCalls s os).1.cache.map (.byte (runCalls s os).1.currentChunkType) =
            (runCalls s os).2 ∧
          (runCalls s os).1.cache.length < n := by
  intro h
  have hNew : ChunkedOutputStream.new 4096 = .ok ⟨[], [], 4096, .data, true⟩ := by decide
  have hRun : runCalls ⟨[], [], 4096, .data, true⟩ lateType =
      (⟨chunk .extension [65] ++ chunk .data [], [], 4096, .extension, true⟩, [.byte .data 65, .empty .data]) := by
    decide
  have hReadable : ∀ k ∈ [(ChunkType.extension, ([65] : Bytes)), (.data, [])], Readable k := by
    rw [List.forall_mem_cons, List.forall_mem_singleton]
    have hSmall : ([65] : Bytes).length ≤ MAX_SIZE := by decide
    exact ⟨⟨hSmall, fun _ => List.cons_ne_nil _ _⟩, Nat.zero_le _, nofun⟩
  have hReady : PPTConnection.Ready ⟨none, 7, ⟨chunk .extension [65] ++ chunk .data [], fun _ => 0⟩⟩ := by
    have hRoom : ((7 : Nat) : Int) + 2 ≤ INT_MAX := by decide
    exact ⟨Nat.le_refl 7, hRoom, Or.inl rfl⟩
  obtain ⟨chunks, hRead, hEvents, -⟩ := h 4096 _ lateType _ (by decide) hNew hReady (by rw [hRun])
  rw [receiveChunks_chunks hReadable hReady rfl (by decide)] at hRead
  cases hRead
  rw [hRun] at hEvents
  exact absurd hEvents (by decide)

end Libdap.Ppt
