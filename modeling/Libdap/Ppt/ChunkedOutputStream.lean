import Libdap.Ppt.ReceivedChunks

/-! # The front end's output stream

What is written gathers in a cache, which goes out as one chunk when it is full, with the array that
would not fit. The type of a chunk is the one set when it goes out.
-/

namespace Libdap.Ppt
open Core Constraint
set_option autoImplicit false

inductive WriteFault
  | Exception (msg : String)
  | IOException (msg : String)
  | IndexOutOfBoundsException
  /-- A recursion or a loop that goes on and on. -/
  | noEnd
  deriving DecidableEq, Repr

structure ChunkedOutputStream where
  /-- What was written to the underlying stream. -/
  rawOS : Bytes
  /-- The first `cacheSize` bytes of the array. -/
  cache : Bytes
  /-- `cache.length`, the minimum chunk size. -/
  cacheLength : Nat
  currentChunkType : ChunkType
  isOpen : Bool
  deriving DecidableEq, Repr

abbrev StreamCall := EStateM WriteFault ChunkedOutputStream

theorem bind_of_ok {α β : Type} {x : StreamCall α} {f : α → StreamCall β} {s s' : ChunkedOutputStream} {a : α}
    (h : x s = .ok a s') : (x >>= f) s = f a s' := by
  change EStateM.bind x f s = _
  rw [EStateM.bind, h]

theorem bind_of_error {α β : Type} {x : StreamCall α} {f : α → StreamCall β} {s s' : ChunkedOutputStream}
    {e : WriteFault} (h : x s = .error e s') : (x >>= f) s = .error e s' := by
  change EStateM.bind x f s = _
  rw [EStateM.bind, h]

namespace ChunkedOutputStream

def closedMsg : String := "ChunkedOutputStream has been closed."

/-- The constructor for a minimum chunk size. -/
def new (minChunkSize : Nat) : Except WriteFault ChunkedOutputStream :=
  if minChunkSize > MAX_SIZE then
    .error (.Exception ("Minimum chunk size must be less than " ++ toString MAX_SIZE ++ " bytes. You asked for " ++
      toString minChunkSize ++ " bytes."))
  else .ok ⟨[], [], minChunkSize, .data, true⟩

def ensureOpen : StreamCall Unit := do
  if !(← get).isOpen then throw (.IOException closedMsg)

def writeRaw (bytes : Bytes) : StreamCall Unit := modify fun s => { s with rawOS := s.rawOS ++ bytes }

/-- The bytes of an array between two indices, if it has them. -/
def slice (b : Bytes) (off len : Int) : Option Bytes :=
  if 0 ≤ off ∧ 0 ≤ len ∧ off + len ≤ b.length then some ((b.drop off.toNat).take len.toNat) else none

def writeSlice (b : Bytes) (off len : Int) : StreamCall Unit :=
  match slice b off len with
  | none => throw .IndexOutOfBoundsException
  | some bytes => writeRaw bytes

/-- `Chunk.writeChunkHeader`, with the size under the mask of seven digits. -/
def writeChunkHeader (dataSize : Int) (type : ChunkType) : StreamCall Unit :=
  if dataSize > MAX_SIZE then
    throw (.IOException ("Chunk size of " ++ toString dataSize ++ " bytes is to large to be encoded."))
  else writeRaw (chunkHeader type (dataSize % 268435456).toNat)

def writeClosingChunkHeader : StreamCall Unit := writeRaw (ofText "0000000d".toList)

def setChunkType (type : Int) : StreamCall Unit :=
  if type = ChunkType.data.letter.toNat then modify fun s => { s with currentChunkType := .data }
  else if type = ChunkType.extension.letter.toNat then modify fun s => { s with currentChunkType := .extension }
  else throw (.Exception "Unknown Chunk Type")

def flushCache : StreamCall Unit := do
  ensureOpen
  let s ← get
  if 0 < s.cache.length then
    writeChunkHeader s.cache.length s.currentChunkType
    writeRaw s.cache
    modify fun s => { s with cache := [] }

def finish : StreamCall Unit := do
  ensureOpen
  flushCache
  writeClosingChunkHeader

def close : StreamCall Unit := do
  finish
  modify fun s => { s with isOpen := false }

/-- `while (len > 0)` of `flushCacheWithAppend`: one manageable chunk after the other. -/
def pushOut (flush : Int → Int → StreamCall Unit) : Nat → Int → Int → Int → StreamCall Unit
  | 0, _, _, len => if len > 0 then throw .noEnd else pure ()
  | fuel + 1, bytesToWrite, off, len =>
    if len > 0 then do
      flush off len
      let bytesToWrite := int32 (bytesToWrite - len)
      pushOut flush fuel bytesToWrite (int32 (off + len)) (if bytesToWrite > MAX_SIZE then MAX_SIZE else bytesToWrite)
    else pure ()

def flushCacheWithAppend : Nat → Bytes → Int → Int → StreamCall Unit
  | 0, _, _, _ => throw .noEnd
  | depth + 1, bufferToAppend, off, len => do
    ensureOpen
    let s ← get
    let chunkSize := int32 (s.cache.length + len)
    if chunkSize > MAX_SIZE then
      pushOut (flushCacheWithAppend depth bufferToAppend) (len.toNat + 1) len off (int32 (MAX_SIZE - s.cache.length))
    else
      writeChunkHeader chunkSize s.currentChunkType
      writeRaw s.cache
      writeSlice bufferToAppend off len
      modify fun s => { s with cache := [] }

def inconsistent (b : Bytes) (off len : Int) : WriteFault :=
  .IOException ("Passed array bounds inconsistent with array size. You cannot read " ++ toString len ++
    " bytes starting at location " ++ toString off ++ " from an array whose total length is " ++ toString b.length)

/-- `System.arraycopy` to the end of what is in the cache. -/
def arraycopy (b : Bytes) (off len : Int) : StreamCall Unit := do
  let s ← get
  match slice b off len with
  | none => throw .IndexOutOfBoundsException
  | some bytes =>
    if s.cache.length + bytes.length > s.cacheLength then throw .IndexOutOfBoundsException
    else set { s with cache := s.cache ++ bytes }

/-- `write` of a part of an array. The appending function calls itself once at most. -/
def writeArray (b : Bytes) (off len : Int) : StreamCall Unit := do
  ensureOpen
  if int32 (off + len) > b.length then throw (inconsistent b off len)
  else
    let s ← get
    if int32 (s.cache.length + len) < s.cacheLength then arraycopy b off len
    else flushCacheWithAppend 2 b off len

/-- `write` of a byte. -/
def write (b : Int) : StreamCall Unit := do
  ensureOpen
  let s ← get
  if s.cache.length ≥ s.cacheLength then throw .IndexOutOfBoundsException
  else
    set { s with cache := s.cache ++ [UInt8.ofNat (b % 256).toNat] }
    let s ← get
    if s.cache.length ≥ s.cacheLength then flushCache

end ChunkedOutputStream

/-- A `byte[]`, which is indexed by an `int`. -/
structure JavaArray where
  bytes : Bytes
  length_le : (bytes.length : Int) ≤ INT_MAX

inductive StreamOp
  | write (b : Int)
  | writeArray (b : JavaArray) (off len : Int)
  | setChunkType (type : Int)
  | flushCache
  | finish
  | close

def StreamOp.call : StreamOp → StreamCall Unit
  | .write b => ChunkedOutputStream.write b
  | .writeArray b off len => ChunkedOutputStream.writeArray b.bytes off len
  | .setChunkType type => ChunkedOutputStream.setChunkType type
  | .flushCache => ChunkedOutputStream.flushCache
  | .finish => ChunkedOutputStream.finish
  | .close => ChunkedOutputStream.close

/-- What a reader of the chunks is told. -/
inductive ChunkEvent
  | byte (type : ChunkType) (b : UInt8)
  /-- A chunk without bytes. -/
  | empty (type : ChunkType)
  deriving DecidableEq, Repr

def chunkEvents (k : ChunkType × Bytes) : List ChunkEvent :=
  if k.2.isEmpty then [.empty k.1] else k.2.map (.byte k.1)

/-- What a call means that returns. -/
def StreamOp.written (type : ChunkType) : StreamOp → List ChunkEvent
  | .write b => [.byte type (UInt8.ofNat (b % 256).toNat)]
  | .writeArray b off len => ((b.bytes.drop off.toNat).take len.toNat).map (.byte type)
  | .setChunkType _ => []
  | .flushCache => []
  | .finish => [.empty .data]
  | .close => [.empty .data]

/-- Call after call, with what they meant. A caller goes on when a call throws. -/
def runCalls : ChunkedOutputStream → List StreamOp → ChunkedOutputStream × List ChunkEvent
  | s, [] => (s, [])
  | s, o :: os =>
    match o.call s with
    | .ok _ s' => ((runCalls s' os).1, o.written s.currentChunkType ++ (runCalls s' os).2)
    | .error _ s' => runCalls s' os

end Libdap.Ppt
