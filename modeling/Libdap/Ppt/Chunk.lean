import Libdap.Constraint.Word
import Libdap.Core.Fault
import Libdap.Core.Stream
import Mathlib.Tactic.IntervalCases

/-! # Chunks

Seven hexadecimal digits say how long a chunk is and a letter says what it holds. A data chunk without
bytes ends a message.
-/

namespace Libdap.Ppt
open Core Constraint
set_option autoImplicit false

def ofText (w : Word) : Bytes := w.map fun c => UInt8.ofNat c.toNat

def toText (bs : Bytes) : Word := bs.map fun b => Char.ofNat b.toNat

/-- `hex << setw (7) << setfill ('0') << n` -/
def hex7 (n : Nat) : Word := List.replicate (7 - (Nat.toDigits 16 n).length) '0' ++ Nat.toDigits 16 n

inductive ChunkType
  | data
  | extension
  deriving DecidableEq, Repr

def ChunkType.letter : ChunkType → Char
  | .data => 'd'
  | .extension => 'x'

def chunkHeader (type : ChunkType) (size : Nat) : Bytes := ofText (hex7 size ++ [type.letter])

def chunk (type : ChunkType) (body : Bytes) : Bytes := chunkHeader type body.length ++ body

def MAX_SIZE : Nat := 268435455

/-- What `>> hex` skips in front of the digits. -/
def hexBase : Word → Nat × Word
  | '0' :: x :: cs => if x = 'x' ∨ x = 'X' then (16, cs) else (16, '0' :: x :: cs)
  | cs => (16, cs)

/-- `lenstrm >> hex >> setw (7) >> inlen` of the first seven bytes of a header. -/
def inlen (header : Bytes) : Nat :=
  match number hexBase ((toText (header.take 7)).takeWhile (· ≠ Char.ofNat 0)) with
  | none => 0
  | some (negative, v, _) => if negative then (18446744073709551616 - v) % 18446744073709551616 else v

/-- `Integer.valueOf (sizestr, 16)`, or nothing when it throws. -/
def integerValueOf16 (sizestr : Word) : Option Int :=
  if (sign sizestr).2.isEmpty ∨ !(sign sizestr).2.all (isDigitOf 16) then none
  else some (if (sign sizestr).1 then -(valueOf 16 (sign sizestr).2 : Int) else valueOf 16 (sign sizestr).2)

/-! ## Digits -/

theorem toText_ofText {w : Word} (h : ∀ c ∈ w, c.toNat < 128) : toText (ofText w) = w := by
  rw [toText, ofText, List.map_map]
  have hSame : ∀ c ∈ w, ((fun b : UInt8 => Char.ofNat b.toNat) ∘ fun c => UInt8.ofNat c.toNat) c = id c := by
    intro c hc
    have hSmall := h c hc
    have hByte : (UInt8.ofNat c.toNat).toNat = c.toNat := by
      rw [UInt8.toNat_ofNat']
      exact Nat.mod_eq_of_lt (by omega)
    rw [Function.comp_apply, hByte, Char.ofNat_toNat, id]
  rw [List.map_congr_left hSame, List.map_id]

theorem digitOf_digitChar {k : Nat} (h : k < 16) : digitOf (Nat.digitChar k) = some k := by
  interval_cases k <;> rfl

theorem hexDigit_cases {c : Char} (h : isDigitOf 16 c = true) :
    (48 ≤ c.toNat ∧ c.toNat ≤ 57) ∨ (97 ≤ c.toNat ∧ c.toNat ≤ 102) ∨ (65 ≤ c.toNat ∧ c.toNat ≤ 70) := by
  rw [isDigitOf, digitOf] at h
  split at h
  · rename_i hDigit
    exact Or.inl hDigit
  · split at h
    · rename_i hLower
      have hLow : 97 ≤ c.toNat := hLower.1
      have hValue : c.toNat - 97 + 10 < 16 := by simpa using h
      exact Or.inr (Or.inl ⟨hLow, by omega⟩)
    · split at h
      · rename_i hUpper
        have hLow : 65 ≤ c.toNat := hUpper.1
        have hValue : c.toNat - 65 + 10 < 16 := by simpa using h
        exact Or.inr (Or.inr ⟨hLow, by omega⟩)
      · cases h

theorem hexDigit_ne {c d : Char} (h : isDigitOf 16 c = true) (hd : isDigitOf 16 d = false) : c ≠ d := by
  rintro rfl
  rw [hd] at h
  cases h

theorem hexDigit_not_space {c : Char} (h : isDigitOf 16 c = true) : isSpace c = false := by
  have hCode := hexDigit_cases h
  simp only [isSpace, Bool.or_eq_false_iff, decide_eq_false_iff_not]
  refine ⟨⟨⟨⟨⟨hexDigit_ne h rfl, hexDigit_ne h rfl⟩, hexDigit_ne h rfl⟩, hexDigit_ne h rfl⟩, ?_⟩, ?_⟩ <;> omega

theorem valueOf_append (ds ds' : Word) :
    valueOf 16 (ds ++ ds') = ds'.foldl (fun value c => value * 16 + (digitOf c).getD 0) (valueOf 16 ds) :=
  List.foldl_append

theorem toDigits_digit (n : Nat) : ∀ c ∈ Nat.toDigits 16 n, isDigitOf 16 c = true := by
  have hChar : ∀ k, k < 16 → isDigitOf 16 (Nat.digitChar k) = true := by
    intro k hk
    rw [isDigitOf, digitOf_digitChar hk]
    exact decide_eq_true hk
  induction n using Nat.strong_induction_on with
  | _ n ih =>
    rw [Nat.toDigits_eq_if (by decide)]
    split
    · rename_i hSmall
      intro c hc
      rw [List.mem_singleton.mp hc]
      exact hChar n hSmall
    · intro c hc
      rcases List.mem_append.mp hc with hFirst | hLast
      · exact ih (n / 16) (by omega) c hFirst
      · rw [List.mem_singleton.mp hLast]
        exact hChar _ (Nat.mod_lt n (by decide))

theorem valueOf_toDigits (n : Nat) : valueOf 16 (Nat.toDigits 16 n) = n := by
  induction n using Nat.strong_induction_on with
  | _ n ih =>
    rw [Nat.toDigits_eq_if (by decide)]
    split
    · rename_i hSmall
      simp [valueOf, digitOf_digitChar hSmall]
    · rw [valueOf_append, ih (n / 16) (by omega), List.foldl_cons, List.foldl_nil,
        digitOf_digitChar (Nat.mod_lt n (by decide)), Option.getD_some]
      omega

theorem hex7_digit (n : Nat) : ∀ c ∈ hex7 n, isDigitOf 16 c = true := by
  intro c hc
  rcases List.mem_append.mp hc with hZero | hDigit
  · rw [List.eq_of_mem_replicate hZero]
    rfl
  · exact toDigits_digit n c hDigit

theorem hex7_length {n : Nat} (h : n ≤ MAX_SIZE) : (hex7 n).length = 7 := by
  have hShort : (Nat.toDigits 16 n).length ≤ 7 :=
    (Nat.length_toDigits_le_iff (by decide) (by decide)).mpr (Nat.lt_of_le_of_lt h (by decide))
  rw [hex7, List.length_append, List.length_replicate]
  omega

theorem valueOf_hex7 (n : Nat) : valueOf 16 (hex7 n) = n := by
  have hZeros : ∀ k, valueOf 16 (List.replicate k '0') = 0 := by
    intro k
    induction k with
    | zero => rfl
    | succ k ih =>
      rw [List.replicate_succ', valueOf_append, ih]
      rfl
  have hDigits := valueOf_toDigits n
  rw [valueOf] at hDigits
  rw [hex7, valueOf_append, hZeros]
  exact hDigits

theorem sign_hex {ds : Word} (h : ∀ c ∈ ds, isDigitOf 16 c = true) : sign ds = (false, ds) := by
  rw [sign]
  · rintro cs rfl
    exact hexDigit_ne (h _ List.mem_cons_self) rfl rfl
  · rintro cs rfl
    exact hexDigit_ne (h _ List.mem_cons_self) rfl rfl

theorem hexBase_hex {ds : Word} (h : ∀ c ∈ ds, isDigitOf 16 c = true) : hexBase ds = (16, ds) := by
  rw [hexBase.eq_def]
  split
  · rename_i x cs
    have hx := h x (by simp)
    rw [if_neg]
    rintro (rfl | rfl)
    · exact hexDigit_ne hx rfl rfl
    · exact hexDigit_ne hx rfl rfl
  · rfl

theorem number_hex {ds : Word} (h : ∀ c ∈ ds, isDigitOf 16 c = true) (hNe : ds ≠ []) :
    number hexBase ds = some (false, valueOf 16 ds, []) := by
  have hSpace : ds.dropWhile isSpace = ds := by
    cases ds with
    | nil => rfl
    | cons c cs => exact List.dropWhile_cons_of_neg (by simp [hexDigit_not_space (h c List.mem_cons_self)])
  have hTake : ds.takeWhile (isDigitOf 16) = ds := by
    have hAll : (ds ++ []).takeWhile (isDigitOf 16) = ds ++ [].takeWhile (isDigitOf 16) :=
      List.takeWhile_append_of_pos h
    rwa [List.append_nil, List.takeWhile_nil, List.append_nil] at hAll
  have hDrop : ds.dropWhile (isDigitOf 16) = [] := by
    have hAll : (ds ++ []).dropWhile (isDigitOf 16) = [].dropWhile (isDigitOf 16) :=
      List.dropWhile_append_of_pos h
    rwa [List.append_nil, List.dropWhile_nil] at hAll
  have hSome : ds.isEmpty = false := by simpa using hNe
  rw [number, hSpace, sign_hex h]
  simp only [hexBase_hex h, hTake, hDrop, hSome, Bool.false_eq_true, if_false]

/-! ## Headers -/

theorem ofText_append (v w : Word) : ofText (v ++ w) = ofText v ++ ofText w := List.map_append

theorem chunkHeader_eq (type : ChunkType) (n : Nat) :
    chunkHeader type n = ofText (hex7 n) ++ [UInt8.ofNat type.letter.toNat] := ofText_append _ _

theorem chunkHeader_length (type : ChunkType) {n : Nat} (h : n ≤ MAX_SIZE) : (chunkHeader type n).length = 8 := by
  rw [chunkHeader_eq, List.length_append, ofText, List.length_map, hex7_length h]
  rfl

theorem chunkHeader_digits (type : ChunkType) {n : Nat} (h : n ≤ MAX_SIZE) :
    toText ((chunkHeader type n).take 7) = hex7 n := by
  have hLength : (ofText (hex7 n)).length = 7 := by rw [ofText, List.length_map, hex7_length h]
  rw [chunkHeader_eq, List.take_append_of_le_length hLength.ge, List.take_of_length_le hLength.le, toText_ofText]
  intro c hc
  have hCode := hexDigit_cases (hex7_digit n c hc)
  omega

theorem hex7_ne {n : Nat} (h : n ≤ MAX_SIZE) : hex7 n ≠ [] := by
  apply List.ne_nil_of_length_pos
  rw [hex7_length h]
  decide

/-- The length comes back as it was written. -/
theorem inlen_header (type : ChunkType) {n : Nat} (h : n ≤ MAX_SIZE) : inlen (chunkHeader type n) = n := by
  have hString : (hex7 n).takeWhile (· ≠ Char.ofNat 0) = hex7 n := by
    have hAll : (hex7 n ++ []).takeWhile (· ≠ Char.ofNat 0) = hex7 n ++ [].takeWhile (· ≠ Char.ofNat 0) :=
      List.takeWhile_append_of_pos fun c hc => decide_eq_true (hexDigit_ne (hex7_digit n c hc) rfl)
    rwa [List.append_nil, List.takeWhile_nil, List.append_nil] at hAll
  rw [inlen, chunkHeader_digits type h, hString, number_hex (hex7_digit n) (hex7_ne h)]
  simp only [Bool.false_eq_true, if_false]
  exact valueOf_hex7 n

theorem integerValueOf16_header (type : ChunkType) {n : Nat} (h : n ≤ MAX_SIZE) :
    integerValueOf16 (toText ((chunkHeader type n).take 7)) = some n := by
  have hAll : (hex7 n).all (isDigitOf 16) = true := List.all_eq_true.mpr (hex7_digit n)
  have hSome : (hex7 n).isEmpty = false := by simpa using hex7_ne h
  rw [chunkHeader_digits type h, integerValueOf16, sign_hex (hex7_digit n)]
  simp [hAll, hSome, valueOf_hex7]

theorem chunkHeader_type (type : ChunkType) {n : Nat} (h : n ≤ MAX_SIZE) :
    (chunkHeader type n)[7]? = some (UInt8.ofNat type.letter.toNat) := by
  have hLength : (ofText (hex7 n)).length = 7 := by rw [ofText, List.length_map, hex7_length h]
  rw [chunkHeader_eq, List.getElem?_append_right hLength.le, hLength]
  rfl

theorem chunk_length (type : ChunkType) {body : Bytes} (h : body.length ≤ MAX_SIZE) :
    (chunk type body).length = 8 + body.length := by
  rw [chunk, List.length_append, chunkHeader_length type h]

end Libdap.Ppt

/-! ## The front end's reader

`ChunkedInputStream` keeps the size, the read position and the type of the current chunk from call to
call, and a buffer that grows with the chunks.
-/

namespace Libdap.Ppt
open Core Constraint
set_option autoImplicit false

inductive JavaFault
  | IOException (msg : String)
  | NumberFormatException
  | IndexOutOfBoundsException
  deriving DecidableEq, Repr

structure ChunkedInputStream where
  is : Feed
  isClosed : Bool
  currentChunkHeader : Bytes
  /-- The length of `chunkBuffer`. -/
  chunkBufferLength : Nat
  currentChunkDataSize : Int
  chunkReadPosition : Int
  currentChunkType : UInt8

namespace ChunkedInputStream

def DATA : UInt8 := 100

def EXTENSION : UInt8 := 120

def defaultBufferSize : Nat := 10240

def MaxBufferSize : Nat := 16777216

def new (stream : Feed) : ChunkedInputStream where
  is := stream
  isClosed := false
  currentChunkHeader := List.replicate 8 0
  chunkBufferLength := defaultBufferSize
  currentChunkDataSize := 0
  chunkReadPosition := 0
  currentChunkType := DATA

/-- `Chunk.readFully` into a buffer that has room: nothing stands for -1. -/
def readFully (is : Feed) (len : Nat) : Option Bytes × Feed :=
  (if len ≠ 0 ∧ (is.readUpTo len len len).1.isEmpty then none else some (is.readUpTo len len len).1,
    (is.readUpTo len len len).2)

/-- `Chunk.getDataSize`: nothing stands for -1, a size of 0. -/
def getDataSize (chunkHeader : Bytes) : Except JavaFault (Option Int) :=
  match integerValueOf16 (toText (chunkHeader.take 7)) with
  | none => .error .NumberFormatException
  | some n => .ok (if n = 0 ∨ n = -1 then none else some n)

/-- `readChunkHeader`; a closing chunk and the end of the stream leave size, position and type alone. -/
def readChunkHeader (s : ChunkedInputStream) : Except JavaFault (Option Int × ChunkedInputStream) :=
  if s.isClosed then .error (.IOException "Cannot read from a closed stream.")
  else match readFully s.is 8 with
    | (none, is) => .ok (none, { s with is := is })
    | (some bytes, is) =>
      let header := bytes ++ s.currentChunkHeader.drop bytes.length
      match getDataSize header with
      | .error f => .error f
      | .ok none => .ok (none, { s with is := is, currentChunkHeader := header })
      | .ok (some size) =>
        .ok (some size, { s with
          is := is
          currentChunkHeader := header
          currentChunkDataSize := size
          currentChunkType := header[7]?.getD 0
          chunkReadPosition := 0 })

def availableInChunk (s : ChunkedInputStream) : Int := s.currentChunkDataSize - s.chunkReadPosition

def isLastChunk (s : ChunkedInputStream) : Bool := s.currentChunkDataSize = 0 && s.currentChunkType = DATA

/-- `String.split (";")` of a text of single bytes, which drops the empty texts at the end. -/
def splitSemicolon (text : Word) : List Word :=
  if text.isEmpty then [[]] else ((text.splitOnP (· = ';')).reverse.dropWhile List.isEmpty).reverse

def equalsIgnoreCase (v w : Word) : Bool := v.map Char.toLower = w.map Char.toLower

def statusOf (extension : Word) : Word := (extension.dropWhile (· ≠ '=')).drop 1

/-- One extension: whether it is an error, and the stream behind it. -/
def processExtension (s : ChunkedInputStream) (extension : Word) : Except JavaFault (Bool × ChunkedInputStream) :=
  if "status=".toList.isPrefixOf extension then
    if equalsIgnoreCase (statusOf extension) "error".toList then .ok (true, s)
    else if equalsIgnoreCase (statusOf extension) "exit".toList then .ok (false, { s with isClosed := true })
    else if equalsIgnoreCase (statusOf extension) "PPT_EXIT_NOW".toList then
      match readChunkHeader s with
      | .error f => .error f
      | .ok (ret, s) => .ok (false, if ret.isNone || s.isLastChunk then { s with isClosed := true } else s)
    else .ok (false, s)
  else .ok (false, s)

def processExtensions (s : ChunkedInputStream) : List Word → Except JavaFault (Bool × ChunkedInputStream)
  | [] => .ok (false, s)
  | extension :: extensions => do
    let (isError, s) ← processExtension s extension
    let (more, s) ← processExtensions s extensions
    .ok (isError || more, s)

def processExtensionContent (s : ChunkedInputStream) (e : Bytes) : Except JavaFault (Bool × ChunkedInputStream) :=
  processExtensions s (splitSemicolon (toText e))

def sizeMsg (size : Int) : String :=
  "Found a chunk size larger than I support. My max size 16777216 bytes, currentChunkDataSize: " ++ toString size

def roomMsg (len : Int) (size : Nat) : String :=
  "Attempted to read " ++ toString len ++ " bytes starting at 0 into a buffer of length " ++ toString size ++
    "  I'm afraid I can't allow that..."

/-- What a message has delivered so far: to `dStream`, to `errStream`, and whether there was an error. -/
structure Delivered where
  dStream : Bytes
  errStream : Bytes
  isError : Bool
  deriving DecidableEq, Repr

def Delivered.none : Delivered := ⟨[], [], false⟩

def Delivered.write (d : Delivered) (bytes : Bytes) : Delivered :=
  if d.isError then { d with errStream := d.errStream ++ bytes } else { d with dStream := d.dStream ++ bytes }

/-- The buffer for a chunk whose header was read. -/
def makeRoom (s : ChunkedInputStream) : Except JavaFault ChunkedInputStream :=
  if (s.chunkBufferLength : Int) < s.currentChunkDataSize then
    if s.currentChunkDataSize > MaxBufferSize then .error (.IOException (sizeMsg s.currentChunkDataSize))
    else .ok { s with chunkBufferLength := s.currentChunkDataSize.toNat }
  else .ok s

/-- The body of the current chunk. -/
def readBody (s : ChunkedInputStream) (d : Delivered) : Except JavaFault (Delivered × ChunkedInputStream) :=
  if (s.chunkBufferLength : Int) < s.availableInChunk then
    .error (.IOException (roomMsg s.availableInChunk s.chunkBufferLength))
  else match readFully s.is s.availableInChunk.toNat with
    | (none, _) => .error .IndexOutOfBoundsException
    | (some bytes, is) =>
      let s := { s with is := is, chunkReadPosition := s.chunkReadPosition + bytes.length }
      if s.currentChunkType = DATA then .ok (d.write bytes, s)
      else if s.currentChunkType = EXTENSION then
        match processExtensionContent s bytes with
        | .error f => .error f
        | .ok (isError, s) => .ok ({ d with isError := isError || d.isError }, s)
      else .error (.IOException "Unknown Chunk Type.")

/-- The loop of `readChunkedMessage`. -/
def readLoop : Nat → ChunkedInputStream → Delivered → Except JavaFault (Delivered × ChunkedInputStream)
  | 0, s, d => .ok (d, s)
  | fuel + 1, s, d =>
    if s.isClosed then .ok (d, s)
    else if s.availableInChunk ≤ 0 then
      match readChunkHeader s with
      | .error f => .error f
      | .ok (ret, s) =>
        if ret.isNone || s.isLastChunk then .ok (d, s)
        else match makeRoom s with
          | .error f => .error f
          | .ok s => readLoop fuel s d
    else match readBody s d with
      | .error f => .error f
      | .ok (d, s) => readLoop fuel s d

/-- `readChunkedMessage`: what is returned, what the two streams get. Each turn of the loop reads a
byte at least, or it is the last one. -/
def readChunkedMessage (s : ChunkedInputStream) :
    Except JavaFault (Bool × Bytes × Bytes × ChunkedInputStream) :=
  match readLoop (s.is.rest.length + 2) s .none with
  | .error f => .error f
  | .ok (d, s) => .ok (!d.isError, d.dStream, d.errStream, s)

/-- So many messages. -/
def readMessages : Nat → ChunkedInputStream → Except JavaFault (List (Bool × Bytes × Bytes) × ChunkedInputStream)
  | 0, s => .ok ([], s)
  | n + 1, s => do
    let (ret, dStream, errStream, s) ← readChunkedMessage s
    let (more, s) ← readMessages n s
    .ok ((ret, dStream, errStream) :: more, s)

end ChunkedInputStream

end Libdap.Ppt
