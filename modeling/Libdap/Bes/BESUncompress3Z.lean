import Libdap.Constraint.Word
import Libdap.Core.Bytes
import Libdap.Core.Settles

/-! # Decompression of a .Z file

The file is read into a buffer of `BUFSIZ` bytes and a little more, codes are cut out of the buffer, and the string of
each code is read off the table from its last byte to its first, onto a stack that shares its storage with the table.
Every access is checked, so a run that leaves an array or reads an entry that was not written ends in `outside`.
-/

namespace Libdap.Bes.BESUncompress3Z
open Core Constraint
set_option autoImplicit false

def BUFSIZ : Nat := 8192

/-- `sizeof(inbuf)` -/
def inSize : Nat := BUFSIZ + 64

/-- `sizeof(outbuf)`, which is `BUFSIZ + 2048`. -/
def outSize : Nat := 10240

def HSIZE : Nat := 131072

def INIT_BITS : Nat := 9

def CLEAR : Nat := 256

inductive Stop
  | threw (message : Word)
  | outside
  | unfinished
  deriving DecidableEq, Repr

/-- The two files: what `open`, the reads and the writes answer, and what the input buffer holds before the first read. -/
structure Channel where
  src : Word
  /-- The text of the error when the file cannot be opened. -/
  openError : Option Word
  /-- How many bytes the n-th read is to give; a read gives at least one of the bytes that are left. -/
  read : Nat → Option Nat
  /-- Whether the n-th write takes all its bytes. -/
  write : Nat → Bool
  memory : Nat → UInt8

/-! ## The input -/

structure Input where
  inbuf : Nat → UInt8
  insize : Int
  rsize : Nat
  posbits : Nat
  inbits : Int
  rest : Bytes
  reads : Nat

namespace Input

/-- `rsize = read(srcFile, inbuf + insize, BUFSIZ)` and `insize += rsize`; none when the read fails. -/
def read (io : Channel) (d : Input) : Except Stop (Option Input) :=
  if 0 ≤ d.insize ∧ d.insize + BUFSIZ ≤ inSize then
    match io.read d.reads with
    | none => .ok none
    | some k =>
      let n := min (max 1 k) (min BUFSIZ d.rest.length)
      .ok (some { d with
        inbuf := fun i => if d.insize.toNat ≤ i ∧ i < d.insize.toNat + n then d.rest.getD
          (i - d.insize.toNat) 0 else d.inbuf i
        insize := d.insize + n
        rsize := n
        rest := d.rest.drop n
        reads := d.reads + 1 })
  else .error .outside

/-- The bytes before `posbits` are dropped. -/
def shift (d : Input) : Except Stop Input :=
  if d.insize ≤ inSize then
    .ok { d with
      inbuf := fun i => if (i : Int) < d.insize - (d.posbits / 8 : Nat) then d.inbuf (i + d.posbits / 8) else d.inbuf i
      insize := d.insize - (d.posbits / 8 : Nat)
      posbits := 0 }
  else .error .outside

/-- The buffer is filled when it holds less than 64 bytes, compared as unsigned numbers. -/
def refill (io : Channel) (d : Input) : Except Stop Input :=
  if 0 ≤ d.insize ∧ d.insize < 64 then do
    match ← d.read io with
    | none => .error (.threw ("Could not read file ".toList ++ io.src))
    | some d => .ok d
  else .ok d

def limit (nBits : Nat) (d : Input) : Input :=
  { d with inbits := if 0 < d.rsize then (d.insize - d.insize.tmod nBits) * 8 else d.insize * 8 - (nBits - 1 : Nat) }

def resetbuf (io : Channel) (nBits : Nat) (d : Input) : Except Stop Input := do
  let d ← d.shift
  let d ← d.refill io
  pure (d.limit nBits)

/-- The three bytes at `posbits`, less the bits before it and those after the code. -/
def code (nBits : Nat) (d : Input) : Except Stop Nat :=
  if d.posbits / 8 + 2 < inSize then .ok ((tripleAt d.inbuf (d.posbits / 8) >>> (d.posbits % 8)) &&& (2 ^ nBits - 1))
  else .error .outside

def advance (nBits : Nat) (d : Input) : Input := { d with posbits := d.posbits + nBits }

/-- `posbits` is moved up to a whole number of groups of `n_bits` bytes. -/
def align (nBits : Nat) (d : Input) : Input :=
  { d with posbits := d.posbits + (8 * nBits - (d.posbits + 8 * nBits - 1) % (8 * nBits)) - 1 }

end Input

/-! ## The table -/

/-- The third byte of the file, when it is one that can be handled. -/
structure Header where
  maxbits : Nat
  blockMode : Bool
  maxbits_le : maxbits ≤ 16

def Header.maxmaxcode (h : Header) : Nat := 2 ^ h.maxbits

/-- `htab` and `codetab` hold what was written since the table was last reset. -/
structure Coder where
  nBits : Nat
  maxcode : Nat
  freeEnt : Nat
  oldcode : Option Nat
  finchar : UInt8
  htab : Nat → Option UInt8
  codetab : Nat → Option Nat

namespace Coder

def literals (c : Nat) : Option UInt8 := if c < 256 then some (UInt8.ofNat c) else none

/-- `memset(codetab, 0, 256)`, which is 128 entries. -/
def zeros (c : Nat) : Option Nat := if c < 128 then some 0 else none

def start (h : Header) : Coder where
  nBits := INIT_BITS
  maxcode := 2 ^ INIT_BITS - 1
  freeEnt := if h.blockMode then 257 else 256
  oldcode := none
  finchar := 0
  htab := literals
  codetab := zeros

def widen (h : Header) (c : Coder) : Coder :=
  { c with
    nBits := c.nBits + 1
    maxcode := if c.nBits + 1 = h.maxbits then h.maxmaxcode else 2 ^ (c.nBits + 1) - 1 }

def reset (c : Coder) : Coder :=
  { c with nBits := INIT_BITS, maxcode := 2 ^ INIT_BITS - 1, freeEnt := 256, htab := literals, codetab := zeros }

/-- The first code. -/
def begin (code : Nat) (c : Coder) : Coder := { c with oldcode := some code, finchar := UInt8.ofNat code }

/-- `*--stackp = b`: the byte has to be above the entries of the table. -/
def push (c : Coder) (b : UInt8) (stack : Bytes) : Except Stop Bytes :=
  if c.freeEnt + stack.length + 1 ≤ HSIZE - 1 then .ok (b :: stack) else .error .outside

/-- The characters of a code in reverse order; the first of the string is the last one found. -/
def walk (c : Coder) : Nat → Nat → Bytes → Except Stop (UInt8 × Bytes)
  | 0, _, _ => .error .unfinished
  | n + 1, code, stack =>
    match c.htab code with
    | none => .error .outside
    | some b => do
      let stack ← c.push b stack
      if 256 ≤ code then
        match c.codetab code with
        | none => .error .outside
        | some next => walk c n next stack
      else .ok (b, stack)

def enter (h : Header) (oldcode : Nat) (b : UInt8) (c : Coder) : Coder :=
  if c.freeEnt < h.maxmaxcode then
    { c with
      codetab := fun i => if i = c.freeEnt then some (oldcode % 65536) else c.codetab i
      htab := fun i => if i = c.freeEnt then some b else c.htab i
      freeEnt := c.freeEnt + 1 }
  else c

def corrupt : Stop := .threw "uncompress: corrupt input".toList

/-- The string of a code, put on the stack. -/
def unwind (n oldcode code : Nat) (c : Coder) : Except Stop (UInt8 × Bytes) :=
  -- Special case for KwKwK string.
  if code = c.freeEnt then do
    let stack ← c.push c.finchar []
    c.walk n oldcode stack
  else c.walk n code []

/-- The table after a code, and the string of the code. -/
def decode (h : Header) (n oldcode code : Nat) (c : Coder) : Except Stop (Coder × Bytes) :=
  if c.freeEnt < code then .error corrupt
  else do
    let (b, stack) ← c.unwind n oldcode code
    .ok ({ c with finchar := b, oldcode := some code }.enter h oldcode b, stack)

end Coder

/-! ## The output -/

/-- `outbuf` up to `outpos`, and what was written to the file. -/
structure Output where
  outbuf : Bytes
  written : Bytes
  writes : Nat

namespace Output

def copy (bytes : Bytes) (o : Output) : Except Stop Output :=
  if o.outbuf.length + bytes.length ≤ outSize then .ok { o with outbuf := o.outbuf ++ bytes } else .error .outside

def write (io : Channel) (o : Output) : Except Stop Output :=
  if io.write o.writes then .ok ⟨[], o.written ++ o.outbuf, o.writes + 1⟩ else .error
    (.threw "uncompress: write eror".toList)

def writeFull (io : Channel) (o : Output) : Except Stop Output := if BUFSIZ ≤ o.outbuf.length then o.write io else .ok o

/-- How much of the stack goes into the buffer. -/
def part (stack : Bytes) (o : Output) : Nat := min stack.length (BUFSIZ - o.outbuf.length)

/-- The loop that empties the stack. -/
def flush (io : Channel) : Nat → Bytes → Output → Except Stop Output
  | 0, _, _ => .error .unfinished
  | n + 1, stack, o => do
    let copied ← o.copy (stack.take (o.part stack))
    let next ← copied.writeFull io
    if stack.drop (o.part stack) = [] then .ok next else flush io n (stack.drop (o.part stack)) next

def put (io : Channel) (n : Nat) (stack : Bytes) (o : Output) : Except Stop Output :=
  if BUFSIZ ≤ o.outbuf.length + stack.length then o.flush io n stack else o.copy stack

def finish (io : Channel) (o : Output) : Except Stop Output := if o.outbuf = [] then .ok o else o.write io

end Output

/-! ## The loops -/

structure Decoder where
  input : Input
  coder : Coder
  output : Output

/-- The message of a first code that is no literal. -/
def notLiteral (code : Nat) : Word :=
  "oldcode:-1 code: ".toList ++ [Char.ofNat (code % 256)] ++ " !!!! uncompress: corrupt input!!!".toList

/-- One round of the loop over the codes; it says whether the buffer is to be reset. -/
def turn (io : Channel) (h : Header) (n : Nat) (d : Decoder) : Except Stop (Bool × Decoder) :=
  if d.coder.maxcode < d.coder.freeEnt then
    .ok (true, { d with input := d.input.align d.coder.nBits, coder := d.coder.widen h })
  else do
    let code ← d.input.code d.coder.nBits
    let input := d.input.advance d.coder.nBits
    match d.coder.oldcode with
    | none =>
      if 256 ≤ code then .error (.threw (notLiteral code))
      else do
        let output ← d.output.copy [UInt8.ofNat code]
        .ok (false, ⟨input, d.coder.begin code, output⟩)
    | some oldcode =>
      if code = CLEAR ∧ h.blockMode then
        .ok (true, { d with input := input.align d.coder.nBits, coder := d.coder.reset })
      else do
        let (coder, stack) ← d.coder.decode h n oldcode code
        let output ← d.output.put io n stack
        .ok (false, ⟨input, coder, output⟩)

/-- The loop over the buffer and, within it, the loop over the codes. -/
def codes (io : Channel) (h : Header) : Nat → Bool → Decoder → Except Stop Decoder
  | 0, _, _ => .error .unfinished
  | n + 1, true, d => do
    let input ← d.input.resetbuf io d.coder.nBits
    codes io h n false { d with input := input }
  | n + 1, false, d =>
    if d.input.posbits < d.input.inbits then do
      let (jump, d) ← turn io h n d
      codes io h n jump d
    else if 0 < d.input.rsize then codes io h n true d
    else .ok d

def notCompressed (io : Channel) : Stop := .threw (io.src ++ ": not in compressed format".toList)

/-- The loop that reads the first three bytes. -/
def readHeader (io : Channel) : Nat → Input → Except Stop Input
  | 0, _ => .error .unfinished
  | n + 1, d =>
    if d.insize < 3 then do
      match ← d.read io with
      | none => .error (.threw ("Could not read file ".toList ++ io.src))
      | some d =>
        if 0 < d.rsize then readHeader io n d
        else if 0 < d.insize then .error (notCompressed io)
        else .error (.threw "unknown error".toList)
    else .ok d

def Header.of (io : Channel) (b : UInt8) : Except Stop Header :=
  if hBits : b.toNat % 32 ≤ 16 then .ok ⟨b.toNat % 32, 128 ≤ b.toNat, hBits⟩
  else .error (.threw (io.src ++ ": compressed with ".toList ++ [Char.ofNat (b.toNat % 32)] ++
    " bits, can only handle".toList ++ [Char.ofNat 16]))

def Input.ofFile (io : Channel) (file : Bytes) : Input := ⟨io.memory, 0, 0, 0, 0, file, 0⟩

/-- What comes before the loop. -/
def prepare (io : Channel) (file : Bytes) (n : Nat) : Except Stop (Header × Decoder) :=
  match io.openError with
  | some serr => .error (.threw ("Unable to open the compressed file ".toList ++ io.src ++ ": ".toList ++ serr))
  | none => do
    let d ← readHeader io n (.ofFile io file)
    if d.inbuf 0 = 0x1f ∧ d.inbuf 1 = 0x9d then do
      let h ← Header.of io (d.inbuf 2)
      .ok (h, ⟨{ d with posbits := 24 }, .start h, ⟨[], [], 0⟩⟩)
    else .error (notCompressed io)

/-- The bytes that were written when it returns. -/
def uncompress (io : Channel) (file : Bytes) (n : Nat) : Except Stop Bytes := do
  let (h, d) ← prepare io file n
  let d ← codes io h n true d
  let output ← d.output.finish io
  .ok output.written

end Libdap.Bes.BESUncompress3Z
