import Libdap.Ppt.PPTConnection

/-! # Responses written in chunks

The server's output stream has a buffer and sends what is in it as a data chunk, when it is flushed and
when it is full. An error goes out as an extension chunk past the buffer.
-/

namespace Libdap.Ppt
open Core Constraint
set_option autoImplicit false

structure PPTStreamBuf where
  dBufsize : Nat
  /-- What is between `pbase` and `pptr`. -/
  buffer : Bytes
  /-- What was written to the socket. -/
  out : Bytes

namespace PPTStreamBuf

/-- `PPTStreamBuf::open` -/
def opened (bufsize : Nat) (out : Bytes) : PPTStreamBuf := ⟨if bufsize = 0 then 1 else bufsize, [], out⟩

def sync (s : PPTStreamBuf) : PPTStreamBuf :=
  if s.buffer.isEmpty then s
  else { s with buffer := [], out := s.out ++ (chunkHeader .data s.buffer.length ++ s.buffer) }

/-- `overflow` of a byte, which is not `EOF`. -/
def overflow (c : UInt8) (s : PPTStreamBuf) : PPTStreamBuf := { s.sync with buffer := s.sync.buffer ++ [c] }

/-- `streambuf::sputc` -/
def sputc (s : PPTStreamBuf) (c : UInt8) : PPTStreamBuf :=
  if s.buffer.length < s.dBufsize then { s with buffer := s.buffer ++ [c] } else s.overflow c

def eodMarker : Bytes := ofText "0000000d".toList

def finish (s : PPTStreamBuf) : PPTStreamBuf := { s.sync with out := s.sync.out ++ eodMarker }

end PPTStreamBuf

inductive Output
  | put (c : UInt8)
  | flush
  deriving DecidableEq, Repr

def PPTStreamBuf.write (s : PPTStreamBuf) : Output → PPTStreamBuf
  | .put c => s.sputc c
  | .flush => s.sync

def PPTStreamBuf.writeAll (s : PPTStreamBuf) (os : List Output) : PPTStreamBuf := os.foldl write s

/-- The bytes that are put. -/
def putBytes (os : List Output) : Bytes := os.flatMap fun o => match o with
  | .put c => [c]
  | .flush => []

structure ErrorReport where
  /-- The status is `BES_INTERNAL_FATAL_ERROR`. -/
  fatal : Bool
  outputs : List Output

/-- What a request's commands put, and what `finish_with_error` puts when they end with an error. -/
structure Response where
  outputs : List Output
  error : Option ErrorReport

def statusError (fatal : Bool) : Extensions :=
  let extensions := Extensions.empty.assign (ofText "status".toList) (ofText "error".toList)
  if fatal then extensions.assign (ofText "exit".toList) (ofText "true".toList) else extensions

/-- The part of `BESServerHandler::execute` that answers: what is on the socket at its end. -/
def execute (bufsize : Nat) (out : Bytes) (r : Response) : Bytes :=
  let fds := (PPTStreamBuf.opened bufsize out).writeAll r.outputs
  match r.error with
  | none => fds.finish.out
  | some e =>
    let fds := fds.sync
    let fds := { fds with out := fds.out ++ sendExtensions (statusError e.fatal) }
    (fds.writeAll e.outputs).finish.out

/-- Response after response on one socket, each with the buffer size of its stream. -/
def executeAll (out : Bytes) (rs : List (Nat × Response)) : Bytes := rs.foldl (fun out r => execute r.1 out r.2) out

/-! ## The chunks that are written -/

/-- Non-empty bodies that a buffer holds. -/
def Bodies (bufsize : Nat) (bodies : List Bytes) : Prop := ∀ body ∈ bodies, body ≠ [] ∧ body.length ≤ bufsize

/-- The stream has sent some chunks since it had `out`, and with the buffer they are what was put. -/
structure Wrote (s : PPTStreamBuf) (out : Bytes) (data : Bytes) (bodies : List Bytes) : Prop where
  out : s.out = out ++ bodies.flatMap (chunk .data)
  data : bodies.flatten ++ s.buffer = data
  bodies : Bodies s.dBufsize bodies
  room : s.buffer.length ≤ s.dBufsize
  positive : 0 < s.dBufsize

namespace Wrote

variable {s : PPTStreamBuf} {out data : Bytes} {bodies : List Bytes}

theorem sync (h : Wrote s out data bodies) : ∃ bodies', Wrote s.sync out data bodies' ∧ s.sync.buffer = [] ∧
    s.sync.dBufsize = s.dBufsize := by
  cases hBuffer : s.buffer with
  | nil =>
    have hSame : s.sync = s := if_pos (by simp [hBuffer])
    rw [hSame]
    exact ⟨bodies, h, hBuffer, rfl⟩
  | cons b bs =>
    have hSync : s.sync = { s with buffer := [], out := s.out ++ chunk .data s.buffer } := by
      rw [PPTStreamBuf.sync, hBuffer, if_neg (by simp)]
      rfl
    rw [hSync]
    refine ⟨bodies ++ [s.buffer], ⟨?_, ?_, ?_, Nat.zero_le _, h.positive⟩, rfl, rfl⟩
    · rw [List.flatMap_append, List.flatMap_singleton, h.out, List.append_assoc]
    · rw [List.flatten_append, List.append_nil, ← h.data]
      simp
    · intro body hBody
      rcases List.mem_append.mp hBody with hOld | hNew
      · exact h.bodies body hOld
      · rw [List.mem_singleton.mp hNew]
        exact ⟨by simp [hBuffer], h.room⟩

theorem put (h : Wrote s out data bodies) (c : UInt8) :
    ∃ bodies', Wrote (s.sputc c) out (data ++ [c]) bodies' ∧ (s.sputc c).dBufsize = s.dBufsize := by
  rw [PPTStreamBuf.sputc]
  split
  · rename_i hRoom
    refine ⟨bodies, ⟨h.out, ?_, h.bodies, ?_, h.positive⟩, rfl⟩
    · rw [← h.data, List.append_assoc]
    · rw [List.length_append, List.length_singleton]
      exact hRoom
  · obtain ⟨bodies', hSync, hEmpty, hSize⟩ := h.sync
    refine ⟨bodies', ⟨hSync.out, ?_, hSync.bodies, ?_, hSync.positive⟩, hSize⟩
    · rw [← hSync.data, List.append_assoc]
      rfl
    · rw [PPTStreamBuf.overflow, hEmpty]
      exact hSync.positive

theorem writeAll (h : Wrote s out data bodies) (os : List Output) :
    ∃ bodies', Wrote (s.writeAll os) out (data ++ putBytes os) bodies' ∧ (s.writeAll os).dBufsize = s.dBufsize := by
  induction os generalizing s data bodies with
  | nil =>
    rw [putBytes, List.flatMap_nil, List.append_nil]
    exact ⟨bodies, h, rfl⟩
  | cons o os ih =>
    cases o with
    | put c =>
      obtain ⟨bodies₁, hPut, hSize⟩ := h.put c
      obtain ⟨bodies₂, hRest, hSize'⟩ := ih hPut
      rw [List.append_assoc] at hRest
      exact ⟨bodies₂, hRest, hSize'.trans hSize⟩
    | flush =>
      obtain ⟨bodies₁, hSync, -, hSize⟩ := h.sync
      obtain ⟨bodies₂, hRest, hSize'⟩ := ih hSync
      exact ⟨bodies₂, hRest, hSize'.trans hSize⟩

end Wrote

theorem opened_wrote (bufsize : Nat) (out : Bytes) : Wrote (.opened bufsize out) out [] [] := by
  refine ⟨(List.append_nil out).symm, rfl, nofun, Nat.zero_le _, ?_⟩
  change 0 < (if bufsize = 0 then 1 else bufsize)
  split <;> omega

theorem eodMarker_eq : PPTStreamBuf.eodMarker = chunkHeader .data 0 := by decide

/-- A text in chunks. -/
def InChunks (bufsize : Nat) (data wire : Bytes) : Prop :=
  ∃ bodies, wire = bodies.flatMap (chunk .data) ∧ bodies.flatten = data ∧ Bodies (max 1 bufsize) bodies

theorem opened_size (bufsize : Nat) (out : Bytes) : (PPTStreamBuf.opened bufsize out).dBufsize = max 1 bufsize := by
  rw [PPTStreamBuf.opened]
  simp only
  split <;> omega

theorem Wrote.flushed {s : PPTStreamBuf} {out data : Bytes} {bodies : List Bytes} {bufsize : Nat}
    (h : Wrote s out data bodies) (hSize : s.dBufsize = max 1 bufsize) :
    ∃ wire, s.sync.out = out ++ wire ∧ InChunks bufsize data wire := by
  obtain ⟨bodies', hSync, hEmpty, hSame⟩ := h.sync
  refine ⟨_, hSync.out, bodies', rfl, ?_, ?_⟩
  · rw [← hSync.data, hEmpty, List.append_nil]
  · rw [← hSize, ← hSame]
    exact hSync.bodies

/-- What a response without an error is on the wire. -/
theorem execute_normal (bufsize : Nat) (out : Bytes) (outputs : List Output) :
    ∃ wire, execute bufsize out ⟨outputs, none⟩ = out ++ (wire ++ chunkHeader .data 0) ∧
      InChunks bufsize (putBytes outputs) wire := by
  obtain ⟨bodies, hAll, hSize⟩ := (opened_wrote bufsize out).writeAll outputs
  obtain ⟨wire, hOut, hChunks⟩ := hAll.flushed (hSize.trans (opened_size bufsize out))
  refine ⟨wire, ?_, hChunks⟩
  rw [execute]
  simp only [PPTStreamBuf.finish, hOut, eodMarker_eq, List.append_assoc]

/-- With an error, the extension chunk is between the two parts. -/
theorem execute_error (bufsize : Nat) (out : Bytes) (outputs : List Output) (e : ErrorReport) :
    ∃ wire wire', execute bufsize out ⟨outputs, some e⟩ =
        out ++ (wire ++ (sendExtensions (statusError e.fatal) ++ (wire' ++ chunkHeader .data 0))) ∧
      InChunks bufsize (putBytes outputs) wire ∧ InChunks bufsize (putBytes e.outputs) wire' := by
  obtain ⟨bodies, hAll, hSize⟩ := (opened_wrote bufsize out).writeAll outputs
  have hOpened := hSize.trans (opened_size bufsize out)
  obtain ⟨wire, hOut, hChunks⟩ := hAll.flushed hOpened
  obtain ⟨-, -, hEmpty, hSame⟩ := hAll.sync
  generalize hFds : ((PPTStreamBuf.opened bufsize out).writeAll outputs).sync = fds at *
  have hAgain : Wrote { fds with out := fds.out ++ sendExtensions (statusError e.fatal) }
      (fds.out ++ sendExtensions (statusError e.fatal)) [] [] := by
    refine ⟨(List.append_nil _).symm, hEmpty, nofun, ?_, ?_⟩
    · rw [hEmpty]
      exact Nat.zero_le _
    · rw [hSame, hOpened]
      exact Nat.lt_of_lt_of_le Nat.zero_lt_one (Nat.le_max_left 1 bufsize)
  obtain ⟨bodies', hMore, hSize'⟩ := hAgain.writeAll e.outputs
  obtain ⟨wire', hOut', hChunks'⟩ := hMore.flushed (hSize'.trans (hSame.trans hOpened))
  refine ⟨wire, wire', ?_, hChunks, hChunks'⟩
  rw [execute]
  simp only [hFds, PPTStreamBuf.finish]
  rw [hOut', hOut, eodMarker_eq]
  simp only [List.append_assoc]

end Libdap.Ppt
