import Libdap.Dap4.DataDdx
import Libdap.Core.Latest

/-! # The headers of a response

`Connect::parse_mime` reads them from a file, `ParseHeader` of `HTTPConnect` gets them line by line. Both split a line
with `parse_mime_header`, whose names end before the colon.
-/

namespace Libdap.Dap4
open Core Constraint Latest
set_option autoImplicit false

structure Response where
  type : ObjectType
  version : Word
  protocol : Word
  deriving DecidableEq, Repr

def defaultVersion : Word := "dods/0.0".toList

def defaultProtocol : Word := "2.0".toList

/-- The constructor. -/
def Response.new : Response := ⟨.unknownType, defaultVersion, defaultProtocol⟩

/-! ## Connect -/

/-- The body of the loop of `parse_mime`. -/
def Response.takeMime (rs : Response) (mime : Word) : Response :=
  let (header, value) := parseMimeHeader mime
  if header = "content-description:".toList then { rs with type := getDescriptionType value }
  else if header = "xdods-server:".toList ∧ rs.version = defaultVersion then { rs with version := value }
  else if header = "xopendap-server:".toList then { rs with version := value }
  else if header = "xdap:".toList then { rs with protocol := value }
  else if rs.version = defaultVersion ∧ header = "server:".toList then { rs with version := value }
  else rs

/-- The loop, from the header that was read last. -/
def mimeLoop : Nat → Word → Response → CFile → Except Fault (Response × CFile)
  | 0, _, _, _ => .error .undefined
  | fuel + 1, mime, rs, f =>
    if mime.isEmpty then .ok (rs, f)
    else do
      let next ← getNextMimeHeaderFile f
      mimeLoop fuel next.1 (rs.takeMime mime) next.2

/-- `Connect::parse_mime` -/
def parseMime (rs : Response) (f : CFile) : Except Fault (Response × CFile) := do
  let first ← getNextMimeHeaderFile f
  mimeLoop (f.rest.length + 1) first.1 { rs with version := defaultVersion, protocol := defaultProtocol } first.2

/-! ## HTTPConnect -/

structure ParseHeader where
  type : ObjectType
  server : Word
  protocol : Word
  location : Word
  deriving DecidableEq, Repr

def ParseHeader.new : ParseHeader := ⟨.unknownType, defaultVersion, defaultProtocol, []⟩

/-- `operator()` -/
def ParseHeader.take (p : ParseHeader) (line : Word) : ParseHeader :=
  let (name, value) := parseMimeHeader line
  if name = "content-description".toList then { p with type := getDescriptionType value }
  else if name = "xdods-server".toList ∧ p.server = defaultVersion then { p with server := value }
  else if name = "xopendap-server".toList then { p with server := value }
  else if name = "xdap".toList then { p with protocol := value }
  else if p.server = defaultVersion ∧ name = "server".toList then { p with server := value }
  else if name = "location".toList then { p with location := value }
  else if p.type = .unknownType ∧ name = "content-type".toList ∧ hasPart line "text/html".toList then
    { p with type := .webError }
  else p

/-- `for_each` over the lines -/
def scanHeaders (lines : List Word) : ParseHeader := lines.foldl ParseHeader.take ParseHeader.new

/-! ## Headers -/

/-- A header line: a name, a colon, blanks and a value. -/
structure MimeHeader where
  name : Word
  blanks : Nat
  value : Word
  name_printable : Printable name
  name_colon : ':' ∉ name
  value_printable : Printable value
  value_trimmed : value.head? ≠ some ' '

namespace MimeHeader

def behindColon (h : MimeHeader) : Word := List.replicate h.blanks ' ' ++ h.value

def line (h : MimeHeader) : Word := h.name ++ ':' :: h.behindColon

def named (name : String) (h : MimeHeader) : Bool := downcase h.name = name.toList

/-- The value that was sent. -/
def sent (h : MimeHeader) : Word := downcase h.value

/-- What is behind the first blank, as far as the buffers reach. -/
def behindBlank (h : MimeHeader) : Word := downcase ((skipUntil ' ' 1023 h.behindColon).1.take 1022)

def isVersion (h : MimeHeader) : Bool := h.named "xopendap-server" || h.named "xdods-server" || h.named "server"

/-- A page of the server's instead of an answer. -/
def isPage (h : MimeHeader) : Bool := h.named "content-type" && hasPart h.line "text/html".toList

end MimeHeader

open MimeHeader

def fileOf (hs : List MimeHeader) : Word := hs.flatMap (fun h => h.line ++ CRLF) ++ CRLF

/-- The header that has the version: `XOPeNDAP-Server`, then `XDODS-Server`, then `Server`. -/
def versionHeader (hs : List MimeHeader) : Option MimeHeader :=
  ((latest (named "xopendap-server") hs).or (latest (named "xdods-server") hs)).or (latest (named "server") hs)

/-- What the headers say. -/
def said (hs : List MimeHeader) : Response where
  type := ((latest (named "content-description") hs).map fun h => getDescriptionType h.sent).getD .unknownType
  version := ((versionHeader hs).map sent).getD defaultVersion
  protocol := ((latest (named "xdap") hs).map sent).getD defaultProtocol

/-- Both scanners end with what the headers say. -/
def BothRead (hs : List MimeHeader) : Prop :=
  (∃ f, parseMime Response.new (openFile (fileOf hs)) = .ok (said hs, f)) ∧
    (scanHeaders (hs.map line)).type = (said hs).type ∧ (scanHeaders (hs.map line)).server = (said hs).version ∧
      (scanHeaders (hs.map line)).protocol = (said hs).protocol

/-- The headers say nothing but what holds without them, and no more is read from them. -/
structure SaysDefaults (hs : List MimeHeader) : Prop where
  type : ∀ h ∈ latest (named "content-description") hs, getDescriptionType h.sent = .unknownType
  version : ∀ h ∈ versionHeader hs, h.sent = defaultVersion
  protocol : ∀ h ∈ latest (named "xdap") hs, h.sent = defaultProtocol
  type_read : ∀ h ∈ since (named "content-description") hs, h.isPage = false ∧
    (h.named "content-description" = true → getDescriptionType h.behindBlank = .unknownType)
  version_read : ∀ h ∈ since (named "xopendap-server") hs, h.isVersion = true → h.behindBlank = defaultVersion
  protocol_read : ∀ h ∈ since (named "xdap") hs, h.named "xdap" = true → h.behindBlank = defaultProtocol

/-! ## What `parse_mime` finds -/

theorem toLower_colon {c : Char} (h : c.toLower = ':') : c = ':' := by
  delta Char.toLower at h
  split at h
  · rename_i hUpper
    have hLow : 65 ≤ c.val.toNat := hUpper.1
    have hHigh : c.val.toNat ≤ 90 := hUpper.2
    have hSum : (c.val + ('a'.val - 'A'.val)).toNat = 58 := congrArg (fun d : Char => d.val.toNat) h
    rw [UInt32.toNat_add] at hSum
    change (c.val.toNat + 32) % 4294967296 = 58 at hSum
    omega
  · exact h

theorem takeUntil_not_mem {d : Char} (n : Nat) (w : Word) : d ∉ (takeUntil d n w).1 := by
  induction w generalizing n with
  | nil => simp [takeUntil]
  | cons c cs ih =>
    rw [takeUntil.eq_def]
    dsimp only
    split
    · exact List.not_mem_nil
    · rename_i hOther
      cases n with
      | zero => exact List.not_mem_nil
      | succ n =>
        rintro (_ | ⟨_, h⟩)
        · exact hOther rfl
        · exact ih n h

theorem mem_cString {c : Char} {w : Word} (h : c ∈ cString w) : c ∈ w := (List.takeWhile_prefix _).subset h

/-- A name has no colon. -/
theorem parseMimeHeader_colon (header : Word) : ':' ∉ (parseMimeHeader header).1 := by
  intro h
  obtain ⟨c, hc, hLower⟩ := List.mem_map.mp h
  have hColon := toLower_colon hLower
  subst hColon
  have hRead := mem_cString hc
  rw [CharStream.getline] at hRead
  split at hRead
  · cases hRead
  · dsimp only at hRead
    split at hRead
    · exact takeUntil_not_mem _ _ hRead
    · exact takeUntil_not_mem _ _ hRead
    · exact takeUntil_not_mem _ _ hRead

/-- So none of the names that `parse_mime` looks for is ever found. -/
theorem takeMime_eq (rs : Response) (mime : Word) : rs.takeMime mime = rs := by
  have hColon := parseMimeHeader_colon mime
  have hName : ∀ name : Word, ':' ∈ name → (parseMimeHeader mime).1 ≠ name :=
    fun name hIn hEq => hColon (hEq ▸ hIn)
  rw [Response.takeMime]
  dsimp only
  rw [if_neg (hName _ (by decide)), if_neg fun h => hName _ (by decide) h.1, if_neg (hName _ (by decide)),
    if_neg (hName _ (by decide)), if_neg fun h => hName _ (by decide) h.2]

/-- Whole lines, without a null character. -/
structure Ended (u : Word) : Prop where
  last : u = [] ∨ ∃ v, u = v ++ ['\n']
  nul : nul ∉ u

theorem ended_behind {line w : Word} (h : Ended (line ++ '\n' :: w)) : Ended w := by
  refine ⟨?_, fun hIn => h.nul (by simp [hIn])⟩
  rcases List.eq_nil_or_concat w with rfl | ⟨v, c, rfl⟩
  · exact .inl rfl
  · right
    rcases h.last with hNil | ⟨v', hEnd⟩
    · simp at hNil
    · have hLast := congrArg List.getLast? hEnd
      rw [List.concat_eq_append, ← List.cons_append, ← List.append_assoc, List.getLast?_concat, List.getLast?_concat,
        Option.some.injEq] at hLast
      exact ⟨v, by rw [List.concat_eq_append, hLast]⟩

theorem next_piece {f f' : CFile} {piece : Word} (hEof : f.eof = false) (hRead : fgets lineLength f = (some piece, f'))
    (hLength : 2 ≤ piece.length) (hNul : nul ∉ piece) : ∃ header, getNextMimeHeaderFile f = .ok (header, f') := by
  have hLine : cString piece = piece := cString_eq hNul
  have hMin : ¬ min piece.length lineLength < 2 := by
    rw [lineLength]
    omega
  rw [getNextMimeHeaderFile, hEof, if_neg Bool.false_ne_true, hRead]
  dsimp only
  rw [hLine, if_neg hMin]
  split
  · exact ⟨_, rfl⟩
  · split <;> exact ⟨_, rfl⟩

/-- A line of a file: its header is read, or there is none in it. -/
theorem next_ended {u : Word} (hu : Ended u) : ∃ header f,
    getNextMimeHeaderFile (openFile (u ++ CRLF)) = .ok (header, f) ∧
    (header = [] ∨ ∃ u', u'.length < u.length ∧ Ended u' ∧ f = openFile (u' ++ CRLF)) := by
  rcases hu.last with rfl | ⟨v, hv⟩
  · exact ⟨[], openFile [], fileReader_lines.blank [], .inl rfl⟩
  · have hIn : '\n' ∈ u := by simp [hv]
    obtain ⟨line, w, rfl, hLine⟩ := List.eq_append_cons_of_mem hIn
    have hFile : line ++ '\n' :: w ++ CRLF = line ++ '\n' :: (w ++ CRLF) := by simp
    have hRest := ended_behind hu
    have hLineNul : nul ∉ line := fun h => hu.nul (List.mem_append_left _ h)
    rw [hFile]
    rcases Nat.lt_or_ge line.length 1023 with hShort | hLong
    · have hRead := fgets_line (n := lineLength) (w := w ++ CRLF) hLine (by rw [lineLength]; omega)
      have hNul : nul ∉ line ++ ['\n'] := by
        have hOther : nul ≠ '\n' := by decide
        simp [hLineNul, hOther]
      have hBehind : ∃ u', u'.length < (line ++ '\n' :: w).length ∧ Ended u' ∧
          openFile (w ++ CRLF) = openFile (u' ++ CRLF) :=
        ⟨w, by simp only [List.length_append, List.length_cons]; omega, hRest, rfl⟩
      cases line with
      | nil => exact ⟨[], openFile (w ++ CRLF), by rw [getNextMimeHeaderFile, hRead]; rfl, .inl rfl⟩
      | cons c cs =>
        obtain ⟨header, hNext⟩ := next_piece rfl hRead (by simp) hNul
        exact ⟨header, _, hNext, .inr hBehind⟩
    · have hRead := fgets_long (n := 1023) (w := w ++ CRLF) hLine hLong
      have hNul : nul ∉ line.take 1023 := fun h => hLineNul (List.mem_of_mem_take h)
      obtain ⟨header, hNext⟩ := next_piece rfl hRead (by rw [List.length_take]; omega) hNul
      refine ⟨header, _, hNext, .inr ⟨line.drop 1023 ++ '\n' :: w, ?_, ?_, by simp⟩⟩
      · simp only [List.length_append, List.length_drop, List.length_cons]
        omega
      · refine ⟨?_, fun h => hu.nul ?_⟩
        · rcases hRest.last with rfl | ⟨v', rfl⟩
          · exact .inr ⟨line.drop 1023, rfl⟩
          · exact .inr ⟨line.drop 1023 ++ '\n' :: v', by simp⟩
        · rcases List.mem_append.mp h with hIn | hIn
          · exact List.mem_append_left _ (List.mem_of_mem_drop hIn)
          · exact List.mem_append_right _ hIn

theorem mimeLoop_ended (rs : Response) (fuel : Nat) {mime : Word} {f : CFile}
    (h : mime = [] ∧ 0 < fuel ∨ ∃ u, Ended u ∧ f = openFile (u ++ CRLF) ∧ u.length + 1 < fuel) :
    ∃ f', mimeLoop fuel mime rs f = .ok (rs, f') := by
  induction fuel generalizing mime f with
  | zero =>
    rcases h with ⟨-, hNone⟩ | ⟨u, -, -, hNone⟩
    · exact absurd hNone (Nat.lt_irrefl 0)
    · exact absurd hNone (Nat.not_lt_zero _)
  | succ fuel ih =>
    rw [mimeLoop]
    by_cases hEmpty : mime = []
    · exact ⟨f, by rw [hEmpty]; rfl⟩
    · rw [if_neg (by simpa using hEmpty)]
      rcases h with ⟨hNone, -⟩ | ⟨u, hu, rfl, hFuel⟩
      · exact absurd hNone hEmpty
      · obtain ⟨header, f, hNext, hRest⟩ := next_ended hu
        rw [hNext, ok_bind, takeMime_eq]
        apply ih
        rcases hRest with hBlank | ⟨u', hShorter, hu', rfl⟩
        · exact .inl ⟨hBlank, by omega⟩
        · exact .inr ⟨u', hu', rfl, by omega⟩

theorem line_nul (h : MimeHeader) : nul ∉ h.line := by
  intro hIn
  rw [line, behindColon, List.mem_append, List.mem_cons, List.mem_append] at hIn
  rcases hIn with hName | hColon | hBlank | hValue
  · exact h.name_printable.nul hName
  · exact absurd hColon (by decide)
  · exact absurd (List.eq_of_mem_replicate hBlank) (by decide)
  · exact h.value_printable.nul hValue

theorem lines_ended (hs : List MimeHeader) : Ended (hs.flatMap fun h => h.line ++ CRLF) := by
  induction hs with
  | nil => exact ⟨.inl rfl, List.not_mem_nil⟩
  | cons h hs ih =>
    rw [List.flatMap_cons]
    constructor
    · right
      rcases ih.last with hNil | ⟨v, hEnd⟩
      · exact ⟨h.line ++ ['\r'], by rw [hNil]; simp [CRLF]⟩
      · exact ⟨h.line ++ CRLF ++ v, by rw [hEnd]; simp⟩
    · intro hIn
      rcases List.mem_append.mp hIn with hHead | hRest
      · rcases List.mem_append.mp hHead with hLine | hEnd
        · exact line_nul h hLine
        · exact absurd hEnd (by decide)
      · exact ih.nul hRest

/-- Whatever the headers are, the response stays as it was made. -/
theorem parseMime_eq (hs : List MimeHeader) :
    ∃ f, parseMime Response.new (openFile (fileOf hs)) = .ok (Response.new, f) := by
  obtain ⟨header, f, hNext, hRest⟩ := next_ended (lines_ended hs)
  rw [parseMime, fileOf, hNext, ok_bind]
  apply mimeLoop_ended
  rcases hRest with hBlank | ⟨u, hShorter, hu, rfl⟩
  · exact .inl ⟨hBlank, Nat.succ_pos _⟩
  · refine .inr ⟨u, hu, rfl, ?_⟩
    simp only [openFile, List.length_append]
    omega

/-! ## What the scan finds -/

theorem skipUntil_suffix (d : Char) (n : Nat) (w : Word) : (skipUntil d n w).1 <:+ w := by
  induction w generalizing n with
  | nil => cases n <;> exact List.suffix_refl []
  | cons c cs ih =>
    cases n with
    | zero => exact List.suffix_refl _
    | succ n =>
      rw [skipUntil]
      split
      · exact List.suffix_cons c cs
      · exact (ih n).trans (List.suffix_cons c cs)

theorem skipUntil_eof {d : Char} {n : Nat} {w : Word} (h : (skipUntil d n w).2 = true) : (skipUntil d n w).1 = [] := by
  induction w generalizing n with
  | nil =>
    cases n with
    | zero => cases h
    | succ n => rfl
  | cons c cs ih =>
    cases n with
    | zero => cases h
    | succ n =>
      rw [skipUntil] at h ⊢
      split at h
      · cases h
      · rename_i hOther
        rw [if_neg hOther]
        exact ih h

theorem takeUntil_take {d : Char} {n : Nat} {w : Word} (h : d ∉ w) : (takeUntil d n w).1 = w.take n := by
  rcases Nat.lt_or_ge n w.length with hLong | hShort
  · have hRead := takeUntil_long (w := []) h hLong
    rw [List.append_nil] at hRead
    rw [hRead]
  · rw [takeUntil_end h hShort, List.take_of_length_le hShort]

/-- What is read behind the colon. -/
theorem getline_ignore {w : Word} (h : '\n' ∉ w) :
    (((openStream List.length w).ignore 1023 ' ').getline 1023 '\n').1 = (skipUntil ' ' 1023 w).1.take 1022 := by
  have hRest : '\n' ∉ (skipUntil ' ' 1023 w).1 := fun hIn => h ((skipUntil_suffix ' ' 1023 w).subset hIn)
  have hIgnore : (openStream List.length w).ignore 1023 ' ' =
      ⟨(skipUntil ' ' 1023 w).1, (skipUntil ' ' 1023 w).2, false, List.length⟩ := rfl
  rw [hIgnore, CharStream.getline]
  dsimp only
  cases hEof : (skipUntil ' ' 1023 w).2 with
  | true =>
    rw [skipUntil_eof hEof]
    rfl
  | false =>
    rw [Bool.or_self, if_neg Bool.false_ne_true, ← takeUntil_take (n := 1022) hRest]
    split <;> rfl

/-- The value of a short name's header is what is behind the first blank. -/
theorem parseMimeHeader_short {h : MimeHeader} (hShort : h.name.length < 1023) :
    parseMimeHeader h.line = (downcase h.name, h.behindBlank) := by
  have hFirst := takeUntil_name (w := h.behindColon) h.name_colon hShort
  have hValue : '\n' ∉ h.behindColon ∧ nul ∉ h.behindColon := by
    constructor
    · intro hIn
      rcases List.mem_append.mp hIn with hBlank | hIn
      · exact absurd (List.eq_of_mem_replicate hBlank) (by decide)
      · exact h.value_printable.lf hIn
    · exact fun hIn => line_nul h (by simp [line, hIn])
  have hSecond := getline_ignore hValue.1
  have hNul : nul ∉ (skipUntil ' ' 1023 h.behindColon).1.take 1022 := fun hIn =>
    hValue.2 ((skipUntil_suffix ' ' 1023 h.behindColon).subset (List.mem_of_mem_take hIn))
  simp only [openStream] at hFirst hSecond
  simp only [parseMimeHeader, line, hFirst, hSecond, cString_eq h.name_printable.nul, cString_eq hNul, behindBlank]

/-- A long name is cut. -/
theorem parseMimeHeader_long {h : MimeHeader} (hLong : 1023 ≤ h.name.length) :
    (parseMimeHeader h.line).1.length = 1022 := by
  have hRead : takeUntil ':' 1022 (h.name ++ ':' :: h.behindColon) = (h.name.take 1022, _, .full) :=
    takeUntil_long h.name_colon (by omega)
  have hNul : nul ∉ h.name.take 1022 := fun hIn => h.name_printable.nul (List.mem_of_mem_take hIn)
  simp only [parseMimeHeader, CharStream.getline, line, hRead, Bool.or_self, Bool.false_eq_true, if_false, downcase,
    cString_eq hNul, List.length_map, List.length_take, Nat.add_one_sub_one]
  omega

/-- Which header it is, and its value. -/
theorem parseMimeHeader_named (h : MimeHeader) (name : String) (hName : name.toList.length < 1022) :
    ((parseMimeHeader h.line).1 = name.toList ↔ h.named name = true) ∧
      (h.named name = true → (parseMimeHeader h.line).2 = h.behindBlank) := by
  rcases Nat.lt_or_ge h.name.length 1023 with hShort | hLong
  · rw [parseMimeHeader_short hShort, named, decide_eq_true_iff]
    exact ⟨Iff.rfl, fun _ => rfl⟩
  · have hCut := parseMimeHeader_long hLong
    have hNot : h.named name = false := by
      rw [named, decide_eq_false_iff_not]
      intro hEq
      have hLength := congrArg List.length hEq
      rw [downcase, List.length_map] at hLength
      omega
    rw [hNot]
    refine ⟨⟨fun hEq => ?_, fun hFalse => absurd hFalse Bool.false_ne_true⟩,
      fun hFalse => absurd hFalse Bool.false_ne_true⟩
    rw [hEq] at hCut
    omega

/-- A header has one name. -/
theorem named_other {h : MimeHeader} {name : String} (hName : h.named name = true) (other : String)
    (hOther : name ≠ other) : h.named other = false := by
  rw [named, decide_eq_true_iff] at hName
  rw [named, hName, decide_eq_false_iff_not, String.toList_inj]
  exact hOther

/-- What the scan does with a header. -/
theorem take_eq (p : ParseHeader) (h : MimeHeader) : p.take h.line =
    if h.named "content-description" then { p with type := getDescriptionType h.behindBlank }
    else if h.named "xdods-server" ∧ p.server = defaultVersion then { p with server := h.behindBlank }
    else if h.named "xopendap-server" then { p with server := h.behindBlank }
    else if h.named "xdap" then { p with protocol := h.behindBlank }
    else if p.server = defaultVersion ∧ h.named "server" then { p with server := h.behindBlank }
    else if h.named "location" then { p with location := h.behindBlank }
    else if p.type = .unknownType ∧ h.isPage then { p with type := .webError }
    else p := by
  have hType := parseMimeHeader_named h "content-description" (by decide)
  have hOld := parseMimeHeader_named h "xdods-server" (by decide)
  have hNew := parseMimeHeader_named h "xopendap-server" (by decide)
  have hProtocol := parseMimeHeader_named h "xdap" (by decide)
  have hServer := parseMimeHeader_named h "server" (by decide)
  have hPlace := parseMimeHeader_named h "location" (by decide)
  have hPage := parseMimeHeader_named h "content-type" (by decide)
  rw [ParseHeader.take]
  simp only [hType.1, hOld.1, hNew.1, hProtocol.1, hServer.1, hPlace.1, hPage.1, isPage, Bool.and_eq_true]
  split
  · rw [hType.2 ‹_›]
  · split
    · rw [hOld.2 (And.left ‹_›)]
    · split
      · rw [hNew.2 ‹_›]
      · split
        · rw [hProtocol.2 ‹_›]
        · split
          · rw [hServer.2 (And.right ‹_›)]
          · split
            · rw [hPlace.2 ‹_›]
            · rfl

def headerStep (p : ParseHeader) (h : MimeHeader) : ParseHeader := p.take h.line

theorem scanHeaders_eq (hs : List MimeHeader) : scanHeaders (hs.map line) = hs.foldl headerStep ParseHeader.new := by
  rw [scanHeaders, List.foldl_map]
  rfl

theorem protocol_step : Step headerStep (fun p => p.protocol = defaultProtocol) (named "xdap")
    fun h => h.named "xdap" = true → h.behindBlank = defaultProtocol where
  set p h hSets := by
    rw [headerStep, take_eq]
    simp [hSets, named_other hSets]
  keep p h hKeeps := by
    rw [headerStep, take_eq, hKeeps]
    split_ifs <;> simp_all

theorem version_step : Step headerStep (fun p => p.server = defaultVersion) (named "xopendap-server")
    fun h => h.isVersion = true → h.behindBlank = defaultVersion where
  set p h hSets := by
    rw [headerStep, take_eq]
    simp [hSets, named_other hSets, isVersion]
  keep p h hKeeps := by
    rw [headerStep, take_eq, isVersion, hKeeps]
    by_cases hOld : h.named "xdods-server" = true
    · by_cases hDefault : p.server = defaultVersion
      · simp [hOld, named_other hOld, hDefault]
      · simp [hOld, named_other hOld, isPage, hDefault]
    · by_cases hServer : h.named "server" = true
      · by_cases hDefault : p.server = defaultVersion
        · simp [hOld, hServer, named_other hServer, hDefault]
        · simp [hOld, hServer, named_other hServer, isPage, hDefault]
      · split_ifs <;> simp_all

theorem type_step : Step headerStep (fun p => p.type = .unknownType) (named "content-description") fun h =>
    h.isPage = false ∧ (h.named "content-description" = true → getDescriptionType h.behindBlank = .unknownType) where
  set p h hSets := by
    rw [headerStep, take_eq]
    simp [hSets, named_other hSets, isPage]
  keep p h hKeeps := by
    rw [headerStep, take_eq, hKeeps]
    by_cases hPage : h.isPage = true
    · have hName : h.named "content-type" = true := (Bool.and_eq_true_iff.mp hPage).1
      by_cases hUnknown : p.type = .unknownType
      · simp [named_other hName, hPage, hUnknown]
      · simp [named_other hName, hUnknown]
    · split_ifs <;> simp_all

/-- When the scan ends with the defaults. -/
theorem scan_defaults (hs : List MimeHeader) :
    ((scanHeaders (hs.map line)).type = .unknownType ↔ ∀ h ∈ since (named "content-description") hs, h.isPage = false ∧
      (h.named "content-description" = true → getDescriptionType h.behindBlank = .unknownType)) ∧
    ((scanHeaders (hs.map line)).server = defaultVersion ↔
      ∀ h ∈ since (named "xopendap-server") hs, h.isVersion = true → h.behindBlank = defaultVersion) ∧
    ((scanHeaders (hs.map line)).protocol = defaultProtocol ↔
      ∀ h ∈ since (named "xdap") hs, h.named "xdap" = true → h.behindBlank = defaultProtocol) := by
  rw [scanHeaders_eq]
  refine ⟨(type_step.foldl hs ParseHeader.new).trans ?_, (version_step.foldl hs ParseHeader.new).trans ?_,
    (protocol_step.foldl hs ParseHeader.new).trans ?_⟩
  · exact and_iff_right (.inr rfl)
  · exact and_iff_right (.inr rfl)
  · exact and_iff_right (.inr rfl)

/-- When the headers say the defaults. -/
theorem said_defaults (hs : List MimeHeader) : said hs = Response.new ↔
    (∀ h ∈ latest (named "content-description") hs, getDescriptionType h.sent = .unknownType) ∧
      (∀ h ∈ versionHeader hs, h.sent = defaultVersion) ∧ ∀ h ∈ latest (named "xdap") hs, h.sent = defaultProtocol := by
  have hOption : ∀ {α β : Type} (o : Option α) (f : α → β) (b : β), (o.map f).getD b = b ↔ ∀ a ∈ o, f a = b := by
    intro α β o f b
    cases o with
    | none => simp
    | some a => simp
  rw [said, Response.new, Response.mk.injEq, hOption, hOption, hOption]

theorem bothRead_iff (hs : List MimeHeader) : BothRead hs ↔ SaysDefaults hs := by
  obtain ⟨f, hMime⟩ := parseMime_eq hs
  obtain ⟨hType, hVersion, hProtocol⟩ := scan_defaults hs
  constructor
  · rintro ⟨⟨f', hSaid⟩, hScanType, hScanVersion, hScanProtocol⟩
    have hDefault : said hs = Response.new := by
      rw [hMime] at hSaid
      exact (Prod.mk.inj (Except.ok.inj hSaid)).1.symm
    rw [hDefault] at hScanType hScanVersion hScanProtocol
    obtain ⟨hSaidType, hSaidVersion, hSaidProtocol⟩ := (said_defaults hs).mp hDefault
    exact ⟨hSaidType, hSaidVersion, hSaidProtocol, hType.mp hScanType, hVersion.mp hScanVersion,
      hProtocol.mp hScanProtocol⟩
  · intro hSays
    have hDefault := (said_defaults hs).mpr ⟨hSays.type, hSays.version, hSays.protocol⟩
    rw [BothRead, hDefault]
    exact ⟨⟨f, hMime⟩, hType.mpr hSays.type_read, hVersion.mpr hSays.version_read, hProtocol.mpr hSays.protocol_read⟩

/-- `XDAP: 3.2` -/
def xdapHeader : MimeHeader where
  name := "XDAP".toList
  blanks := 1
  value := "3.2".toList
  name_printable := ⟨by decide, by decide, by decide⟩
  name_colon := by decide
  value_printable := ⟨by decide, by decide, by decide⟩
  value_trimmed := by decide

theorem xdap_not_found : ¬ ∀ hs : List MimeHeader, BothRead hs := by
  intro hAll
  obtain ⟨⟨f, hRead⟩, -⟩ := hAll [xdapHeader]
  obtain ⟨f', hMime⟩ := parseMime_eq [xdapHeader]
  rw [hMime] at hRead
  have hSaid : Response.new = said [xdapHeader] := (Prod.mk.inj (Except.ok.inj hRead)).1
  exact absurd hSaid (by decide)

end Libdap.Dap4
