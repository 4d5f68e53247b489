import Libdap.Dap4.MimeUtil
import Mathlib.Data.List.TakeWhile

/-! # Reading back a multipart DataDDX document

The client is followed over the document `dataset_constraint_ddx` writes, with both kinds of stream. The lines of the
headers are read alike. Those of the DDX are not: the `FILE` version takes a long line in pieces and looks for the
boundary at the start of each, the `istream` version fails behind a line that is longer than its buffer.
-/

namespace Libdap.Dap4
open Core Constraint
set_option autoImplicit false

/-! ## Lines of a stream -/

theorem takeLine_line {n : Nat} {line w : Word} (hLine : '\n' ∉ line) (hLength : line.length < n) :
    takeLine n (line ++ '\n' :: w) = (line ++ ['\n'], w, false) := by
  induction line generalizing n with
  | nil =>
    obtain _ | n := n
    · exact absurd hLength (by simp)
    · simp [takeLine]
  | cons c cs ih =>
    obtain _ | n := n
    · exact absurd hLength (by simp)
    · have hRest := ih (fun h => hLine (List.mem_cons_of_mem c h)) (Nat.lt_of_succ_lt_succ hLength)
      have hHead : c ≠ '\n' := fun h => hLine (by simp [h])
      simp [takeLine, hHead, hRest]

theorem takeLine_long {n : Nat} {line w : Word} (hLine : '\n' ∉ line) (hLength : n ≤ line.length) :
    takeLine n (line ++ '\n' :: w) = (line.take n, line.drop n ++ '\n' :: w, false) := by
  induction line generalizing n with
  | nil =>
    obtain rfl : n = 0 := Nat.le_zero.mp hLength
    rfl
  | cons c cs ih =>
    obtain _ | n := n
    · rfl
    · have hRest := ih (fun h => hLine (List.mem_cons_of_mem c h)) (Nat.le_of_succ_le_succ hLength)
      have hHead : c ≠ '\n' := fun h => hLine (by simp [h])
      simp [takeLine, hHead, hRest]

theorem takeUntil_line {n : Nat} {line w : Word} {d : Char} (hLine : d ∉ line) (hLength : line.length ≤ n) :
    takeUntil d n (line ++ d :: w) = (line, w, .delim) := by
  induction line generalizing n with
  | nil => cases n <;> simp [takeUntil]
  | cons c cs ih =>
    obtain _ | n := n
    · exact absurd hLength (by simp)
    · have hRest := ih (fun h => hLine (List.mem_cons_of_mem c h)) (Nat.le_of_succ_le_succ hLength)
      have hHead : c ≠ d := fun h => hLine (by simp [h])
      simp [takeUntil, hHead, hRest]

theorem takeUntil_long {n : Nat} {line w : Word} {d : Char} (hLine : d ∉ line) (hLength : n < line.length) :
    takeUntil d n (line ++ w) = (line.take n, line.drop n ++ w, .full) := by
  induction line generalizing n with
  | nil => exact absurd hLength (by simp)
  | cons c cs ih =>
    have hHead : c ≠ d := fun h => hLine (by simp [h])
    obtain _ | n := n
    · simp [takeUntil, hHead]
    · have hRest := ih (fun h => hLine (List.mem_cons_of_mem c h)) (Nat.lt_of_succ_lt_succ hLength)
      simp [takeUntil, hHead, hRest]

theorem takeUntil_end {n : Nat} {line : Word} {d : Char} (hLine : d ∉ line) (hLength : line.length ≤ n) :
    takeUntil d n line = (line, [], .eof) := by
  induction line generalizing n with
  | nil => cases n <;> rfl
  | cons c cs ih =>
    obtain _ | n := n
    · exact absurd hLength (by simp)
    · have hRest := ih (fun h => hLine (List.mem_cons_of_mem c h)) (Nat.le_of_succ_le_succ hLength)
      have hHead : c ≠ d := fun h => hLine (by simp [h])
      simp [takeUntil, hHead, hRest]

theorem cString_eq {s : Word} (hs : nul ∉ s) : cString s = s :=
  List.takeWhile_eq_self_iff.mpr fun c hc => decide_eq_true fun hNul : c = nul => hs (hNul ▸ hc)

/-! ## Header lines -/

/-- Characters of one line of a header. -/
structure Printable (w : Word) : Prop where
  cr : '\r' ∉ w
  lf : '\n' ∉ w
  nul : nul ∉ w

theorem Printable.append {v w : Word} (hv : Printable v) (hw : Printable w) : Printable (v ++ w) where
  cr h := (List.mem_append.mp h).elim hv.cr hw.cr
  lf h := (List.mem_append.mp h).elim hv.lf hw.lf
  nul h := (List.mem_append.mp h).elim hv.nul hw.nul

variable {S : Type}

/-- The reader takes the lines of a header one by one. `here w` is the stream with `w` left to read. -/
structure LineReader (r : Reader S) (here : Word → S) : Prop where
  rest : ∀ w, r.rest (here w) = w
  line : ∀ line w, Printable line → line ≠ [] → line.length + 2 < lineLength →
    r.next (here (line ++ CRLF ++ w)) = .ok (line, here w)
  blank : ∀ w, r.next (here (CRLF ++ w)) = .ok ([], here w)

def openFile (w : Word) : CFile := ⟨w, false⟩

def openStream (inAvail : Word → Nat) (w : Word) : CharStream := ⟨w, false, false, inAvail⟩

theorem fgets_line {n : Nat} {line w : Word} (hLine : '\n' ∉ line) (hLength : line.length + 1 < n) :
    fgets n (openFile (line ++ '\n' :: w)) = (some (line ++ ['\n']), openFile w) := by
  simp [fgets, openFile, takeLine_line hLine (show line.length < n - 1 by omega)]

theorem getline_line {n : Nat} {line w : Word} {d : Char} {inAvail : Word → Nat} (hLine : d ∉ line)
    (hLength : line.length < n) :
    (openStream inAvail (line ++ d :: w)).getline n d = (line, line.length + 1, openStream inAvail w) := by
  simp [CharStream.getline, openStream, takeUntil_line hLine (show line.length ≤ n - 1 by omega)]

theorem fileReader_lines : LineReader fileReader openFile where
  rest _ := rfl
  line line w hLine hNe hLength := by
    have hCr : '\n' ∉ line ++ ['\r'] := by simpa using hLine.lf
    have hRead := fgets_line (n := lineLength) (w := w) hCr (by simpa using hLength)
    have hWhole : line ++ CRLF ++ w = (line ++ ['\r']) ++ '\n' :: w := by simp [CRLF]
    have hNul : nul ∉ line ++ ['\r'] ++ ['\n'] := by
      have hEnd : nul ≠ '\r' ∧ nul ≠ '\n' := by decide
      simp [hLine.nul, hEnd]
    have hMin : min (line ++ ['\r'] ++ ['\n']).length lineLength = line.length + 2 := by
      simp only [List.length_append, List.length_singleton]
      omega
    have hTake : (line ++ ['\r'] ++ ['\n']).take 2 ≠ CRLF := by
      obtain _ | ⟨c, cs⟩ := line
      · exact absurd rfl hNe
      · intro hEq
        obtain rfl : c = '\r' := by simpa [CRLF] using congrArg List.head? hEq
        exact hLine.cr (by simp)
    have hHead : (line ++ ['\r'] ++ ['\n']).head? ≠ some '\n' := by
      obtain _ | ⟨c, cs⟩ := line
      · exact absurd rfl hNe
      · intro hEq
        obtain rfl : c = '\n' := by simpa using hEq
        exact hLine.lf (by simp)
    rw [hWhole, fileReader]
    simp only [getNextMimeHeaderFile, hRead, cString_eq hNul, hMin, hTake, hHead]
    simp [openFile]
  blank w := by
    have hRead : fgets lineLength (openFile (['\r'] ++ '\n' :: w)) = (some (['\r'] ++ ['\n']), openFile w) :=
      fgets_line (by decide) (by decide)
    have hWhole : CRLF ++ w = ['\r'] ++ '\n' :: w := rfl
    rw [hWhole, fileReader]
    simp only [getNextMimeHeaderFile, hRead]
    simp [CRLF, openFile]

theorem streamReader_lines (inAvail : Word → Nat) : LineReader streamReader (openStream inAvail) where
  rest _ := rfl
  line line w hLine _ hLength := by
    have hCr : '\n' ∉ line ++ ['\r'] := by simpa using hLine.lf
    have hRead : (openStream inAvail (line ++ ['\r'] ++ '\n' :: w)).getline lineLength '\n' =
        (line ++ ['\r'], (line ++ ['\r']).length + 1, openStream inAvail w) := getline_line hCr (by simp; omega)
    have hWhole : line ++ CRLF ++ w = (line ++ ['\r']) ++ '\n' :: w := by simp [CRLF]
    have hNul : nul ∉ line ++ ['\r'] := by
      have hEnd : nul ≠ '\r' := by decide
      simp [hLine.nul, hEnd]
    rw [hWhole, streamReader]
    simp only [getNextMimeHeaderStream, hRead, cString_eq hNul]
    simp [openStream]
  blank w := by
    have hRead : (openStream inAvail (['\r'] ++ '\n' :: w)).getline lineLength '\n' =
        (['\r'], 2, openStream inAvail w) :=
      getline_line (by decide) (by decide)
    have hWhole : CRLF ++ w = ['\r'] ++ '\n' :: w := rfl
    rw [hWhole, streamReader]
    simp only [getNextMimeHeaderStream, hRead]
    simp [openStream, cString, nul]

/-! ## The headers of a part -/

theorem takeUntil_name {n : Nat} {name w : Word} (hName : ':' ∉ name) (hLength : name.length < n) :
    (openStream List.length (name ++ ':' :: w)).getline n ':' = (name, name.length + 1, openStream List.length w) :=
  getline_line hName hLength

/-- A header of the form `name: value`. -/
theorem parseMimeHeader_eq {name value : Word} (hName : ':' ∉ name) (hLength : name.length < 1023)
    (hValue : '\n' ∉ value) (hShort : value.length < 1023) (hNul : nul ∉ name) (hNul' : nul ∉ value) :
    parseMimeHeader (name ++ ':' :: ' ' :: value) = (downcase name, downcase value) := by
  have hFirst := takeUntil_name (w := ' ' :: value) hName hLength
  have hIgnore : (openStream List.length (' ' :: value)).ignore 1023 ' ' = openStream List.length value := by
    simp [CharStream.ignore, openStream, skipUntil]
  have hSecond : ((openStream List.length value).getline 1023 '\n').1 = value := by
    simp [CharStream.getline, openStream, takeUntil_end hValue (show value.length ≤ 1022 by omega)]
  simp only [openStream] at hFirst hIgnore hSecond
  simp only [parseMimeHeader, hFirst, hIgnore, hSecond, cString_eq hNul, cString_eq hNul']

/-- The header lines of a part. -/
def contentTypeLine (contentType : Word) : Word := "Content-Type: ".toList ++ contentType

def contentIdLine (cid : Word) : Word := "Content-Id: <".toList ++ cid ++ ['>']

def descriptionLine (type : ObjectType) : Word := "Content-Description: ".toList ++ descrip type

theorem setMimeBoundary_eq (contentType boundary cid : Word) (type : ObjectType) (w : Word) :
    setMimeBoundary contentType boundary cid type .xPlain ++ w =
      "--".toList ++ boundary ++ CRLF ++ (contentTypeLine contentType ++ CRLF ++ (contentIdLine cid ++ CRLF ++
        (descriptionLine type ++ CRLF ++ (CRLF ++ w)))) := by
  delta setMimeBoundary contentTypeLine contentIdLine descriptionLine
  simp only [List.append_assoc, ne_eq, not_true_eq_false, if_false, List.nil_append]

/-- A part whose headers are what the client asks for. -/
structure Expected (contentType cid : Word) (type : ObjectType) (wantedType wantedCid : Word) : Prop where
  printableType : Printable contentType
  printableCid : Printable cid
  typeShort : contentType.length < 900
  cidShort : cid.length + 16 < lineLength
  sameType : hasPart (downcase contentType) wantedType = true
  sameDescription : getDescriptionType (downcase (descrip type)) = type
  sameCid : wantedCid = [] ∨ wantedCid = downcase ('<' :: (cid ++ ['>']))

theorem printable_of_all {w : Word} (h : w.all (fun c => c ≠ '\r' ∧ c ≠ '\n' ∧ c ≠ nul) = true) : Printable w where
  cr hMem := by simpa using List.all_eq_true.mp h _ hMem
  lf hMem := by simpa using List.all_eq_true.mp h _ hMem
  nul hMem := by simpa using List.all_eq_true.mp h _ hMem

variable {contentType cid wantedType wantedCid : Word} {type : ObjectType} {seen : Seen}

theorem descrip_printable (type : ObjectType) : Printable (descrip type) ∧ (descrip type).length < 100 := by
  cases type <;> exact ⟨printable_of_all (by decide), by decide⟩

theorem parse_contentTypeLine (hPart : Expected contentType cid type wantedType wantedCid) :
    parseMimeHeader (contentTypeLine contentType) = ("content-type".toList, downcase contentType) := by
  have hLine : contentTypeLine contentType = "Content-Type".toList ++ ':' :: ' ' :: contentType := by
    have hName : "Content-Type: ".toList = "Content-Type".toList ++ [':', ' '] := by decide
    exact (congrArg (· ++ contentType) hName).trans (List.append_assoc ..)
  rw [hLine, parseMimeHeader_eq (by decide) (by decide) hPart.printableType.lf (hPart.typeShort.trans (by decide))
    (by decide) hPart.printableType.nul]
  exact congrArg (·, downcase contentType) (by decide)

theorem parse_contentIdLine (hPart : Expected contentType cid type wantedType wantedCid) :
    parseMimeHeader (contentIdLine cid) = ("content-id".toList, downcase ('<' :: (cid ++ ['>']))) := by
  have hLine : contentIdLine cid = "Content-Id".toList ++ ':' :: ' ' :: '<' :: (cid ++ ['>']) := by
    have hName : "Content-Id: <".toList = "Content-Id".toList ++ [':', ' ', '<'] := by decide
    delta contentIdLine
    rw [List.append_assoc]
    exact (congrArg (· ++ (cid ++ ['>'])) hName).trans (List.append_assoc ..)
  have hPrintable : Printable ('<' :: (cid ++ ['>'])) :=
    (printable_of_all (w := ['<']) (by decide)).append (hPart.printableCid.append (printable_of_all (by decide)))
  have hShort : ('<' :: (cid ++ ['>'])).length < 1023 := by
    have hCid := hPart.cidShort
    simp only [lineLength] at hCid
    simp only [List.length_cons, List.length_append, List.length_nil]
    omega
  rw [hLine, parseMimeHeader_eq (by decide) (by decide) hPrintable.lf hShort (by decide) hPrintable.nul]
  exact congrArg (·, downcase ('<' :: (cid ++ ['>']))) (by decide)

theorem parse_descriptionLine (type : ObjectType) :
    parseMimeHeader (descriptionLine type) = ("content-description".toList, downcase (descrip type)) := by
  have hLine : descriptionLine type = "Content-Description".toList ++ ':' :: ' ' :: descrip type := by
    have hName : "Content-Description: ".toList = "Content-Description".toList ++ [':', ' '] := by decide
    exact (congrArg (· ++ descrip type) hName).trans (List.append_assoc ..)
  obtain ⟨hPrintable, hShort⟩ := descrip_printable type
  rw [hLine, parseMimeHeader_eq (by decide) (by decide) hPrintable.lf (hShort.trans (by decide)) (by decide)
    hPrintable.nul]
  exact congrArg (·, downcase (descrip type)) (by decide)

theorem headers_checked (hPart : Expected contentType cid type wantedType wantedCid) :
    checkHeader wantedType type wantedCid (contentTypeLine contentType) seen = .ok { seen with ct := true } ∧
    checkHeader wantedType type wantedCid (contentIdLine cid) seen = .ok { seen with ci := true } ∧
    checkHeader wantedType type wantedCid (descriptionLine type) seen = .ok { seen with cd := true } := by
  have hDescription : "content-description".toList ≠ "content-type".toList := by decide
  have hId : "content-id".toList ≠ "content-type".toList ∧ "content-id".toList ≠ "content-description".toList := by
    decide
  delta checkHeader
  refine ⟨?_, ?_, ?_⟩
  · simp only [parse_contentTypeLine hPart]
    rw [if_pos trivial, if_pos hPart.sameType]
  · simp only [parse_contentIdLine hPart]
    rw [if_neg hId.1, if_neg hId.2, if_pos trivial, if_neg]
    rcases hPart.sameCid with hNone | hSame
    · simp [hNone]
    · simp [hSame]
  · simp only [parse_descriptionLine]
    rw [if_neg hDescription, if_pos trivial, if_pos hPart.sameDescription]

theorem headerLines_read (hPart : Expected contentType cid type wantedType wantedCid) :
    (Printable (contentTypeLine contentType) ∧ (contentTypeLine contentType).length + 2 < lineLength) ∧
    (Printable (contentIdLine cid) ∧ (contentIdLine cid).length + 2 < lineLength) ∧
    (Printable (descriptionLine type) ∧ (descriptionLine type).length + 2 < lineLength) := by
  have hType := hPart.typeShort
  have hCid := hPart.cidShort
  have hDescription := (descrip_printable type).2
  have hNames : "Content-Type: ".toList.length = 14 ∧ "Content-Id: <".toList.length = 13 ∧
      "Content-Description: ".toList.length = 21 := by decide
  simp only [lineLength] at hCid
  refine ⟨⟨?_, ?_⟩, ⟨?_, ?_⟩, ⟨?_, ?_⟩⟩
  · exact (printable_of_all (by decide)).append hPart.printableType
  · delta contentTypeLine
    rw [List.length_append, hNames.1, lineLength]
    omega
  · exact ((printable_of_all (by decide)).append hPart.printableCid).append (printable_of_all (by decide))
  · delta contentIdLine
    rw [List.length_append, List.length_append, hNames.2.1, List.length_singleton, lineLength]
    omega
  · exact (printable_of_all (by decide)).append (descrip_printable type).1
  · delta descriptionLine
    rw [List.length_append, hNames.2.2, lineLength]
    omega

variable {r : Reader S} {here : Word → S}

theorem headers_read (hReader : LineReader r here) (hPart : Expected contentType cid type wantedType wantedCid)
    (w : Word) :
    readMultipartHeaders r (here (contentTypeLine contentType ++ CRLF ++ (contentIdLine cid ++ CRLF ++
      (descriptionLine type ++ CRLF ++ (CRLF ++ w))))) wantedType type wantedCid = .ok (here w) := by
  obtain ⟨⟨hType, hTypeLength⟩, ⟨hId, hIdLength⟩, ⟨hDescription, hDescriptionLength⟩⟩ := headerLines_read hPart
  have hTypeNe : contentTypeLine contentType ≠ [] := List.append_ne_nil_of_left_ne_nil (by decide) _
  have hIdNe : contentIdLine cid ≠ [] := List.append_ne_nil_of_right_ne_nil _ (by decide)
  have hDescriptionNe : descriptionLine type ≠ [] := List.append_ne_nil_of_left_ne_nil (by decide) _
  obtain ⟨k, hk⟩ : ∃ k, (r.rest (here (contentTypeLine contentType ++ CRLF ++ (contentIdLine cid ++ CRLF ++
      (descriptionLine type ++ CRLF ++ (CRLF ++ w)))))).length + 1 = k + 4 := by
    rw [hReader.rest]
    refine Nat.exists_eq_add_of_le' ?_
    simp [CRLF]
    omega
  rw [readMultipartHeaders, hk, hReader.line _ _ hType hTypeNe hTypeLength]
  simp only [ok_bind]
  simp only [checkHeaders, List.isEmpty_eq_false_iff.mpr hTypeNe, List.isEmpty_eq_false_iff.mpr hIdNe,
    List.isEmpty_eq_false_iff.mpr hDescriptionNe, (headers_checked hPart).1, (headers_checked hPart).2.1,
    (headers_checked hPart).2.2, hReader.line _ _ hId hIdNe hIdLength,
    hReader.line _ _ hDescription hDescriptionNe hDescriptionLength, hReader.blank, ok_bind]
  simp

/-! ## The boundary -/

theorem isBoundary_iff {line boundary : Word} (hLine : nul ∉ line) (hBoundary : nul ∉ boundary) :
    isBoundary line ('-' :: '-' :: boundary) = true ↔ '-' :: '-' :: boundary <+: line := by
  have hNul : nul ∉ '-' :: '-' :: boundary := by
    have hDash : nul ≠ '-' := by decide
    simp [hDash, hBoundary]
  rw [isBoundary, strncmpEq, cString_eq hLine, cString_eq hNul, List.take_length]
  constructor
  · intro hTest
    split at hTest
    · cases hTest
    · rw [← of_decide_eq_true hTest]
      exact List.take_prefix ..
  · rintro ⟨rest, rfl⟩
    rw [if_neg (by simp), List.take_left]
    exact decide_eq_true rfl

theorem prefix_of_line {delim line : Word} (hDelim : '\n' ∉ delim) (hPrefix : delim <+: line ++ ['\n']) :
    delim <+: line := by
  rcases List.prefix_concat_iff.mp hPrefix with hWhole | hLine
  · exact absurd (hWhole ▸ by simp) hDelim
  · exact hLine

theorem prefix_take {delim line : Word} {n : Nat} (hShort : delim.length ≤ n) : delim <+: line.take n ↔
    delim <+: line := by
  constructor
  · intro hPrefix
    exact hPrefix.trans (List.take_prefix ..)
  · intro hPrefix
    exact List.prefix_take_iff.mpr ⟨hPrefix, hShort⟩

/-- Characters of a line of the DDX. -/
structure DdxLine (line : Word) : Prop where
  lf : '\n' ∉ line
  nul : nul ∉ line

theorem DdxLine.drop {line : Word} (hLine : DdxLine line) (n : Nat) : DdxLine (line.drop n) where
  lf h := hLine.lf (List.mem_of_mem_drop h)
  nul h := hLine.nul (List.mem_of_mem_drop h)

/-- The lines as one text. -/
def flat (lines : List Word) : Word := (lines.map fun line => line ++ ['\n']).flatten

theorem flat_cons (line : Word) (lines : List Word) : flat (line :: lines) = line ++ '\n' :: flat lines := by
  simp [flat]

variable {boundary line w : Word}

/-- No piece of the line that `fgets` reads looks like the boundary. -/
def NoPiece (delim line : Word) : Prop := ∀ k, ¬ delim <+: line.drop (1023 * k)

theorem noPiece_drop {delim : Word} : NoPiece delim line ↔ ¬ delim <+: line ∧ NoPiece delim (line.drop 1023) := by
  have hDrop : ∀ k, (line.drop 1023).drop (1023 * k) = line.drop (1023 * (k + 1)) := by
    intro k
    rw [List.drop_drop]
    congr 1
    omega
  constructor
  · intro hNone
    refine ⟨hNone 0, fun k => ?_⟩
    rw [hDrop]
    exact hNone (k + 1)
  · rintro ⟨hFirst, hRest⟩ k
    cases k with
    | zero => exact hFirst
    | succ k =>
      rw [← hDrop]
      exact hRest k

/-! ## The lines of the DDX from a `FILE` -/

theorem fgets_long {n : Nat} (hLine : '\n' ∉ line) (hLength : n ≤ line.length) :
    fgets (n + 1) (openFile (line ++ '\n' :: w)) = (some (line.take n), openFile (line.drop n ++ '\n' :: w)) := by
  simp [fgets, openFile, takeLine_long hLine hLength]

theorem fileLines_line (hBoundary : Printable boundary) :
    ∀ (n fuel : Nat) (line : Word), line.length = n → DdxLine line → NoPiece ('-' :: '-' :: boundary) line →
      (line ++ '\n' :: w).length < fuel → ∃ fuel', w.length < fuel' ∧
        fileLines ('-' :: '-' :: boundary) fuel (openFile (line ++ '\n' :: w)) =
          (line ++ '\n' :: (fileLines ('-' :: '-' :: boundary) fuel' (openFile w)).1,
            (fileLines ('-' :: '-' :: boundary) fuel' (openFile w)).2) := by
  intro n
  induction n using Nat.strong_induction_on with
  | _ n ih =>
    intro fuel line hn hLine hNone hFuel
    obtain _ | fuel := fuel
    · exact absurd hFuel (Nat.not_lt_zero _)
    have hLf : '\n' ∉ '-' :: '-' :: boundary := by simp [hBoundary.lf]
    by_cases hShort : line.length < 1023
    · have hTest : isBoundary (line ++ ['\n']) ('-' :: '-' :: boundary) = false := by
        rw [Bool.eq_false_iff]
        intro hTrue
        have hNul : nul ∉ line ++ ['\n'] := by
          have hEnd : nul ≠ '\n' := by decide
          simp [hLine.nul, hEnd]
        exact hNone 0 (prefix_of_line hLf ((isBoundary_iff hNul hBoundary.nul).mp hTrue))
      have hNul : nul ∉ line ++ ['\n'] := by
        have hEnd : nul ≠ '\n' := by decide
        simp [hLine.nul, hEnd]
      refine ⟨fuel, ?_, ?_⟩
      · simp only [List.length_append, List.length_cons] at hFuel
        omega
      · rw [fileLines, fgets_line hLine.lf (by omega)]
        simp [hTest, cString_eq hNul]
    · have hLong : 1023 ≤ line.length := by omega
      have hTakeNul : nul ∉ line.take 1023 := fun h => hLine.nul (List.mem_of_mem_take h)
      have hTest : isBoundary (line.take 1023) ('-' :: '-' :: boundary) = false := by
        rw [Bool.eq_false_iff]
        intro hTrue
        exact hNone 0 (((isBoundary_iff hTakeNul hBoundary.nul).mp hTrue).trans (List.take_prefix ..))
      have hLength : (line.drop 1023 ++ '\n' :: w).length < fuel := by
        simp only [List.length_append, List.length_cons, List.length_drop] at hFuel ⊢
        omega
      obtain ⟨fuel', hFuel', hRest⟩ := ih (line.drop 1023).length (by simp; omega) fuel (line.drop 1023) rfl
        (hLine.drop 1023) (noPiece_drop.mp hNone).2 hLength
      refine ⟨fuel', hFuel', ?_⟩
      rw [fileLines, fgets_long hLine.lf hLong]
      simp only [hTest, cString_eq hTakeNul, hRest]
      simp [← List.append_assoc]

/-- A piece that looks like the boundary ends the DDX inside its line. -/
theorem fileLines_cut (hBoundary : Printable boundary) (hLength : boundary.length + 2 ≤ 1023) :
    ∀ (n fuel : Nat) (line : Word), line.length = n → DdxLine line → ¬ NoPiece ('-' :: '-' :: boundary) line →
      (fileLines ('-' :: '-' :: boundary) fuel (openFile (line ++ '\n' :: w))).1.length ≤ line.length := by
  intro n
  induction n using Nat.strong_induction_on with
  | _ n ih =>
    intro fuel line hn hLine hSome
    obtain _ | fuel := fuel
    · exact Nat.zero_le _
    by_cases hShort : line.length < 1023
    · have hFirst : '-' :: '-' :: boundary <+: line := by
        by_contra hFirst
        refine hSome (noPiece_drop.mpr ⟨hFirst, fun k => ?_⟩)
        rw [List.drop_drop, List.drop_eq_nil_of_le (by omega)]
        simp
      have hNul : nul ∉ line ++ ['\n'] := by
        have hEnd : nul ≠ '\n' := by decide
        simp [hLine.nul, hEnd]
      have hTest := (isBoundary_iff hNul hBoundary.nul).mpr (hFirst.trans (List.prefix_append ..))
      rw [fileLines, fgets_line hLine.lf (by omega)]
      simp [hTest]
    · have hLong : 1023 ≤ line.length := by omega
      have hTakeNul : nul ∉ line.take 1023 := fun h => hLine.nul (List.mem_of_mem_take h)
      rw [fileLines, fgets_long hLine.lf hLong]
      by_cases hTest : isBoundary (line.take 1023) ('-' :: '-' :: boundary) = true
      · simp [hTest]
      · have hFirst : ¬ '-' :: '-' :: boundary <+: line := by
          rw [isBoundary_iff hTakeNul hBoundary.nul, prefix_take hLength] at hTest
          exact hTest
        have hRest := ih (line.drop 1023).length (by simp; omega) fuel (line.drop 1023) rfl (hLine.drop 1023)
          (fun hNone => hSome (noPiece_drop.mpr ⟨hFirst, hNone⟩))
        simp only [hTest, cString_eq hTakeNul, List.length_drop] at hRest ⊢
        simp only [Bool.false_eq_true, if_false, List.length_append, List.length_take]
        omega

/-- The line behind the DDX. -/
def boundaryLine (boundary w : Word) : Word := '-' :: '-' :: boundary ++ CRLF ++ w

theorem fileLines_boundary (hBoundary : Printable boundary) (hLength : boundary.length + 4 ≤ 1023) (fuel : Nat) :
    fileLines ('-' :: '-' :: boundary) (fuel + 1) (openFile (boundaryLine boundary w)) = ([], openFile w) := by
  have hLf : '\n' ∉ '-' :: '-' :: boundary ++ ['\r'] := by simp [hBoundary.lf]
  have hNul : nul ∉ '-' :: '-' :: boundary ++ ['\r'] ++ ['\n'] := by
    have hEnd : nul ≠ '\n' ∧ nul ≠ '\r' ∧ nul ≠ '-' := by decide
    simp [hBoundary.nul, hEnd]
  have hLine : boundaryLine boundary w = ('-' :: '-' :: boundary ++ ['\r']) ++ '\n' :: w := by simp [boundaryLine, CRLF]
  have hTest := (isBoundary_iff hNul hBoundary.nul).mpr (by rw [List.append_assoc]; exact List.prefix_append ..)
  rw [hLine, fileLines, fgets_line hLf (by simp; omega)]
  simp only [hTest, if_true]

theorem fileLines_all (hBoundary : Printable boundary) (hLength : boundary.length + 4 ≤ 1023) (lines : List Word) :
    ∀ fuel, (flat lines ++ boundaryLine boundary w).length < fuel → (∀ line ∈ lines, DdxLine line) →
      ((fileLines ('-' :: '-' :: boundary) fuel (openFile (flat lines ++ boundaryLine boundary w))).1 = flat lines ↔
        ∀ line ∈ lines, NoPiece ('-' :: '-' :: boundary) line) ∧
      ((∀ line ∈ lines, NoPiece ('-' :: '-' :: boundary) line) →
        (fileLines ('-' :: '-' :: boundary) fuel (openFile (flat lines ++ boundaryLine boundary w))).2 =
          openFile w) := by
  induction lines with
  | nil =>
    intro fuel hFuel _
    obtain _ | fuel := fuel
    · exact absurd hFuel (Nat.not_lt_zero _)
    have hRead := fileLines_boundary (w := w) hBoundary hLength fuel
    rw [show flat [] ++ boundaryLine boundary w = boundaryLine boundary w from rfl, hRead]
    simp [flat]
  | cons line lines ih =>
    intro fuel hFuel hLines
    have hLine := hLines line (List.mem_cons_self ..)
    rw [flat_cons, List.append_assoc, List.cons_append] at hFuel ⊢
    by_cases hNone : NoPiece ('-' :: '-' :: boundary) line
    · obtain ⟨fuel', hFuel', hRead⟩ := fileLines_line hBoundary _ fuel line rfl hLine hNone hFuel
      obtain ⟨hSame, hLeft⟩ := ih fuel' hFuel' fun l hl => hLines l (List.mem_cons_of_mem _ hl)
      rw [hRead]
      refine ⟨?_, ?_⟩
      · simp [hSame, hNone]
      · intro hAll
        exact hLeft fun l hl => hAll l (List.mem_cons_of_mem _ hl)
    · have hCut := fileLines_cut (w := flat lines ++ boundaryLine boundary w) hBoundary
          (by omega) _ fuel line rfl hLine hNone
      refine ⟨⟨?_, ?_⟩, ?_⟩
      · intro hSame
        rw [hSame] at hCut
        simp at hCut
      · intro hAll
        exact absurd (hAll line (List.mem_cons_self ..)) hNone
      · intro hAll
        exact absurd (hAll line (List.mem_cons_self ..)) hNone

/-! ## The lines of the DDX from an `istream` -/

variable {inAvail : Word → Nat}

theorem streamLines_line (hBoundary : Printable boundary) (hLine : DdxLine line) (hShort : line.length ≤ 1023)
    (hOther : ¬ '-' :: '-' :: boundary <+: line) (fuel : Nat) :
    streamLines ('-' :: '-' :: boundary) (fuel + 1) ((openStream inAvail (line ++ '\n' :: w)).getline 1024 '\n') =
      (line ++ '\n' :: (streamLines ('-' :: '-' :: boundary) fuel ((openStream inAvail w).getline 1024 '\n')).1,
        (streamLines ('-' :: '-' :: boundary) fuel ((openStream inAvail w).getline 1024 '\n')).2) := by
  have hNul : nul ∉ line ++ ['\n'] := by
    have hEnd : nul ≠ '\n' := by decide
    simp [hLine.nul, hEnd]
  have hLf : '\n' ∉ '-' :: '-' :: boundary := by simp [hBoundary.lf]
  have hTest : isBoundary (line ++ ['\n']) ('-' :: '-' :: boundary) = false := by
    rw [Bool.eq_false_iff]
    intro hTrue
    exact hOther (prefix_of_line hLf ((isBoundary_iff hNul hBoundary.nul).mp hTrue))
  rw [getline_line hLine.lf (by omega), streamLines]
  simp [hTest]

theorem getline_long (hLine : DdxLine line) (hLong : 1023 < line.length) :
    (openStream inAvail (line ++ '\n' :: w)).getline 1024 '\n' =
      (line.take 1023, 1023, ⟨line.drop 1023 ++ '\n' :: w, false, true, inAvail⟩) := by
  simp only [CharStream.getline, openStream, takeUntil_long hLine.lf hLong]
  simp
  omega

theorem getline_count (hLine : DdxLine line) : ((openStream inAvail (line ++ '\n' :: w)).getline 1024
    '\n').2.1 ≠ 0 := by
  by_cases hShort : line.length ≤ 1023
  · rw [getline_line hLine.lf (by omega)]
    exact Nat.succ_ne_zero _
  · rw [getline_long hLine (by omega)]
    exact Nat.succ_ne_zero _

/-- A line that does not fit makes the stream fail, and its last character is lost. -/
theorem streamLines_long (hLine : DdxLine line) (hLong : 1023 < line.length) (fuel : Nat) :
    (streamLines ('-' :: '-' :: boundary) fuel ((openStream inAvail (line ++ '\n' :: w)).getline 1024 '\n')).1.length ≤
      line.length := by
  obtain _ | fuel := fuel
  · exact Nat.zero_le _
  have hRest : (streamLines ('-' :: '-' :: boundary) fuel
      ((⟨line.drop 1023 ++ '\n' :: w, false, true, inAvail⟩ : CharStream).getline 1024 '\n')).1 = [] := by
    cases fuel with
    | zero => rfl
    | succ fuel => simp [CharStream.getline, streamLines]
  rw [getline_long hLine hLong, streamLines]
  split
  · exact Nat.zero_le _
  · rw [hRest]
    simp
    omega

theorem streamLines_boundary (hBoundary : Printable boundary) (hLength : boundary.length + 4 ≤ 1023) (fuel : Nat) :
    streamLines ('-' :: '-' :: boundary) (fuel + 1) ((openStream inAvail (boundaryLine boundary w)).getline 1024 '\n') =
      ([], openStream inAvail w) := by
  have hLf : '\n' ∉ '-' :: '-' :: boundary ++ ['\r'] := by simp [hBoundary.lf]
  have hNul : nul ∉ '-' :: '-' :: boundary ++ ['\r'] ++ ['\n'] := by
    have hEnd : nul ≠ '\n' ∧ nul ≠ '\r' ∧ nul ≠ '-' := by decide
    simp [hBoundary.nul, hEnd]
  have hLine : boundaryLine boundary w = ('-' :: '-' :: boundary ++ ['\r']) ++ '\n' :: w := by simp [boundaryLine, CRLF]
  have hTest := (isBoundary_iff hNul hBoundary.nul).mpr (by rw [List.append_assoc]; exact List.prefix_append ..)
  rw [hLine, getline_line hLf (by simp; omega), streamLines, List.take_of_length_le (by simp), hTest]
  simp

theorem streamLines_all (hBoundary : Printable boundary) (hLength : boundary.length + 4 ≤ 1023) (lines : List Word) :
    ∀ fuel, lines.length < fuel → (∀ line ∈ lines, DdxLine line ∧ ¬ '-' :: '-' :: boundary <+: line) →
      ((streamLines ('-' :: '-' :: boundary) fuel
          ((openStream inAvail (flat lines ++ boundaryLine boundary w)).getline 1024 '\n')).1 = flat lines ↔
        ∀ line ∈ lines, line.length ≤ 1023) ∧
      ((∀ line ∈ lines, line.length ≤ 1023) →
        (streamLines ('-' :: '-' :: boundary) fuel
          ((openStream inAvail (flat lines ++ boundaryLine boundary w)).getline 1024 '\n')).2 =
            openStream inAvail w) := by
  induction lines with
  | nil =>
    intro fuel hFuel _
    obtain _ | fuel := fuel
    · exact absurd hFuel (Nat.not_lt_zero _)
    have hRead := @streamLines_boundary boundary w inAvail hBoundary hLength fuel
    rw [show flat [] ++ boundaryLine boundary w = boundaryLine boundary w from rfl, hRead]
    simp [flat]
  | cons line lines ih =>
    intro fuel hFuel hLines
    obtain _ | fuel := fuel
    · exact absurd hFuel (Nat.not_lt_zero _)
    obtain ⟨hLine, hOther⟩ := hLines line (List.mem_cons_self ..)
    rw [flat_cons, List.append_assoc, List.cons_append]
    by_cases hShort : line.length ≤ 1023
    · obtain ⟨hSame, hLeft⟩ := ih fuel (by simpa using hFuel) fun l hl => hLines l (List.mem_cons_of_mem _ hl)
      rw [streamLines_line hBoundary hLine hShort hOther]
      refine ⟨?_, ?_⟩
      · simp [hSame, hShort]
      · intro hAll
        exact hLeft fun l hl => hAll l (List.mem_cons_of_mem _ hl)
    · have hCut := @streamLines_long boundary line (flat lines ++ boundaryLine boundary w) inAvail hLine (by omega)
        (fuel + 1)
      refine ⟨⟨?_, ?_⟩, ?_⟩
      · intro hSame
        rw [hSame] at hCut
        simp at hCut
      · intro hAll
        exact absurd (hAll line (List.mem_cons_self ..)) hShort
      · intro hAll
        exact absurd (hAll line (List.mem_cons_self ..)) hShort

/-! ## The document -/

/-- A well-formed multipart document with a DDX part and a data part. The lines of the headers fit into a buffer of
`get_next_mime_header`; no line of the DDX begins with the boundary. -/
structure DataDdx where
  boundary : Word
  start : Word
  cid : Word
  /-- The first line, behind `<?xml`. -/
  prolog : Word
  lines : List Word
  data : Word
  printable : Printable boundary ∧ Printable start ∧ Printable cid
  boundaryFits : boundary.length + 4 < lineLength
  startFits : start.length + 16 < lineLength
  cidFits : cid.length + 16 < lineLength
  ddxLines : DdxLine prolog ∧ ∀ line ∈ lines, DdxLine line
  noBoundary : ∀ line ∈ lines, ¬ '-' :: '-' :: boundary <+: line

namespace DataDdx

variable (d : DataDdx)

def delimiter : Word := '-' :: '-' :: d.boundary

def firstLine : Word := '<' :: '?' :: 'x' :: 'm' :: 'l' :: d.prolog

def ddx : Word := flat (d.firstLine :: d.lines)

def dataPart : Word := setMimeDataBoundary d.boundary d.cid .dap4Data .xPlain ++ d.data

def document : Word := datasetConstraintDdx d.boundary d.start d.cid d.ddx d.data

theorem firstLine_line : DdxLine d.firstLine where
  lf := by simp [firstLine, d.ddxLines.1.lf]
  nul := by
    have hOthers : nul ≠ '<' ∧ nul ≠ '?' ∧ nul ≠ 'x' ∧ nul ≠ 'm' ∧ nul ≠ 'l' := by decide
    simp [firstLine, d.ddxLines.1.nul, hOthers]

theorem ddx_split (n : Nat) : d.ddx = d.firstLine.take n ++ flat (d.firstLine.drop n :: d.lines) := by
  rw [ddx, flat_cons, flat_cons, ← List.append_assoc, List.take_append_drop]

theorem first_expected : Expected "Text/xml; charset=iso-8859-1".toList d.start .dap4Ddx "text/xml".toList [] where
  printableType := printable_of_all (by decide)
  printableCid := d.printable.2.1
  typeShort := by decide
  cidShort := d.startFits
  sameType := by decide
  sameDescription := by decide
  sameCid := .inl rfl

theorem second_expected :
    Expected "application/octet-stream".toList d.cid .dap4Data "application/octet-stream".toList
      (downcase ('<' :: (d.cid ++ ['>']))) where
  printableType := printable_of_all (by decide)
  printableCid := d.printable.2.2
  typeShort := by decide
  cidShort := d.cidFits
  sameType := by decide
  sameDescription := by decide
  sameCid := .inr rfl

def dataHeaders : Word :=
  contentTypeLine "application/octet-stream".toList ++ CRLF ++ (contentIdLine d.cid ++ CRLF ++
    (descriptionLine .dap4Data ++ CRLF ++ (CRLF ++ d.data)))

theorem dashes_eq (w : Word) : "--".toList ++ w = '-' :: '-' :: w := by
  rw [show "--".toList = ['-', '-'] by decide]
  rfl

theorem dataPart_eq : d.dataPart = boundaryLine d.boundary d.dataHeaders := by
  rw [dataPart, setMimeDataBoundary, setMimeBoundary_eq, dashes_eq]
  rfl

theorem document_eq : d.document = d.delimiter ++ CRLF ++
    (contentTypeLine "Text/xml; charset=iso-8859-1".toList ++ CRLF ++
    (contentIdLine d.start ++ CRLF ++ (descriptionLine .dap4Ddx ++ CRLF ++ (CRLF ++ (d.ddx ++ d.dataPart))))) := by
  have hDocument : d.document = setMimeDdxBoundary d.boundary d.start .dap4Ddx .xPlain ++ (d.ddx ++ d.dataPart) := by
    rw [document, datasetConstraintDdx, dataPart]
    simp only [List.append_assoc]
  rw [hDocument, setMimeDdxBoundary, setMimeBoundary_eq, dashes_eq]
  rfl

theorem delimiter_printable : Printable d.delimiter :=
  (printable_of_all (w := ['-', '-']) (by decide)).append d.printable.1

theorem boundary_read (hReader : LineReader r here) (w : Word) :
    readMultipartBoundary r (here (d.delimiter ++ CRLF ++ w)) [] = .ok (d.delimiter, here w) := by
  have hFits : d.delimiter.length + 2 < lineLength := by
    have hBoundary := d.boundaryFits
    simp only [delimiter, List.length_cons]
    omega
  rw [readMultipartBoundary, hReader.line _ _ d.delimiter_printable (List.cons_ne_nil _ _) hFits]
  simp [ok_bind, delimiter]

/-- What `process_data` does, but for reading the DDX. -/
theorem process_eq (hReader : LineReader r here) (intern : S → Word → Except Fault (Word × Word × S)) :
    processDataDdx r intern (here d.document) = (do
      let ddx ← intern (here (d.ddx ++ d.dataPart)) d.delimiter
      let dataCid ← cidToHeaderValue ddx.2.1
      let s ← readMultipartHeaders r ddx.2.2 "application/octet-stream".toList .dap4Data dataCid
      .ok (ddx.1, s)) := by
  delta processDataDdx
  rw [d.document_eq, d.boundary_read hReader]
  simp only [ok_bind]
  rw [headers_read hReader d.first_expected]
  rfl

theorem process_ok {intern : S → Word → Except Fault (Word × Word × S)} {t : Word} (hReader : LineReader r here)
    (hIntern : intern (here (d.ddx ++ d.dataPart)) d.delimiter = .ok (t, "cid:".toList ++ d.cid, here d.dataHeaders)) :
    processDataDdx r intern (here d.document) = .ok (t, here d.data) := by
  have hCid : cidToHeaderValue ("cid:".toList ++ d.cid) = .ok (downcase ('<' :: (d.cid ++ ['>']))) := by
    rw [show "cid:".toList = ['c', 'i', 'd', ':'] by decide, cidToHeaderValue,
      show "cid:".toList = ['c', 'i', 'd', ':'] by decide]
    simp
  rw [d.process_eq hReader, hIntern]
  simp only [ok_bind, hCid]
  rw [dataHeaders, headers_read hReader d.second_expected]
  rfl

theorem process_intern {intern : S → Word → Except Fault (Word × Word × S)} {t : Word} {s : S}
    (hReader : LineReader r here)
    (hOk : processDataDdx r intern (here d.document) = .ok (t, s)) :
    ∃ cid s', intern (here (d.ddx ++ d.dataPart)) d.delimiter = .ok (t, cid, s') := by
  rw [d.process_eq hReader] at hOk
  obtain ⟨⟨t', cid, s'⟩, hIntern, hRest⟩ := bind_eq_ok hOk
  obtain ⟨dataCid, -, hRest⟩ := bind_eq_ok hRest
  obtain ⟨s'', -, hRest⟩ := bind_eq_ok hRest
  obtain ⟨rfl, -⟩ : t' = t ∧ s'' = s := by simpa using hRest
  exact ⟨cid, s', hIntern⟩

end DataDdx

/-! ## What the client makes of it -/

theorem file_read_iff (d : DataDdx) {parse : ParseDdx} (hParse : parse d.ddx = .ok ("cid:".toList ++ d.cid)) :
    processDataDdx fileReader (internFile parse) (openFile d.document) = .ok (d.ddx, openFile d.data) ↔
      ∀ line ∈ d.firstLine.drop 4 :: d.lines, NoPiece d.delimiter line := by
  have hFits : d.boundary.length + 4 ≤ 1023 := Nat.le_of_lt_succ d.boundaryFits
  have hLines : ∀ line ∈ d.firstLine.drop 4 :: d.lines, DdxLine line := by
    rintro line hLine
    rcases List.mem_cons.mp hLine with rfl | hLine
    · exact d.firstLine_line.drop 4
    · exact d.ddxLines.2 line hLine
  have hSplit := d.ddx_split 4
  have hFour : (d.ddx ++ d.dataPart).take 4 = d.firstLine.take 4 ∧
      (d.ddx ++ d.dataPart).drop 4 = flat (d.firstLine.drop 4 :: d.lines) ++ boundaryLine d.boundary d.dataHeaders := by
    rw [hSplit, d.dataPart_eq]
    exact ⟨rfl, rfl⟩
  have hFuel : (flat (d.firstLine.drop 4 :: d.lines) ++ boundaryLine d.boundary d.dataHeaders).length <
      (d.ddx ++ d.dataPart).length + 1 := by
    rw [← hFour.2, List.length_drop]
    omega
  obtain ⟨hSame, hLeft⟩ := fileLines_all d.printable.1 hFits _ _ hFuel hLines
  have hIntern : internFile parse (openFile (d.ddx ++ d.dataPart)) d.delimiter = (do
      let lines := fileLines d.delimiter ((d.ddx ++ d.dataPart).length + 1)
        (openFile (flat (d.firstLine.drop 4 :: d.lines) ++ boundaryLine d.boundary d.dataHeaders))
      let cid ← parse (d.firstLine.take 4 ++ lines.1)
      .ok (d.firstLine.take 4 ++ lines.1, cid, lines.2)) := by
    simp only [internFile, openFile, hFour]
    rfl
  constructor
  · intro hOk
    obtain ⟨cid, s', hDone⟩ := d.process_intern fileReader_lines hOk
    rw [hIntern] at hDone
    obtain ⟨cid', -, hRest⟩ := bind_eq_ok hDone
    have hText : d.firstLine.take 4 ++ _ = d.ddx := congrArg Prod.fst (Except.ok.inj hRest)
    exact hSame.mp (List.append_cancel_left (hText.trans hSplit))
  · intro hAll
    apply d.process_ok fileReader_lines
    rw [hIntern]
    have hText := hSame.mpr hAll
    have hEnd := hLeft hAll
    rw [← DataDdx.delimiter] at hText hEnd
    simp only [hText, hEnd, ← hSplit, hParse]
    rfl

theorem stream_read_iff (d : DataDdx) {parse : ParseDdx} (hParse : parse d.ddx = .ok ("cid:".toList ++ d.cid))
    (inAvail : Word → Nat) :
    processDataDdx streamReader (internStream parse) (openStream inAvail d.document) =
        .ok (d.ddx, openStream inAvail d.data) ↔
      0 < inAvail (d.ddx ++ d.dataPart) ∧
      ∀ line ∈ d.firstLine.drop (min 4 (inAvail (d.ddx ++ d.dataPart))) :: d.lines, line.length ≤ 1023 := by
  have hFits : d.boundary.length + 4 ≤ 1023 := Nat.le_of_lt_succ d.boundaryFits
  generalize hAvail : inAvail (d.ddx ++ d.dataPart) = avail
  have hSplit := d.ddx_split (min 4 avail)
  have hTake : (d.ddx ++ d.dataPart).take (min 4 avail) = d.firstLine.take (min 4 avail) ∧
      (d.ddx ++ d.dataPart).drop (min 4 avail) =
        flat (d.firstLine.drop (min 4 avail) :: d.lines) ++ boundaryLine d.boundary d.dataHeaders := by
    have hLength : (d.firstLine.take (min 4 avail)).length = min 4 avail := by
      simp [DataDdx.firstLine]
    rw [hSplit, d.dataPart_eq, List.append_assoc]
    exact ⟨List.take_left' hLength, List.drop_left' hLength⟩
  by_cases hSome : 0 < avail
  · have hFirst : (d.firstLine.take (min 4 avail)).isEmpty = false := by
      obtain ⟨k, hk⟩ : ∃ k, min 4 avail = k + 1 := ⟨min 4 avail - 1, by omega⟩
      rw [hk]
      rfl
    have hLines : ∀ line ∈ d.firstLine.drop (min 4 avail) :: d.lines, DdxLine line ∧ ¬ d.delimiter <+: line := by
      rintro line hLine
      rcases List.mem_cons.mp hLine with rfl | hLine
      · refine ⟨d.firstLine_line.drop _, ?_⟩
        have hCases : min 4 avail = 1 ∨ min 4 avail = 2 ∨ min 4 avail = 3 ∨ min 4 avail = 4 := by omega
        rcases hCases with hk | hk | hk | hk <;> rw [hk] <;> simp [DataDdx.firstLine, DataDdx.delimiter]
      · exact ⟨d.ddxLines.2 line hLine, d.noBoundary line hLine⟩
    have hFuel : (d.firstLine.drop (min 4 avail) :: d.lines).length < (d.ddx ++ d.dataPart).length + 1 := by
      have hCount : ∀ lines : List Word, lines.length ≤ (flat lines).length := by
        intro lines
        induction lines with
        | nil => exact Nat.zero_le _
        | cons line lines ih =>
          rw [flat_cons]
          simp only [List.length_cons, List.length_append]
          omega
      have hDdx := hCount (d.firstLine :: d.lines)
      rw [List.length_append, DataDdx.ddx]
      simp only [List.length_cons] at hDdx ⊢
      omega
    obtain ⟨hSame, hLeft⟩ := @streamLines_all d.boundary d.dataHeaders inAvail d.printable.1 hFits _ _ hFuel hLines
    have hCount := @getline_count _ (flat d.lines ++ boundaryLine d.boundary d.dataHeaders) inAvail
      (d.firstLine_line.drop (min 4 avail))
    rw [← List.cons_append, ← List.append_assoc, ← flat_cons] at hCount
    have hIntern : internStream parse (openStream inAvail (d.ddx ++ d.dataPart)) d.delimiter = (do
        let lines := streamLines d.delimiter ((d.ddx ++ d.dataPart).length + 1)
          ((openStream inAvail (flat (d.firstLine.drop (min 4 avail) :: d.lines) ++
            boundaryLine d.boundary d.dataHeaders)).getline 1024 '\n')
        let cid ← parse (d.firstLine.take (min 4 avail) ++ lines.1)
        .ok (d.firstLine.take (min 4 avail) ++ lines.1, cid, lines.2)) := by
      simp only [openStream] at hCount
      simp only [internStream, openStream, hAvail, hTake, hFirst, hCount]
      rfl
    constructor
    · intro hOk
      obtain ⟨cid, s', hDone⟩ := d.process_intern (streamReader_lines inAvail) hOk
      rw [hIntern] at hDone
      obtain ⟨cid', -, hRest⟩ := bind_eq_ok hDone
      have hText : d.firstLine.take (min 4 avail) ++ _ = d.ddx := congrArg Prod.fst (Except.ok.inj hRest)
      exact ⟨hSome, hSame.mp (List.append_cancel_left (hText.trans hSplit))⟩
    · rintro ⟨-, hAll⟩
      apply d.process_ok (streamReader_lines inAvail)
      rw [hIntern]
      have hText := hSame.mpr hAll
      have hEnd := hLeft hAll
      rw [← DataDdx.delimiter] at hText hEnd
      simp only [hText, hEnd, ← hSplit, hParse]
      rfl
  · have hNone : avail = 0 := by omega
    have hIntern : internStream parse (openStream inAvail (d.ddx ++ d.dataPart)) d.delimiter =
        .ok ([], [], openStream inAvail (d.ddx ++ d.dataPart)) := by
      simp [internStream, openStream, hAvail, hNone]
    refine ⟨fun hOk => ?_, fun hBoth => absurd hBoth.1 hSome⟩
    rw [d.process_eq (streamReader_lines inAvail), hIntern] at hOk
    cases hOk

/-- The two tests of `read_multipart_boundary` are passed by other lines only. -/
theorem boundary_throws_iff (r : Reader S) {s s' : S} {line expected : Word} (hExpected : expected ≠ [])
    (hRead : r.next s = .ok (line, s')) :
    ((∃ e, readMultipartBoundary r s expected = .error e) ↔ line ≠ expected) ↔
      line ≠ expected ∧ (isBoundary line expected ∨ ¬ ['-', '-'] <+: line) := by
  have hThrows : (∃ e, readMultipartBoundary r s expected = .error e) ↔
      (isBoundary line expected ∨ ¬ ['-', '-'] <+: line) := by
    have hNonempty : expected.isEmpty = false := List.isEmpty_eq_false_iff.mpr hExpected
    rw [readMultipartBoundary, hRead]
    simp only [ok_bind, hNonempty, Bool.not_false, Bool.true_and, Bool.or_eq_true, Bool.not_eq_true']
    rw [← List.isPrefixOf_iff_prefix, Bool.not_eq_true]
    constructor
    · rintro ⟨e, hThrow⟩
      by_contra hPassed
      rw [if_neg hPassed] at hThrow
      cases hThrow
    · intro hTest
      exact ⟨badBoundary, if_pos hTest⟩
  -- The expected line itself never passes.
  have hSelf : line = expected → isBoundary line expected ∨ ¬ ['-', '-'] <+: line := by
    rintro rfl
    by_cases hDashes : ['-', '-'] <+: line
    · obtain ⟨rest, rfl⟩ := hDashes
      left
      have hNul : '-' ≠ nul := by decide
      simp [isBoundary, strncmpEq, cString, hNul]
    · exact .inr hDashes
  rw [hThrows]
  constructor
  · intro hExact
    by_cases hSame : line = expected
    · exact absurd hSame (hExact.mp (hSelf hSame))
    · exact ⟨hSame, hExact.mpr hSame⟩
  · rintro ⟨hOther, hTest⟩
    exact ⟨fun _ => hOther, fun _ => hTest⟩

/-- The `FILE` version reads back a document whose long lines have no boundary at the start of a piece. The `istream`
version needs a filled buffer and lines that fit into its own. A boundary that is asked for is rejected. -/
theorem dataDdx_read (d : DataDdx) (parse : ParseDdx) (hParse : parse d.ddx = .ok ("cid:".toList ++ d.cid)) :
    (processDataDdx fileReader (internFile parse) (openFile d.document) = .ok (d.ddx, openFile d.data) ↔
      ∀ line ∈ d.firstLine.drop 4 :: d.lines, NoPiece d.delimiter line) ∧
    (∀ inAvail, processDataDdx streamReader (internStream parse) (openStream inAvail d.document) =
        .ok (d.ddx, openStream inAvail d.data) ↔
      0 < inAvail (d.ddx ++ d.dataPart) ∧
      ∀ line ∈ d.firstLine.drop (min 4 (inAvail (d.ddx ++ d.dataPart))) :: d.lines, line.length ≤ 1023) ∧
    ∀ {S : Type} (r : Reader S) (s s' : S) (line expected : Word), expected ≠ [] → r.next s = .ok (line, s') →
      (((∃ e, readMultipartBoundary r s expected = .error e) ↔ line ≠ expected) ↔
        line ≠ expected ∧ (isBoundary line expected ∨ ¬ ['-', '-'] <+: line)) :=
  ⟨file_read_iff d hParse, stream_read_iff d hParse, fun r _ _ _ _ => boundary_throws_iff r⟩

/-- The characters of the first reference, up to the quotation mark. -/
def findCid (ddx : Word) : Except Fault Word :=
  .ok (((ddx.tails.find? fun t => "cid:".toList.isPrefixOf t).getD []).takeWhile fun c => c ≠ '"')

def shortDdx : DataDdx where
  boundary := ['b']
  start := ['s']
  cid := ['d']
  prolog := ['?', '>']
  lines := ["<blob href=\"cid:d\"/>".toList]
  data := [nul, '\n', '-', '-', 'b']
  printable := ⟨printable_of_all (by decide), printable_of_all (by decide), printable_of_all (by decide)⟩
  boundaryFits := by decide
  startFits := by decide
  cidFits := by decide
  ddxLines := ⟨⟨by decide, by decide⟩, by
    intro line hLine
    obtain rfl := List.mem_singleton.mp hLine
    exact ⟨by decide, by decide⟩⟩
  noBoundary := by
    intro line hLine
    obtain rfl := List.mem_singleton.mp hLine
    decide

theorem shortDdx_read :
    processDataDdx fileReader (internFile findCid) (openFile shortDdx.document) =
      .ok (shortDdx.ddx, openFile shortDdx.data) ∧
    processDataDdx streamReader (internStream findCid) (openStream (fun _ => 4) shortDdx.document) =
      .ok (shortDdx.ddx, openStream (fun _ => 4) shortDdx.data) ∧
    ((∃ e, readMultipartBoundary fileReader (openFile ['y', '\n']) ['-', '-', 'x'] = .error e) ↔
    ['y'] ≠ ['-', '-', 'x']) := by
  obtain ⟨hFile, hStream, hThrows⟩ := dataDdx_read shortDdx findCid rfl
  refine ⟨hFile.mpr ?_, (hStream fun _ => 4).mpr ⟨by decide, by decide⟩, ?_⟩
  · have hShort : ∀ line ∈ shortDdx.firstLine.drop 4 :: shortDdx.lines, line.length ≤ 1023 ∧
        ¬ shortDdx.delimiter <+: line := by
      decide
    intro line hLine k
    cases k with
    | zero => exact (hShort line hLine).2
    | succ k =>
      rw [List.drop_eq_nil_of_le (by have hLength := (hShort line hLine).1; omega)]
      decide
  · exact (hThrows fileReader (openFile ['y', '\n']) (openFile []) ['y'] ['-', '-', 'x'] (by decide) rfl).mpr
      (by decide)

def longLine : Word := List.replicate 1024 'a'

theorem eq_of_mem_longLine {c : Char} (h : c ∈ longLine) : c = 'a' := List.eq_of_mem_replicate h

/-- The same document with a line of 1024 characters. -/
def longDdx : DataDdx where
  boundary := shortDdx.boundary
  start := shortDdx.start
  cid := shortDdx.cid
  prolog := shortDdx.prolog
  lines := shortDdx.lines ++ [longLine]
  data := shortDdx.data
  printable := shortDdx.printable
  boundaryFits := shortDdx.boundaryFits
  startFits := shortDdx.startFits
  cidFits := shortDdx.cidFits
  ddxLines := ⟨shortDdx.ddxLines.1, by
    intro line hLine
    rcases List.mem_append.mp hLine with hLine | hLine
    · exact shortDdx.ddxLines.2 line hLine
    · obtain rfl := List.mem_singleton.mp hLine
      exact ⟨fun h => absurd (eq_of_mem_longLine h) (by decide), fun h => absurd (eq_of_mem_longLine h) (by decide)⟩⟩
  noBoundary := by
    intro line hLine
    rcases List.mem_append.mp hLine with hLine | hLine
    · exact shortDdx.noBoundary line hLine
    · obtain rfl := List.mem_singleton.mp hLine
      rintro hPrefix
      exact absurd (eq_of_mem_longLine (hPrefix.subset (List.mem_cons_self ..))) (by decide)

/-- No buffer lets the `istream` version read the long line. The expected boundary is rejected, another one is not. -/
theorem longDdx_not_read :
    findCid longDdx.ddx = .ok ("cid:".toList ++ longDdx.cid) ∧
    (∀ inAvail, processDataDdx streamReader (internStream findCid) (openStream inAvail longDdx.document) ≠
      .ok (longDdx.ddx, openStream inAvail longDdx.data)) ∧
    readMultipartBoundary fileReader (openFile "--x\r\n".toList) "--x".toList = .error badBoundary ∧
    readMultipartBoundary fileReader (openFile "--y\r\n".toList) "--x".toList = .ok ("--y".toList, openFile []) := by
  have hParse : findCid longDdx.ddx = .ok ("cid:".toList ++ longDdx.cid) := rfl
  refine ⟨hParse, fun inAvail hOk => ?_, rfl, rfl⟩
  have hFits := ((stream_read_iff longDdx hParse inAvail).mp hOk).2 longLine
    (List.mem_cons_of_mem _ (List.mem_append_right _ (List.mem_singleton_self _)))
  rw [longLine, List.length_replicate] at hFits
  omega

end Libdap.Dap4
