import Mathlib.Data.Char
import Mathlib.Data.List.Lex
import Libdap.Bes.KeyLines
import Libdap.Core.Fault
import Libdap.Core.KeyedSet

/-! # Containers in a file

Each line of the file is a symbolic name, a real name and a type. The lines go through a buffer of 80 characters, and
the one at which the file ends is not looked at.
-/

namespace Libdap.Bes
open Core Constraint Http
set_option autoImplicit false

structure Container where
  symbolicName : Word
  realName : Word
  containerType : Word
  deriving DecidableEq, Repr

/-- What `getline` leaves in its buffer, also when it fails. -/
def IStream.buffer (s : IStream) (n : Nat) : Word :=
  if s.eof || s.fail then [] else (s.rest.takeWhile (· ≠ '\n')).take (n - 1)

/-- `strm >> word`; at the end of the stream, the word stays empty. -/
def readWord (strm : Word) : Word × Word :=
  let strm := strm.dropWhile isSpace
  (strm.takeWhile fun c => !isSpace c, strm.dropWhile fun c => !isSpace c)

namespace BESContainerStorageFile

/-- What is made of one line. -/
def container (file cline : Word) : Except Fault Container :=
  let (symbolicName, strm) := readWord (cString cline)
  let (realName, strm) := readWord strm
  let (containerType, strm) := readWord strm
  let (dummy, _) := readWord strm
  if symbolicName = [] ∨ realName = [] ∨ containerType = [] then
    .error (.InternalErr ("Incomplete container persistence line in file " ++ String.ofList file))
  else if dummy ≠ [] then
    .error (.InternalErr ("Too many fields in persistence file " ++ String.ofList file))
  else .ok ⟨symbolicName, realName, containerType⟩

/-- The loop of the constructor, for a number of rounds. -/
def load (file : Word) : Nat → IStream → KeyedMap Word Container → Except Fault (KeyedMap Word Container)
  | 0, _, _ => .error .undefined
  | n + 1, stream, containerList =>
    if stream.eof then .ok containerList
    else
      let cline := stream.buffer 80
      let stream := (stream.getline 80).2
      if stream.eof then load file n stream containerList
      else match container file cline with
        | .error f => .error f
        | .ok c => load file n stream (containerList.set c.symbolicName c)

attribute [local grind =] container load

/-- The constructor; `getValue` gives the empty text for a key that is not set, and a file that cannot be opened comes
with the text of its error, if there is one. -/
def create (getValue : Word → Word) (openFile : Word → Except (Option Word) Word) (n : Word) :
    Except Fault (KeyedMap Word Container) :=
  let key := "BES.Container.Persistence.File.".toList ++ n
  let file := getValue key
  if file = [] then
    -- a `BESSyntaxUserError`
    .error (.Error (String.ofList key ++ " not defined in BES configuration file"))
  else match openFile file with
    | .error err =>
      .error (.InternalErr ("Unable to open persistence file " ++ String.ofList file ++ ": " ++
        String.ofList (err.getD "Unknown error".toList)))
    | .ok content => load file (content.length + 2) (.of content) .empty

/-- The container that is found, with its three texts. -/
def lookFor (containerList : KeyedMap Word Container) (symName : Word) : Option Container := containerList.find symName

end BESContainerStorageFile

/-! ## Fields and lines -/

def fields (line : Word) : List Word := (line.splitOnP isSpace).filter (· ≠ [])

/-- The lines that end in a newline. -/
def terminated (content : Word) : List Word := (lines content).dropLast

def unterminated (content : Word) : Word := (lines content).getLastD []

/-- The lines of a text; there is none behind the last newline. -/
def textLines (content : Word) : List Word :=
  terminated content ++ if unterminated content = [] then [] else [unterminated content]

def record : List Word → Option Container
  | [symbolicName, realName, containerType] => some ⟨symbolicName, realName, containerType⟩
  | _ => none

/-- The last record with a name. -/
def lastRecord (records : List Container) (name : Word) : Option Container :=
  records.reverse.find? fun c => c.symbolicName = name

section
variable {line rest text content file name : Word} {c : Char}

theorem fields_blank (h : isSpace c = true) (rest : Word) : fields (c :: rest) = fields rest := by
  rw [fields, List.splitOnP_cons_eq_if_modifyHead, if_pos h, List.filter_cons_of_neg (by simp), fields]

theorem fields_word (hWord : line ≠ []) (hPlain : ∀ c ∈ line, isSpace c = false)
    (hRest : rest = [] ∨ ∃ c cs, rest = c :: cs ∧ isSpace c = true) : fields (line ++ rest) = line :: fields rest := by
  rcases hRest with rfl | ⟨c, cs, rfl, hBlank⟩
  · rw [List.append_nil, fields, List.splitOnP_eq_singleton hPlain]
    simp [fields, hWord]
  · rw [fields_blank hBlank, fields, List.splitOnP_append_cons line cs hBlank, List.splitOnP_eq_singleton hPlain,
      List.filter_append]
    simp [fields, hWord]

theorem fields_blanks (text : Word) : fields (text.dropWhile isSpace) = fields text := by
  induction text with
  | nil => rfl
  | cons c cs ih =>
    by_cases h : isSpace c = true
    · rw [List.dropWhile_cons_of_pos h, fields_blank h, ih]
    · rw [List.dropWhile_cons_of_neg h]

/-- One word after the other is read. -/
theorem fields_next (text : Word) :
    fields text = if (readWord text).1 = [] then [] else (readWord text).1 :: fields (readWord text).2 := by
  rw [readWord, ← fields_blanks]
  dsimp only
  have hFront := List.head?_dropWhile_not isSpace text
  revert hFront
  generalize text.dropWhile isSpace = x
  intro hFront
  split
  next hNone =>
    cases x with
    | nil => rfl
    | cons c cs =>
      rw [List.takeWhile_cons_of_pos (by simpa using hFront)] at hNone
      cases hNone
  next hWord =>
    have hRest := List.head?_dropWhile_not (fun c => !isSpace c) x
    have hPlain : ∀ c ∈ x.takeWhile fun c => !isSpace c, isSpace c = false := fun c hc => by
      simpa using List.mem_takeWhile_imp hc
    have hSplit : x = (x.takeWhile fun c => !isSpace c) ++ x.dropWhile fun c => !isSpace c :=
      List.takeWhile_append_dropWhile.symm
    conv_lhs => rw [hSplit]
    refine fields_word hWord hPlain ?_
    cases hBehind : x.dropWhile fun c => !isSpace c with
    | nil => exact .inl rfl
    | cons c cs =>
      rw [hBehind] at hRest
      exact .inr ⟨c, cs, rfl, by simpa using hRest⟩

open BESContainerStorageFile

/-- A line is taken if it has three fields. -/
theorem container_ok {c : Container} : container file line = .ok c ↔ record (fields (cString line)) = some c := by
  rw [container]
  generalize cString line = text
  rw [fields_next text]
  rcases readWord text with ⟨a, x⟩
  dsimp only
  rw [fields_next x]
  rcases readWord x with ⟨b, y⟩
  dsimp only
  rw [fields_next y]
  rcases readWord y with ⟨d, z⟩
  dsimp only
  rw [fields_next z]
  rcases readWord z with ⟨e, w⟩
  dsimp only
  by_cases ha : a = []
  · simp [ha, record]
  · by_cases hb : b = []
    · simp [ha, hb, record]
    · by_cases hd : d = []
      · simp [ha, hb, hd, record]
      · by_cases he : e = []
        · simp [ha, hb, hd, he, record]
        · simp [ha, hb, hd, he, record]

theorem container_error {f : Fault} (h : container file line = .error f) : ∃ msg, f = .InternalErr msg := by
  rw [container] at h
  dsimp only at h
  split at h
  · cases h
    exact ⟨_, rfl⟩
  · split at h
    · cases h
      exact ⟨_, rfl⟩
    · cases h

/-! ## The loop over the lines -/

theorem terminated_line (h : '\n' ∉ line) (rest : Word) : terminated (line ++ '\n' :: rest) = line ::
    terminated rest := by
  have hSome : lines rest ≠ [] := List.splitOn_ne_nil _ _
  rw [terminated, lines_line h, List.dropLast_cons_of_ne_nil hSome, terminated]

theorem unterminated_line (h : '\n' ∉ line) (rest : Word) : unterminated (line ++ '\n' :: rest) =
    unterminated rest := by
  rw [unterminated, lines_line h, unterminated]
  obtain ⟨l, ls, hLines⟩ := List.exists_cons_of_ne_nil (List.splitOn_ne_nil '\n' rest)
  rw [lines, hLines, List.getLastD_cons, List.getLastD_cons, List.getLastD_cons]

theorem terminated_last (h : '\n' ∉ line) : terminated line = [] := by
  rw [terminated, lines_last h]
  rfl

theorem unterminated_last (h : '\n' ∉ line) : unterminated line = line := by
  rw [unterminated, lines_last h]
  rfl

theorem buffer_line (h : '\n' ∉ line) (hShort : line.length < 80) (rest : Word) :
    (IStream.of (line ++ '\n' :: rest)).buffer 80 = line := by
  rw [IStream.buffer, if_neg (by simp [IStream.of])]
  change ((line ++ '\n' :: rest).takeWhile (· ≠ '\n')).take 79 = line
  rw [takeWhile_line h, List.takeWhile_cons_of_neg (by simp), List.append_nil, List.take_of_length_le (by omega)]

def records (ls : List Word) : List Container := ls.filterMap fun line => record (fields line)

theorem records_cons {c : Container} (h : record (fields line) = some c) (ls : List Word) :
    records (line :: ls) = c :: records ls := List.filterMap_cons_some h

/-- The constructor comes to the end of the file. -/
def Loadable (content : Word) : Prop :=
  (∀ line ∈ terminated content, line.length < 80 ∧ (record (fields (cString line))).isSome = true) ∧
    (unterminated content).length < 80

theorem lastRecord_cons (c : Container) (cs : List Container) (name : Word) :
    lastRecord (c :: cs) name = (lastRecord cs name).or (if name = c.symbolicName then some c else none) := by
  rw [lastRecord, List.reverse_cons, List.find?_append, lastRecord]
  congr 1
  rw [List.find?_singleton]
  simp only [decide_eq_true_eq, eq_comm (a := name)]

variable {containerList : KeyedMap Word Container} {n : Nat}

/-- A stream that has failed gives an empty line. -/
theorem load_failed {stream : IStream} (hFail : stream.fail = true) (hEof : stream.eof = false) (n : Nat) :
    ∃ msg, load file (n + 1) stream containerList = .error (.InternalErr msg) := by
  have hLine : stream.getline 80 = (none, stream) := by
    cases stream
    cases hFail
    simp [IStream.getline]
  have hBuffer : stream.buffer 80 = [] := by
    rw [IStream.buffer, hFail, Bool.or_true, if_pos rfl]
  rw [load, hEof, if_neg Bool.false_ne_true, hLine, hBuffer]
  dsimp only
  rw [hEof, if_neg Bool.false_ne_true]
  exact ⟨_, rfl⟩

theorem load_long (h : '\n' ∉ line) (hLong : 80 ≤ line.length) (rest : Word) (n : Nat) :
    ∃ msg, load file (n + 2) (.of (line ++ rest)) containerList = .error (.InternalErr msg) := by
  obtain ⟨stream, hLine, hFail, hEof⟩ := getline_long h hLong rest
  rw [load, if_neg (by simp [IStream.of]), hLine]
  dsimp only
  rw [hEof, if_neg Bool.false_ne_true]
  cases hContainer : container file ((IStream.of (line ++ rest)).buffer 80) with
  | error f =>
    obtain ⟨msg, rfl⟩ := container_error hContainer
    exact ⟨msg, rfl⟩
  | ok c => exact load_failed hFail hEof n

theorem load_last (h : '\n' ∉ line) (hShort : line.length < 80) (n : Nat) :
    load file (n + 2) (.of line) containerList = .ok containerList := by
  have hEof : ((IStream.of line).getline 80).2.eof = true := by
    rw [getline_last h hShort]
    split <;> rfl
  rw [load, if_neg (by simp [IStream.of])]
  dsimp only
  rw [if_pos hEof, load, if_pos hEof]

/-- A file is read to its end, and then each name has its last record, or the constructor throws. -/
theorem load_cases (file content : Word) (containerList : KeyedMap Word Container) {n : Nat}
    (hRounds : content.length + 2 ≤ n) :
    (Loadable content ∧ ∃ m, load file n (.of content) containerList = .ok m ∧ ∀ name, m.find name =
      (lastRecord (records ((terminated content).map cString)) name).or (containerList.find name)) ∨
    (¬Loadable content ∧ ∃ msg, load file n (.of content) containerList = .error (.InternalErr msg)) := by
  induction hLength : content.length using Nat.strong_induction_on generalizing content n containerList with
  | _ length ih =>
    obtain ⟨n, rfl⟩ := Nat.exists_eq_add_of_le' (show 2 ≤ n by omega)
    by_cases hBreak : '\n' ∈ content
    · obtain ⟨line, rest, rfl, h⟩ := List.eq_append_cons_of_mem hBreak
      rw [Loadable, terminated_line h, unterminated_line h, List.forall_mem_cons]
      by_cases hShort : line.length < 80
      · rw [load, if_neg (by simp [IStream.of]), buffer_line h hShort, getline_line h hShort]
        dsimp only
        rw [if_neg (by simp [IStream.of])]
        cases hContainer : container file line with
        | error f =>
          obtain ⟨msg, rfl⟩ := container_error hContainer
          right
          refine ⟨fun hLoadable => ?_, msg, rfl⟩
          obtain ⟨c, hRecord⟩ := Option.isSome_iff_exists.mp hLoadable.1.1.2
          cases hContainer.symm.trans (container_ok.mpr hRecord)
        | ok c =>
          have hRecord := container_ok.mp hContainer
          rw [List.length_append, List.length_cons] at hRounds hLength
          rcases ih rest.length (by omega) rest (containerList.set c.symbolicName c) (n := n + 1)
            (by omega) rfl with ⟨⟨hLines, hLast⟩, m, hLoad, hFind⟩ | ⟨hNot, hThrows⟩
          · left
            refine ⟨⟨⟨⟨hShort, by rw [hRecord]; rfl⟩, hLines⟩, hLast⟩, m, hLoad, fun name => ?_⟩
            rw [hFind, List.map_cons, records_cons hRecord, lastRecord_cons, Option.or_assoc, KeyedSet.find_set]
            congr 1
            split <;> rfl
          · exact .inr ⟨fun hLoadable => hNot ⟨hLoadable.1.2, hLoadable.2⟩, hThrows⟩
      · exact .inr ⟨fun hLoadable => hShort hLoadable.1.1.1, load_long h (Nat.not_lt.mp hShort) _ n⟩
    · rw [Loadable, terminated_last hBreak, unterminated_last hBreak]
      by_cases hShort : content.length < 80
      · exact .inl ⟨⟨fun _ hl => absurd hl List.not_mem_nil, hShort⟩, containerList, load_last hBreak hShort n,
          fun _ => rfl⟩
      · right
        refine ⟨fun hLoadable => hShort hLoadable.2, ?_⟩
        simpa using load_long hBreak (Nat.not_lt.mp hShort) [] n

def ThreeFields (ls : List Word) : Prop := ∀ line ∈ ls, (fields line).length = 3

/-- No line is too long for the buffer, and those that end in a newline have three fields up to a NUL. -/
def Seen (content : Word) : Prop :=
  (∀ line ∈ textLines content, line.length < 80) ∧ ThreeFields ((terminated content).map cString)

theorem record_isSome (fs : List Word) : (record fs).isSome = true ↔ fs.length = 3 := by
  rcases fs with _ | ⟨a, _ | ⟨b, _ | ⟨c, _ | ⟨d, fs⟩⟩⟩⟩ <;> simp [record]

theorem loadable_iff (content : Word) : Loadable content ↔ Seen content := by
  rw [Loadable, Seen, textLines, List.forall_mem_append, ThreeFields, List.forall_mem_map]
  have hLast : (∀ line ∈ if unterminated content = [] then [] else [unterminated content], line.length < 80) ↔
      (unterminated content).length < 80 := by
    split
    next hNone => simp [hNone]
    next => exact List.forall_mem_singleton
  rw [hLast]
  constructor
  · rintro ⟨hLines, hShort⟩
    exact ⟨⟨fun line hLine => (hLines line hLine).1, hShort⟩, fun line hLine =>
      (record_isSome _).mp (hLines line hLine).2⟩
  · rintro ⟨⟨hLines, hShort⟩, hFields⟩
    exact ⟨fun line hLine => ⟨hLines line hLine, (record_isSome _).mpr (hFields line hLine)⟩, hShort⟩

/-- A file of records is read to the last record of each name, and any other file is refused. -/
def Keeps (made : Except Fault (KeyedMap Word Container)) (content : Word) : Prop :=
  (ThreeFields (textLines content) → ∃ m, made = .ok m ∧
    ∀ symName, lookFor m symName = lastRecord (records (textLines content)) symName) ∧
  (¬ThreeFields (textLines content) → ∃ msg, made = .error (.InternalErr msg))

theorem load_keeps (file content : Word) :
    Keeps (load file (content.length + 2) (.of content) .empty) content ↔
      (ThreeFields (textLines content) → Seen content ∧ ∀ symName,
        lastRecord (records ((terminated content).map cString)) symName =
          lastRecord (records (textLines content)) symName) ∧
      (¬ThreeFields (textLines content) → ¬Seen content) := by
  rw [Keeps]
  rcases load_cases file content .empty (Nat.le_refl _) with
    ⟨hLoadable, m, hLoad, hFind⟩ | ⟨hNot, msg, hLoad⟩
  · have hSeen := (loadable_iff content).mp hLoadable
    have hLook (symName : Word) : lookFor m symName =
        lastRecord (records ((terminated content).map cString)) symName := by
      rw [lookFor, hFind, KeyedSet.find_empty, Option.or_none]
    rw [hLoad]
    refine and_congr (imp_congr_right fun _ => ?_) (imp_congr_right fun _ => ?_)
    · constructor
      · rintro ⟨_, hMade, hRecords⟩
        cases hMade
        exact ⟨hSeen, fun symName => (hLook symName).symm.trans (hRecords symName)⟩
      · rintro ⟨-, hSame⟩
        exact ⟨m, rfl, fun symName => (hLook symName).trans (hSame symName)⟩
    · exact iff_of_false nofun (fun hNot => hNot hSeen)
  · have hNotSeen : ¬Seen content := fun hSeen => hNot ((loadable_iff content).mpr hSeen)
    rw [hLoad]
    refine and_congr (imp_congr_right fun _ => ?_) (imp_congr_right fun _ => ?_)
    · exact iff_of_false nofun (fun hThis => hNotSeen hThis.1)
    · exact iff_of_true ⟨msg, rfl⟩ hNotSeen

end

/-! ## Files of records -/

def Container.text (c : Container) : Word := c.symbolicName ++ ' ' :: (c.realName ++ ' ' :: c.containerType)

/-- The records one per line; `final` is for a newline at the end. -/
def written (final : Bool) : List Container → Word
  | [] => []
  | [c] => c.text ++ if final then ['\n'] else []
  | c :: cs => c.text ++ '\n' :: written final cs

def Plain (word : Word) : Prop := word ≠ [] ∧ ∀ c ∈ word, isSpace c = false

structure Container.Plain (c : Container) : Prop where
  symbolicName : Bes.Plain c.symbolicName
  realName : Bes.Plain c.realName
  containerType : Bes.Plain c.containerType

theorem Plain.fields_behind {word : Word} (h : Plain word) (rest : Word) :
    fields (word ++ ' ' :: rest) = word :: fields rest := by
  rw [fields_word h.1 h.2 (.inr ⟨_, _, rfl, rfl⟩), fields_blank rfl]

theorem Plain.newline {word : Word} (h : Plain word) : '\n' ∉ word := fun hBreak => absurd (h.2 _ hBreak) (by decide)

section
open BESContainerStorageFile
variable {c : Container} {cs : List Container}

theorem Container.Plain.fields (h : c.Plain) : Bes.fields c.text = [c.symbolicName, c.realName, c.containerType] := by
  rw [text, h.symbolicName.fields_behind, h.realName.fields_behind, ← List.append_nil c.containerType,
    fields_word h.containerType.1 h.containerType.2 (.inl rfl), List.append_nil]
  rfl

theorem Container.Plain.newline (h : c.Plain) : '\n' ∉ c.text := by
  have hName := h.symbolicName.newline
  have hReal := h.realName.newline
  have hType := h.containerType.newline
  simp [text, hName, hReal, hType]

theorem textLines_line {line : Word} (h : '\n' ∉ line) (rest : Word) :
    textLines (line ++ '\n' :: rest) = line :: textLines rest := by
  rw [textLines, terminated_line h, unterminated_line h, List.cons_append, textLines]

theorem textLines_written (h : ∀ c ∈ cs, c.Plain) (final : Bool) :
    textLines (written final cs) = cs.map Container.text := by
  induction cs with
  | nil => rfl
  | cons c cs ih =>
    obtain ⟨hFirst, hOthers⟩ := List.forall_mem_cons.mp h
    cases cs with
    | nil =>
      cases final with
      | true => exact textLines_line hFirst.newline []
      | false =>
        have hSome : c.text ≠ [] := by simp [Container.text]
        change textLines (c.text ++ []) = [c.text]
        rw [List.append_nil, textLines, terminated_last hFirst.newline, unterminated_last hFirst.newline, if_neg hSome]
        rfl
    | cons d ds =>
      change textLines (c.text ++ '\n' :: written final (d :: ds)) = _
      rw [textLines_line hFirst.newline, ih hOthers]
      rfl

theorem records_text (h : ∀ c ∈ cs, c.Plain) : records (cs.map Container.text) = cs := by
  induction cs with
  | nil => rfl
  | cons c cs ih =>
    obtain ⟨hFirst, hOthers⟩ := List.forall_mem_cons.mp h
    have hRecord : record (fields c.text) = some c := by
      rw [hFirst.fields]
      rfl
    rw [List.map_cons, records_cons hRecord, ih hOthers]

theorem keeps_written (h : ∀ c ∈ cs, c.Plain) (final : Bool) (made : Except Fault (KeyedMap Word Container)) :
    Keeps made (written final cs) ↔ ∃ m, made = .ok m ∧ ∀ symName, lookFor m symName = lastRecord cs symName := by
  have hFields : ThreeFields (textLines (written final cs)) := by
    rw [textLines_written h]
    refine List.forall_mem_map.mpr fun c hc => ?_
    rw [(h c hc).fields]
    rfl
  rw [Keeps, imp_iff_right hFields, and_iff_left (absurd hFields), textLines_written h, records_text h]

end

section
open BESContainerStorageFile

/-- The constructor, on a file that the configuration names and that can be opened. -/
theorem create_keeps_iff (getValue : Word → Word) (openFile : Word → Except (Option Word) Word) (n : Word)
    {content : Word}
    (hKey : getValue ("BES.Container.Persistence.File.".toList ++ n) ≠ [])
    (hOpen : openFile (getValue ("BES.Container.Persistence.File.".toList ++ n)) = .ok content) :
    Keeps (create getValue openFile n) content ↔
      (ThreeFields (textLines content) → Seen content ∧ ∀ symName,
        lastRecord (records ((terminated content).map cString)) symName =
          lastRecord (records (textLines content)) symName) ∧
      (¬ThreeFields (textLines content) → ¬Seen content) := by
  rw [create, if_neg hKey, hOpen]
  exact load_keeps _ content

/-- Two records of one name. -/
def twoRecords : Word := "a /x nc\na /y h5\n".toList

theorem two_records_kept :
    (fun _ => ['f'] : Word → Word) ("BES.Container.Persistence.File.".toList ++ ['s']) ≠ [] ∧
      Keeps (create (fun _ => ['f']) (fun _ => .ok twoRecords) ['s']) twoRecords := by
  have hKey : (fun _ => ['f'] : Word → Word) ("BES.Container.Persistence.File.".toList ++ ['s']) ≠ [] := nofun
  have hFields : ThreeFields (textLines twoRecords) := by
    unfold ThreeFields
    decide
  have hSeen : Seen twoRecords := by
    unfold Seen ThreeFields
    decide
  have hSame : records ((terminated twoRecords).map cString) = records (textLines twoRecords) := by decide
  refine ⟨hKey, (create_keeps_iff (fun _ => ['f']) (fun _ => .ok twoRecords) ['s'] hKey rfl).mpr ⟨fun _ => ?_, ?_⟩⟩
  · exact ⟨hSeen, fun symName => by rw [hSame]⟩
  · exact absurd hFields

/-- A record without a newline behind it is not seen. -/
theorem last_record_lost :
    ¬Keeps (create (fun _ => ['f']) (fun _ => .ok "a /x nc".toList) ['s']) "a /x nc".toList := by
  have hFields : ThreeFields (textLines "a /x nc".toList) := by
    unfold ThreeFields
    decide
  rintro ⟨hRead, -⟩
  obtain ⟨m, hMade, hLook⟩ := hRead hFields
  have hEmpty : create (fun _ => ['f']) (fun _ => .ok "a /x nc".toList) ['s'] = .ok .empty := by rfl
  cases hEmpty.symm.trans hMade
  exact absurd (hLook ['a']) (by decide)

end

end Libdap.Bes
