import Libdap.Bes.BESKeys

/-! # What the lines of a configuration file come to

A line gives one assignment or none, and the keys are what the assignments make of them one after another. The
loop over the lines comes to an end where no line is too long for its buffer, up to the first one that is refused.
-/

namespace Libdap.Bes
open Constraint Http
set_option autoImplicit false

/-! ## The meaning of a file -/

def lines (content : Word) : List Word := content.splitOn '\n'

/-- What a line says: the text up to the first `=`, but for a `+` at its end, and the text behind it. -/
def assignment (line : Word) : Option Pair :=
  let text := cString line
  if text.head? = some '#' ∨ text.all isBlank = true ∨ '=' ∉ text then none
  else
    let before := text.takeWhile (· ≠ '=')
    let value := removeLeadingAndTrailingBlanks ((text.dropWhile (· ≠ '=')).drop 1)
    if before.getLast? = some '+' then some ⟨removeLeadingAndTrailingBlanks before.dropLast, value, true⟩
    else some ⟨removeLeadingAndTrailingBlanks before, value, false⟩

def assign (keys : Keys) (p : Pair) : Keys :=
  let old := if p.addto then (keys p.key).getD [] else []
  Function.update keys p.key (some (old ++ if p.value = [] then [] else [p.value]))

def folded (content : Word) (keys : Keys) : Keys := ((lines content).filterMap assignment).foldl assign keys

def NoIncludes (content : Word) : Prop :=
  ∀ line ∈ lines content, ∀ p, assignment line = some p → p.key ≠ BES_INCLUDE_KEY

def refused (keysFileName line : Word) : Bool :=
  match breakPair keysFileName line with
  | .error _ => true
  | .ok _ => false

/-- No line is too long, up to the first one that is refused. -/
def Fits (keysFileName : Word) : List Word → Prop
  | [] => True
  | line :: rest => line.length < 255 ∧ (refused keysFileName line = true ∨ Fits keysFileName rest)

/-! ## One line -/

/-- What `break_pair` has seen before a position. -/
structure Scanned (before : Word) (pos : Nat) (addto : Bool) : Prop where
  equal : '=' ∉ before
  plain : addto = false → '+' ∉ before
  plus : addto = true → ∃ u v, before = u ++ '+' :: v ∧ u.length = pos

/-- Where the name ends: at the last `+`, which is before the `=`, or at the `=`. -/
def NameEnds (before : Word) (pos : Nat) : Bool → Prop
  | true => before.getLast? = some '+' ∧ pos + 1 = before.length
  | false => before.getLast? ≠ some '+' ∧ pos = before.length

section
variable {keysFileName b before cs content line rest : Word} {pos pos' : Nat} {addto addto' : Bool} {keys : Keys}

theorem Scanned.plus_next (h : Scanned before pos addto) : Scanned (before ++ ['+']) before.length true where
  equal := by simpa using h.equal
  plain := nofun
  plus _ := ⟨before, [], rfl, rfl⟩

theorem Scanned.next (h : Scanned before pos addto) {c : Char} (hEqual : c ≠ '=') (hPlus : c ≠ '+') :
    Scanned (before ++ [c]) pos addto where
  equal := by simpa using ⟨h.equal, hEqual.symm⟩
  plain hAddto := by simpa using ⟨h.plain hAddto, hPlus.symm⟩
  plus hAddto := by
    obtain ⟨u, v, rfl, hLength⟩ := h.plus hAddto
    exact ⟨u, v ++ [c], by simp, hLength⟩

theorem scanPair_ok (h : Scanned before pos addto)
    (hScan : scanPair keysFileName b before.length pos addto cs = .ok (pos', addto')) :
    '=' ∈ cs ∧ NameEnds (before ++ cs.takeWhile (· ≠ '=')) pos' addto' := by
  induction cs generalizing before pos addto with
  | nil => cases hScan
  | cons c cs ih =>
    rw [scanPair] at hScan
    have hLength : before.length + 1 = (before ++ [c]).length := by simp
    by_cases hEqual : c = '='
    · subst hEqual
      refine ⟨List.mem_cons_self, ?_⟩
      rw [List.takeWhile_cons_of_neg (by simp), List.append_nil]
      rw [if_pos rfl] at hScan
      cases addto with
      | false =>
        rw [if_pos Bool.not_false] at hScan
        cases hScan
        exact ⟨fun hLast => h.plain rfl (List.mem_of_getLast? hLast), rfl⟩
      | true =>
        obtain ⟨u, v, rfl, rfl⟩ := h.plus rfl
        rw [if_neg (by simp)] at hScan
        split at hScan
        · cases hScan
        · rename_i hPos
          cases hScan
          have hNone : v = [] := by
            apply List.length_eq_zero_iff.mp
            simp only [List.length_append, List.length_cons] at hPos
            omega
          subst hNone
          exact ⟨by simp, by simp⟩
    · rw [if_neg hEqual] at hScan
      rw [List.takeWhile_cons_of_pos (by simpa using hEqual), List.append_cons]
      by_cases hPlus : c = '+'
      · subst hPlus
        rw [if_pos rfl, hLength] at hScan
        obtain ⟨hMem, hEnds⟩ := ih h.plus_next hScan
        exact ⟨List.mem_cons_of_mem _ hMem, hEnds⟩
      · rw [if_neg hPlus, hLength] at hScan
        obtain ⟨hMem, hEnds⟩ := ih (h.next hEqual hPlus) hScan
        exact ⟨List.mem_cons_of_mem _ hMem, hEnds⟩

theorem scanned_nil : Scanned [] 0 false := ⟨by simp, fun _ => by simp, nofun⟩

/-- What `break_pair` makes of a line is what the line says, unless it is a lone `=`. -/
theorem breakPair_ok {p : Option Pair} (h : breakPair keysFileName line = .ok p) :
    p = assignment line ∨ p = none ∧ cString line = ['='] := by
  rw [breakPair] at h
  rw [assignment]
  dsimp only at h ⊢
  split at h
  · rename_i hNone
    cases h
    rcases hNone with hComment | hBlank | hShort
    · exact .inl (if_pos (.inl hComment)).symm
    · refine .inl (if_pos (.inr (.inl ?_))).symm
      rw [onlyBlanks, List.all_eq_true] at hBlank
      rw [List.all_eq_true]
      intro c hc
      have hSpace : c = ' ' := by simpa using hBlank c hc
      rw [hSpace]
      rfl
    · by_cases hMem : '=' ∈ cString line
      · right
        refine ⟨rfl, ?_⟩
        obtain ⟨c, hc⟩ : ∃ c, cString line = [c] := by
          apply List.length_eq_one_iff.mp
          have hPos := List.length_pos_of_mem hMem
          omega
        rw [hc] at hMem ⊢
        rw [List.mem_singleton.mp hMem]
      · exact .inl (if_pos (.inr (.inr hMem))).symm
  · rename_i hSome
    rw [not_or, not_or] at hSome
    split at h
    · cases h
    · rename_i pos addto hScan
      cases h
      obtain ⟨hMem, hEnds⟩ := scanPair_ok scanned_nil hScan
      rw [List.nil_append] at hEnds
      have hNot : ¬(cString line).all isBlank = true := by
        intro hAll
        have hBlank := List.all_eq_true.mp hAll '=' hMem
        cases hBlank
      have hSays : ¬((cString line).head? = some '#' ∨ (cString line).all isBlank = true ∨ '=' ∉ cString line) := by
        rw [not_or, not_or]
        exact ⟨hSome.1, hNot, not_not.mpr hMem⟩
      left
      rw [if_neg hSays]
      have hParts := List.takeWhile_append_dropWhile (p := fun c => decide (c ≠ '=')) (l := cString line)
      generalize (cString line).takeWhile (· ≠ '=') = before at hEnds hParts ⊢
      generalize (cString line).dropWhile (· ≠ '=') = after at hParts ⊢
      generalize cString line = text at hParts ⊢
      subst hParts
      cases addto with
      | true =>
        obtain ⟨hLast, hLength⟩ := hEnds
        rw [if_pos hLast, if_pos (rfl : true = true), List.take_append_of_le_length (by omega), List.dropLast_eq_take,
          show pos = before.length - 1 by omega, List.drop_append, List.drop_eq_nil_of_le (by omega), List.nil_append,
          show before.length - 1 + 2 - before.length = 1 by omega]
      | false =>
        obtain ⟨hLast, rfl⟩ := hEnds
        rw [if_neg hLast, if_neg (by simp), List.take_left, List.drop_append, List.drop_eq_nil_of_le (by omega),
          List.nil_append,
          show before.length + 1 - before.length = 1 by omega]

theorem setKey_eq (keys : Keys) (p : Pair) : keys.setKey p.key p.value p.addto = assign keys p := by
  funext k
  rw [Keys.setKey, assign, Function.update_apply]
  dsimp only
  split
  · cases p.value with
    | nil => simp
    | cons c cs => simp
  · rfl

/-! ## The loop -/

theorem takeWhile_line (h : '\n' ∉ line) (rest : Word) :
    (line ++ rest).takeWhile (· ≠ '\n') = line ++ rest.takeWhile (· ≠ '\n') := by
  apply List.takeWhile_append_of_pos
  intro c hc
  simpa using fun hSame : c = '\n' => h (hSame ▸ hc)

theorem dropWhile_line (h : '\n' ∉ line) (rest : Word) :
    (line ++ rest).dropWhile (· ≠ '\n') = rest.dropWhile (· ≠ '\n') := by
  apply List.dropWhile_append_of_pos
  intro c hc
  simpa using fun hSame : c = '\n' => h (hSame ▸ hc)

theorem getline_line {width : Nat} (h : '\n' ∉ line) (hShort : line.length < width) (rest : Word) :
    (IStream.of (line ++ '\n' :: rest)).getline width = (some line, .of rest) := by
  have hTake : (line ++ '\n' :: rest).takeWhile (· ≠ '\n') = line := by
    rw [takeWhile_line h, List.takeWhile_cons_of_neg (by simp), List.append_nil]
  have hDrop : (line ++ '\n' :: rest).dropWhile (· ≠ '\n') = '\n' :: rest := by
    rw [dropWhile_line h, List.dropWhile_cons_of_neg (by simp)]
  simp only [IStream.getline, IStream.of, hTake, hDrop, Bool.or_false, Bool.false_eq_true, if_false]
  rw [if_neg (by omega)]

theorem getline_last {width : Nat} (h : '\n' ∉ line) (hShort : line.length < width) :
    (IStream.of line).getline width = if line = [] then (none, ⟨[], true, true⟩) else (some line,
      ⟨[], true, false⟩) := by
  have hTake : line.takeWhile (· ≠ '\n') = line := by simpa using takeWhile_line h []
  have hDrop : line.dropWhile (· ≠ '\n') = [] := by simpa using dropWhile_line h []
  simp only [IStream.getline, IStream.of, hTake, hDrop, Bool.or_false, Bool.false_eq_true, if_false]
  rw [if_neg (by omega)]

/-- A line that is too long leaves a stream that has failed before its end. -/
theorem getline_long {width : Nat} (h : '\n' ∉ line) (hLong : width ≤ line.length) (rest : Word) :
    ∃ stream, (IStream.of (line ++ rest)).getline width = (none, stream) ∧ stream.fail = true ∧ stream.eof = false := by
  refine ⟨⟨(line ++ rest).drop (width - 1), false, true⟩, ?_, rfl, rfl⟩
  have hTake : width ≤ ((line ++ rest).takeWhile (· ≠ '\n')).length := by
    rw [takeWhile_line h, List.length_append]
    omega
  simp only [IStream.getline, IStream.of, Bool.or_false, Bool.false_eq_true, if_false]
  exact if_pos hTake

variable {File : Type} {fs : FileSystem File} {s : Loaded File} {noLone : Prop}

/-- Such a stream is asked for ever. -/
theorem loadKeys_failed {stream : IStream} (hFail : stream.fail = true) (hEof : stream.eof = false) (n : Nat) :
    fs.loadKeys n keysFileName stream s = none := by
  induction n generalizing stream with
  | zero => rfl
  | succ n ih =>
    have hLine : stream.getline 255 = (none, stream) := by
      cases stream
      cases hFail
      simp [IStream.getline]
    rw [FileSystem.loadKeys, hEof, if_neg Bool.false_ne_true, hLine]
    exact ih hFail hEof

theorem loadKeys_long (h : '\n' ∉ line) (hLong : 255 ≤ line.length) (rest : Word) (n : Nat) :
    fs.loadKeys n keysFileName (.of (line ++ rest)) s = none := by
  cases n with
  | zero => rfl
  | succ n =>
    obtain ⟨stream, hLine, hFail, hEof⟩ := getline_long h hLong rest
    rw [FileSystem.loadKeys, if_neg (by simp [IStream.of]), hLine]
    exact loadKeys_failed hFail hEof n

/-- The same values, for the key without a name only when there is no lone `=`. -/
def AgreeOn (noLone : Prop) (keys keys' : Keys) : Prop := ∀ key, (key = [] → noLone) → keys key = keys' key

theorem AgreeOn.assign {keys keys' : Keys} (h : AgreeOn noLone keys keys') (p : Pair) :
    AgreeOn noLone (assign keys p) (assign keys' p) := by
  intro key hKey
  simp only [Bes.assign, Function.update_apply]
  by_cases hSame : key = p.key
  · subst hSame
    rw [if_pos rfl, if_pos rfl, h _ hKey]
  · rw [if_neg hSame, if_neg hSame, h _ hKey]

theorem AgreeOn.unnamed {keys keys' : Keys} (h : AgreeOn noLone keys keys') {p : Pair} (hName : p.key = [])
    (hLone : ¬noLone) :
    AgreeOn noLone keys (Bes.assign keys' p) := by
  intro key hKey
  have hNe : key ≠ p.key := fun hSame => hLone (hKey (hSame.trans hName))
  rw [Bes.assign, Function.update_of_ne hNe]
  exact h key hKey

/-- The assignment of one line, when it has one. -/
def assignLine (line : Word) (keys : Keys) : Keys := (assignment line).elim keys (assign keys)

theorem folded_line (h : '\n' ∉ line) (rest : Word) (keys : Keys) :
    folded (line ++ '\n' :: rest) keys = folded rest (assignLine line keys) := by
  rw [folded, folded, lines, List.splitOn_append_cons_self_of_not_mem h, List.filterMap_cons, assignLine]
  cases assignment line <;> rfl

theorem folded_last (h : '\n' ∉ line) (keys : Keys) : folded line keys = assignLine line keys := by
  rw [folded, lines, List.splitOn_eq_singleton h, List.filterMap_cons, assignLine]
  cases assignment line <;> rfl

/-- A line that is not an include sets its key. -/
theorem processLine_ok (fs : FileSystem File) {keys : Keys} (hAgree : AgreeOn noLone s.keys keys)
    (hNot : ∀ p, assignment line = some p → p.key ≠ BES_INCLUDE_KEY) (hPlain : noLone → cString line ≠ ['='])
    (hTaken : refused keysFileName line = false) :
    ∃ s', (∀ load, fs.processLine load keysFileName line s = some (.ok () s')) ∧
      AgreeOn noLone s'.keys (assignLine line keys) := by
  rw [refused] at hTaken
  split at hTaken
  · cases hTaken
  · rename_i p hPair
    rw [assignLine]
    rcases breakPair_ok hPair with rfl | ⟨rfl, hLone⟩
    · cases hSays : assignment line with
      | none =>
        rw [hSays] at hPair
        exact ⟨s, fun load => by rw [FileSystem.processLine, hPair], hAgree⟩
      | some p =>
        rw [hSays] at hPair
        refine ⟨{ s with keys := assign s.keys p }, fun load => ?_, hAgree.assign p⟩
        rw [FileSystem.processLine, hPair]
        dsimp only
        rw [if_neg (hNot p hSays), setKey_eq]
    · have hSays : assignment line = some ⟨[], [], false⟩ := by
        rw [assignment, hLone]
        rfl
      rw [hSays]
      exact ⟨s, fun load => by rw [FileSystem.processLine, hPair],
        hAgree.unnamed rfl fun hNoLone => hPlain hNoLone hLone⟩

theorem processLine_refused (fs : FileSystem File) (load : Word → Loaded File → Option (LoadResult File))
    (s : Loaded File)
    (h : refused keysFileName line = true) : ∃ e, fs.processLine load keysFileName line s = some (.error e s) := by
  rw [refused] at h
  split at h
  · rename_i e hPair
    refine ⟨e, ?_⟩
    rw [FileSystem.processLine, hPair]
  · cases h

/-- Reading ends, and unless it throws it ends with these keys. -/
def ReadsTo (fs : FileSystem File) (noLone : Prop) (keysFileName : Word) (stream : IStream) (s : Loaded File)
    (keys : Keys) : Prop :=
  ∃ n r, fs.loadKeys n keysFileName stream s = some r ∧ ∀ s', r = .ok () s' → AgreeOn noLone s'.keys keys

/-- One round of the loop. -/
theorem readsTo_next {stream stream' : IStream} {s' : Loaded File}
    (hRound : ∀ n, fs.loadKeys (n + 1) keysFileName stream s = fs.loadKeys n keysFileName stream' s') :
    ReadsTo fs noLone keysFileName stream s keys ↔ ReadsTo fs noLone keysFileName stream' s' keys := by
  constructor
  · rintro ⟨n, r, hRun, hKeys⟩
    cases n with
    | zero => cases hRun
    | succ n => exact ⟨n, r, (hRound n).symm.trans hRun, hKeys⟩
  · rintro ⟨n, r, hRun, hKeys⟩
    exact ⟨n + 1, r, (hRound n).trans hRun, hKeys⟩

theorem lines_line (h : '\n' ∉ line) (rest : Word) : lines (line ++ '\n' :: rest) = line :: lines rest :=
  List.splitOn_append_cons_self_of_not_mem h rest

theorem lines_last (h : '\n' ∉ line) : lines line = [line] := List.splitOn_eq_singleton h

theorem readsTo_eof {stream : IStream} (hEof : stream.eof = true) (hAgree : AgreeOn noLone s.keys keys) :
    ReadsTo fs noLone keysFileName stream s keys := by
  refine ⟨1, .ok () s, ?_, ?_⟩
  · rw [FileSystem.loadKeys, if_pos hEof]
  · rintro _ ⟨⟩
    exact hAgree

/-- A round in which the line is refused. -/
theorem readsTo_refused {stream stream' : IStream} (hEof : stream.eof = false)
    (hLine : stream.getline 255 = (some line, stream'))
    (hRefused : refused keysFileName line = true) : ReadsTo fs noLone keysFileName stream s keys := by
  obtain ⟨e, hRun⟩ := processLine_refused fs (fs.initializeKeys (fs.loadKeys 0)) s hRefused
  refine ⟨1, .error e s, ?_, nofun⟩
  rw [FileSystem.loadKeys, hEof, if_neg Bool.false_ne_true, hLine]
  dsimp only
  rw [hRun]

/-- A round in which the line is taken. -/
theorem readsTo_taken {stream stream' : IStream} {s' : Loaded File} (hEof : stream.eof = false)
    (hLine : stream.getline 255 = (some line, stream'))
    (hRun : ∀ load, fs.processLine load keysFileName line s = some (.ok () s')) :
    ReadsTo fs noLone keysFileName stream s keys ↔ ReadsTo fs noLone keysFileName stream' s' keys := by
  apply readsTo_next
  intro n
  rw [FileSystem.loadKeys, hEof, if_neg Bool.false_ne_true, hLine]
  dsimp only
  rw [hRun]

theorem not_readsTo_long (h : '\n' ∉ line) (hLong : 255 ≤ line.length) (rest : Word) :
    ¬ReadsTo fs noLone keysFileName (.of (line ++ rest)) s keys := by
  rintro ⟨n, r, hRun, -⟩
  rw [loadKeys_long h hLong] at hRun
  cases hRun

theorem readsTo_last (hAgree : AgreeOn noLone s.keys keys) (hNoInclude : NoIncludes line)
    (hPlain : noLone → ∀ l ∈ lines line, cString l ≠ ['=']) (h : '\n' ∉ line) :
    ReadsTo fs noLone keysFileName (.of line) s (folded line keys) ↔ Fits keysFileName (lines line) := by
  rw [folded_last h, lines_last h, Fits, Fits, or_true, and_true]
  by_cases hShort : line.length < 255
  · refine iff_of_true ?_ hShort
    have hLine := getline_last h hShort
    by_cases hEmpty : line = []
    · subst hEmpty
      rw [if_pos rfl] at hLine
      have hRound : ∀ n, fs.loadKeys (n + 1) keysFileName (.of []) s = fs.loadKeys n keysFileName
          ⟨[], true, true⟩ s := by
        intro n
        rw [FileSystem.loadKeys, if_neg (by simp [IStream.of]), hLine]
      rw [readsTo_next hRound]
      exact readsTo_eof rfl hAgree
    · rw [if_neg hEmpty] at hLine
      cases hRefused : refused keysFileName line with
      | true => exact readsTo_refused rfl hLine hRefused
      | false =>
        have hOnly : line ∈ lines line := by
          rw [lines_last h]
          exact List.mem_singleton_self line
        obtain ⟨s', hRun, hAgree'⟩ := processLine_ok fs hAgree (hNoInclude line hOnly)
            (fun hNoLone => hPlain hNoLone line hOnly) hRefused
        rw [readsTo_taken rfl hLine hRun]
        exact readsTo_eof rfl hAgree'
  · refine iff_of_false ?_ hShort
    simpa using not_readsTo_long h (Nat.not_lt.mp hShort) []

theorem readsTo_iff (hAgree : AgreeOn noLone s.keys keys) (hNoInclude : NoIncludes content)
    (hPlain : noLone → ∀ l ∈ lines content, cString l ≠ ['=']) :
    ReadsTo fs noLone keysFileName (.of content) s (folded content keys) ↔ Fits keysFileName (lines content) := by
  induction hLength : content.length using Nat.strong_induction_on generalizing content s keys with
  | _ length ih =>
    by_cases hBreak : '\n' ∈ content
    · obtain ⟨line, rest, rfl, h⟩ := List.eq_append_cons_of_mem hBreak
      rw [lines_line h, Fits]
      by_cases hShort : line.length < 255
      · have hLine := getline_line h hShort rest
        cases hRefused : refused keysFileName line with
        | true => exact iff_of_true (readsTo_refused rfl hLine hRefused) ⟨hShort, .inl rfl⟩
        | false =>
          have hFirst : line ∈ lines (line ++ '\n' :: rest) := by
            rw [lines_line h]
            exact List.mem_cons_self
          have hBehind : ∀ l ∈ lines rest, l ∈ lines (line ++ '\n' :: rest) := by
            intro l hl
            rw [lines_line h]
            exact List.mem_cons_of_mem _ hl
          obtain ⟨s', hRun, hAgree'⟩ := processLine_ok fs hAgree (hNoInclude line hFirst)
              (fun hNoLone => hPlain hNoLone line hFirst) hRefused
          rw [readsTo_taken rfl hLine hRun, folded_line h,
            ih rest.length (by rw [← hLength, List.length_append, List.length_cons]; omega) hAgree'
              (fun l hl => hNoInclude l (hBehind l hl)) (fun hNoLone l hl => hPlain hNoLone l (hBehind l hl)) rfl]
          simp [hShort]
      · refine iff_of_false (not_readsTo_long h (Nat.not_lt.mp hShort) _) fun hFits => hShort hFits.1
    · exact readsTo_last hAgree hNoInclude hPlain hBreak

end

/-- Reading a file without includes ends, and unless it throws it ends with what the lines say of each key, exactly
when no line is too long. A lone `=` has no name to set. -/
theorem FileSystem.loadKeys_folds_iff {File : Type} (fs : FileSystem File) (keysFileName content : Word)
    (s : Loaded File)
    (hNoInclude : NoIncludes content) :
    (∃ n r, fs.loadKeys n keysFileName (.of content) s = some r ∧
      ∀ s', r = .ok () s' → ∀ key, (key = [] → ∀ line ∈ lines content, cString line ≠ ['=']) →
        s'.keys.getValues key = (folded content s.keys).getValues key) ↔
      Fits keysFileName (lines content) :=
  readsTo_iff (fun _ _ => rfl) hNoInclude id

/-- A system without files. -/
def noFiles : FileSystem Empty := ⟨fun _ => none, Empty.elim, fun _ => [], [], fun _ => none, fun _ _ => .error []⟩

def twoLines : Word := "# keys\nA = 1\nA += 2".toList

theorem FileSystem.two_values_read :
    NoIncludes twoLines ∧ Fits [] (lines twoLines) ∧ (folded twoLines fun _ => none).getValues ['A'] =
      some [['1'], ['2']] ∧
      ∃ n r, noFiles.loadKeys n [] (.of twoLines) ⟨fun _ => none, [], []⟩ = some r ∧
        ∀ s', r = .ok () s' → ∀ key, (key = [] → ∀ line ∈ lines twoLines, cString line ≠ ['=']) →
          s'.keys.getValues key = (folded twoLines fun _ => none).getValues key := by
  have hNoInclude : NoIncludes twoLines :=
    (by decide : ∀ line ∈ lines twoLines, ∀ p ∈ assignment line, p.key ≠ BES_INCLUDE_KEY)
  have hFits : Fits [] (lines twoLines) := ⟨by decide, .inr ⟨by decide, .inr ⟨by decide, .inr trivial⟩⟩⟩
  exact ⟨hNoInclude, hFits, rfl, (noFiles.loadKeys_folds_iff [] twoLines _ hNoInclude).mpr hFits⟩

/-- One key with a value of 253 characters. -/
def longLine : Word := "A=".toList ++ List.replicate 253 '1' ++ ['\n']

theorem FileSystem.long_line_never_read : ¬ ∃ n, noFiles.loadKeys n []
    (.of longLine) ⟨fun _ => none, [], []⟩ ≠ none := by
  rintro ⟨n, hEnds⟩
  have hLine : '\n' ∉ "A=".toList ++ List.replicate 253 '1' := by
    rw [List.mem_append, not_or]
    refine ⟨by decide, fun hMem => ?_⟩
    cases List.eq_of_mem_replicate hMem
  have hLong : 255 ≤ ("A=".toList ++ List.replicate 253 '1').length := by
    rw [List.length_append, List.length_replicate]
    decide
  exact hEnds (loadKeys_long hLine hLong ['\n'] n)

end Libdap.Bes
